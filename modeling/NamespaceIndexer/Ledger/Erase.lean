import NamespaceIndexer.Ledger.Preserve

/-!
# Owner script types decide nothing

Clearing the script types of the owners before a rule or after it gives the same
ledger with the types cleared.
-/

namespace NamespaceIndexer

open Fold Lib

/-- The deed with the owner's script type cleared. -/
def Deed.untyped (d : Deed) : Deed := { d with ownerType := 0 }

@[simp] theorem Deed.untyped_seller (d : Deed) : d.untyped.seller = d.seller := rfl
@[simp] theorem Deed.untyped_sellerType (d : Deed) : d.untyped.sellerType = d.sellerType := rfl
@[simp] theorem Deed.untyped_price (d : Deed) : d.untyped.price = d.price := rfl

theorem Deed.filter_untyped {p : Deed → Bool} (hp : ∀ d, p d.untyped = p d) (o : Option Deed) :
    (o.map Deed.untyped).filter p = (o.filter p).map Deed.untyped := by
  cases o with
  | none => rfl
  | some d =>
    rw [Option.map_some, Option.filter_some, Option.filter_some, hp]
    split <;> rfl

theorem Deed.untyped_closeReserve (mtp : ℤ) (d : Deed) :
    (d.untyped.closeReserve mtp).untyped = (d.closeReserve mtp).untyped := by
  unfold closeReserve
  change (if d.st = .RESERVED ∧ mtp ≥ d.reserveExpiry then
    if d.reserveExpiry < d.offerExpiry then _ else _ else _ : Deed).untyped = _
  split
  · split <;> rfl
  · rfl

theorem Deed.untyped_closeOffer (mtp : ℤ) (d : Deed) :
    (d.untyped.closeOffer mtp).untyped = (d.closeOffer mtp).untyped := by
  unfold closeOffer
  change (if (d.st = .LISTED ∨ d.st = .OFFERED) ∧ mtp ≥ d.offerExpiry then _ else _
    : Deed).untyped = _
  split <;> rfl

theorem Deed.untyped_close (mtp : ℤ) (d : Deed) :
    (d.untyped.close mtp).untyped = (d.close mtp).untyped := by
  unfold close
  rw [← untyped_closeOffer, untyped_closeReserve, untyped_closeOffer]

/-- Clearing the type does not change when a deed lapses. -/
theorem Deed.untyped_due (mtp : ℤ) (d : Deed) :
    (Deed.due mtp d.untyped).map Deed.untyped = (Deed.due mtp d).map Deed.untyped := by
  unfold due
  change (if mtp ≥ d.leaseExpiry then _ else _ : Option Deed).map Deed.untyped = _
  split
  · rfl
  · exact congrArg some (d.untyped_close mtp)

namespace Ledger

def untyped (L : Ledger) : Ledger := L.withNames fun n => (L.names n).map Deed.untyped

/-- Two ledgers are the same but for the owners' script types. -/
def SameButTypes (L M : Ledger) : Prop := L.untyped = M.untyped

@[simp] theorem untyped_names (L : Ledger) (n : Name) :
    L.untyped.names n = (L.names n).map Deed.untyped := rfl

@[simp] theorem untyped_untyped (L : Ledger) : L.untyped.untyped = L.untyped := by
  refine congrArg L.withNames (funext fun n => ?_)
  change ((L.names n).map Deed.untyped).map Deed.untyped = _
  rw [Option.map_map]
  rfl

theorem untyped_withNames {L : Ledger} {f g : Name → Option Deed}
    (h : ∀ n, (f n).map Deed.untyped = (g n).map Deed.untyped) :
    (L.untyped.withNames f).untyped = (L.withNames g).untyped :=
  congrArg L.withNames (funext h)

theorem untyped_put {L : Ledger} {n : Name} {d e : Deed} (h : d.untyped = e.untyped) :
    (L.untyped.put n d).untyped = (L.put n e).untyped := by
  refine untyped_withNames fun m => ?_
  rw [Function.update_apply, Function.update_apply]
  split
  · exact congrArg some h
  · rw [untyped_names, Option.map_map]
    rfl

theorem untyped_put_congr {L M : Ledger} (h : L.untyped = M.untyped) {n : Name} {d e : Deed}
    (hd : d.untyped = e.untyped) : (L.put n d).untyped = (M.put n e).untyped := by
  rw [← untyped_put (L := L) rfl, h, untyped_put hd]

theorem untyped_ite {p q : Prop} [Decidable p] [Decidable q] (hpq : p ↔ q) {L L' M M' : Ledger}
    (h : L.untyped = L'.untyped) (h' : M.untyped = M'.untyped) :
    (if p then L else M).untyped = (if q then L' else M').untyped :=
  related_ite (R := fun x y : Ledger => x.untyped = y.untyped) hpq h h'

theorem untyped_bump {L M : Ledger} (h : L.untyped = M.untyped) (who : H160) (k : ℤ) :
    (L.bump who k).untyped = (M.bump who k).untyped := by
  have hbump : ∀ N : Ledger, (N.bump who k).untyped = N.untyped.bump who k := fun _ => rfl
  rw [hbump, hbump, h]

theorem untyped_setWin {L M : Ledger} (h : L.untyped = M.untyped) (n : Name) (w : Win) :
    (L.setWin n w).untyped = (M.setWin n w).untyped := by
  have hwin : ∀ N : Ledger, (N.setWin n w).untyped = N.untyped.setWin n w := fun _ => rfl
  rw [hwin, hwin, h]

theorem untyped_owned (L : Ledger) (who : H160) : L.untyped.owned who = L.owned who := by
  ext n
  rw [mem_owned, mem_owned]
  unfold holderOf
  rw [untyped_names, Option.map_map]
  rfl

theorem untyped_ownedList (L : Ledger) (who : H160) : L.untyped.ownedList who = L.ownedList who := by
  unfold ownedList
  rw [untyped_owned]

theorem untyped_headroomOf (L : Ledger) (now : ℤ) (n : Name) :
    L.untyped.headroomOf now n = L.headroomOf now n := by
  unfold headroomOf
  rw [untyped_names]
  cases L.names n <;> rfl

theorem untyped_extend (L : Ledger) (now : ℤ) (rate burn : UInt64) (ns : List Name) :
    (L.untyped.extend now rate burn ns).untyped = (L.extend now rate burn ns).untyped := by
  have hh : ns.map (L.untyped.headroomOf now) = ns.map (L.headroomOf now) :=
    List.map_congr_left fun n _ => L.untyped_headroomOf now n
  unfold extend
  simp only [hh]
  exact untyped_withNames fun n => PartialMap.modifyAll_map (u := Deed.untyped)
    (g := fun k d => d.award k) (fun _ _ => rfl) (fun _ => rfl) _ _ n

/-! ### The actions -/

section Actions

variable (L : Ledger) (cx : SmTxCtx) (a : SmAction)

theorem untyped_renew : (L.untyped.renew cx a).untyped = (L.renew cx a).untyped := by
  have hanchor : L.untyped.anchorOk cx.actor a.anchor cx.height
    = L.anchorOk cx.actor a.anchor cx.height := rfl
  unfold renew
  simp only [untyped_ownedList, hanchor]
  split
  · exact untyped_extend ..
  · split
    · split
      · exact untyped_extend ..
      · exact untyped_extend ..
    · exact untyped_untyped L

theorem untyped_someUnlocked (sel : List Name) : L.untyped.SomeUnlocked sel ↔ L.SomeUnlocked sel := by
  unfold SomeUnlocked
  refine exists_congr fun n => and_congr_right fun _ => ?_
  rw [untyped_names]
  cases L.names n <;> simp [Deed.untyped]

theorem untyped_giveAll (addr : H160) (sel : List Name) :
    (L.untyped.giveAll addr sel).untyped = (L.giveAll addr sel).untyped := by
  refine untyped_withNames fun n => ?_
  cases h : L.names n with
  | none => simp [h]
  | some d =>
    simp only [untyped_names, h, Option.map_some]
    split
    · unfold Deed.give Deed.untyped
      by_cases hst : d.st = .OWNED
      · simp [hst]
      · simp [hst]
    · rfl

theorem untyped_transfer : (L.untyped.transfer cx a).untyped = (L.transfer cx a).untyped := by
  have hanchor : L.untyped.anchorOk cx.actor a.anchor cx.height
    = L.anchorOk cx.actor a.anchor cx.height := rfl
  unfold transfer
  simp only
  rw [untyped_ownedList, hanchor]
  split
  · exact untyped_untyped L
  · generalize (if (!a.hasAnchor) = true then L.ownedList cx.actor
      else selectBitmap a.flags (L.ownedList cx.actor)) = sel
    by_cases hs : L.SomeUnlocked sel
    · simp only [if_pos hs, if_pos ((L.untyped_someUnlocked sel).mpr hs)]
      exact untyped_bump (untyped_bump (L.untyped_giveAll ..) _ _) _ _
    · simp only [if_neg hs, if_neg fun h => hs ((L.untyped_someUnlocked sel).mp h)]
      exact untyped_untyped L

theorem untyped_drop (sel : List Name) : (L.untyped.drop sel).untyped = (L.drop sel).untyped := by
  refine untyped_withNames fun n => ?_
  rw [untyped_names]
  split
  · rw [Deed.filter_untyped (fun _ => rfl), Option.map_map]
    rfl
  · rw [Option.map_map]
    rfl

theorem untyped_release : (L.untyped.release cx a).untyped = (L.release cx a).untyped := by
  have hanchor : L.untyped.anchorOk cx.actor a.anchor cx.height
    = L.anchorOk cx.actor a.anchor cx.height := rfl
  unfold release
  simp only
  rw [untyped_ownedList, hanchor]
  split
  · exact untyped_untyped L
  · split
    · exact untyped_untyped L
    · generalize selectBitmap a.flags (L.ownedList cx.actor) = sel
      by_cases hs : L.SomeUnlocked sel
      · simp only [if_pos hs, if_pos ((L.untyped_someUnlocked sel).mpr hs)]
        exact untyped_bump (L.untyped_drop _) _ _
      · simp only [if_neg hs, if_neg fun h => hs ((L.untyped_someUnlocked sel).mp h)]
        exact untyped_untyped L

theorem untyped_mine (who : H160) :
    L.untyped.mine who a = (L.mine who a).map Deed.untyped := by
  unfold mine
  split
  · rfl
  · rw [untyped_names]
    exact Deed.filter_untyped (fun _ => rfl) _

theorem untyped_renewName : (L.untyped.renewName cx a).untyped = (L.renewName cx a).untyped := by
  unfold renewName
  rw [untyped_mine]
  cases L.mine cx.actor a with
  | none => exact untyped_untyped L
  | some d => exact untyped_extend ..

theorem untyped_transferName :
    (L.untyped.transferName cx a).untyped = (L.transferName cx a).untyped := by
  unfold transferName
  rw [untyped_mine]
  cases L.mine cx.actor a with
  | none => exact untyped_untyped L
  | some d =>
    exact untyped_ite Iff.rfl (untyped_untyped L)
      (untyped_bump (untyped_bump (untyped_put rfl) _ _) _ _)

theorem untyped_erase (n : Name) : (L.untyped.erase n).untyped = (L.erase n).untyped := by
  refine untyped_withNames fun m => ?_
  rw [Function.update_apply, Function.update_apply]
  split
  · rfl
  · rw [untyped_names, Option.map_map]
    rfl

theorem untyped_releaseName :
    (L.untyped.releaseName cx a).untyped = (L.releaseName cx a).untyped := by
  unfold releaseName
  rw [untyped_mine]
  cases L.mine cx.actor a with
  | none => exact untyped_untyped L
  | some d =>
    exact untyped_ite Iff.rfl (untyped_untyped L) (untyped_bump (L.untyped_erase _) _ _)

theorem untyped_deedOf (n : Name) : L.untyped.deedOf n = (L.deedOf n).map Deed.untyped := by
  unfold deedOf
  split <;> rfl

theorem untyped_sell : (L.untyped.sell cx a).untyped = (L.sell cx a).untyped := by
  unfold sell
  rw [untyped_deedOf]
  cases L.deedOf a.name with
  | none => exact untyped_untyped L
  | some d =>
    exact untyped_ite Iff.rfl (untyped_untyped L) (untyped_put rfl)

theorem untyped_sellTo : (L.untyped.sellTo cx a).untyped = (L.sellTo cx a).untyped := by
  unfold sellTo
  rw [untyped_deedOf]
  cases L.deedOf a.name with
  | none => exact untyped_untyped L
  | some d => exact untyped_ite Iff.rfl (untyped_untyped L) (untyped_put rfl)

/-- The same step, up to owner types: the ledgers and the contexts after it. -/
def SameStep (p q : Ledger × SmTxCtx) : Prop := p.1.untyped = q.1.untyped ∧ p.2 = q.2

theorem SameStep.ite {p q : Prop} [Decidable p] [Decidable q] (hpq : p ↔ q)
    {x x' y y' : Ledger × SmTxCtx} (h : SameStep x x') (h' : SameStep y y') :
    SameStep (if p then x else y) (if q then x' else y') := related_ite hpq h h'

theorem untyped_reserve (tx : SmTx) :
    SameStep (L.untyped.reserve tx cx a) (L.reserve tx cx a) := by
  unfold reserve
  rw [untyped_deedOf]
  cases L.deedOf a.name with
  | none => exact ⟨untyped_untyped L, rfl⟩
  | some d =>
    simp only [Option.map_some, Deed.untyped_price, Deed.untyped_seller, Deed.untyped_sellerType]
    refine SameStep.ite Iff.rfl ⟨untyped_untyped L, rfl⟩ ?_
    cases smConsumeOutput tx cx d.seller d.sellerType (depositLeg d.price reservePayBps) with
    | none => exact ⟨untyped_untyped L, rfl⟩
    | some cx' => exact ⟨untyped_put rfl, rfl⟩

theorem untyped_convey {n : Name} {d e : Deed} (h : d.untyped = e.untyped) :
    (L.untyped.convey cx n d).untyped = (L.convey cx n e).untyped := by
  have hseller := congrArg Deed.seller h
  have hlease := congrArg Deed.leaseExpiry h
  change d.seller = e.seller at hseller
  change d.leaseExpiry = e.leaseExpiry at hlease
  unfold convey
  rw [hseller]
  refine untyped_bump (untyped_bump (untyped_put ?_) _ _) _ _
  unfold Deed.conveyTo
  rw [hlease]

theorem untyped_buy (tx : SmTx) (st : SmNameState) {expiry : Deed → ℤ} {owed : Deed → UInt64}
    (he : ∀ d : Deed, expiry d.untyped = expiry d) (ho : ∀ d : Deed, owed d.untyped = owed d) :
    SameStep (buy tx st expiry owed L.untyped cx a) (buy tx st expiry owed L cx a) := by
  unfold buy
  rw [untyped_deedOf]
  cases L.deedOf a.name with
  | none => exact ⟨untyped_untyped L, rfl⟩
  | some d =>
    simp only [Option.map_some, Deed.untyped_seller, Deed.untyped_sellerType, he, ho]
    refine SameStep.ite Iff.rfl ⟨untyped_untyped L, rfl⟩ ?_
    cases smConsumeOutput tx cx d.seller d.sellerType (owed d) with
    | none => exact ⟨untyped_untyped L, rfl⟩
    | some cx' => exact ⟨L.untyped_convey cx' rfl, rfl⟩

theorem untyped_mint {n : Name} (p : ℤ × UInt32) {d e : Deed} (h : d.untyped = e.untyped) :
    (L.untyped.mint cx n p d).untyped = (L.mint cx n p e).untyped := by
  have hput : ({ d with owner := cx.actor, ownerType := cx.actorType, leaseExpiry := cx.mtp } : Deed).untyped
      = ({ e with owner := cx.actor, ownerType := cx.actorType, leaseExpiry := cx.mtp } : Deed).untyped := by
    unfold Deed.untyped at h ⊢
    injection h with _ _ _ hst hs hsty hp ho hb hbl hpl hre
    simp only [hst, hs, hsty, hp, ho, hb, hbl, hpl, hre]
  unfold mint
  refine untyped_setWin (untyped_bump ?_ _ _) _ _
  rw [← untyped_extend, untyped_put hput, untyped_extend]

theorem untyped_claim (sha256 : Bytes → Hash256) :
    (L.untyped.claim sha256 cx a).untyped = (L.claim sha256 cx a).untyped := by
  have hbest : ∀ want, L.untyped.best want cx.height = L.best want cx.height := fun _ => rfl
  have hscratch : L.untyped.scratch = L.scratch := rfl
  unfold claim
  refine untyped_ite Iff.rfl (untyped_untyped L) ?_
  rw [hbest]
  cases L.best (claimCommitment sha256 a.salt a.name cx.actor) cx.height with
  | none => exact untyped_untyped L
  | some p =>
    refine untyped_ite Iff.rfl (untyped_untyped L) ?_
    rw [untyped_names, hscratch]
    cases L.names a.name with
    | none => exact L.untyped_mint cx p rfl
    | some d =>
      cases L.scratch a.name with
      | none => exact untyped_untyped L
      | some w => exact untyped_ite Iff.rfl (untyped_untyped L) (L.untyped_mint cx p rfl)

theorem untyped_trade (tx : SmTx) : (L.untyped.trade tx cx a).untyped = (L.trade tx cx a).untyped := by
  unfold trade
  cases tx.inputs[a.idxA.val]? with
  | none => exact untyped_untyped L
  | some inA =>
    cases tx.inputs[a.idxB.val]? with
    | none => exact untyped_untyped L
    | some inB =>
      refine untyped_ite Iff.rfl (untyped_untyped L) ?_
      rw [untyped_deedOf, untyped_deedOf]
      cases L.deedOf a.name with
      | none => exact untyped_untyped L
      | some dA =>
        cases L.deedOf a.nameB with
        | none => exact untyped_untyped L
        | some dB =>
          refine untyped_ite Iff.rfl (untyped_untyped L) (untyped_bump (untyped_bump ?_ _ _) _ _)
          exact untyped_put_congr (untyped_put rfl) rfl

end Actions

/-! ### Transactions and blocks -/

section Blocks

variable (sha256 : Bytes → Hash256)

theorem untyped_dispatch (tx : SmTx) (L : Ledger) (cx : SmTxCtx) (a : SmAction) (op : SmOp) :
    SameStep (L.untyped.dispatch sha256 tx cx a op) (L.dispatch sha256 tx cx a op) := by
  cases op with
  | COMMIT => exact ⟨congrArg (fun M : Ledger => M) (untyped_untyped (L.commit tx a)), rfl⟩
  | CLAIM => exact ⟨L.untyped_claim cx a sha256, rfl⟩
  | RENEW => exact ⟨L.untyped_renew cx a, rfl⟩
  | TRANSFER => exact ⟨L.untyped_transfer cx a, rfl⟩
  | RENEW_NAME => exact ⟨L.untyped_renewName cx a, rfl⟩
  | TRANSFER_NAME => exact ⟨L.untyped_transferName cx a, rfl⟩
  | RELEASE_NAME => exact ⟨L.untyped_releaseName cx a, rfl⟩
  | SELL => exact ⟨L.untyped_sell cx a, rfl⟩
  | RESERVE => exact L.untyped_reserve cx a tx
  | SETTLE => exact L.untyped_buy cx a tx .RESERVED (fun _ => rfl) fun _ => rfl
  | RELEASE => exact ⟨L.untyped_release cx a, rfl⟩
  | SELL_TO => exact ⟨L.untyped_sellTo cx a, rfl⟩
  | PAY => exact L.untyped_buy cx a tx .OFFERED (fun _ => rfl) fun _ => rfl
  | AS => exact ⟨untyped_untyped L, rfl⟩
  | TRADE => exact ⟨untyped_untyped L, rfl⟩

theorem untyped_applyCarrier (tx : SmTx) (L : Ledger) (cx : SmTxCtx) (car : SmCarrier) :
    SameStep (applyCarrier sha256 tx (L.untyped, cx) car) (applyCarrier sha256 tx (L, cx) car) := by
  have hheight : L.untyped.height = L.height := rfl
  have hact : L.untyped.activationHeight = L.activationHeight := rfl
  unfold applyCarrier
  simp only [hheight, hact]
  refine SameStep.ite Iff.rfl ⟨untyped_untyped L, rfl⟩ ?_
  refine SameStep.ite Iff.rfl ⟨untyped_untyped L, rfl⟩ ?_
  cases SmOp.ofByte? car.act.op with
  | none => exact ⟨untyped_untyped L, rfl⟩
  | some op =>
    cases op with
    | AS => cases signer tx car.act.asIndex.val <;> exact ⟨untyped_untyped L, rfl⟩
    | TRADE => exact ⟨L.untyped_trade _ _ tx, rfl⟩
    | _ => exact SameStep.ite Iff.rfl ⟨untyped_untyped L, rfl⟩ (untyped_dispatch sha256 tx L _ _ _)

theorem SameStep.foldl (tx : SmTx) {x y : Ledger × SmTxCtx} (h : SameStep x y)
    (cars : List SmCarrier) :
    SameStep (cars.foldl (applyCarrier sha256 tx) x) (cars.foldl (applyCarrier sha256 tx) y) := by
  induction cars generalizing x y with
  | nil => exact h
  | cons car cars ih =>
    obtain ⟨L, cx⟩ := x
    obtain ⟨M, cx'⟩ := y
    obtain ⟨hLM, hcx⟩ := h
    change L.untyped = M.untyped at hLM
    change cx = cx' at hcx
    subst hcx
    obtain ⟨h1, h2⟩ := untyped_applyCarrier sha256 tx L cx car
    obtain ⟨h3, h4⟩ := untyped_applyCarrier sha256 tx M cx car
    rw [hLM] at h1 h2
    exact ih ⟨h1.symm.trans h3, h2.symm.trans h4⟩

theorem SameButTypes.applyTx {L M : Ledger} (h : SameButTypes L M) (tx : SmTx) :
    SameButTypes (L.applyTx sha256 tx) (M.applyTx sha256 tx) := by
  have hctx : L.initCtx tx = M.initCtx tx := by
    have hL : L.untyped.initCtx tx = L.initCtx tx := rfl
    have hM : M.untyped.initCtx tx = M.initCtx tx := rfl
    rw [← hL, ← hM, h]
  exact (SameStep.foldl sha256 tx (x := (L, L.initCtx tx)) (y := (M, M.initCtx tx)) ⟨h, hctx⟩
    tx.carriers).1

theorem untyped_beginBlock (L : Ledger) (height mtp : ℤ) (rate : UInt64) :
    (L.untyped.beginBlock height mtp rate).untyped = (L.beginBlock height mtp rate).untyped := by
  have hlap : ∀ who, L.untyped.Lapses Set.univ mtp who ↔ L.Lapses Set.univ mtp who := by
    intro who
    refine exists_congr fun n => and_congr_right fun _ => ?_
    rw [untyped_names]
    cases L.names n with
    | none => simp
    | some d =>
      have howner : (d.untyped.close mtp).owner = (d.close mtp).owner :=
        (congrArg Deed.owner (d.untyped_close mtp) :)
      have hlease : d.untyped.leaseExpiry = d.leaseExpiry := rfl
      simp [howner, hlease]
  refine Ledger.ext rfl rfl rfl rfl (funext fun n => ?_) rfl (funext fun who => ?_) rfl
  · change ((L.untyped.beginBlock height mtp rate).names n).map Deed.untyped
      = ((L.beginBlock height mtp rate).names n).map Deed.untyped
    rw [beginBlock_names, beginBlock_names, untyped_names]
    cases L.names n with
    | none => rfl
    | some d => exact d.untyped_due mtp
  · change (L.untyped.settleDue Set.univ height mtp).muts who = (L.settleDue Set.univ height mtp).muts who
    by_cases h : L.Lapses Set.univ mtp who
    · rw [settleDue_lapse h, settleDue_lapse ((hlap who).mpr h)]
      rfl
    · rw [settleDue_noLapse h, settleDue_noLapse fun hx => h ((hlap who).mp hx)]
      rfl

theorem SameButTypes.foldl_applyTx {L M : Ledger} (h : SameButTypes L M) (txs : List SmTx) :
    SameButTypes (txs.foldl (Ledger.applyTx sha256) L) (txs.foldl (Ledger.applyTx sha256) M) := by
  induction txs generalizing L M with
  | nil => exact h
  | cons tx txs ih => exact ih (h.applyTx sha256 tx)

end Blocks

end Ledger

end NamespaceIndexer
