import NamespaceIndexer.Ledger.Ops

/-!
# What one carrier can do to the ledger

`Act` lists every change a carrier can make, with the guards that held. The
by-name actions are the bitmap actions on one name. Every invariant of the
ledger is a case analysis over this list.
-/

namespace NamespaceIndexer.Ledger

open Fold Lib

/-- The changes of a carrier that acts: the opcode, the new ledger, the consumed outputs. -/
inductive Act (sha256 : Bytes → Hash256) (tx : SmTx) (cx : SmTxCtx) (a : SmAction) (L : Ledger) :
    SmOp → Ledger → List Bool → Prop where
  | commit : Act sha256 tx cx a L .COMMIT (L.commit tx a) cx.outConsumed
  | mint {p : ℤ × UInt32} (valid : smNameValid a.name = true)
      (best : L.IsBest (claimCommitment sha256 a.salt a.name cx.actor) cx.height p)
      (covers : smLeaseCoversDay cx.carValue cx.rate = true) (absent : L.names a.name = none) :
      Act sha256 tx cx a L .CLAIM (L.mint cx a.name p (Deed.plain cx.actor cx.actorType cx.mtp)) cx.outConsumed
  | displace {p : ℤ × UInt32} {d : Deed} {w : Win} (valid : smNameValid a.name = true)
      (best : L.IsBest (claimCommitment sha256 a.salt a.name cx.actor) cx.height p)
      (covers : smLeaseCoversDay cx.carValue cx.rate = true) (present : L.names a.name = some d)
      (fresh : L.scratch a.name = some w) (owned : d.st = .OWNED) (holds : d.owner = w.owner)
      (earlier : p.1 < w.commitHeight ∨ (p.1 = w.commitHeight ∧ p.2 < w.commitTxIndex)) :
      Act sha256 tx cx a L .CLAIM (L.mint cx a.name p d) cx.outConsumed
  | extend {op : SmOp} {ns : List Name} (isRenew : op = .RENEW ∨ op = .RENEW_NAME)
      (nodup : ns.Nodup) (mine : ∀ n ∈ ns, n ∈ L.owned cx.actor) :
      Act sha256 tx cx a L op (L.extend cx.mtp cx.rate cx.carValue ns) cx.outConsumed
  | gift {op : SmOp} {sel : List Name} (isTransfer : op = .TRANSFER ∨ op = .TRANSFER_NAME)
      (mine : ∀ n ∈ sel, n ∈ L.owned cx.actor) (moved : L.SomeUnlocked sel) :
      Act sha256 tx cx a L op
        (((L.giveAll a.addr sel).bump cx.actor cx.height).bump a.addr cx.height) cx.outConsumed
  | release {op : SmOp} {sel : List Name} (isRelease : op = .RELEASE ∨ op = .RELEASE_NAME)
      (mine : ∀ n ∈ sel, n ∈ L.owned cx.actor) (moved : L.SomeUnlocked sel) :
      Act sha256 tx cx a L op ((L.drop sel).bump cx.actor cx.height) cx.outConsumed
  | sell {d : Deed} {w : ℤ} (present : L.names a.name = some d) (owned : d.st = .OWNED)
      (holds : d.owner = cx.actor) (price : sellPriceFloor ≤ a.price) (window : reserveWindow ≤ w)
      (lease : cx.mtp + w + reorgBuffer ≤ d.leaseExpiry) :
      Act sha256 tx cx a L .SELL (L.put a.name { d with
        st := .LISTED, seller := cx.actor, sellerType := cx.actorType, price := a.price,
        offerExpiry := cx.mtp + w, buyer := zeros 20, burnLeg := 0, payLeg := 0,
        reserveExpiry := 0 }) cx.outConsumed
  | sellTo {d : Deed} (present : L.names a.name = some d) (owned : d.st = .OWNED)
      (holds : d.owner = cx.actor) (lease : cx.mtp + directWindow + reorgBuffer ≤ d.leaseExpiry) :
      Act sha256 tx cx a L .SELL_TO (L.put a.name { d with
        st := .OFFERED, seller := cx.actor, sellerType := cx.actorType, buyer := a.addr,
        price := a.price, offerExpiry := cx.mtp + directWindow, burnLeg := 0, payLeg := 0,
        reserveExpiry := 0 }) cx.outConsumed
  | reserve {d : Deed} {i : ℕ} (present : L.names a.name = some d) (listed : d.st = .LISTED)
      (paid : findOutput tx cx.outConsumed d.seller d.sellerType
        (depositLeg d.price reservePayBps) = some i) :
      Act sha256 tx cx a L .RESERVE (L.put a.name { d with
        st := .RESERVED, buyer := cx.actor, burnLeg := depositLeg d.price reserveBurnBps,
        payLeg := depositLeg d.price reservePayBps,
        reserveExpiry := min (cx.mtp + reserveWindow) d.offerExpiry }) (cx.outConsumed.set i true)
  | settle {d : Deed} {i : ℕ} (present : L.names a.name = some d) (reserved : d.st = .RESERVED)
      (buyer : d.buyer = cx.actor) (inTime : cx.mtp < d.reserveExpiry)
      (paid : findOutput tx cx.outConsumed d.seller d.sellerType (remainder d) = some i) :
      Act sha256 tx cx a L .SETTLE (L.convey cx a.name d) (cx.outConsumed.set i true)
  | pay {d : Deed} {i : ℕ} (present : L.names a.name = some d) (offered : d.st = .OFFERED)
      (buyer : d.buyer = cx.actor) (inTime : cx.mtp < d.offerExpiry)
      (paid : findOutput tx cx.outConsumed d.seller d.sellerType d.price = some i) :
      Act sha256 tx cx a L .PAY (L.convey cx a.name d) (cx.outConsumed.set i true)
  | trade {inA inB : SmInput} {dA dB : Deed} (fromA : tx.inputs[a.idxA.val]? = some inA)
      (fromB : tx.inputs[a.idxB.val]? = some inB) (signedA : inA.sighashAll = true)
      (signedB : inB.sighashAll = true) (distinct : a.name ≠ a.nameB)
      (presentA : L.names a.name = some dA) (presentB : L.names a.nameB = some dB)
      (ownedA : dA.st = .OWNED) (holdsA : dA.owner = inA.h160) (ownedB : dB.st = .OWNED)
      (holdsB : dB.owner = inB.h160) :
      Act sha256 tx cx a L .TRADE
        ((((L.put a.name { dA with owner := inB.h160, ownerType := inB.type }).put a.nameB
          { dB with owner := inA.h160, ownerType := inA.type }).bump inA.h160 cx.height).bump inB.h160 cx.height)
        cx.outConsumed

/-! ### By-name actions as bitmap actions -/

theorem giveAll_singleton {L : Ledger} {n : Name} {d : Deed} (hd : L.names n = some d)
    (hst : d.st = .OWNED) (addr : H160) :
    L.giveAll addr [n] = L.put n { d with owner := addr, ownerType := 0 } := by
  refine congrArg L.withNames (funext fun m => ?_)
  rw [Function.update_apply]
  by_cases hm : m = n
  · subst hm
    rw [if_pos (List.mem_singleton.mpr rfl), if_pos rfl, hd, Option.map_some, Deed.give, if_pos hst]
  · rw [if_neg (by simpa using hm), if_neg hm]

theorem drop_singleton {L : Ledger} {n : Name} {d : Deed} (hd : L.names n = some d)
    (hst : d.st = .OWNED) : L.drop [n] = L.erase n := by
  refine congrArg L.withNames (funext fun m => ?_)
  rw [Function.update_apply]
  by_cases hm : m = n
  · subst hm
    rw [if_pos (List.mem_singleton.mpr rfl), if_pos rfl, hd]
    simp [hst]
  · rw [if_neg (by simpa using hm), if_neg hm]

/-- Locked names stay with their owner. -/
theorem giveAll_locked {L : Ledger} {sel : List Name} (h : ¬ L.SomeUnlocked sel) (addr : H160) :
    L.giveAll addr sel = L := by
  refine congrArg L.withNames (funext fun n => ?_)
  split
  · rename_i hn
    cases hd : L.names n with
    | none => rfl
    | some d =>
      have hst : d.st ≠ .OWNED := fun hst => h ⟨n, hn, d, hd, hst⟩
      rw [Option.map_some, Deed.give, if_neg hst]
  · rfl

theorem drop_locked {L : Ledger} {sel : List Name} (h : ¬ L.SomeUnlocked sel) : L.drop sel = L := by
  refine congrArg L.withNames (funext fun n => ?_)
  split
  · rename_i hn
    cases hd : L.names n with
    | none => rfl
    | some d =>
      have hst : d.st ≠ .OWNED := fun hst => h ⟨n, hn, d, hd, hst⟩
      exact Option.filter_some_pos (by simpa using hst)
  · rfl

theorem mem_ownedList {L : Ledger} {who : H160} {n : Name} (h : n ∈ L.ownedList who) :
    n ∈ L.owned who := PartialMap.mem_of_mem_listing h

theorem mine_eq_some {L : Ledger} {who : H160} {a : SmAction} {d : Deed}
    (h : L.mine who a = some d) : L.names a.name = some d ∧ d.holder = who := by
  unfold mine at h
  split at h
  · cases h
  · rw [Option.filter_eq_some_iff] at h
    exact ⟨h.1, by simpa using h.2⟩

theorem deedOf_eq_some {L : Ledger} {n : Name} {d : Deed} (h : L.deedOf n = some d) :
    L.names n = some d := by
  unfold deedOf at h
  split at h
  · exact h
  · cases h

theorem smConsumeOutput_eq_some {tx : SmTx} {cx cx' : SmTxCtx} {dest : H160} {type : Byte}
    {amount : UInt64} (h : smConsumeOutput tx cx dest type amount = some cx') :
    ∃ i, findOutput tx cx.outConsumed dest type amount = some i ∧
      cx' = { cx with outConsumed := cx.outConsumed.set i true } := by
  unfold smConsumeOutput at h
  split at h
  · cases h
  · rename_i i hi
    exact ⟨i, hi, (Option.some.inj h).symm⟩

/-! ### Every handler is idle or acts -/

section Handlers

variable (sha256 : Bytes → Hash256) (tx : SmTx) (cx : SmTxCtx) (a : SmAction) (L : Ledger)

/-- The ledger is left alone, or changed in one of the ways of `op`. -/
def IdleOrAct (op : SmOp) (L' : Ledger) (out : List Bool) : Prop :=
  (L' = L ∧ out = cx.outConsumed) ∨ Act sha256 tx cx a L op L' out

theorem selectBitmap_sublist {α : Type} (flags : Bytes) (l : List α) :
    (selectBitmap flags l).Sublist l := by
  have h : ((l.zipIdx.filter fun p => bitSet flags p.2).map Prod.fst).Sublist (l.zipIdx.map Prod.fst) :=
    List.filter_sublist.map _
  rwa [List.zipIdx_map_fst] at h

theorem selectBitmap_mem {α : Type} {flags : Bytes} {l : List α} {x : α}
    (h : x ∈ selectBitmap flags l) : x ∈ l := (selectBitmap_sublist flags l).subset h

theorem selectBitmap_nodup {α : Type} {flags : Bytes} {l : List α} (h : l.Nodup) :
    (selectBitmap flags l).Nodup := h.sublist (selectBitmap_sublist flags l)

theorem renew_cases : IdleOrAct sha256 tx cx a L .RENEW (L.renew cx a) cx.outConsumed := by
  have hall : Act sha256 tx cx a L .RENEW
      (L.extend cx.mtp cx.rate cx.carValue (L.ownedList cx.actor)) cx.outConsumed :=
    Act.extend (Or.inl rfl) (PartialMap.listing_nodup _) fun n hn => mem_ownedList hn
  have hsel : Act sha256 tx cx a L .RENEW
      (L.extend cx.mtp cx.rate cx.carValue (selectBitmap a.flags (L.ownedList cx.actor)))
      cx.outConsumed :=
    Act.extend (Or.inl rfl) (selectBitmap_nodup (PartialMap.listing_nodup _))
      fun n hn => mem_ownedList (selectBitmap_mem hn)
  unfold renew
  simp only
  split
  · exact Or.inr hall
  · split
    · split
      · exact Or.inr hall
      · exact Or.inr hsel
    · exact Or.inl ⟨rfl, rfl⟩

theorem transfer_cases :
    IdleOrAct sha256 tx cx a L .TRANSFER (L.transfer cx a) cx.outConsumed := by
  unfold transfer
  simp only
  split
  · exact Or.inl ⟨rfl, rfl⟩
  · generalize hs : (if (!a.hasAnchor) = true then L.ownedList cx.actor
      else selectBitmap a.flags (L.ownedList cx.actor)) = sel
    have hmine : ∀ n ∈ sel, n ∈ L.owned cx.actor := by
      intro n hn
      rw [← hs] at hn
      split at hn
      · exact mem_ownedList hn
      · exact mem_ownedList (selectBitmap_mem hn)
    split
    · rename_i hm
      exact Or.inr (Act.gift (Or.inl rfl) hmine hm)
    · exact Or.inl ⟨rfl, rfl⟩

theorem release_cases : IdleOrAct sha256 tx cx a L .RELEASE (L.release cx a) cx.outConsumed := by
  unfold release
  simp only
  split
  · exact Or.inl ⟨rfl, rfl⟩
  · split
    · exact Or.inl ⟨rfl, rfl⟩
    · split
      · rename_i hm
        exact Or.inr (Act.release (Or.inl rfl) (fun n hn => mem_ownedList (selectBitmap_mem hn)) hm)
      · exact Or.inl ⟨rfl, rfl⟩

theorem renewName_cases :
    IdleOrAct sha256 tx cx a L .RENEW_NAME (L.renewName cx a) cx.outConsumed := by
  unfold renewName
  cases h : L.mine cx.actor a with
  | none => exact Or.inl ⟨rfl, rfl⟩
  | some d =>
    obtain ⟨hd, hh⟩ := mine_eq_some h
    refine Or.inr (Act.extend (Or.inr rfl) (List.nodup_singleton _) fun n hn => ?_)
    rw [List.mem_singleton.mp hn]
    exact ⟨d, hd, hh⟩

theorem transferName_cases :
    IdleOrAct sha256 tx cx a L .TRANSFER_NAME (L.transferName cx a) cx.outConsumed := by
  unfold transferName
  cases h : L.mine cx.actor a with
  | none => exact Or.inl ⟨rfl, rfl⟩
  | some d =>
    obtain ⟨hd, hh⟩ := mine_eq_some h
    by_cases hst : d.st ≠ .OWNED
    · simp only [if_pos hst]
      exact Or.inl ⟨rfl, rfl⟩
    · simp only [if_neg hst]
      rw [not_not] at hst
      rw [← giveAll_singleton hd hst]
      refine Or.inr (Act.gift (Or.inr rfl) (fun n hn => ?_)
        ⟨a.name, List.mem_singleton.mpr rfl, d, hd, hst⟩)
      rw [List.mem_singleton.mp hn]
      exact ⟨d, hd, hh⟩

theorem releaseName_cases :
    IdleOrAct sha256 tx cx a L .RELEASE_NAME (L.releaseName cx a) cx.outConsumed := by
  unfold releaseName
  cases h : L.mine cx.actor a with
  | none => exact Or.inl ⟨rfl, rfl⟩
  | some d =>
    obtain ⟨hd, hh⟩ := mine_eq_some h
    by_cases hst : d.st ≠ .OWNED
    · simp only [if_pos hst]
      exact Or.inl ⟨rfl, rfl⟩
    · simp only [if_neg hst]
      rw [not_not] at hst
      rw [← drop_singleton hd hst]
      refine Or.inr (Act.release (Or.inr rfl) (fun n hn => ?_)
        ⟨a.name, List.mem_singleton.mpr rfl, d, hd, hst⟩)
      rw [List.mem_singleton.mp hn]
      exact ⟨d, hd, hh⟩

theorem sell_cases : IdleOrAct sha256 tx cx a L .SELL (L.sell cx a) cx.outConsumed := by
  unfold sell
  cases h : L.deedOf a.name with
  | none => exact Or.inl ⟨rfl, rfl⟩
  | some d =>
    simp only
    generalize (if a.window ≠ 0 then (a.window.toNat : ℤ) else reserveWindow) = w
    split
    · exact Or.inl ⟨rfl, rfl⟩
    · rename_i hg
      simp only [not_or, not_not, not_lt, gt_iff_lt] at hg
      obtain ⟨hprice, hst, ho, hw, hl⟩ := hg
      exact Or.inr (Act.sell (deedOf_eq_some h) hst ho (UInt64.not_lt.mp hprice) hw hl)

theorem sellTo_cases : IdleOrAct sha256 tx cx a L .SELL_TO (L.sellTo cx a) cx.outConsumed := by
  unfold sellTo
  cases h : L.deedOf a.name with
  | none => exact Or.inl ⟨rfl, rfl⟩
  | some d =>
    simp only
    split
    · exact Or.inl ⟨rfl, rfl⟩
    · rename_i hg
      simp only [not_or, not_not, not_lt, gt_iff_lt] at hg
      obtain ⟨-, hst, ho, hl⟩ := hg
      exact Or.inr (Act.sellTo (deedOf_eq_some h) hst ho hl)

theorem reserve_cases : IdleOrAct sha256 tx cx a L .RESERVE (L.reserve tx cx a).1
    (L.reserve tx cx a).2.outConsumed := by
  unfold reserve
  cases h : L.deedOf a.name with
  | none => exact Or.inl ⟨rfl, rfl⟩
  | some d =>
    simp only
    split
    · exact Or.inl ⟨rfl, rfl⟩
    · rename_i hg
      simp only [not_or, not_not] at hg
      cases hc : smConsumeOutput tx cx d.seller d.sellerType (depositLeg d.price reservePayBps) with
      | none => exact Or.inl ⟨rfl, rfl⟩
      | some cx' =>
        obtain ⟨i, hi, rfl⟩ := smConsumeOutput_eq_some hc
        exact Or.inr (Act.reserve (deedOf_eq_some h) hg.1 hi)

theorem settle_cases : IdleOrAct sha256 tx cx a L .SETTLE (L.settle tx cx a).1
    (L.settle tx cx a).2.outConsumed := by
  unfold settle buy
  cases h : L.deedOf a.name with
  | none => exact Or.inl ⟨rfl, rfl⟩
  | some d =>
    simp only
    split
    · exact Or.inl ⟨rfl, rfl⟩
    · rename_i hg
      simp only [not_or, not_not, ge_iff_le, not_le] at hg
      cases hc : smConsumeOutput tx cx d.seller d.sellerType (remainder d) with
      | none => exact Or.inl ⟨rfl, rfl⟩
      | some cx' =>
        obtain ⟨i, hi, rfl⟩ := smConsumeOutput_eq_some hc
        exact Or.inr (Act.settle (deedOf_eq_some h) hg.1 hg.2.1 hg.2.2 hi)

theorem pay_cases : IdleOrAct sha256 tx cx a L .PAY (L.pay tx cx a).1
    (L.pay tx cx a).2.outConsumed := by
  unfold pay buy
  cases h : L.deedOf a.name with
  | none => exact Or.inl ⟨rfl, rfl⟩
  | some d =>
    simp only
    split
    · exact Or.inl ⟨rfl, rfl⟩
    · rename_i hg
      simp only [not_or, not_not, ge_iff_le, not_le] at hg
      cases hc : smConsumeOutput tx cx d.seller d.sellerType d.price with
      | none => exact Or.inl ⟨rfl, rfl⟩
      | some cx' =>
        obtain ⟨i, hi, rfl⟩ := smConsumeOutput_eq_some hc
        exact Or.inr (Act.pay (deedOf_eq_some h) hg.1 hg.2.1 hg.2.2 hi)

theorem claim_cases : IdleOrAct sha256 tx cx a L .CLAIM (L.claim sha256 cx a) cx.outConsumed := by
  unfold claim
  split
  · exact Or.inl ⟨rfl, rfl⟩
  · rename_i hv
    have hv' : smNameValid a.name = true := by simpa using hv
    cases hB : L.best (claimCommitment sha256 a.salt a.name cx.actor) cx.height with
    | none => exact Or.inl ⟨rfl, rfl⟩
    | some p =>
      have hbest := best_eq_some.mp hB
      simp only
      split
      · exact Or.inl ⟨rfl, rfl⟩
      · rename_i hday
        have hday' : smLeaseCoversDay cx.carValue cx.rate = true := by simpa using hday
        cases hn : L.names a.name with
        | none => exact Or.inr (Act.mint hv' hbest hday' hn)
        | some d =>
          cases hs : L.scratch a.name with
          | none => exact Or.inl ⟨rfl, rfl⟩
          | some w =>
            simp only
            split
            · exact Or.inl ⟨rfl, rfl⟩
            · rename_i hg
              simp only [not_or, not_not] at hg
              obtain ⟨hst, ho, hlt⟩ := hg
              exact Or.inr (Act.displace hv' hbest hday' hn hs hst ho (by tauto))

theorem trade_cases : IdleOrAct sha256 tx cx a L .TRADE (L.trade tx cx a) cx.outConsumed := by
  unfold trade
  cases hA : tx.inputs[a.idxA.val]? with
  | none => exact Or.inl ⟨rfl, rfl⟩
  | some inA =>
    cases hB : tx.inputs[a.idxB.val]? with
    | none => exact Or.inl ⟨rfl, rfl⟩
    | some inB =>
      simp only
      split
      · exact Or.inl ⟨rfl, rfl⟩
      · rename_i hg
        simp only [Bool.not_eq_true', not_or, Bool.not_eq_false] at hg
        cases hdA : L.deedOf a.name with
        | none => exact Or.inl ⟨rfl, rfl⟩
        | some dA =>
          cases hdB : L.deedOf a.nameB with
          | none => exact Or.inl ⟨rfl, rfl⟩
          | some dB =>
            simp only
            split
            · exact Or.inl ⟨rfl, rfl⟩
            · rename_i ho
              simp only [not_or, not_not] at ho
              exact Or.inr (Act.trade hA hB hg.2.1 hg.2.2.1 hg.2.2.2 (deedOf_eq_some hdA)
                (deedOf_eq_some hdB) ho.1 ho.2.1 ho.2.2.1 ho.2.2.2)

theorem dispatch_cases (op : SmOp) : IdleOrAct sha256 tx cx a L op
    (L.dispatch sha256 tx cx a op).1 (L.dispatch sha256 tx cx a op).2.outConsumed := by
  cases op with
  | COMMIT => exact Or.inr Act.commit
  | CLAIM => exact claim_cases sha256 tx cx a L
  | RENEW => exact renew_cases sha256 tx cx a L
  | TRANSFER => exact transfer_cases sha256 tx cx a L
  | RENEW_NAME => exact renewName_cases sha256 tx cx a L
  | TRANSFER_NAME => exact transferName_cases sha256 tx cx a L
  | RELEASE_NAME => exact releaseName_cases sha256 tx cx a L
  | SELL => exact sell_cases sha256 tx cx a L
  | RESERVE => exact reserve_cases sha256 tx cx a L
  | SETTLE => exact settle_cases sha256 tx cx a L
  | RELEASE => exact release_cases sha256 tx cx a L
  | SELL_TO => exact sellTo_cases sha256 tx cx a L
  | PAY => exact pay_cases sha256 tx cx a L
  | AS => exact Or.inl ⟨rfl, rfl⟩
  | TRADE => exact Or.inl ⟨rfl, rfl⟩

end Handlers

/-- The context a carrier acts in. -/
def carCtx (cx : SmTxCtx) (car : SmCarrier) : SmTxCtx :=
  { cx with carValue := car.value, carVout := car.vout }

/-- One carrier: the ledger stays, or the carrier is an action that acts. -/
theorem applyCarrier_cases (sha256 : Bytes → Hash256) (tx : SmTx) (L : Ledger) (cx : SmTxCtx)
    (car : SmCarrier) :
    ((applyCarrier sha256 tx (L, cx) car).1 = L ∧
        (applyCarrier sha256 tx (L, cx) car).2.outConsumed = cx.outConsumed) ∨
      ∃ op, car.kind = .ACTION ∧ SmOp.ofByte? car.act.op = some op ∧
        (op ≠ .TRADE → cx.actorValid = true) ∧
        Act sha256 tx (carCtx cx car) car.act L op (applyCarrier sha256 tx (L, cx) car).1
          (applyCarrier sha256 tx (L, cx) car).2.outConsumed := by
  unfold applyCarrier
  simp only
  split
  · exact Or.inl ⟨rfl, rfl⟩
  · rename_i hk
    rw [not_not] at hk
    split
    · exact Or.inl ⟨rfl, rfl⟩
    · cases hop : SmOp.ofByte? car.act.op with
      | none => exact Or.inl ⟨rfl, rfl⟩
      | some op =>
        have hcar := dispatch_cases sha256 tx (carCtx cx car) car.act L op
        cases op with
        | AS =>
          left
          cases signer tx car.act.asIndex.val <;> exact ⟨rfl, rfl⟩
        | TRADE =>
          refine (trade_cases sha256 tx (carCtx cx car) car.act L).imp id fun h => ?_
          exact ⟨.TRADE, hk, rfl, fun h => absurd rfl h, h⟩
        | _ =>
          cases hv : cx.actorValid with
          | false => exact Or.inl ⟨rfl, rfl⟩
          | true =>
            simp only [Bool.not_true, Bool.false_eq_true, if_false]
            exact hcar.imp (fun h => by simpa [carCtx, hv] using h)
              fun h => ⟨_, hk, rfl, fun _ => trivial, by simpa [carCtx, hv] using h⟩

/-- Only the consumed outputs of the context change in a handler. -/
theorem dispatch_ctx (sha256 : Bytes → Hash256) (tx : SmTx) (L : Ledger) (cx : SmTxCtx)
    (a : SmAction) (op : SmOp) :
    ∃ out, (L.dispatch sha256 tx cx a op).2 = { cx with outConsumed := out } := by
  have hbuy : ∀ st expiry owed, ∃ out,
      (buy tx st expiry owed L cx a).2 = { cx with outConsumed := out } := by
    intro st expiry owed
    unfold buy
    split
    · exact ⟨_, rfl⟩
    · split
      · exact ⟨_, rfl⟩
      · split
        · exact ⟨_, rfl⟩
        · rename_i hc
          obtain ⟨i, -, rfl⟩ := smConsumeOutput_eq_some hc
          exact ⟨_, rfl⟩
  cases op with
  | SETTLE => exact hbuy _ _ _
  | PAY => exact hbuy _ _ _
  | RESERVE =>
    change ∃ out, (L.reserve tx cx a).2 = { cx with outConsumed := out }
    unfold reserve
    split
    · exact ⟨_, rfl⟩
    · simp only
      split
      · exact ⟨_, rfl⟩
      · split
        · exact ⟨_, rfl⟩
        · rename_i hc
          obtain ⟨i, -, rfl⟩ := smConsumeOutput_eq_some hc
          exact ⟨_, rfl⟩
  | _ => exact ⟨_, rfl⟩

/-- A carrier leaves the block's data in the context alone. -/
theorem applyCarrier_ctx (sha256 : Bytes → Hash256) (tx : SmTx) (L : Ledger) (cx : SmTxCtx)
    (car : SmCarrier) :
    (applyCarrier sha256 tx (L, cx) car).2.height = cx.height ∧
      (applyCarrier sha256 tx (L, cx) car).2.mtp = cx.mtp ∧
      (applyCarrier sha256 tx (L, cx) car).2.rate = cx.rate := by
  unfold applyCarrier
  simp only
  split
  · exact ⟨rfl, rfl, rfl⟩
  · split
    · exact ⟨rfl, rfl, rfl⟩
    · split
      · split <;> exact ⟨rfl, rfl, rfl⟩
      · exact ⟨rfl, rfl, rfl⟩
      · split
        · exact ⟨rfl, rfl, rfl⟩
        · rename_i op _ _ _ _
          obtain ⟨out, hout⟩ := dispatch_ctx sha256 tx L (carCtx cx car) car.act op
          unfold carCtx at hout
          rw [hout]
          exact ⟨rfl, rfl, rfl⟩
      · exact ⟨rfl, rfl, rfl⟩

end NamespaceIndexer.Ledger
