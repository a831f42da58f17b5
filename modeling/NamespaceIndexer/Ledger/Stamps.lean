import NamespaceIndexer.Ledger.Preserve

/-!
# What reads the stamps

The anchor guard alone. Ledgers that differ in their stamps stay equal in all else while the guard
judges alike the anchors that are used.
-/

namespace NamespaceIndexer

open Fold Lib

/-- An owner that signs the transaction, and an anchor that one of its carriers states. -/
def Anchors (tx : SmTx) (who : H160) (anchor : ℤ) : Prop :=
  (∃ i ∈ tx.inputs, i.h160 = who) ∧
    ∃ car ∈ tx.carriers, car.act.hasAnchor = true ∧ i64 car.act.anchor = anchor

namespace Ledger

/-- The same ledger with other stamps. -/
def restamp (L : Ledger) (m : H160 → Option ℤ) : Ledger := { L with muts := m }

/-- The ledgers differ in their stamps at most, and no anchor in `U` falls between two of them. -/
def Alike (U : H160 → ℤ → Prop) (L M : Ledger) : Prop :=
  ∃ m, M = L.restamp m ∧
    ∀ who a, U who a → (L.lastMutation who ≤ a ↔ M.lastMutation who ≤ a)

section Alike

variable {U : H160 → ℤ → Prop} {L M : Ledger}

theorem Alike.names (h : Alike U L M) : M.names = L.names := by
  obtain ⟨m, rfl, -⟩ := h
  rfl

theorem Alike.deedOf (h : Alike U L M) (n : Name) : M.deedOf n = L.deedOf n := by
  unfold Ledger.deedOf
  rw [h.names]

theorem Alike.mine (h : Alike U L M) (who : H160) (a : SmAction) : M.mine who a = L.mine who a := by
  unfold Ledger.mine
  rw [h.names]

theorem Alike.ownedList (h : Alike U L M) (who : H160) : M.ownedList who = L.ownedList who := by
  unfold Ledger.ownedList Ledger.owned
  rw [h.names]

theorem Alike.someUnlocked (h : Alike U L M) (sel : List Name) :
    M.SomeUnlocked sel ↔ L.SomeUnlocked sel := by
  unfold SomeUnlocked
  rw [h.names]

theorem Alike.anchorOk (h : Alike U L M) {who : H160} {anchor : UInt64} (hU : U who (i64 anchor))
    (confirm : ℤ) : M.anchorOk who anchor confirm = L.anchorOk who anchor confirm := by
  obtain ⟨m, -, hst⟩ := h
  unfold Ledger.anchorOk
  rw [decide_eq_decide.mpr (hst who _ hU).symm]

theorem Alike.mono (h : Alike U L M) {V : H160 → ℤ → Prop} (hV : ∀ who a, V who a → U who a) :
    Alike V L M := by
  obtain ⟨m, hm, hst⟩ := h
  exact ⟨m, hm, fun who a ha => hst who a (hV who a ha)⟩

/-- A change that leaves the stamps alone and does not look at them. -/
theorem Alike.map (h : Alike U L M) {f : Ledger → Ledger}
    (hf : ∀ (N : Ledger) m, f (N.restamp m) = (f N).restamp m) (hm : ∀ N, (f N).muts = N.muts) :
    Alike U (f L) (f M) := by
  obtain ⟨m, rfl, hst⟩ := h
  have hlast : ∀ N who, (f N).lastMutation who = N.lastMutation who := by
    intro N who
    unfold lastMutation
    rw [hm]
  refine ⟨m, hf L m, fun who a ha => ?_⟩
  rw [hlast, hlast]
  exact hst who a ha

theorem Alike.put (h : Alike U L M) (n : Name) (d : Deed) : Alike U (L.put n d) (M.put n d) :=
  h.map (f := fun N => N.put n d) (fun _ _ => rfl) fun _ => rfl

theorem Alike.extend (h : Alike U L M) (now : ℤ) (rate burn : UInt64) (ns : List Name) :
    Alike U (L.extend now rate burn ns) (M.extend now rate burn ns) :=
  h.map (f := fun N => N.extend now rate burn ns) (fun _ _ => rfl) fun _ => rfl

theorem raise_le {o : Option ℤ} {k a : ℤ} (hk : 0 ≤ k) : raise o k ≤ a ↔ o.getD 0 ≤ a ∧ k ≤ a := by
  cases o with
  | none =>
    unfold raise
    simp only [Option.getD_none]
    omega
  | some h =>
    unfold raise
    simp only [Option.getD_some, max_le_iff]

theorem lastMutation_bump {who w : H160} {k a : ℤ} (hk : 0 ≤ k) :
    (L.bump who k).lastMutation w ≤ a ↔ L.lastMutation w ≤ a ∧ (w = who → k ≤ a) := by
  unfold lastMutation bump
  dsimp only
  by_cases hw : w = who
  · subst hw
    rw [Function.update_self, Option.getD_some, raise_le hk]
    simp
  · rw [Function.update_of_ne hw]
    simp [hw]

/-- A raised stamp is judged alike where the old ones were. -/
theorem Alike.bump (h : Alike U L M) (who : H160) {k : ℤ} (hk : 0 ≤ k) :
    Alike U (L.bump who k) (M.bump who k) := by
  obtain ⟨m, rfl, hst⟩ := h
  refine ⟨Function.update m who (some (raise (m who) k)), rfl, fun w a ha => ?_⟩
  rw [lastMutation_bump hk, lastMutation_bump hk, hst w a ha]

theorem Alike.ite {p q : Prop} [Decidable p] [Decidable q] (hpq : p ↔ q) {L' M' : Ledger}
    (h : Alike U L M) (h' : Alike U L' M') : Alike U (if p then L else L') (if q then M else M') :=
  related_ite hpq h h'

/-! ### The actions -/

section Actions

variable {cx : SmTxCtx} (a : SmAction)

variable (cx) in
theorem Alike.renew (h : Alike U L M) (hU : a.hasAnchor = true → U cx.actor (i64 a.anchor)) :
    Alike U (L.renew cx a) (M.renew cx a) := by
  unfold Ledger.renew
  simp only [h.ownedList]
  cases ha : a.hasAnchor with
  | false =>
    simp only [Bool.not_false, Bool.true_and, Bool.false_and, Bool.false_eq_true, if_false]
    exact Alike.ite Iff.rfl (h.extend ..) h
  | true =>
    simp only [Bool.not_true, Bool.false_and, Bool.false_eq_true, if_false, Bool.true_and,
      h.anchorOk (hU ha)]
    exact Alike.ite Iff.rfl (Alike.ite Iff.rfl (h.extend ..) (h.extend ..)) h

open Classical in
theorem Alike.transfer (h : Alike U L M) (hh : 0 ≤ cx.height)
    (hU : a.hasAnchor = true → U cx.actor (i64 a.anchor)) :
    Alike U (L.transfer cx a) (M.transfer cx a) := by
  have hgive : ∀ sel, Alike U (if L.SomeUnlocked sel then
        ((L.giveAll a.addr sel).bump cx.actor cx.height).bump a.addr cx.height else L)
      (if M.SomeUnlocked sel then
        ((M.giveAll a.addr sel).bump cx.actor cx.height).bump a.addr cx.height else M) := by
    intro sel
    have hsel := h.map (f := fun N => N.giveAll a.addr sel) (fun _ _ => rfl) fun _ => rfl
    exact Alike.ite (h.someUnlocked sel).symm ((hsel.bump _ hh).bump _ hh) h
  unfold Ledger.transfer
  simp only [h.ownedList]
  cases ha : a.hasAnchor with
  | false => exact hgive _
  | true =>
    simp only [Bool.true_and, h.anchorOk (hU ha)]
    exact Alike.ite Iff.rfl h (hgive _)

open Classical in
theorem Alike.release (h : Alike U L M) (hh : 0 ≤ cx.height)
    (hU : a.hasAnchor = true → U cx.actor (i64 a.anchor)) :
    Alike U (L.release cx a) (M.release cx a) := by
  unfold Ledger.release
  simp only [h.ownedList]
  cases ha : a.hasAnchor with
  | false => exact h
  | true =>
    simp only [Bool.not_true, Bool.false_eq_true, if_false, h.anchorOk (hU ha)]
    have hdrop := h.map (f := fun N => N.drop (selectBitmap a.flags (L.ownedList cx.actor)))
      (fun _ _ => rfl) fun _ => rfl
    exact Alike.ite Iff.rfl h (Alike.ite (h.someUnlocked _).symm (hdrop.bump _ hh) h)

variable (cx) in
theorem Alike.renewName (h : Alike U L M) : Alike U (L.renewName cx a) (M.renewName cx a) := by
  unfold Ledger.renewName
  rw [h.mine]
  cases L.mine cx.actor a with
  | none => exact h
  | some d => exact h.extend ..

theorem Alike.transferName (h : Alike U L M) (hh : 0 ≤ cx.height) :
    Alike U (L.transferName cx a) (M.transferName cx a) := by
  unfold Ledger.transferName
  rw [h.mine]
  cases L.mine cx.actor a with
  | none => exact h
  | some d => exact Alike.ite Iff.rfl h (((h.put _ _).bump _ hh).bump _ hh)

theorem Alike.releaseName (h : Alike U L M) (hh : 0 ≤ cx.height) :
    Alike U (L.releaseName cx a) (M.releaseName cx a) := by
  unfold Ledger.releaseName
  rw [h.mine]
  cases L.mine cx.actor a with
  | none => exact h
  | some d =>
    have herase := h.map (f := fun N => N.erase a.name) (fun _ _ => rfl) fun _ => rfl
    exact Alike.ite Iff.rfl h (herase.bump _ hh)

variable (cx) in
theorem Alike.sell (h : Alike U L M) : Alike U (L.sell cx a) (M.sell cx a) := by
  unfold Ledger.sell
  rw [h.deedOf]
  cases L.deedOf a.name with
  | none => exact h
  | some d => exact Alike.ite Iff.rfl h (h.put _ _)

variable (cx) in
theorem Alike.sellTo (h : Alike U L M) : Alike U (L.sellTo cx a) (M.sellTo cx a) := by
  unfold Ledger.sellTo
  rw [h.deedOf]
  cases L.deedOf a.name with
  | none => exact h
  | some d => exact Alike.ite Iff.rfl h (h.put _ _)

/-- The same step on both: the ledgers stay alike, the contexts equal. -/
def AlikeStep (U : H160 → ℤ → Prop) (p q : Ledger × SmTxCtx) : Prop :=
  Alike U p.1 q.1 ∧ p.2 = q.2

theorem AlikeStep.ite {p q : Prop} [Decidable p] [Decidable q] (hpq : p ↔ q)
    {x x' y y' : Ledger × SmTxCtx} (h : AlikeStep U x x') (h' : AlikeStep U y y') :
    AlikeStep U (if p then x else y) (if q then x' else y') := related_ite hpq h h'

variable (cx) in
theorem Alike.reserve (h : Alike U L M) (tx : SmTx) :
    AlikeStep U (L.reserve tx cx a) (M.reserve tx cx a) := by
  unfold Ledger.reserve
  rw [h.deedOf]
  cases L.deedOf a.name with
  | none => exact ⟨h, rfl⟩
  | some d =>
    dsimp only
    refine AlikeStep.ite Iff.rfl ⟨h, rfl⟩ ?_
    cases smConsumeOutput tx cx d.seller d.sellerType (depositLeg d.price reservePayBps) with
    | none => exact ⟨h, rfl⟩
    | some cx' => exact ⟨h.put _ _, rfl⟩

theorem Alike.buy (h : Alike U L M) (hh : 0 ≤ cx.height) (tx : SmTx) (st : SmNameState)
    (expiry : Deed → ℤ) (owed : Deed → UInt64) :
    AlikeStep U (buy tx st expiry owed L cx a) (buy tx st expiry owed M cx a) := by
  unfold Ledger.buy
  rw [h.deedOf]
  cases L.deedOf a.name with
  | none => exact ⟨h, rfl⟩
  | some d =>
    dsimp only
    refine AlikeStep.ite Iff.rfl ⟨h, rfl⟩ ?_
    cases hpaid : smConsumeOutput tx cx d.seller d.sellerType (owed d) with
    | none => exact ⟨h, rfl⟩
    | some cx' =>
      obtain ⟨i, -, rfl⟩ := smConsumeOutput_eq_some hpaid
      exact ⟨((h.put _ _).bump _ hh).bump _ hh, rfl⟩

theorem Alike.mint (h : Alike U L M) (hh : 0 ≤ cx.height) (n : Name) (p : ℤ × UInt32) (d : Deed) :
    Alike U (L.mint cx n p d) (M.mint cx n p d) :=
  (((h.put _ _).extend ..).bump _ hh).map (f := fun N => N.setWin n ⟨p.1, p.2, cx.actor⟩)
    (fun _ _ => rfl) fun _ => rfl

theorem Alike.claim (h : Alike U L M) (hh : 0 ≤ cx.height) (sha256 : Bytes → Hash256) :
    Alike U (L.claim sha256 cx a) (M.claim sha256 cx a) := by
  have hbest : ∀ want, M.best want cx.height = L.best want cx.height := by
    obtain ⟨m, rfl, -⟩ := h
    exact fun _ => rfl
  have hscratch : M.scratch = L.scratch := by
    obtain ⟨m, rfl, -⟩ := h
    rfl
  unfold Ledger.claim
  rw [hbest, h.names, hscratch]
  apply Alike.ite Iff.rfl h
  cases L.best (claimCommitment sha256 a.salt a.name cx.actor) cx.height with
  | none => exact h
  | some p =>
    apply Alike.ite Iff.rfl h
    cases L.names a.name with
    | none => exact h.mint hh _ _ _
    | some d =>
      cases L.scratch a.name with
      | none => exact h
      | some w => exact Alike.ite Iff.rfl h (h.mint hh _ _ _)

theorem Alike.trade (h : Alike U L M) (hh : 0 ≤ cx.height) (tx : SmTx) :
    Alike U (L.trade tx cx a) (M.trade tx cx a) := by
  unfold Ledger.trade
  rw [h.deedOf, h.deedOf]
  cases tx.inputs[a.idxA.val]? with
  | none => exact h
  | some inA =>
    cases tx.inputs[a.idxB.val]? with
    | none => exact h
    | some inB =>
      apply Alike.ite Iff.rfl h
      cases L.deedOf a.name with
      | none => exact h
      | some dA =>
        cases L.deedOf a.nameB with
        | none => exact h
        | some dB =>
          exact Alike.ite Iff.rfl h ((((h.put _ _).put _ _).bump _ hh).bump _ hh)

theorem Alike.commit (h : Alike U L M) (tx : SmTx) : Alike U (L.commit tx a) (M.commit tx a) :=
  h.map (f := fun N => N.commit tx a) (fun _ _ => rfl) fun _ => rfl

end Actions

/-! ### Transactions -/

section Transactions

variable (sha256 : Bytes → Hash256) {tx : SmTx}

theorem Alike.dispatch (h : Alike U L M) {cx : SmTxCtx} (hh : 0 ≤ cx.height) {a : SmAction}
    (hU : a.hasAnchor = true → U cx.actor (i64 a.anchor)) (op : SmOp) :
    AlikeStep U (L.dispatch sha256 tx cx a op) (M.dispatch sha256 tx cx a op) := by
  cases op with
  | COMMIT => exact ⟨h.commit a tx, rfl⟩
  | CLAIM => exact ⟨h.claim a hh sha256, rfl⟩
  | RENEW => exact ⟨h.renew cx a hU, rfl⟩
  | TRANSFER => exact ⟨h.transfer a hh hU, rfl⟩
  | RENEW_NAME => exact ⟨h.renewName cx a, rfl⟩
  | TRANSFER_NAME => exact ⟨h.transferName a hh, rfl⟩
  | RELEASE_NAME => exact ⟨h.releaseName a hh, rfl⟩
  | SELL => exact ⟨h.sell cx a, rfl⟩
  | RESERVE => exact h.reserve cx a tx
  | SETTLE => exact h.buy a hh tx _ _ _
  | RELEASE => exact ⟨h.release a hh hU, rfl⟩
  | SELL_TO => exact ⟨h.sellTo cx a, rfl⟩
  | PAY => exact h.buy a hh tx _ _ _
  | AS => exact ⟨h, rfl⟩
  | TRADE => exact ⟨h, rfl⟩

/-- The actor signs the transaction. -/
def Signs (tx : SmTx) (cx : SmTxCtx) : Prop :=
  cx.actorValid = true → ∃ i ∈ tx.inputs, i.h160 = cx.actor

theorem signer_mem {k : ℕ} {i : SmInput} (h : signer tx k = some i) : i ∈ tx.inputs := by
  unfold signer at h
  split at h
  · rename_i j hj
    split at h
    · rw [← Option.some.inj h]
      exact List.mem_of_getElem? hj
    · cases h
  · cases h

theorem signs_applyCarrier {Lc : Ledger × SmTxCtx} (h : Signs tx Lc.2) (car : SmCarrier) :
    Signs tx (applyCarrier sha256 tx Lc car).2 := by
  obtain ⟨L, cx⟩ := Lc
  unfold applyCarrier
  dsimp only
  split
  · exact h
  · split
    · exact h
    · split
      · split
        · rename_i i hi
          exact fun _ => ⟨i, signer_mem hi, rfl⟩
        · exact fun hv => by cases hv
      · exact h
      · split
        · exact h
        · rename_i op _ _ _ _
          obtain ⟨out, hout⟩ := dispatch_ctx sha256 tx L
            { cx with carValue := car.value, carVout := car.vout } car.act op
          rw [hout]
          exact h
      · exact h

/-- One carrier on both ledgers. -/
theorem Alike.applyCarrier (h : Alike U L M) {cx : SmTxCtx} (hh : 0 ≤ cx.height) (hs : Signs tx cx)
    {car : SmCarrier} (hcar : car ∈ tx.carriers) (hU : ∀ who a, Anchors tx who a → U who a) :
    AlikeStep U (applyCarrier sha256 tx (L, cx) car) (applyCarrier sha256 tx (M, cx) car) := by
  have hclock : M.height = L.height ∧ M.activationHeight = L.activationHeight := by
    obtain ⟨m, rfl, -⟩ := h
    exact ⟨rfl, rfl⟩
  unfold Ledger.applyCarrier
  simp only [hclock.1, hclock.2]
  refine AlikeStep.ite Iff.rfl ⟨h, rfl⟩ ?_
  refine AlikeStep.ite Iff.rfl ⟨h, rfl⟩ ?_
  cases SmOp.ofByte? car.act.op with
  | none => exact ⟨h, rfl⟩
  | some op =>
    have hop : AlikeStep U
        (if !cx.actorValid then (L, carCtx cx car)
          else L.dispatch sha256 tx (carCtx cx car) car.act op)
        (if !cx.actorValid then (M, carCtx cx car)
          else M.dispatch sha256 tx (carCtx cx car) car.act op) := by
      by_cases hv : cx.actorValid = true
      · rw [if_neg (by simp [hv]), if_neg (by simp [hv])]
        have hheight : 0 ≤ (carCtx cx car).height := hh
        exact h.dispatch sha256 hheight (fun ha => hU _ _ ⟨hs hv, car, hcar, ha, rfl⟩) op
      · rw [if_pos (by simp [hv]), if_pos (by simp [hv])]
        exact ⟨h, rfl⟩
    cases op with
    | AS => cases signer tx car.act.asIndex.val <;> exact ⟨h, rfl⟩
    | TRADE => exact ⟨h.trade car.act hh tx, rfl⟩
    | _ => exact hop

theorem Alike.foldl_applyCarrier (h : Alike U L M) {cx : SmTxCtx} (hh : 0 ≤ cx.height)
    (hs : Signs tx cx) (hU : ∀ who a, Anchors tx who a → U who a) {cars : List SmCarrier}
    (hcars : ∀ car ∈ cars, car ∈ tx.carriers) :
    AlikeStep U (cars.foldl (Ledger.applyCarrier sha256 tx) (L, cx))
      (cars.foldl (Ledger.applyCarrier sha256 tx) (M, cx)) := by
  induction cars generalizing L M cx with
  | nil => exact ⟨h, rfl⟩
  | cons car cars ih =>
    obtain ⟨h1, h2⟩ := h.applyCarrier sha256 hh hs (hcars car (List.mem_cons_self ..)) hU
    have hnext : Signs tx (Ledger.applyCarrier sha256 tx (L, cx) car).2 := signs_applyCarrier sha256 hs car
    have hheight := (applyCarrier_ctx sha256 tx L cx car).1
    rw [List.foldl_cons, List.foldl_cons, ← Prod.mk.eta (p := Ledger.applyCarrier sha256 tx (M, cx) car),
      ← h2]
    exact ih h1 (hheight.symm ▸ hh) hnext fun c hc => hcars c (List.mem_cons_of_mem _ hc)

theorem Alike.applyTx (h : Alike U L M) (hh : 0 ≤ L.height) (hU : ∀ who a, Anchors tx who a → U who a) :
    Alike U (L.applyTx sha256 tx) (M.applyTx sha256 tx) := by
  have hctx : M.initCtx tx = L.initCtx tx := by
    obtain ⟨m, rfl, -⟩ := h
    rfl
  have hs : Signs tx (L.initCtx tx) := by
    intro hv
    unfold initCtx at hv ⊢
    cases hi : signer tx 0 with
    | none =>
      rw [hi] at hv
      cases hv
    | some i => exact ⟨i, signer_mem hi, rfl⟩
  have hheight : 0 ≤ (L.initCtx tx).height := by
    rw [(L.initCtx_clock tx).1]
    exact hh
  unfold Ledger.applyTx
  rw [hctx]
  exact (h.foldl_applyCarrier sha256 hheight hs hU fun _ hc => hc).1

theorem Alike.foldl_applyTx (h : Alike U L M) (hh : 0 ≤ L.height) {txs : List SmTx}
    (hU : ∀ tx ∈ txs, ∀ who a, Anchors tx who a → U who a) :
    Alike U (txs.foldl (Ledger.applyTx sha256) L) (txs.foldl (Ledger.applyTx sha256) M) := by
  induction txs generalizing L M with
  | nil => exact h
  | cons tx txs ih =>
    have hheight : (L.applyTx sha256 tx).height = L.height :=
      applyTx_induct sha256 tx (P := fun N => N.height = L.height)
        (fun _ _ hact hN => hact.clock.1.trans hN) rfl
    exact ih (h.applyTx sha256 hh (hU tx (List.mem_cons_self ..))) (hheight.symm ▸ hh)
      fun tx' htx' => hU tx' (List.mem_cons_of_mem _ htx')

end Transactions

end Alike

end Ledger

end NamespaceIndexer
