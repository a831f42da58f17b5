import NamespaceIndexer.Ledger.RefineOps

/-!
# Market handlers, claims and trades implement their rules
-/

namespace NamespaceIndexer

open Fold Lib

/-- `sm_name_valid` and `sm_find_name` together read the deed. -/
theorem Tracks.deedOf_some {s : SmState} {L : Ledger} (t : Tracks s L) {n : Name} {r : ℕ}
    (hv : smNameValid n = true) (h : smFindName s n = some r) :
    L.deedOf n = some (deed (s.row r)) := by
  unfold Ledger.deedOf
  rw [if_pos hv]
  exact (t.find_some h).2.2

theorem Tracks.deedOf_none {s : SmState} {L : Ledger} (t : Tracks s L) {n : Name}
    (h : smFindName s n = none) : L.deedOf n = none := by
  unfold Ledger.deedOf
  rw [t.find_none h, ite_self]

theorem Ledger.deedOf_invalid (L : Ledger) {n : Name} (hv : smNameValid n = false) :
    L.deedOf n = none := by
  unfold Ledger.deedOf
  rw [hv, if_neg Bool.false_ne_true]

theorem Ledger.put_put (L : Ledger) (n : Name) (d d' : Deed) :
    (L.put n d).put n d' = L.put n d' := by
  unfold Ledger.put
  simp only [Function.update_idem]

/-- Over outputs in ascending order the scan for the lowest `vout` stops at the first match. -/
theorem foldl_bestOutput_eq {tx : SmTx} (hasc : tx.outs.Pairwise fun o o' => o.vout ≤ o'.vout)
    {l : List ℕ} (hl : l.Pairwise (· < ·)) (hlen : ∀ i ∈ l, i < tx.outs.length) :
    l.foldl (bestOutput tx) none = l.head? := by
  have hkeep : ∀ (l : List ℕ) (i : ℕ), i < tx.outs.length → (∀ j ∈ l, i < j ∧ j < tx.outs.length) →
      l.foldl (bestOutput tx) (some i) = some i := by
    intro l
    induction l with
    | nil => exact fun i _ _ => rfl
    | cons j l ih =>
      intro i hi hl
      obtain ⟨hij, hj⟩ := hl j List.mem_cons_self
      have hle := List.pairwise_iff_getElem.mp hasc i j hi hj hij
      have hstep : bestOutput tx (some i) j = some i := by
        unfold bestOutput
        dsimp only
        rw [List.getElem?_eq_getElem hi, List.getElem?_eq_getElem hj]
        exact if_neg (not_lt.mpr hle)
      rw [List.foldl_cons, hstep]
      exact ih i hi fun k hk => hl k (List.mem_cons_of_mem _ hk)
  cases l with
  | nil => rfl
  | cons i l =>
    obtain ⟨hhead, -⟩ := List.pairwise_cons.mp hl
    rw [List.foldl_cons, List.head?_cons]
    exact hkeep l i (hlen i List.mem_cons_self) fun j hj =>
      ⟨hhead j hj, hlen j (List.mem_cons_of_mem _ hj)⟩

theorem findOutput_eq {tx : SmTx} (hasc : tx.outs.Pairwise fun o o' => o.vout ≤ o'.vout)
    (consumed : List Bool) (dest : H160) (type : Byte) (amount : UInt64) :
    findOutput tx consumed dest type amount
      = (List.range tx.outs.length).find? (payable tx consumed dest type amount) := by
  unfold findOutput
  rw [foldl_bestOutput_eq hasc, List.head?_filter]
  · exact List.pairwise_lt_range.filter _
  · exact fun i hi => List.mem_range.mp (List.mem_filter.mp hi).1

namespace Tracks

variable {s : SmState} {L : Ledger}

/-! ### Listings -/

theorem smOpSell (t : Tracks s L) (cx : SmTxCtx) (a : SmAction) :
    Tracks (Fold.smOpSell s cx a) (L.sell cx a) := by
  unfold Fold.smOpSell Ledger.sell
  cases hv : smNameValid a.name with
  | false =>
    rw [L.deedOf_invalid hv]
    exact t
  | true =>
    rw [if_neg (by simp)]
    cases hf : smFindName s a.name with
    | none =>
      rw [t.deedOf_none hf]
      split <;> exact t
    | some r =>
      obtain ⟨hlt, hn, -⟩ := t.find_some hf
      rw [t.deedOf_some hv hf]
      simp only
      set w : ℤ := if a.window ≠ 0 then (a.window.toNat : ℤ) else reserveWindow
      split
      · rename_i h
        rw [if_pos (Or.inl h)]
        exact t
      · rename_i hprice
        split
        · rename_i h
          rw [if_pos (Or.inr (h.elim Or.inl fun h => Or.inr (Or.inl h)))]
          exact t
        · rename_i hown
          split
          · rename_i h
            rw [if_pos (Or.inr (Or.inr (Or.inr (Or.inl h))))]
            exact t
          · rename_i hw
            split
            · rename_i h
              rw [if_pos (Or.inr (Or.inr (Or.inr (Or.inr h))))]
              exact t
            · rename_i hlease
              rw [if_neg (fun h => h.elim hprice fun h => h.elim (fun h => hown (Or.inl h)) fun h =>
                h.elim (fun h => hown (Or.inr h)) fun h => h.elim hw hlease)]
              have hset := t.setRow (v := { s.row r with
                st := .LISTED, seller := cx.actor, sellerType := cx.actorType, price := a.price,
                offerExpiry := cx.mtp + w, buyer := zeros 20, burnLeg := 0, payLeg := 0,
                reserveExpiry := 0 }) hlt rfl
              rw [← hn]
              exact hset.bumpEv _

theorem smOpSellTo (t : Tracks s L) (cx : SmTxCtx) (a : SmAction) :
    Tracks (Fold.smOpSellTo s cx a) (L.sellTo cx a) := by
  unfold Fold.smOpSellTo Ledger.sellTo
  cases hv : smNameValid a.name with
  | false =>
    rw [L.deedOf_invalid hv]
    exact t
  | true =>
    rw [if_neg (by simp)]
    cases hf : smFindName s a.name with
    | none =>
      rw [t.deedOf_none hf]
      split <;> exact t
    | some r =>
      obtain ⟨hlt, hn, -⟩ := t.find_some hf
      rw [t.deedOf_some hv hf]
      simp only
      split
      · rename_i h
        rw [if_pos (Or.inl h)]
        exact t
      · rename_i hprice
        split
        · rename_i h
          rw [if_pos (Or.inr (h.elim Or.inl fun h => Or.inr (Or.inl h)))]
          exact t
        · rename_i hown
          split
          · rename_i h
            rw [if_pos (Or.inr (Or.inr (Or.inr h)))]
            exact t
          · rename_i hlease
            rw [if_neg (fun h => h.elim hprice fun h => h.elim (fun h => hown (Or.inl h)) fun h =>
              h.elim (fun h => hown (Or.inr h)) hlease)]
            have hset := t.setRow (v := { s.row r with
              st := .OFFERED, seller := cx.actor, sellerType := cx.actorType, buyer := a.addr,
              price := a.price, offerExpiry := cx.mtp + directWindow, burnLeg := 0, payLeg := 0,
              reserveExpiry := 0 }) hlt rfl
            rw [← hn]
            exact hset.bumpEv _

/-! ### Payments -/

theorem smOpReserve (t : Tracks s L) (tx : SmTx) (cx : SmTxCtx) (a : SmAction) :
    Tracks (Fold.smOpReserve tx s cx a).1 (L.reserve tx cx a).1 ∧
      (Fold.smOpReserve tx s cx a).2 = (L.reserve tx cx a).2 := by
  unfold Fold.smOpReserve Ledger.reserve
  cases hv : smNameValid a.name with
  | false =>
    rw [L.deedOf_invalid hv]
    exact ⟨t, rfl⟩
  | true =>
    rw [if_neg (by simp)]
    cases hf : smFindName s a.name with
    | none =>
      rw [t.deedOf_none hf]
      exact ⟨t, rfl⟩
    | some r =>
      obtain ⟨hlt, hn, -⟩ := t.find_some hf
      rw [t.deedOf_some hv hf]
      simp only
      split
      · rename_i h
        rw [if_pos (Or.inl h)]
        exact ⟨t, rfl⟩
      · rename_i hst
        split
        · rename_i h
          rw [if_pos (Or.inr h)]
          exact ⟨t, rfl⟩
        · rename_i hval
          rw [if_neg (fun h => h.elim hst hval)]
          cases hc : smConsumeOutput tx cx (s.row r).seller (s.row r).sellerType
              (depositLeg (s.row r).price reservePayBps) with
          | none => exact ⟨t, rfl⟩
          | some cx' =>
            refine ⟨?_, rfl⟩
            have hset := t.setRow (v := { s.row r with
              st := .RESERVED, buyer := cx'.actor,
              burnLeg := depositLeg (s.row r).price reserveBurnBps,
              payLeg := depositLeg (s.row r).price reservePayBps,
              reserveExpiry := if decide (cx'.mtp + reserveWindow ≥ (s.row r).offerExpiry)
                then (s.row r).offerExpiry else cx'.mtp + reserveWindow }) hlt rfl
            have hmin : (if decide (cx'.mtp + reserveWindow ≥ (s.row r).offerExpiry) = true
                then (s.row r).offerExpiry else cx'.mtp + reserveWindow)
                = min (cx'.mtp + reserveWindow) (s.row r).offerExpiry := by
              split <;> simp_all [le_of_lt]
            rw [← hn]
            simp only [hmin] at hset ⊢
            split
            · exact (hset.bumpEv _).bumpEv _
            · exact hset.bumpEv _

/-- The last step of SETTLE and PAY. -/
theorem convey (t : Tracks s L) (cx : SmTxCtx) {r : ℕ} (hlt : r < s.names.length) (e : SmEv) :
    Tracks ((smBumpMutation (smBumpMutation (s.setRow r
        (toOwned { s.row r with owner := cx.actor, ownerType := cx.actorType })) cx.actor cx.height)
        (s.row r).seller cx.height).bumpEv e)
      (L.convey cx (s.row r).name (deed (s.row r))) := by
  have hset := t.setRow
    (v := toOwned { s.row r with owner := cx.actor, ownerType := cx.actorType }) hlt rfl
  exact ((hset.bump _ _).bump _ _).bumpEv _

theorem smOpSettle (t : Tracks s L) (tx : SmTx) (cx : SmTxCtx) (a : SmAction) :
    Tracks (Fold.smOpSettle tx s cx a).1 (L.settle tx cx a).1 ∧
      (Fold.smOpSettle tx s cx a).2 = (L.settle tx cx a).2 := by
  unfold Fold.smOpSettle Ledger.settle Ledger.buy
  cases hv : smNameValid a.name with
  | false =>
    rw [L.deedOf_invalid hv]
    exact ⟨t, rfl⟩
  | true =>
    rw [if_neg (by simp)]
    cases hf : smFindName s a.name with
    | none =>
      rw [t.deedOf_none hf]
      exact ⟨t, rfl⟩
    | some r =>
      obtain ⟨hlt, hn, -⟩ := t.find_some hf
      rw [t.deedOf_some hv hf]
      simp only [Ledger.remainder]
      split
      · rename_i h
        rw [if_pos (Or.inl h)]
        exact ⟨t, rfl⟩
      · rename_i hst
        split
        · rename_i h
          rw [if_pos (Or.inr (Or.inl h))]
          exact ⟨t, rfl⟩
        · rename_i hbuyer
          split
          · rename_i h
            rw [if_pos (Or.inr (Or.inr h))]
            exact ⟨t, rfl⟩
          · rename_i hexp
            rw [if_neg (fun h => h.elim hst fun h => h.elim hbuyer hexp), ← hn]
            cases hc : smConsumeOutput tx cx (s.row r).seller (s.row r).sellerType
                ((s.row r).price - (s.row r).burnLeg - (s.row r).payLeg) with
            | none => exact ⟨t, rfl⟩
            | some cx' => exact ⟨t.convey cx' hlt _, rfl⟩

theorem smOpPay (t : Tracks s L) (tx : SmTx) (cx : SmTxCtx) (a : SmAction) :
    Tracks (Fold.smOpPay tx s cx a).1 (L.pay tx cx a).1 ∧
      (Fold.smOpPay tx s cx a).2 = (L.pay tx cx a).2 := by
  unfold Fold.smOpPay Ledger.pay Ledger.buy
  cases hv : smNameValid a.name with
  | false =>
    rw [L.deedOf_invalid hv]
    exact ⟨t, rfl⟩
  | true =>
    rw [if_neg (by simp)]
    cases hf : smFindName s a.name with
    | none =>
      rw [t.deedOf_none hf]
      exact ⟨t, rfl⟩
    | some r =>
      obtain ⟨hlt, hn, -⟩ := t.find_some hf
      rw [t.deedOf_some hv hf]
      simp only
      split
      · rename_i h
        rw [if_pos (Or.inl h)]
        exact ⟨t, rfl⟩
      · rename_i hst
        split
        · rename_i h
          rw [if_pos (Or.inr (Or.inl h))]
          exact ⟨t, rfl⟩
        · rename_i hbuyer
          split
          · rename_i h
            rw [if_pos (Or.inr (Or.inr h))]
            exact ⟨t, rfl⟩
          · rename_i hexp
            rw [if_neg (fun h => h.elim hst fun h => h.elim hbuyer hexp), ← hn]
            cases hc : smConsumeOutput tx cx (s.row r).seller (s.row r).sellerType
                (s.row r).price with
            | none => exact ⟨t, rfl⟩
            | some cx' => exact ⟨t.convey cx' hlt _, rfl⟩

/-! ### Backing commits -/

end Tracks

/-- `p` is the best priority of the backing commits in a list. -/
def IsBestIn (want : Hash256) (height : ℤ) (l : List SmCommit) (p : ℤ × UInt32) : Prop :=
  (∃ c ∈ l, (c.commitHeight < height ∧ c.commitment = want) ∧ p = (c.commitHeight, c.txIndex)) ∧
    ∀ c ∈ l, c.commitHeight < height ∧ c.commitment = want →
      toLex (p.1, p.2.toNat) ≤ Ledger.priority c

theorem priority_lt_iff (ch ch' : ℤ) (ti ti' : UInt32) :
    toLex (ch, ti.toNat) < toLex (ch', ti'.toNat) ↔ ch < ch' ∨ (ch = ch' ∧ ti < ti') := by
  rw [Prod.Lex.toLex_lt_toLex, UInt32.lt_iff_toNat_lt]

/-- The scan of `sm_op_claim` finds the earliest backing commit. -/
theorem foldl_bestCommit (want : Hash256) (height : ℤ) (l : List SmCommit) :
    match l.foldl (bestCommit want height) none with
    | none => ∀ c ∈ l, ¬ (c.commitHeight < height ∧ c.commitment = want)
    | some p => IsBestIn want height l p := by
  induction l using List.reverseRecOn with
  | nil => simp
  | append_singleton l c ih =>
    rw [List.foldl_append, List.foldl_cons, List.foldl_nil]
    cases hb : l.foldl (bestCommit want height) none with
    | none =>
      rw [hb] at ih
      unfold bestCommit
      by_cases hc : c.commitHeight < height ∧ c.commitment = want
      · rw [if_pos hc]
        refine ⟨⟨c, by simp, hc, rfl⟩, fun c' hc' hback => ?_⟩
        rcases List.mem_append.mp hc' with hl | hl
        · exact absurd hback (ih c' hl)
        · rw [List.mem_singleton.mp hl]
          exact le_refl _
      · rw [if_neg hc]
        intro c' hc'
        rcases List.mem_append.mp hc' with hl | hl
        · exact ih c' hl
        · rw [List.mem_singleton.mp hl]
          exact hc
    | some p =>
      rw [hb] at ih
      obtain ⟨⟨c0, hc0, hback0, hp⟩, hmin⟩ := ih
      unfold bestCommit
      by_cases hc : c.commitHeight < height ∧ c.commitment = want
      · rw [if_pos hc]
        simp only
        by_cases hlt : c.commitHeight < p.1 ∨ (c.commitHeight = p.1 ∧ c.txIndex < p.2)
        · rw [if_pos hlt]
          refine ⟨⟨c, by simp, hc, rfl⟩, fun c' hc' hback => ?_⟩
          rcases List.mem_append.mp hc' with hl | hl
          · exact ((priority_lt_iff _ _ _ _).mpr hlt).le.trans (hmin c' hl hback)
          · rw [List.mem_singleton.mp hl]
            exact le_refl _
        · rw [if_neg hlt]
          refine ⟨⟨c0, by simp [hc0], hback0, hp⟩, fun c' hc' hback => ?_⟩
          rcases List.mem_append.mp hc' with hl | hl
          · exact hmin c' hl hback
          · rw [List.mem_singleton.mp hl]
            exact not_lt.mp fun h => hlt ((priority_lt_iff _ _ _ _).mp h)
      · rw [if_neg hc]
        refine ⟨⟨c0, by simp [hc0], hback0, hp⟩, fun c' hc' hback => ?_⟩
        rcases List.mem_append.mp hc' with hl | hl
        · exact hmin c' hl hback
        · rw [List.mem_singleton.mp hl] at hback
          exact absurd hback hc

/-- In whatever order the commits stand. -/
theorem foldl_bestCommit_eq {L : Ledger} {l : List SmCommit} (hl : (l : Multiset SmCommit) = L.commits)
    (want : Hash256) (height : ℤ) : l.foldl (bestCommit want height) none = L.best want height := by
  have h := foldl_bestCommit want height l
  have hmem : ∀ c, c ∈ L.backing want height ↔
      c ∈ l ∧ c.commitHeight < height ∧ c.commitment = want := fun c => by
    rw [Ledger.mem_backing, ← hl, Multiset.mem_coe]
  cases hb : l.foldl (bestCommit want height) none with
  | none =>
    rw [hb] at h
    cases hB : L.best want height with
    | none => rfl
    | some p =>
      obtain ⟨⟨c, hc, -⟩, -⟩ := Ledger.best_eq_some.mp hB
      obtain ⟨hl, hback⟩ := (hmem c).mp hc
      exact absurd hback (h c hl)
  | some p =>
    rw [hb] at h
    obtain ⟨⟨c, hc, hback, hp⟩, hmin⟩ := h
    symm
    rw [Ledger.best_eq_some]
    refine ⟨⟨c, (hmem c).mpr ⟨hc, hback⟩, hp⟩, fun c' hc' => ?_⟩
    obtain ⟨hl, hback'⟩ := (hmem c').mp hc'
    exact hmin c' hl hback'

namespace Tracks

variable {s : SmState} {L : Ledger}

theorem bestCommit (t : Tracks s L) (want : Hash256) (height : ℤ) :
    s.commits.foldl (Fold.bestCommit want height) none = L.best want height :=
  foldl_bestCommit_eq t.commits.symm want height

theorem smOpClaim (t : Tracks s L) (sha256 : Bytes → Hash256) (cx : SmTxCtx) (a : SmAction) :
    Tracks (Fold.smOpClaim sha256 s cx a) (L.claim sha256 cx a) := by
  unfold Fold.smOpClaim Ledger.claim
  by_cases hv : (!smNameValid a.name) = true
  · rw [if_pos hv, if_pos hv]
    exact t
  · rw [if_neg hv, if_neg hv]
    simp only [t.bestCommit]
    cases hB : L.best (claimCommitment sha256 a.salt a.name cx.actor) cx.height with
    | none => exact t
    | some p =>
      obtain ⟨ch, ti⟩ := p
      simp only
      by_cases hday : (!smLeaseCoversDay cx.carValue cx.rate) = true
      · rw [if_pos hday, if_pos hday]
        exact t
      · rw [if_neg hday, if_neg hday]
        cases hf : smFindName s a.name with
        | none =>
          -- a fresh mint: the zeroed row is appended, filled in and leased
          have hnone := t.find_none hf
          have hadd := t.add hnone
          have hlt : s.names.length < (smAddName s a.name).1.names.length := by
            simp [smAddName]
          obtain ⟨v, hv⟩ : ∃ v, v = { (smAddName s a.name).1.row s.names.length with
            owner := cx.actor, ownerType := cx.actorType, st := .OWNED, leaseExpiry := cx.mtp } :=
            ⟨_, rfl⟩
          have hname : v.name = a.name := by
            rw [hv]
            simp [smAddName, SmState.row]
          have hdeed : deed v = Deed.plain cx.actor cx.actorType cx.mtp := by
            rw [hv]
            simp [deed, Deed.plain, smAddName, SmState.row]
          have hset := hadd.setRow (r := s.names.length) (v := v) hlt (by rw [hv])
          have hw := hset.waterfill_one cx.mtp cx.rate cx.carValue (r := s.names.length)
            (by rw [names_length_setRow]; exact hlt)
          rw [row_setRow_self hlt, hdeed, hname, Ledger.put_put] at hw
          subst hv
          simp only [hnone]
          exact ((hw.bump cx.actor cx.height).setScratch a.name ch ti cx.actor).bumpEv _
        | some r =>
          obtain ⟨hlt, hn, hL⟩ := t.find_some hf
          simp only [hL]
          cases hsc : findScratch s a.name with
          | none =>
            rw [t.scratch_none hsc]
            exact t
          | some w =>
            rw [t.scratch_some hsc ⟨a.name, 0, 0, zeros 20⟩]
            simp only
            set scr := s.claimsc.getD w ⟨a.name, 0, 0, zeros 20⟩
            by_cases hown : (s.row r).st ≠ .OWNED ∨ (s.row r).owner ≠ scr.owner
            · rw [if_pos hown, if_pos (hown.elim Or.inl fun h => Or.inr (Or.inl h))]
              exact t
            · rw [if_neg hown]
              by_cases hpri : ch < scr.commitHeight ∨ (ch = scr.commitHeight ∧ ti < scr.commitTxIndex)
              · rw [decide_eq_true hpri, Bool.not_true, if_neg Bool.false_ne_true,
                  if_neg (fun h => h.elim (fun h => hown (Or.inl h)) fun h =>
                    h.elim (fun h => hown (Or.inr h)) fun h => h hpri)]
                obtain ⟨v, hv⟩ : ∃ v, v = { s.row r with
                  owner := cx.actor, ownerType := cx.actorType, leaseExpiry := cx.mtp } := ⟨_, rfl⟩
                have hname : v.name = a.name := by
                  rw [hv]
                  exact hn
                have hset := t.setRow (v := v) hlt (by rw [hv])
                have hw := hset.waterfill_one cx.mtp cx.rate cx.carValue (r := r)
                  (by rw [names_length_setRow]; exact hlt)
                rw [row_setRow_self hlt, hname] at hw
                subst hv
                exact ((hw.bump cx.actor cx.height).setScratch a.name ch ti cx.actor).bumpEv _
              · rw [decide_eq_false hpri, Bool.not_false, if_pos rfl, if_pos (Or.inr (Or.inr hpri))]
                exact t

theorem smOpTrade (t : Tracks s L) (tx : SmTx) (cx : SmTxCtx) (a : SmAction) :
    Tracks (Fold.smOpTrade tx s cx a) (L.trade tx cx a) := by
  unfold Fold.smOpTrade Ledger.trade
  cases hA : tx.inputs[a.idxA.val]? with
  | none => exact t
  | some inA =>
    cases hB : tx.inputs[a.idxB.val]? with
    | none => exact t
    | some inB =>
      simp only
      by_cases hidx : a.idxA = a.idxB
      · rw [if_pos hidx, if_pos (Or.inl hidx)]
        exact t
      · rw [if_neg hidx]
        by_cases hsig : (!inA.sighashAll || !inB.sighashAll) = true
        · rw [if_pos hsig, if_pos (by rw [Bool.or_eq_true] at hsig; tauto)]
          exact t
        · rw [if_neg hsig]
          have hsig' : ¬ ((!inA.sighashAll) = true) ∧ ¬ ((!inB.sighashAll) = true) := by
            rw [Bool.or_eq_true, not_or] at hsig
            exact hsig
          by_cases hval : (!smNameValid a.name || !smNameValid a.nameB) = true
          · rw [if_pos hval]
            have hnone : L.deedOf a.name = none ∨ L.deedOf a.nameB = none := by
              rw [Bool.or_eq_true] at hval
              exact hval.imp (fun h => L.deedOf_invalid (by simpa using h))
                fun h => L.deedOf_invalid (by simpa using h)
            split
            · exact t
            · rcases hnone with h | h
              · rw [h]
                exact t
              · rw [h]
                split
                · rename_i he
                  cases he
                · exact t
          · rw [if_neg hval]
            rw [Bool.or_eq_true, not_or] at hval
            have hvA : smNameValid a.name = true := by simpa using hval.1
            have hvB : smNameValid a.nameB = true := by simpa using hval.2
            by_cases hab : a.name = a.nameB
            · rw [if_pos hab, if_pos (Or.inr (Or.inr (Or.inr hab)))]
              exact t
            · rw [if_neg hab, if_neg (by tauto)]
              cases hfA : smFindName s a.name with
              | none =>
                rw [t.deedOf_none hfA]
                exact t
              | some rA =>
                cases hfB : smFindName s a.nameB with
                | none =>
                  rw [t.deedOf_none hfB, t.deedOf_some hvA hfA]
                  exact t
                | some rB =>
                  obtain ⟨hltA, hnA, -⟩ := t.find_some hfA
                  obtain ⟨hltB, hnB, -⟩ := t.find_some hfB
                  rw [t.deedOf_some hvA hfA, t.deedOf_some hvB hfB]
                  simp only
                  split
                  · rename_i h
                    rw [if_pos (h.elim Or.inl fun h => Or.inr (Or.inl h))]
                    exact t
                  · rename_i hownA
                    split
                    · rename_i h
                      rw [if_pos (Or.inr (Or.inr h))]
                      exact t
                    · rename_i hownB
                      rw [if_neg (fun h => h.elim (fun h => hownA (Or.inl h)) fun h =>
                        h.elim (fun h => hownA (Or.inr h)) hownB)]
                      have hne : rA ≠ rB := by
                        rintro rfl
                        exact hab (hnA.symm.trans hnB)
                      obtain ⟨vA, hvA'⟩ : ∃ v, v = { s.row rA with
                        owner := inB.h160, ownerType := inB.type } := ⟨_, rfl⟩
                      obtain ⟨vB, hvB'⟩ : ∃ v, v = { s.row rB with
                        owner := inA.h160, ownerType := inA.type } := ⟨_, rfl⟩
                      have hnameA : vA.name = a.name := by
                        rw [hvA']
                        exact hnA
                      have hnameB : vB.name = a.nameB := by
                        rw [hvB']
                        exact hnB
                      rw [← hvA']
                      have hrowB := row_setRow_ne (s := s) hne vA
                      have hsetA := t.setRow (v := vA) hltA (by rw [hvA'])
                      have hsetB := hsetA.setRow (r := rB) (v := vB)
                        (by rw [names_length_setRow]; exact hltB) (by rw [hrowB, hvB'])
                      rw [hnameA, hnameB] at hsetB
                      rw [hrowB, ← hvB']
                      subst hvA' hvB'
                      exact ((hsetB.bump _ _).bump _ _).bumpEv _

end Tracks

end NamespaceIndexer
