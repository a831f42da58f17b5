import NamespaceIndexer.Ledger.Ops

/-!
# The fold state seen as a ledger

`obs` forgets row order and counters. `Tracks s L` says
that `s` has one row per key and is seen as `L`; every primitive of `state.c`
and the water-fill keep it.
-/

namespace NamespaceIndexer

open Fold Lib

/-- A row without its name. -/
@[reducible] def deed (r : SmNameRow) : Deed :=
  { owner := r.owner, ownerType := r.ownerType, leaseExpiry := r.leaseExpiry, st := r.st, seller := r.seller,
    sellerType := r.sellerType, price := r.price, offerExpiry := r.offerExpiry, buyer := r.buyer,
    burnLeg := r.burnLeg, payLeg := r.payLeg, reserveExpiry := r.reserveExpiry }

@[reducible] def win (w : SmClaimWin) : Win := ⟨w.commitHeight, w.commitTxIndex, w.owner⟩

def obs (s : SmState) : Ledger where
  activationHeight := s.activationHeight
  height := s.curHeight
  mtp := s.curMtp
  rate := s.curRate
  names n := (RowTable.lookup SmNameRow.name s.names n).map deed
  commits := s.commits
  muts who := (RowTable.lookup SmMut.owner s.muts who).map SmMut.height
  scratch n := (RowTable.lookup SmClaimWin.name s.claimsc n).map win

/-- One row per name and one stamp per owner; the scratch table may hold anything. -/
structure WellKeyed (s : SmState) : Prop where
  names : RowTable.Distinct SmNameRow.name s.names
  muts : RowTable.Distinct SmMut.owner s.muts

structure Tracks (s : SmState) (L : Ledger) : Prop where
  keyed : WellKeyed s
  obs_eq : obs s = L

theorem WellKeyed.tracks {s : SmState} (h : WellKeyed s) : Tracks s (obs s) := ⟨h, rfl⟩

theorem getElem?_row {s : SmState} {r : ℕ} (h : r < s.names.length) :
    s.names[r]? = some (s.row r) := by
  unfold SmState.row
  rw [List.getD_eq_getElem?_getD, List.getElem?_eq_getElem h]
  rfl

@[simp] theorem holder_deed (r : SmNameRow) : (deed r).holder = r.holder := rfl

@[simp] theorem row_setRow_self {s : SmState} {r : ℕ} (h : r < s.names.length) (v : SmNameRow) :
    (s.setRow r v).row r = v := by
  simp [SmState.row, SmState.setRow, h]

theorem row_setRow_ne {s : SmState} {r r' : ℕ} (h : r ≠ r') (v : SmNameRow) :
    (s.setRow r v).row r' = s.row r' := by
  simp [SmState.row, SmState.setRow, List.getElem?_set_ne h]

@[simp] theorem names_length_setRow (s : SmState) (r : ℕ) (v : SmNameRow) :
    (s.setRow r v).names.length = s.names.length := by
  simp [SmState.setRow]

@[simp] theorem row_bumpEv (s : SmState) (e : SmEv) (r : ℕ) : (s.bumpEv e).row r = s.row r := rfl

@[simp] theorem names_bumpEv (s : SmState) (e : SmEv) : (s.bumpEv e).names = s.names := rfl

@[simp] theorem names_smBumpMutation (s : SmState) (who : H160) (h : ℤ) :
    (smBumpMutation s who h).names = s.names := by
  unfold smBumpMutation
  split
  · split <;> rfl
  · rfl

namespace Tracks

variable {s : SmState} {L : Ledger} (t : Tracks s L)

include t

theorem height : L.height = s.curHeight := by rw [← t.obs_eq]; rfl
theorem mtp : L.mtp = s.curMtp := by rw [← t.obs_eq]; rfl
theorem rate : L.rate = s.curRate := by rw [← t.obs_eq]; rfl
theorem activationHeight : L.activationHeight = s.activationHeight := by rw [← t.obs_eq]; rfl
theorem commits : L.commits = s.commits := by rw [← t.obs_eq]; rfl

theorem names (n : Name) : L.names n = (RowTable.lookup SmNameRow.name s.names n).map deed := by
  rw [← t.obs_eq]
  rfl

theorem bumpEv (e : SmEv) : Tracks (s.bumpEv e) L :=
  ⟨⟨t.keyed.names, t.keyed.muts⟩, t.obs_eq⟩

/-! ### Finding rows -/

theorem find_some {n : Name} {r : ℕ} (h : smFindName s n = some r) :
    r < s.names.length ∧ (s.row r).name = n ∧ L.names n = some (deed (s.row r)) := by
  obtain ⟨v, hv, hn, hl⟩ := RowTable.indexOf?_some _ h
  have hr : r < s.names.length := (List.getElem?_eq_some_iff.mp hv).1
  have hrow : s.row r = v := Option.some.inj ((getElem?_row hr).symm.trans hv)
  refine ⟨hr, hrow ▸ hn, ?_⟩
  rw [t.names, hl, hrow]
  rfl

theorem find_none {n : Name} (h : smFindName s n = none) : L.names n = none := by
  rw [t.names, (RowTable.indexOf?_none _).mp h]
  rfl

theorem names_row {r : ℕ} (hr : r < s.names.length) :
    L.names (s.row r).name = some (deed (s.row r)) := by
  rw [t.names, RowTable.lookup_of_getElem? _ t.keyed.names (getElem?_row hr)]
  rfl

theorem lastMutation (who : H160) : smLastMutation s who = L.lastMutation who := by
  rw [← t.obs_eq]
  unfold smLastMutation Ledger.lastMutation
  cases h : RowTable.lookup SmMut.owner s.muts who with
  | none => simp [obs, h]
  | some m => simp [obs, h]

theorem anchorOk (who : H160) (anchor : UInt64) (confirm : ℤ) :
    Fold.anchorOk s who anchor confirm = L.anchorOk who anchor confirm := by
  unfold Fold.anchorOk Ledger.anchorOk
  rw [t.lastMutation]

/-! ### Writing rows -/

theorem setRow {r : ℕ} {v : SmNameRow} (hr : r < s.names.length) (hv : v.name = (s.row r).name) :
    Tracks (s.setRow r v) (L.put v.name (deed v)) := by
  have hget := getElem?_row hr
  refine ⟨⟨RowTable.distinct_set _ t.keyed.names hget hv, t.keyed.muts⟩, ?_⟩
  rw [← t.obs_eq]
  refine Ledger.ext rfl rfl rfl rfl ?_ rfl rfl rfl
  funext n
  change (RowTable.lookup _ (s.names.set r v) n).map deed = _
  rw [RowTable.lookup_set _ t.keyed.names hget hv, Ledger.put_names, hv, Function.update_apply]
  split <;> rfl

theorem remove {r : ℕ} (hr : r < s.names.length) :
    Tracks (smRemoveName s r) (L.erase (s.row r).name) := by
  refine ⟨⟨RowTable.distinct_swapRemove _ t.keyed.names r, t.keyed.muts⟩, ?_⟩
  rw [← t.obs_eq]
  refine Ledger.ext rfl rfl rfl rfl ?_ rfl rfl rfl
  funext n
  change (RowTable.lookup _ (RowTable.swapRemove s.names r) n).map deed = _
  rw [RowTable.lookup_swapRemove _ t.keyed.names (getElem?_row hr), Ledger.erase_names,
    Function.update_apply]
  split <;> rfl

theorem add {n : Name} (hn : L.names n = none) :
    Tracks (smAddName s n).1 (L.put n (deed { name := n })) := by
  have hl : RowTable.lookup SmNameRow.name s.names n = none := by
    rw [t.names] at hn
    simpa using hn
  refine ⟨⟨RowTable.distinct_append _ t.keyed.names hl, t.keyed.muts⟩, ?_⟩
  rw [← t.obs_eq]
  refine Ledger.ext rfl rfl rfl rfl ?_ rfl rfl rfl
  funext m
  change (RowTable.lookup _ (s.names ++ [{ name := n }]) m).map deed = _
  rw [RowTable.lookup_append_single _ hl, Ledger.put_names, Function.update_apply]
  split <;> rfl

theorem bump (who : H160) (h : ℤ) : Tracks (smBumpMutation s who h) (L.bump who h) := by
  have hobs := t.obs_eq
  cases hi : RowTable.indexOf? SmMut.owner s.muts who with
  | none =>
    have hl := (RowTable.indexOf?_none _).mp hi
    have he : smBumpMutation s who h = { s with muts := s.muts ++ [⟨who, h⟩] } := by
      simp [smBumpMutation, hi]
    rw [he]
    refine ⟨⟨t.keyed.names, RowTable.distinct_append _ t.keyed.muts hl⟩, ?_⟩
    rw [← hobs]
    refine Ledger.ext rfl rfl rfl rfl rfl rfl ?_ rfl
    funext w
    change (RowTable.lookup SmMut.owner (s.muts ++ [⟨who, h⟩]) w).map SmMut.height
      = Function.update (obs s).muts who (some (Ledger.raise ((obs s).muts who) h)) w
    rw [RowTable.lookup_append_single _ hl, Function.update_apply]
    split
    · simp [obs, hl, Ledger.raise]
    · rfl
  | some i =>
    obtain ⟨m, hm, hw, hl⟩ := RowTable.indexOf?_some _ hi
    have hget : s.muts.getD i ⟨who, 0⟩ = m := by simp [hm]
    have hmut : (obs s).muts who = some m.height := by simp [obs, hl]
    by_cases hh : h > m.height
    · have he : smBumpMutation s who h = { s with muts := s.muts.set i ⟨who, h⟩ } := by
        simp only [smBumpMutation, hi, hget, if_pos hh]
      rw [he]
      refine ⟨⟨t.keyed.names, RowTable.distinct_set _ t.keyed.muts hm hw.symm⟩,
        ?_⟩
      rw [← hobs]
      refine Ledger.ext rfl rfl rfl rfl rfl rfl ?_ rfl
      funext w
      change (RowTable.lookup SmMut.owner (s.muts.set i ⟨who, h⟩) w).map SmMut.height
        = Function.update (obs s).muts who (some (Ledger.raise ((obs s).muts who) h)) w
      rw [RowTable.lookup_set _ t.keyed.muts hm hw.symm, hw, Function.update_apply, hmut]
      split
      · simp [Ledger.raise]
        omega
      · rfl
    · have he : smBumpMutation s who h = s := by
        simp only [smBumpMutation, hi, hget, if_neg hh]
      rw [he]
      refine ⟨t.keyed, ?_⟩
      rw [← hobs]
      refine Ledger.ext rfl rfl rfl rfl rfl rfl ?_ rfl
      change _ = Function.update (obs s).muts who (some (Ledger.raise ((obs s).muts who) h))
      rw [hmut]
      have hmax : Ledger.raise (some m.height) h = m.height := max_eq_left (by omega)
      rw [hmax, ← hmut, Function.update_eq_self]

theorem setScratch (n : Name) (ch : ℤ) (ti : UInt32) (owner : H160) :
    Tracks (Fold.setScratch s n ch ti owner) (L.setWin n ⟨ch, ti, owner⟩) := by
  unfold Fold.setScratch findScratch
  cases hi : RowTable.indexOf? SmClaimWin.name s.claimsc n with
  | none =>
    have hl := (RowTable.indexOf?_none _).mp hi
    refine ⟨⟨t.keyed.names, t.keyed.muts⟩, ?_⟩
    rw [← t.obs_eq]
    refine Ledger.ext rfl rfl rfl rfl rfl rfl rfl ?_
    funext m
    change (RowTable.lookup SmClaimWin.name (s.claimsc ++ [⟨n, ch, ti, owner⟩]) m).map win
      = Function.update (obs s).scratch n (some ⟨ch, ti, owner⟩) m
    rw [RowTable.lookup_append_single _ hl, Function.update_apply]
    split <;> rfl
  | some i =>
    refine ⟨⟨t.keyed.names, t.keyed.muts⟩, ?_⟩
    rw [← t.obs_eq]
    refine Ledger.ext rfl rfl rfl rfl rfl rfl rfl ?_
    funext m
    change (RowTable.lookup SmClaimWin.name (s.claimsc.set i ⟨n, ch, ti, owner⟩) m).map win
      = Function.update (obs s).scratch n (some ⟨ch, ti, owner⟩) m
    rw [RowTable.lookup_set_indexOf _ hi rfl, Function.update_apply]
    split <;> rfl

theorem scratch_some {n : Name} {i : ℕ} (h : findScratch s n = some i) (d : SmClaimWin) :
    L.scratch n = some (win (s.claimsc.getD i d)) := by
  obtain ⟨w, hw, -, hl⟩ := RowTable.indexOf?_some _ h
  rw [← t.obs_eq]
  simp [obs, hl, hw]

theorem scratch_none {n : Name} (h : findScratch s n = none) : L.scratch n = none := by
  rw [← t.obs_eq]
  simp [obs, (RowTable.indexOf?_none _).mp h]

theorem commitAdd (tx : SmTx) (a : SmAction) :
    Tracks (smCommitAdd s a.commitment s.curHeight tx.txindex s.curMtp) (L.commit tx a) := by
  refine ⟨⟨t.keyed.names, t.keyed.muts⟩, ?_⟩
  rw [← t.obs_eq]
  refine Ledger.ext rfl rfl rfl rfl rfl ?_ rfl rfl
  change ((s.commits ++ [_] : List SmCommit) : Multiset SmCommit) = _ ::ₘ (s.commits : Multiset _)
  rw [Multiset.cons_coe, Multiset.coe_eq_coe]
  exact List.perm_append_singleton _ _

end Tracks

end NamespaceIndexer
