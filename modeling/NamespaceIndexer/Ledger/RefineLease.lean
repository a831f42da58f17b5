import NamespaceIndexer.Ledger.Refine

/-!
# The rounds of the water-fill reach the level

Between two rounds every cell stands at one level or at its headroom, and the
days given out so far plus the pool are what was bought. So the loop ends at
the level of `WaterFill`, and the remainder step is its top-up.
-/

namespace NamespaceIndexer

open Fold Lib

/-! ### Rounds -/

/-- All cells filled to level `L`. -/
def atLevel (h : List ℕ) (L : ℕ) : List Cell := h.map fun x => (x, min x L)

theorem active_atLevel (x L : ℕ) : Cell.active (x, min x L) = decide (L < x) := by
  unfold Cell.active
  simp only [decide_eq_decide]
  omega

theorem countP_atLevel (h : List ℕ) (L : ℕ) :
    (atLevel h L).countP Cell.active = WaterFill.above h L := by
  unfold atLevel WaterFill.above
  rw [List.countP_map]
  refine List.countP_congr fun x _ => ?_
  rw [Function.comp_apply, active_atLevel]

theorem give_atLevel (x L share : ℕ) :
    min x L + Cell.give share (x, min x L) = min x (L + share) := by
  unfold Cell.give
  rw [active_atLevel]
  by_cases hx : L < x
  · simp only [hx, decide_true, if_true]
    omega
  · simp only [hx, decide_false, Bool.false_eq_true, if_false]
    omega

/-- A round raises the level by its share. -/
theorem fillRound_atLevel (h : List ℕ) (L share : ℕ) :
    fillRound share (atLevel h L) = atLevel h (L + share) := by
  unfold fillRound atLevel
  rw [List.map_map]
  refine List.map_congr_left fun x _ => ?_
  simp only [Function.comp_apply, give_atLevel]

theorem sum_give_atLevel (h : List ℕ) (L share : ℕ) :
    WaterFill.levelSum h L + ((atLevel h L).map (Cell.give share)).sum
      = WaterFill.levelSum h (L + share) := by
  unfold WaterFill.levelSum atLevel
  induction h with
  | nil => rfl
  | cons x h ih =>
    simp only [List.map_cons, List.sum_cons] at ih ⊢
    have hx := give_atLevel x L share
    omega

/-- A share for every active cell is not more than the pool. -/
theorem sum_give_le (c : List Cell) (share : ℕ) :
    (c.map (Cell.give share)).sum ≤ c.countP Cell.active * share := by
  induction c with
  | nil => simp
  | cons x c ih =>
    simp only [List.map_cons, List.sum_cons, List.countP_cons]
    by_cases hx : x.active
    · have hg : x.give share ≤ share := by
        unfold Cell.give
        rw [if_pos hx]
        exact Nat.min_le_right _ _
      rw [if_pos hx, Nat.add_mul]
      omega
    · have hg : x.give share = 0 := by
        unfold Cell.give
        rw [if_neg hx]
      rw [if_neg hx, Nat.add_zero]
      omega

theorem sum_give_pos {c : List Cell} {share : ℕ} (hs : 0 < share)
    (hc : 0 < c.countP Cell.active) : 0 < (c.map (Cell.give share)).sum := by
  obtain ⟨x, hx, ha⟩ := List.countP_pos_iff.mp hc
  have hle := List.le_sum_of_mem (List.mem_map_of_mem (f := Cell.give share) hx)
  have hpos : 0 < x.give share := by
    unfold Cell.give
    rw [if_pos ha]
    unfold Cell.active at ha
    simp only [decide_eq_true_eq] at ha
    omega
  omega

/-- From a common level with the bought days accounted for, the loop stops at a common level
where the pool cannot pay another round. -/
theorem fillLoop_atLevel (h : List ℕ) (fuel L pool : ℕ) (hf : pool ≤ fuel) :
    ∃ L' pool', fillLoop fuel (atLevel h L) pool = (atLevel h L', pool') ∧
      WaterFill.levelSum h L' + pool' = WaterFill.levelSum h L + pool ∧
      (WaterFill.above h L' = 0 ∨ pool' < WaterFill.above h L') := by
  induction fuel generalizing L pool with
  | zero =>
    refine ⟨L, pool, rfl, rfl, ?_⟩
    omega
  | succ fuel ih =>
    unfold fillLoop
    simp only [countP_atLevel]
    by_cases h0 : WaterFill.above h L = 0 ∨ pool = 0
    · rw [if_pos h0]
      refine ⟨L, pool, rfl, rfl, ?_⟩
      omega
    · rw [if_neg h0]
      have hpos : 0 < WaterFill.above h L := by omega
      by_cases hs : pool / WaterFill.above h L = 0
      · rw [if_pos hs]
        refine ⟨L, pool, rfl, rfl, Or.inr ?_⟩
        exact (Nat.div_eq_zero_iff_lt hpos).mp hs
      · rw [if_neg hs, fillRound_atLevel]
        have hcount := countP_atLevel h L
        have hgive := sum_give_le (atLevel h L) (pool / WaterFill.above h L)
        rw [hcount] at hgive
        have hmul := Nat.mul_div_le pool (WaterFill.above h L)
        have hgpos := sum_give_pos (c := atLevel h L) (Nat.pos_of_ne_zero hs) (by omega)
        have hsum := sum_give_atLevel h L (pool / WaterFill.above h L)
        obtain ⟨L', pool', he, hsum', hstop⟩ := ih (L + pool / WaterFill.above h L)
          (pool - ((atLevel h L).map (Cell.give (pool / WaterFill.above h L))).sum) (by omega)
        exact ⟨L', pool', he, by omega, hstop⟩

theorem fillRemainder_atLevel (h : List ℕ) (L pool : ℕ) :
    (fillRemainder (atLevel h L) pool).map Prod.snd = WaterFill.topUp L h pool := by
  induction h generalizing pool with
  | nil => rfl
  | cons x h ih =>
    change (fillRemainder ((x, min x L) :: atLevel h L) pool).map Prod.snd = _
    unfold fillRemainder WaterFill.topUp
    rw [active_atLevel]
    by_cases hx : 0 < pool ∧ L < x
    · rw [if_pos (by simpa using hx), if_pos hx, List.map_cons, ih]
      have hmin : min x L = L := Nat.min_eq_right (by omega)
      simp only [hmin]
    · rw [if_neg (by simpa using hx), if_neg hx, List.map_cons, ih]

/-- The array `add[]` is the water-fill of the bought days. -/
theorem waterfillDays_eq (h : List ℕ) (T : ℕ) : waterfillDays h T = WaterFill.fill h T := by
  unfold waterfillDays
  by_cases hT : T ≥ h.sum
  · rw [if_pos hT]
    unfold WaterFill.fill
    rw [if_pos hT]
  · rw [if_neg hT]
    have h0 : (h.map fun hd => (hd, 0)) = atLevel h 0 := by simp [atLevel]
    obtain ⟨L, pool, he, hsum, hstop⟩ := fillLoop_atLevel h T 0 T (Nat.le_refl T)
    rw [WaterFill.levelSum_zero, Nat.zero_add] at hsum
    rw [h0, he]
    have hL := WaterFill.isLevel_of_rest (by omega) hsum hstop
    rw [WaterFill.fill_of_isLevel (by omega) hL]
    simp only [fillRemainder_atLevel]
    congr 1
    omega

/-! ### Awarding the days -/

theorem awardRow_eq (s : SmState) (p : ℕ × Cell) :
    ∃ s', (s' = s ∨ s' = s.bumpEv .WATERFILL_CAP) ∧ awardRow s p = s'.setRow p.1
      { s.row p.1 with leaseExpiry := (s.row p.1).leaseExpiry + p.2.2 * billingUnit } := by
  unfold awardRow
  by_cases h : p.2.1 > 0 ∧ p.2.2 = p.2.1
  · exact ⟨_, Or.inr rfl, by simp only [if_pos h, row_bumpEv]⟩
  · exact ⟨_, Or.inl rfl, by simp only [if_neg h]⟩

theorem awardRow_length (s : SmState) (p : ℕ × Cell) :
    (awardRow s p).names.length = s.names.length := by
  obtain ⟨s', h | h, he⟩ := awardRow_eq s p <;> rw [he, names_length_setRow, h]
  rfl

theorem awardRow_name (s : SmState) (p : ℕ × Cell) (r : ℕ) (hp : p.1 < s.names.length) :
    ((awardRow s p).row r).name = (s.row r).name := by
  obtain ⟨s', h, he⟩ := awardRow_eq s p
  have hrow : ∀ r, s'.row r = s.row r := by
    rcases h with rfl | rfl <;> intro r <;> rfl
  have hlen : s'.names.length = s.names.length := by
    rcases h with rfl | rfl <;> rfl
  rw [he]
  by_cases hr : p.1 = r
  · subst hr
    rw [row_setRow_self (by omega)]
  · rw [row_setRow_ne hr, hrow]

namespace Tracks

variable {s : SmState} {L : Ledger}

theorem awardRow (t : Tracks s L) {p : ℕ × Cell} (hp : p.1 < s.names.length) :
    Tracks (Fold.awardRow s p) (L.withNames
      (PartialMap.modify L.names (s.row p.1).name fun d => d.award p.2.2)) := by
  obtain ⟨s', h, he⟩ := awardRow_eq s p
  have t' : Tracks s' L := by
    rcases h with rfl | rfl
    · exact t
    · exact t.bumpEv _
  have hlen : s'.names.length = s.names.length := by
    rcases h with rfl | rfl <;> rfl
  have hrow : s'.row p.1 = s.row p.1 := by
    rcases h with rfl | rfl <;> rfl
  rw [he]
  have hset := t'.setRow (r := p.1) (v := { s.row p.1 with
    leaseExpiry := (s.row p.1).leaseExpiry + p.2.2 * billingUnit }) (by omega) (by rw [hrow])
  have hL : L.put (s.row p.1).name (deed { s.row p.1 with
      leaseExpiry := (s.row p.1).leaseExpiry + p.2.2 * billingUnit }) = L.withNames
        (PartialMap.modify L.names (s.row p.1).name fun d => d.award p.2.2) := by
    unfold Ledger.put Ledger.withNames PartialMap.modify
    rw [t.names_row hp]
    rfl
  rw [← hL]
  exact hset

theorem foldl_awardRow (t : Tracks s L) (z : List (ℕ × Cell))
    (hz : ∀ p ∈ z, p.1 < s.names.length) :
    Tracks (z.foldl Fold.awardRow s) (L.withNames
      ((z.map fun p => ((s.row p.1).name, p.2.2)).foldl
        (fun f q => PartialMap.modify f q.1 fun d => Deed.award d q.2) L.names)) := by
  induction z generalizing s L with
  | nil => exact t
  | cons p z ih =>
    have hp := hz p List.mem_cons_self
    have hname := fun r => awardRow_name s p r hp
    have hstep := ih (t.awardRow hp) fun q hq => by
      rw [awardRow_length]
      exact hz q (List.mem_cons_of_mem _ hq)
    simp only [hname] at hstep
    exact hstep

theorem headroomOf_row (t : Tracks s L) (now : ℤ) {r : ℕ} (hr : r < s.names.length) :
    L.headroomOf now (s.row r).name = headroom now (s.row r).leaseExpiry := by
  unfold Ledger.headroomOf
  rw [t.names_row hr]

theorem nodup_names (t : Tracks s L) {rows : List ℕ} (hr : ∀ r ∈ rows, r < s.names.length)
    (hn : rows.Nodup) : (rows.map fun r => (s.row r).name).Nodup := by
  refine List.Nodup.map_on ?_ hn
  intro r hr1 r' hr2 he
  exact RowTable.index_inj _ t.keyed.names (getElem?_row (hr r hr1)) (getElem?_row (hr r' hr2)) he

/-- `sm_waterfill` extends the leases of the rows' names. -/
theorem waterfill (t : Tracks s L) (now : ℤ) (rate burn : UInt64) (rows : List ℕ)
    (hr : ∀ r ∈ rows, r < s.names.length) (hn : rows.Nodup) :
    Tracks (smWaterfill s now rate burn rows)
      (L.extend now rate burn ((sortByName s rows).map fun r => (s.row r).name)) := by
  unfold smWaterfill
  by_cases h0 : rows.length = 0
  · rw [if_pos h0]
    have hnil : rows = [] := List.length_eq_zero_iff.mp h0
    subst hnil
    exact t
  · rw [if_neg h0]
    have hp : (sortByName s rows).Perm rows := List.perm_insertionSort _ _
    have hr' : ∀ r ∈ sortByName s rows, r < s.names.length := fun r h => hr r (hp.mem_iff.mp h)
    have hn' := t.nodup_names hr' (hp.nodup_iff.mpr hn)
    generalize sortByName s rows = sorted at hr' hn'
    simp only
    set h := sorted.map fun r => headroom now (s.row r).leaseExpiry with hh
    set s1 := if rawT burn rate > h.sum ∧ h.sum > 0 then s.bumpEv .WATERFILL_FORFEIT else s with hs1
    have t1 : Tracks s1 L := by
      rw [hs1]
      split
      · exact t.bumpEv _
      · exact t
    have hrow : ∀ r, s1.row r = s.row r := by
      intro r
      rw [hs1]
      split <;> rfl
    have hlen : s1.names.length = s.names.length := by
      rw [hs1]
      split <;> rfl
    have hheads : (sorted.map fun r => (s.row r).name).map (L.headroomOf now) = h := by
      rw [List.map_map, hh]
      exact List.map_congr_left fun r hr => t.headroomOf_row now (hr' r hr)
    have hfold := t1.foldl_awardRow (sorted.zip (h.zip (waterfillDays h (rawT burn rate))))
      fun p hp => by
        rw [hlen]
        exact hr' p.1 (List.of_mem_zip hp).1
    have hlenDays : (waterfillDays h (rawT burn rate)).length = sorted.length := by
      rw [waterfillDays_eq, WaterFill.fill_length, hh, List.length_map]
    have hzip : (sorted.zip (h.zip (waterfillDays h (rawT burn rate)))).map
        (fun p => ((s1.row p.1).name, p.2.2))
        = (sorted.map fun r => (s.row r).name).zip (waterfillDays h (rawT burn rate)) := by
      simp only [hrow]
      have hsnd : (h.zip (waterfillDays h (rawT burn rate))).map Prod.snd
          = waterfillDays h (rawT burn rate) :=
        List.map_snd_zip (by rw [hlenDays, hh, List.length_map])
      conv_rhs => rw [← hsnd]
      rw [List.zip_map]
      rfl
    rw [hzip, PartialMap.foldl_modify _ (fun k d => Deed.award d k)] at hfold
    · unfold Ledger.extend
      rw [hheads, ← waterfillDays_eq]
      exact hfold
    · rw [List.map_fst_zip (by rw [hlenDays, List.length_map])]
      exact hn'

end Tracks

end NamespaceIndexer
