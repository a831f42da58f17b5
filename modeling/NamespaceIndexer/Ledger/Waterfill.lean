import NamespaceIndexer.Ledger.RefineLease

/-!
# The water-fill in closed form

What `sm_waterfill` adds to each row, without its rounds and its sort: the
level, the units left over at the level, and the rows before it in name order.
-/

namespace NamespaceIndexer

open Fold Lib

/-! ### The rounds end -/

/-- The `for (;;)` of the even fill, from `add[]` and `pool` to one of its breaks. -/
inductive FillRuns : List Cell → ℕ → List Cell × ℕ → Prop where
  | idle {c : List Cell} {pool : ℕ} (h : c.countP Cell.active = 0 ∨ pool = 0) :
      FillRuns c pool (c, pool)
  | broken {c : List Cell} {pool : ℕ} (h : ¬ (c.countP Cell.active = 0 ∨ pool = 0))
      (hs : pool / c.countP Cell.active = 0) : FillRuns c pool (c, pool)
  | round {c : List Cell} {pool : ℕ} {r : List Cell × ℕ}
      (h : ¬ (c.countP Cell.active = 0 ∨ pool = 0)) (hs : pool / c.countP Cell.active ≠ 0)
      (hr : FillRuns (fillRound (pool / c.countP Cell.active) c)
        (pool - (c.map (Cell.give (pool / c.countP Cell.active))).sum) r) : FillRuns c pool r

theorem fillLoop_runs (fuel : ℕ) (c : List Cell) (pool : ℕ) (hf : pool ≤ fuel) :
    FillRuns c pool (fillLoop fuel c pool) := by
  induction fuel generalizing c pool with
  | zero => exact FillRuns.idle (Or.inr (by omega))
  | succ fuel ih =>
    unfold fillLoop
    simp only
    by_cases h0 : c.countP Cell.active = 0 ∨ pool = 0
    · rw [if_pos h0]
      exact FillRuns.idle h0
    · rw [if_neg h0]
      by_cases hs : pool / c.countP Cell.active = 0
      · rw [if_pos hs]
        exact FillRuns.broken h0 hs
      · rw [if_neg hs]
        have hgive := sum_give_pos (c := c) (Nat.pos_of_ne_zero hs) (by omega)
        exact FillRuns.round h0 hs (ih _ _ (by omega))

/-! ### The rows after the awards -/

theorem row_awardRow (s : SmState) (p : ℕ × Cell) (hp : p.1 < s.names.length) (r : ℕ) :
    (awardRow s p).row r = if r = p.1 then
      { s.row r with leaseExpiry := (s.row r).leaseExpiry + p.2.2 * billingUnit } else s.row r := by
  obtain ⟨s', h, he⟩ := awardRow_eq s p
  have hnames : s'.names = s.names := by
    rcases h with rfl | rfl <;> rfl
  have hrow : ∀ r, s'.row r = s.row r := fun r => by simp only [SmState.row, hnames]
  rw [he]
  by_cases hr : r = p.1
  · subst hr
    rw [if_pos rfl, row_setRow_self (by rw [hnames]; exact hp)]
  · rw [if_neg hr, row_setRow_ne (Ne.symm hr), hrow]

theorem row_foldl_awardRow (f : ℕ → Cell) (s : SmState) (rows : List ℕ)
    (hr : ∀ r ∈ rows, r < s.names.length) (hn : rows.Nodup) (r : ℕ) :
    ((rows.map fun r => (r, f r)).foldl awardRow s).row r = if r ∈ rows then
      { s.row r with leaseExpiry := (s.row r).leaseExpiry + (f r).2 * billingUnit }
      else s.row r := by
  induction rows generalizing s with
  | nil => simp
  | cons x rows ih =>
    have hx : x < s.names.length := hr x List.mem_cons_self
    have hrest : ∀ r ∈ rows, r < (awardRow s (x, f x)).names.length := by
      intro r hrr
      rw [awardRow_length]
      exact hr r (List.mem_cons_of_mem _ hrr)
    have hn' := List.nodup_cons.mp hn
    have hhead := row_awardRow s (x, f x) hx r
    rw [List.map_cons, List.foldl_cons, ih _ hrest hn'.2, hhead]
    by_cases hrx : r = x
    · subst hrx
      simp [hn'.1]
    · simp [hrx]

theorem sortByName_perm (s : SmState) (rows : List ℕ) : (sortByName s rows).Perm rows :=
  List.perm_insertionSort _ _

theorem sortByName_pairwise (s : SmState) (rows : List ℕ)
    (hn : (rows.map fun r => (s.row r).name).Nodup) :
    (sortByName s rows).Pairwise fun a b => (s.row a).name < (s.row b).name := by
  have hp := sortByName_perm s rows
  have hle : (sortByName s rows).Pairwise fun a b => (s.row a).name ≤ (s.row b).name := by
    have hmap := List.pairwise_insertionSort (fun a b => (s.row a).name ≤ (s.row b).name) rows
    exact hmap
  have hne : (sortByName s rows).Pairwise fun a b => (s.row a).name ≠ (s.row b).name := by
    have hnd := (hp.map fun r => (s.row r).name).nodup_iff.mpr hn
    exact List.pairwise_map.mp hnd
  exact (hle.and hne).imp fun h => lt_of_le_of_ne h.1 h.2

/-- Days that fit between a lease and the ceiling `now + MAX_LEASE`. -/
def headroomDays (now leaseExpiry : ℤ) : ℕ :=
  ((maxLease - max 0 (leaseExpiry - now)) / billingUnit).toNat

theorem tdiv_unit {x : ℤ} :
    (if x.tdiv billingUnit < 0 then 0 else x.tdiv billingUnit) = ((x / billingUnit).toNat : ℤ) := by
  have hunit : (billingUnit : ℤ) = 86400 := rfl
  rw [hunit]
  by_cases hx : 0 ≤ x
  · rw [Int.tdiv_eq_ediv_of_nonneg hx, if_neg (by omega)]
    omega
  · have hneg : x.tdiv 86400 ≤ 0 := by
      have hpos := Int.tdiv_nonneg (a := -x) (b := 86400) (by omega) (by omega)
      rw [Int.neg_tdiv] at hpos
      omega
    split <;> omega

theorem headroom_eq (now leaseExpiry : ℤ) :
    headroom now leaseExpiry = headroomDays now leaseExpiry := by
  unfold headroom headroomDays
  have hmax : (if leaseExpiry - now < 0 then 0 else leaseExpiry - now)
      = max 0 (leaseExpiry - now) := by
    split <;> omega
  simp only [hmax]
  rw [tdiv_unit, Int.toNat_natCast]

/-- The days of a lease that fit under the ceiling do not take it past the ceiling. -/
theorem lease_le_of_headroomDays {now leaseExpiry : ℤ} {d : ℕ} (hd : 0 < d)
    (hle : d ≤ headroomDays now leaseExpiry) : leaseExpiry + d * billingUnit ≤ now + maxLease := by
  have hunit : (billingUnit : ℤ) = 86400 := rfl
  have hmul : (maxLease - max 0 (leaseExpiry - now)) / 86400 * 86400
      ≤ maxLease - max 0 (leaseExpiry - now) := Int.ediv_mul_le _ (by omega)
  unfold headroomDays at hle
  rw [hunit] at hle ⊢
  omega

/-! ### What the water-fill leaves -/

/-- Days that `sm_waterfill` adds to row `r`. -/
def daysOf (s : SmState) (now : ℤ) (rate burn : UInt64) (rows : List ℕ) : ℕ → ℕ :=
  WaterFill.award (fun r => (s.row r).name) (fun r => headroomDays now (s.row r).leaseExpiry) rows
    (rawT burn rate)

theorem row_smWaterfill (s : SmState) (now : ℤ) (rate burn : UInt64) (rows : List ℕ)
    (hr : ∀ r ∈ rows, r < s.names.length) (hn : (rows.map fun r => (s.row r).name).Nodup) (r : ℕ) :
    (smWaterfill s now rate burn rows).row r = if r ∈ rows then
      { s.row r with leaseExpiry :=
          (s.row r).leaseExpiry + daysOf s now rate burn rows r * billingUnit }
      else s.row r := by
  unfold smWaterfill
  by_cases h0 : rows.length = 0
  · rw [if_pos h0]
    simp [List.length_eq_zero_iff.mp h0]
  · rw [if_neg h0]
    have hp := sortByName_perm s rows
    have hs := sortByName_pairwise s rows hn
    have hdays : daysOf s now rate burn rows = daysOf s now rate burn (sortByName s rows) :=
      WaterFill.award_perm hp.symm _
    have hmem : r ∈ rows ↔ r ∈ sortByName s rows := hp.mem_iff.symm
    have hr' : ∀ r ∈ sortByName s rows, r < s.names.length := fun r h => hr r (hp.mem_iff.mp h)
    have hn' : (sortByName s rows).Nodup := hp.nodup_iff.mpr hn.of_map
    rw [hdays]
    simp only [hmem]
    generalize sortByName s rows = sorted at hs hr' hn'
    simp only [headroom_eq]
    set s1 := if rawT burn rate > (sorted.map fun r => headroomDays now (s.row r).leaseExpiry).sum
      ∧ (sorted.map fun r => headroomDays now (s.row r).leaseExpiry).sum > 0
      then s.bumpEv .WATERFILL_FORFEIT else s with hs1
    have hnames : s1.names = s.names := by
      rw [hs1]
      split <;> rfl
    have hrow : s1.row r = s.row r := by simp only [SmState.row, hnames]
    have hzip : sorted.zip ((sorted.map fun r => headroomDays now (s.row r).leaseExpiry).zip
        (waterfillDays (sorted.map fun r => headroomDays now (s.row r).leaseExpiry)
          (rawT burn rate))) = sorted.map fun r =>
        (r, (headroomDays now (s.row r).leaseExpiry, daysOf s now rate burn sorted r)) := by
      rw [waterfillDays_eq, WaterFill.fill_map hs, List.zip_map', ← List.map_prod_left_eq_zip]
      rfl
    rw [hzip, row_foldl_awardRow _ s1 sorted (by rw [hnames]; exact hr') hn', hrow]

theorem names_length_smWaterfill (s : SmState) (now : ℤ) (rate burn : UInt64) (rows : List ℕ) :
    (smWaterfill s now rate burn rows).names.length = s.names.length := by
  have hfold : ∀ (z : List (ℕ × Cell)) (s : SmState),
      (z.foldl awardRow s).names.length = s.names.length := by
    intro z
    induction z with
    | nil => exact fun _ => rfl
    | cons p z ih => exact fun s => (ih (awardRow s p)).trans (awardRow_length s p)
  unfold smWaterfill
  split
  · rfl
  · simp only [hfold]
    split <;> rfl

/-- The order of the rows does not matter. -/
theorem smWaterfill_perm (s : SmState) (now : ℤ) (rate burn : UInt64) {a b : List ℕ}
    (hn : (a.map fun r => (s.row r).name).Nodup) (hp : b.Perm a) :
    smWaterfill s now rate burn b = smWaterfill s now rate burn a := by
  have hnb : (b.map fun r => (s.row r).name).Nodup := (hp.map _).nodup_iff.mpr hn
  have hsort : sortByName s b = sortByName s a := by
    have hperm := ((sortByName_perm s b).trans hp).trans (sortByName_perm s a).symm
    refine List.Perm.eq_of_pairwise ?_ (sortByName_pairwise s b hnb) (sortByName_pairwise s a hn)
      hperm
    intro x y _ _ hxy hyx
    exact absurd hyx hxy.not_gt
  unfold smWaterfill
  rw [hsort, hp.length_eq]

/-- `sm_waterfill` in closed form, for rows of distinct names. -/
theorem smWaterfill_closed_form (s : SmState) (now : ℤ) (rate burn : UInt64) (rows : List ℕ)
    (hr : ∀ r ∈ rows, r < s.names.length) (hn : (rows.map fun r => (s.row r).name).Nodup)
    (hlease : ∀ r ∈ rows, 0 ≤ (s.row r).leaseExpiry ∧ (s.row r).leaseExpiry < 2 ^ 62)
    (hnow : 0 ≤ now ∧ now < 2 ^ 62) (hrate : 1 ≤ rate) :
    let s' := smWaterfill s now rate burn rows
    let name := fun r => (s.row r).name
    let h := fun r => headroomDays now (s.row r).leaseExpiry
    let T := burn.toNat * leaseQuantum / (rate.toNat * billingUnit)
    (∀ c, FillRuns c T (fillLoop T c T)) ∧
    ∃ days : ℕ → ℕ,
      (∀ r ∈ rows, s'.row r =
        { s.row r with leaseExpiry := (s.row r).leaseExpiry + days r * billingUnit }) ∧
      (∀ r, r ∉ rows → s'.row r = s.row r) ∧
      ((rows.map h).sum ≤ T → ∀ r ∈ rows, days r = h r) ∧
      (T < (rows.map h).sum → ∃ L, IsGreatest {L | (rows.map fun r => min (h r) L).sum ≤ T} L ∧
        ∀ r ∈ rows, days r = min (h r) L +
          if L < h r ∧ (rows.countP fun q => name q < name r ∧ L < h q)
            < T - (rows.map fun r => min (h r) L).sum then 1 else 0) ∧
      (rows.map days).sum = min T (rows.map h).sum ∧
      (∀ r ∈ rows, 0 < days r → (s'.row r).leaseExpiry ≤ now + maxLease) ∧
      (∀ r ∈ rows, 0 ≤ (s'.row r).leaseExpiry ∧ (s'.row r).leaseExpiry < 2 ^ 63) ∧
      ∀ rows', rows'.Perm rows → smWaterfill s now rate burn rows' = s' := by
  intro s' name h T
  have hT : rawT burn rate = T := by
    unfold rawT
    have hne : rate ≠ 0 := by
      rintro rfl
      exact absurd hrate (by decide)
    simp only [if_neg hne]
    rfl
  have hrow : ∀ r ∈ rows, s'.row r =
      { s.row r with leaseExpiry :=
          (s.row r).leaseExpiry + daysOf s now rate burn rows r * billingUnit } := by
    intro r hrr
    exact (row_smWaterfill s now rate burn rows hr hn r).trans (if_pos hrr)
  have hceil : ∀ r ∈ rows, 0 < daysOf s now rate burn rows r →
      (s'.row r).leaseExpiry ≤ now + maxLease := by
    intro r hrr hd
    rw [hrow r hrr]
    exact lease_le_of_headroomDays hd (WaterFill.award_le _ _ _)
  have hlevel : ∀ L, WaterFill.levelSum (rows.map h) L = (rows.map fun r => min (h r) L).sum := by
    intro L
    unfold WaterFill.levelSum
    rw [List.map_map]
    rfl
  have hdays : daysOf s now rate burn rows = WaterFill.award name h rows T := by
    unfold daysOf
    rw [hT]
  have hrank : ∀ L r, WaterFill.rank name h rows L r
      = rows.countP fun q => name q < name r ∧ L < h q := by
    intro L r
    exact List.countP_congr fun q _ => by simp only [decide_eq_true_eq]
  refine ⟨fun c => fillLoop_runs T c T le_rfl, daysOf s now rate burn rows, hrow, ?_, ?_, ?_, ?_,
    hceil, ?_, fun rows' hp => smWaterfill_perm s now rate burn hn hp⟩
  · intro r hrr
    exact (row_smWaterfill s now rate burn rows hr hn r).trans (if_neg hrr)
  · intro hfull r _
    rw [hdays]
    exact if_pos hfull
  · intro hlt
    have hL := WaterFill.isLevel_level hlt
    refine ⟨WaterFill.level (rows.map h) T, ?_, fun r _ => ?_⟩
    · have hgreatest := WaterFill.isGreatest_of_isLevel hL
      simp only [hlevel] at hgreatest
      exact hgreatest
    · rw [hdays]
      refine (if_neg (by omega)).trans ?_
      unfold WaterFill.portion
      simp only [hlevel, hrank]
  · have hp := sortByName_perm s rows
    have hsorted : WaterFill.award name h rows T = WaterFill.award name h (sortByName s rows) T :=
      WaterFill.award_perm hp.symm T
    rw [← (hp.map _).sum_eq, ← (hp.map h).sum_eq, hdays, hsorted,
      ← WaterFill.fill_map (sortByName_pairwise s rows hn), WaterFill.fill_sum]
  · intro r hrr
    have hl := hlease r hrr
    have hmax : maxLease = 31536000 := rfl
    rcases Nat.eq_zero_or_pos (daysOf s now rate burn rows r) with h0 | hpos
    · rw [hrow r hrr, h0]
      simp only [Nat.cast_zero, zero_mul, add_zero]
      omega
    · have hc := hceil r hrr hpos
      have hge : (s.row r).leaseExpiry ≤ (s'.row r).leaseExpiry := by
        rw [hrow r hrr]
        simp only
        have hnn : (0 : ℤ) ≤ (daysOf s now rate burn rows r : ℤ) * billingUnit := by positivity
        omega
      omega

/-- Three leases, the first a day short of the ceiling at time 1000. -/
def threeLeases : SmState :=
  { activationHeight := 0
    names := [{ name := [97], leaseExpiry := 1000 + 364 * 86400 },
      { name := [98], leaseExpiry := 0 }, { name := [99], leaseExpiry := 1000 }] }

theorem smWaterfill_closed_form_sample :
    (∃ days : ℕ → ℕ, (∀ r ∈ [2, 0, 1],
        ((smWaterfill threeLeases 1000 28 4 [2, 0, 1]).row r).leaseExpiry
          = (threeLeases.row r).leaseExpiry + days r * billingUnit) ∧
      ([2, 0, 1].map days).sum = 4) ∧
    smWaterfill threeLeases 1000 28 4 [0, 1, 2] = smWaterfill threeLeases 1000 28 4 [2, 0, 1] := by
  obtain ⟨-, days, hrow, -, -, -, hsum, -, -, hperm⟩ :=
    smWaterfill_closed_form threeLeases 1000 28 4 [2, 0, 1] (by decide) (by decide) (by decide)
      (by decide) (by decide)
  refine ⟨⟨days, fun r hr => by rw [hrow r hr], ?_⟩, hperm [0, 1, 2] (by decide)⟩
  rw [hsum]
  decide +kernel

end NamespaceIndexer
