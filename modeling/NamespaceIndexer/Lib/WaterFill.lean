import Mathlib.Tactic

/-!
# Water filling

Cells with capacities `h` share `T` units: every cell is filled to one level,
or to its capacity where that is lower, and the units that are left go one each
to the first cells that reach above the level. If there is enough for all, all
are full.
-/

namespace NamespaceIndexer.Lib.WaterFill

/-- Units held when every cell is filled to level `L`. -/
def levelSum (h : List ℕ) (L : ℕ) : ℕ := (h.map fun x => min x L).sum

/-- Number of cells that reach above level `L`. -/
def above (h : List ℕ) (L : ℕ) : ℕ := h.countP fun x => L < x

/-- `L` is the highest level that `T` units can pay. -/
def IsLevel (h : List ℕ) (T L : ℕ) : Prop := levelSum h L ≤ T ∧ T < levelSum h (L + 1)

theorem levelSum_zero (h : List ℕ) : levelSum h 0 = 0 := by
  simp [levelSum]

theorem levelSum_succ (h : List ℕ) (L : ℕ) : levelSum h (L + 1) = levelSum h L + above h L := by
  induction h with
  | nil => rfl
  | cons x h ih =>
    simp only [levelSum, above, List.map_cons, List.sum_cons, List.countP_cons] at ih ⊢
    by_cases hx : L < x
    · simp only [hx, decide_true, if_true]
      omega
    · simp only [hx, decide_false, Bool.false_eq_true, if_false]
      omega

theorem levelSum_mono (h : List ℕ) : Monotone (levelSum h) := by
  refine monotone_nat_of_le_succ fun L => ?_
  rw [levelSum_succ]
  exact Nat.le_add_right _ _

theorem levelSum_of_above {h : List ℕ} {L : ℕ} (ha : above h L = 0) : levelSum h L = h.sum := by
  unfold above at ha
  rw [List.countP_eq_zero] at ha
  unfold levelSum
  congr 1
  refine (List.map_congr_left fun x hx => ?_).trans (List.map_id h)
  have hxL : ¬ L < x := by simpa using ha x hx
  exact Nat.min_eq_left (by omega)

/-- With less than the total capacity, a level that can no longer be raised is the level. -/
theorem isLevel_of_rest {h : List ℕ} {T L pool : ℕ} (hT : T < h.sum) (hs : levelSum h L + pool = T)
    (hp : above h L = 0 ∨ pool < above h L) : IsLevel h T L := by
  rcases hp with h0 | hlt
  · have hfull := levelSum_of_above h0
    omega
  · refine ⟨by omega, ?_⟩
    rw [levelSum_succ]
    omega

theorem IsLevel.unique {h : List ℕ} {T L L' : ℕ} (hL : IsLevel h T L) (hL' : IsLevel h T L') :
    L = L' := by
  have key : ∀ {a b : ℕ}, IsLevel h T a → IsLevel h T b → a ≤ b := by
    intro a b ha hb
    by_contra hlt
    have hm : levelSum h (b + 1) ≤ levelSum h a := levelSum_mono h (by omega)
    have h1 := ha.1
    have h2 := hb.2
    omega
  exact le_antisymm (key hL hL') (key hL' hL)

/-- The highest level at most `T` that `T` units can pay. -/
def level (h : List ℕ) (T : ℕ) : ℕ := Nat.findGreatest (fun L => levelSum h L ≤ T) T

theorem le_levelSum {h : List ℕ} {L : ℕ} (ha : 0 < above h L) : L ≤ levelSum h L := by
  obtain ⟨x, hx, hLx⟩ := List.countP_pos_iff.mp ha
  have hLx' : L < x := by simpa using hLx
  have hmem : min x L ∈ h.map fun x => min x L := List.mem_map_of_mem hx
  have hle := List.le_sum_of_mem hmem
  have hmin : min x L = L := Nat.min_eq_right (by omega)
  unfold levelSum
  omega

theorem isLevel_level {h : List ℕ} {T : ℕ} (hT : T < h.sum) : IsLevel h T (level h T) := by
  have hspec : levelSum h (level h T) ≤ T :=
    Nat.findGreatest_spec (P := fun L => levelSum h L ≤ T) (Nat.zero_le T)
      (by rw [levelSum_zero]; exact Nat.zero_le T)
  refine ⟨hspec, ?_⟩
  by_contra hle
  have hle' : levelSum h (level h T + 1) ≤ T := by omega
  have hpos : 0 < above h (level h T + 1) := by
    rcases Nat.eq_zero_or_pos (above h (level h T + 1)) with h0 | hp
    · have hfull := levelSum_of_above h0
      omega
    · exact hp
  have hbound := le_levelSum hpos
  have hmax : level h T + 1 ≤ level h T := Nat.le_findGreatest (by omega) hle'
  omega

/-- Fill to level `L`, then one unit more to the first `R` cells above it. -/
def topUp (L : ℕ) : List ℕ → ℕ → List ℕ
  | [], _ => []
  | x :: h, R =>
    if 0 < R ∧ L < x then (L + 1) :: topUp L h (R - 1) else min x L :: topUp L h R

/-- The shares of `T` units over capacities `h`. -/
def fill (h : List ℕ) (T : ℕ) : List ℕ :=
  if h.sum ≤ T then h else topUp (level h T) h (T - levelSum h (level h T))

theorem fill_of_isLevel {h : List ℕ} {T L : ℕ} (hT : T < h.sum) (hL : IsLevel h T L) :
    fill h T = topUp L h (T - levelSum h L) := by
  unfold fill
  rw [if_neg (by omega), (isLevel_level hT).unique hL]

theorem levelSum_le_sum (h : List ℕ) (L : ℕ) : levelSum h L ≤ h.sum := by
  induction h with
  | nil => exact le_rfl
  | cons x h ih =>
    have hcons : levelSum (x :: h) L = min x L + levelSum h L := rfl
    rw [List.sum_cons, hcons]
    omega

theorem topUp_zero (L : ℕ) (h : List ℕ) : topUp L h 0 = h.map (min · L) := by
  induction h with
  | nil => rfl
  | cons x h ih =>
    unfold topUp
    rw [if_neg (by omega), ih, List.map_cons]

theorem topUp_full {h : List ℕ} {L : ℕ} (hL : ∀ x ∈ h, x ≤ L) (R : ℕ) : topUp L h R = h := by
  induction h with
  | nil => rfl
  | cons x h ih =>
    have hx := hL x List.mem_cons_self
    unfold topUp
    rw [if_neg (by omega), ih fun y hy => hL y (List.mem_cons_of_mem _ hy), Nat.min_eq_left hx]

theorem fill_zero (h : List ℕ) : fill h 0 = h.map fun _ => 0 := by
  by_cases hsum : h.sum ≤ 0
  · unfold fill
    rw [if_pos hsum]
    refine (List.map_id h).symm.trans (List.map_congr_left fun x hx => ?_)
    exact Nat.le_zero.mp ((List.le_sum_of_mem hx).trans hsum)
  · unfold fill
    have hlevel : level h 0 = 0 := Nat.le_zero.mp (Nat.findGreatest_le 0)
    rw [if_neg hsum, hlevel, Nat.zero_sub, topUp_zero]
    exact List.map_congr_left fun x _ => Nat.min_zero x

/-- The shares from the last level, among those that some cell may reach, that can be paid. -/
theorem topUp_of_last {h : List ℕ} {T L m : ℕ} (hm : ∀ x ∈ h, x ≤ m) (hL : L ≤ m)
    (hpay : levelSum h L ≤ T) (hlast : ∀ x, L < x → x ≤ m → T < levelSum h x) :
    topUp L h (T - levelSum h L) = fill h T := by
  have hfull : levelSum h m = h.sum := by
    apply levelSum_of_above
    rw [above, List.countP_eq_zero]
    intro x hx
    simpa using hm x hx
  by_cases hT : T < h.sum
  · have hne : L ≠ m := by
      rintro rfl
      omega
    rw [fill_of_isLevel hT ⟨hpay, hlast (L + 1) (by omega) (by omega)⟩]
  · have htop : L = m := by
      by_contra hne
      have hlt := hlast (L + 1) (by omega) (by omega)
      have hle := levelSum_le_sum h (L + 1)
      omega
    rw [htop, topUp_full hm, fill, if_pos (by omega)]

theorem topUp_le (L : ℕ) (h : List ℕ) (R : ℕ) : List.Forall₂ (· ≤ ·) (topUp L h R) h := by
  induction h generalizing R with
  | nil => exact List.Forall₂.nil
  | cons x h ih =>
    unfold topUp
    split
    · rename_i hx
      exact List.Forall₂.cons hx.2 (ih _)
    · exact List.Forall₂.cons (Nat.min_le_left x L) (ih _)

/-- No cell gets more than its capacity. -/
theorem fill_le (h : List ℕ) (T : ℕ) : List.Forall₂ (· ≤ ·) (fill h T) h := by
  unfold fill
  split
  · exact List.forall₂_same.mpr fun x _ => Nat.le_refl x
  · exact topUp_le _ _ _

theorem fill_length (h : List ℕ) (T : ℕ) : (fill h T).length = h.length := (fill_le h T).length_eq

theorem fill_singleton (x T : ℕ) : fill [x] T = [min x T] := by
  by_cases hx : x ≤ T
  · unfold fill
    rw [if_pos (by simpa using hx), Nat.min_eq_left hx]
  · have hL : IsLevel [x] T T := by
      simp only [IsLevel, levelSum, List.map_cons, List.map_nil, List.sum_cons, List.sum_nil]
      omega
    have hsum : levelSum [x] T = T := by
      simp only [levelSum, List.map_cons, List.map_nil, List.sum_cons, List.sum_nil]
      omega
    rw [fill_of_isLevel (by simpa using hx) hL, hsum, Nat.sub_self]
    simp [topUp]

/-! ### The shares in closed form -/

theorem isGreatest_of_isLevel {h : List ℕ} {T L : ℕ} (hL : IsLevel h T L) :
    IsGreatest {L | levelSum h L ≤ T} L := by
  refine ⟨hL.1, fun L' hL' => ?_⟩
  by_contra hlt
  have hm : levelSum h (L + 1) ≤ levelSum h L' := levelSum_mono h (by omega)
  have hle : levelSum h L' ≤ T := hL'
  have hgt := hL.2
  omega

theorem levelSum_lt_of_isLevel {h : List ℕ} {T L : ℕ} (hL : IsLevel h T L) :
    T - levelSum h L < above h L := by
  have hs := levelSum_succ h L
  have h1 := hL.1
  have h2 := hL.2
  omega

theorem topUp_sum (L : ℕ) (h : List ℕ) (R : ℕ) :
    (topUp L h R).sum = levelSum h L + min R (above h L) := by
  induction h generalizing R with
  | nil => simp [topUp, levelSum, above]
  | cons x h ih =>
    have hcons : levelSum (x :: h) L = min x L + levelSum h L := rfl
    have hact : above (x :: h) L = above h L + if L < x then 1 else 0 := by
      simp [above, List.countP_cons]
    unfold topUp
    by_cases hx : 0 < R ∧ L < x
    · rw [if_pos hx, List.sum_cons, ih, hcons, hact, if_pos hx.2]
      omega
    · rw [if_neg hx, List.sum_cons, ih, hcons, hact]
      split <;> omega

/-- All units are shared out, or all cells are full. -/
theorem fill_sum (h : List ℕ) (T : ℕ) : (fill h T).sum = min T h.sum := by
  by_cases hT : h.sum ≤ T
  · unfold fill
    rw [if_pos hT, Nat.min_eq_right hT]
  · have hL := isLevel_level (h := h) (T := T) (by omega)
    have hrest := levelSum_lt_of_isLevel hL
    have hle := hL.1
    rw [fill_of_isLevel (by omega) hL, topUp_sum]
    omega

section Keyed

variable {ι κ : Type*} [LinearOrder κ] (key : ι → κ) (h : ι → ℕ)

/-- How many of the cells before `i` in key order reach above level `L`. -/
def rank (cells : List ι) (L : ℕ) (i : ι) : ℕ := cells.countP fun j => key j < key i ∧ L < h j

/-- What a cell gets at level `L` with `R` units over. -/
def portion (cells : List ι) (L R : ℕ) (i : ι) : ℕ :=
  min (h i) L + if L < h i ∧ rank key h cells L i < R then 1 else 0

/-- The share of a cell, whatever the order of the list of cells. -/
def award (cells : List ι) (T : ℕ) (i : ι) : ℕ :=
  let caps := cells.map h
  if caps.sum ≤ T then h i
  else portion key h cells (level caps T) (T - levelSum caps (level caps T)) i

variable {key h}

theorem rank_cons_self {x : ι} {cells : List ι} (hx : ∀ j ∈ cells, key x < key j) (L : ℕ) :
    rank key h (x :: cells) L x = 0 := by
  unfold rank
  rw [List.countP_eq_zero]
  intro j hj
  have hle : key x ≤ key j := by
    rcases List.mem_cons.mp hj with rfl | hj
    · exact le_rfl
    · exact (hx j hj).le
  simp [hle.not_gt]

theorem rank_cons {x i : ι} {cells : List ι} (hx : key x < key i) (L : ℕ) :
    rank key h (x :: cells) L i = rank key h cells L i + if L < h x then 1 else 0 := by
  unfold rank
  simp [List.countP_cons, hx]

theorem topUp_map {cells : List ι} (hs : cells.Pairwise fun a b => key a < key b) (L R : ℕ) :
    topUp L (cells.map h) R = cells.map (portion key h cells L R) := by
  induction cells generalizing R with
  | nil => rfl
  | cons x cells ih =>
    obtain ⟨hx, hs⟩ := List.pairwise_cons.mp hs
    have hself := rank_cons_self (h := h) hx L
    have hrest : ∀ R', (∀ n, n < R' ↔ n + (if L < h x then 1 else 0) < R) →
        cells.map (portion key h cells L R') = cells.map (portion key h (x :: cells) L R) := by
      intro R' hR
      refine List.map_congr_left fun i hi => ?_
      unfold portion
      rw [rank_cons (hx i hi)]
      simp only [hR]
    rw [List.map_cons, List.map_cons]
    unfold topUp
    by_cases hxL : 0 < R ∧ L < h x
    · rw [if_pos hxL, ih hs, hrest]
      · unfold portion
        rw [hself, if_pos hxL.symm, Nat.min_eq_right hxL.2.le]
      · intro n
        rw [if_pos hxL.2]
        omega
    · rw [if_neg hxL, ih hs, hrest]
      · unfold portion
        rw [hself, if_neg fun hc => hxL hc.symm, Nat.add_zero]
      · intro n
        split <;> omega

/-- Over cells in ascending key order the list of shares is the share of each. -/
theorem fill_map {cells : List ι} (hs : cells.Pairwise fun a b => key a < key b) (T : ℕ) :
    fill (cells.map h) T = cells.map (award key h cells T) := by
  unfold fill award
  by_cases hT : (cells.map h).sum ≤ T
  · rw [if_pos hT]
    exact List.map_congr_left fun i _ => by rw [if_pos hT]
  · rw [if_neg hT, topUp_map hs]
    exact List.map_congr_left fun i _ => by rw [if_neg hT]

theorem levelSum_perm {a b : List ℕ} (hp : a.Perm b) : levelSum a = levelSum b := by
  funext L
  exact (hp.map _).sum_eq

theorem award_perm {a b : List ι} (hp : a.Perm b) (T : ℕ) :
    award key h a T = award key h b T := by
  have hcaps : levelSum (a.map h) = levelSum (b.map h) := levelSum_perm (hp.map h)
  have hrank : ∀ L i, rank key h a L i = rank key h b L i := fun L i => hp.countP_eq _
  funext i
  unfold award portion level
  simp only [hcaps, hrank, (hp.map h).sum_eq]

theorem award_congr {h' : ι → ℕ} {cells : List ι} (hh : ∀ j ∈ cells, h j = h' j) {T : ℕ} {i : ι}
    (hi : i ∈ cells) : award key h cells T i = award key h' cells T i := by
  have hcaps : cells.map h = cells.map h' := List.map_congr_left hh
  have hrank : ∀ L, rank key h cells L i = rank key h' cells L i := by
    intro L
    exact List.countP_congr fun j hj => by rw [hh j hj]
  unfold award portion
  simp only [hcaps, hrank, hh i hi]

theorem award_map {ι' : Type*} (f : ι' → ι) (cells : List ι') (T : ℕ) (i : ι') :
    award key h (cells.map f) T (f i) = award (key ∘ f) (h ∘ f) cells T i := by
  unfold award portion rank
  simp only [List.map_map, List.countP_map, Function.comp_def]

theorem award_le (cells : List ι) (T : ℕ) (i : ι) : award key h cells T i ≤ h i := by
  unfold award portion
  simp only
  split
  · exact le_rfl
  · split <;> omega

end Keyed

end NamespaceIndexer.Lib.WaterFill
