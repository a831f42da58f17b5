import Mathlib.Data.List.GetD
import Mathlib.Tactic

/-!
# Elements of a given rank

The element of rank `k` of a list is the one at position `k` of the sorted list.
It is below a bound exactly when more than `k` elements are, so replacing an
element by one that is at least the element of rank `k` does not lower it.
-/

namespace NamespaceIndexer.Lib.Rank

variable {α : Type} [LinearOrder α]

/-- The element of rank `k`. -/
def ofRank (l : List α) (k : ℕ) (d : α) : α := (l.insertionSort (· ≤ ·)).getD k d

/-- In a sorted list the elements with a downward closed property come first. -/
theorem sorted_getD_iff {p : α → Bool} (hp : ∀ a b, a ≤ b → p b = true → p a = true) {l : List α}
    (hl : l.Pairwise (· ≤ ·)) {k : ℕ} (hk : k < l.length) (d : α) :
    p (l.getD k d) = true ↔ k < l.countP p := by
  induction l generalizing k with
  | nil => simp at hk
  | cons a l ih =>
    obtain ⟨ha, hl'⟩ := List.pairwise_cons.mp hl
    by_cases hav : p a = true
    · rw [List.countP_cons_of_pos hav]
      cases k with
      | zero => simpa using hav
      | succ k =>
        have hk' : k < l.length := by simpa using hk
        have hrest := ih hl' hk'
        rw [List.getD_cons_succ, hrest]
        omega
    · have hnone : (a :: l).countP p = 0 := by
        rw [List.countP_eq_zero]
        intro x hx hpx
        rcases List.mem_cons.mp hx with rfl | hx
        · exact hav hpx
        · exact hav (hp a x (ha x hx) hpx)
      have hmem : (a :: l).getD k d ∈ a :: l := by
        rw [List.getD_eq_getElem?_getD, List.getElem?_eq_getElem hk]
        exact List.getElem_mem hk
      have hge : ¬ p ((a :: l).getD k d) = true := by
        rw [List.countP_eq_zero] at hnone
        exact hnone _ hmem
      rw [hnone]
      exact ⟨fun h => absurd h hge, fun h => absurd h (Nat.not_lt_zero k)⟩

theorem ofRank_iff {p : α → Bool} (hp : ∀ a b, a ≤ b → p b = true → p a = true) {l : List α}
    {k : ℕ} (hk : k < l.length) (d : α) : p (ofRank l k d) = true ↔ k < l.countP p := by
  have hperm := List.perm_insertionSort (· ≤ ·) l
  have hsorted := List.pairwise_insertionSort (· ≤ ·) l
  unfold ofRank
  rw [sorted_getD_iff hp hsorted (by rw [hperm.length_eq]; exact hk), hperm.countP_eq]

theorem ofRank_lt_iff {l : List α} {k : ℕ} (hk : k < l.length) (d v : α) :
    ofRank l k d < v ↔ k < l.countP fun x => decide (x < v) := by
  have hiff := ofRank_iff (p := fun x => decide (x < v)) (fun a b hab hb => by
    simp only [decide_eq_true_eq] at hb ⊢
    exact lt_of_le_of_lt hab hb) hk d
  simpa only [decide_eq_true_eq] using hiff

theorem ofRank_le_iff {l : List α} {k : ℕ} (hk : k < l.length) (d v : α) :
    ofRank l k d ≤ v ↔ k < l.countP fun x => decide (x ≤ v) := by
  have hiff := ofRank_iff (p := fun x => decide (x ≤ v)) (fun a b hab hb => by
    simp only [decide_eq_true_eq] at hb ⊢
    exact le_trans hab hb) hk d
  simpa only [decide_eq_true_eq] using hiff

theorem ofRank_mem {l : List α} {k : ℕ} (hk : k < l.length) (d : α) : ofRank l k d ∈ l := by
  have hperm := List.perm_insertionSort (· ≤ ·) l
  have hk' : k < (l.insertionSort (· ≤ ·)).length := by
    rw [hperm.length_eq]
    exact hk
  unfold ofRank
  rw [List.getD_eq_getElem?_getD, List.getElem?_eq_getElem hk', ← hperm.mem_iff]
  exact List.getElem_mem hk'

theorem ofRank_perm {l l' : List α} (h : l.Perm l') (k : ℕ) (d : α) :
    ofRank l k d = ofRank l' k d := by
  have hsorted : l.insertionSort (· ≤ ·) = l'.insertionSort (· ≤ ·) := by
    refine List.Perm.eq_of_pairwise (fun a b _ _ hab hba => le_antisymm hab hba)
      (List.pairwise_insertionSort _ l) (List.pairwise_insertionSort _ l') ?_
    exact (List.perm_insertionSort _ l).trans (h.trans (List.perm_insertionSort _ l').symm)
  unfold ofRank
  rw [hsorted]

/-- A window slides: its oldest element goes, and one that is not below the element of rank `k`
comes. -/
theorem ofRank_slide {a x : α} {m : List α} {k : ℕ} (hk : k < m.length + 1) (d : α)
    (hx : ofRank (a :: m) k d ≤ x) : ofRank (a :: m) k d ≤ ofRank (m ++ [x]) k d := by
  by_contra hlt
  rw [not_le, ofRank_lt_iff (by simpa using hk)] at hlt
  have hnot : ¬ ofRank (a :: m) k d < ofRank (a :: m) k d := lt_irrefl _
  rw [ofRank_lt_iff (by simpa using hk)] at hnot
  have hnew : [x].countP (fun y => decide (y < ofRank (a :: m) k d)) = 0 := by
    simpa using hx
  rw [List.countP_append, hnew] at hlt
  rw [List.countP_cons] at hnot
  omega

/-- The lower median. -/
def lowerMedian (l : List α) (d : α) : α := ofRank l ((l.length - 1) / 2) d

/-- A strict majority of the elements holds the lower median between two of its own. -/
theorem lowerMedian_majority {l s t : List α} (h : l.Perm (s ++ t)) (hst : t.length < s.length)
    (d : α) : ∃ a ∈ s, ∃ b ∈ s, a ≤ lowerMedian l d ∧ lowerMedian l d ≤ b := by
  have hlen : l.length = s.length + t.length := by rw [h.length_eq, List.length_append]
  have hk : (l.length - 1) / 2 < l.length := by omega
  have hlow : ∃ a ∈ s, a ≤ lowerMedian l d := by
    by_contra hnone
    push Not at hnone
    -- what is not above the median lies in the minority
    have hcount := (ofRank_le_iff hk d _).mp (le_refl (lowerMedian l d))
    have hs : s.countP (fun x => decide (x ≤ lowerMedian l d)) = 0 := by
      rw [List.countP_eq_zero]
      intro x hx
      simpa using hnone x hx
    rw [h.countP_eq, List.countP_append, hs] at hcount
    have ht := List.countP_le_length (p := fun x => decide (x ≤ lowerMedian l d)) (l := t)
    omega
  have hhigh : ∃ b ∈ s, lowerMedian l d ≤ b := by
    by_contra hnone
    push Not at hnone
    have hs : s.countP (fun x => decide (x < lowerMedian l d)) = s.length := by
      rw [List.countP_eq_length]
      intro x hx
      simpa using hnone x hx
    have hlt : ofRank l ((l.length - 1) / 2) d < lowerMedian l d := by
      rw [ofRank_lt_iff hk, h.countP_eq, List.countP_append, hs]
      omega
    exact lt_irrefl _ hlt
  obtain ⟨a, ha, hal⟩ := hlow
  obtain ⟨b, hb, hbl⟩ := hhigh
  exact ⟨a, ha, b, hb, hal, hbl⟩

end NamespaceIndexer.Lib.Rank
