import Mathlib.Tactic

/-!
# Loops

`while (c s) s = f s`: the states at the head of the loop, and the one it ends in.
-/

namespace NamespaceIndexer.Lib.Loop

variable {σ : Type*} {c : σ → Prop} {f : σ → σ}

/-- The states at the head of the loop that starts in `s`. -/
inductive Visits (c : σ → Prop) (f : σ → σ) (s : σ) : σ → Prop
  | start : Visits c f s s
  | turn {t : σ} (visited : Visits c f s t) (runs : c t) : Visits c f s (f t)

/-- The loop that starts in `s` ends in `t`. -/
def Ends (c : σ → Prop) (f : σ → σ) (s t : σ) : Prop := Visits c f s t ∧ ¬c t

/-- What holds at the start and is kept by every turn holds at the head. -/
theorem Visits.keeps {I : σ → Prop} (hturn : ∀ t, I t → c t → I (f t)) {s t : σ} (hs : I s)
    (h : Visits c f s t) : I t := by
  induction h with
  | start => exact hs
  | turn _ runs ih => exact hturn _ ih runs

theorem Visits.before {s t : σ} (hc : c s) (h : Visits c f (f s) t) : Visits c f s t := by
  induction h with
  | start => exact .turn .start hc
  | turn _ runs ih => exact .turn ih runs

/-- The first turn of a loop that runs. -/
theorem Visits.first {s t : σ} (h : Visits c f s t) : t = s ∨ c s ∧ Visits c f (f s) t := by
  induction h with
  | start => exact Or.inl rfl
  | @turn t _ runs ih =>
    rcases ih with rfl | ⟨hc, h⟩
    · exact Or.inr ⟨runs, .start⟩
    · exact Or.inr ⟨hc, .turn h runs⟩

theorem Ends.done {s : σ} (h : ¬c s) : Ends c f s s := ⟨.start, h⟩

theorem Ends.before {s t : σ} (hc : c s) (h : Ends c f (f s) t) : Ends c f s t :=
  ⟨h.1.before hc, h.2⟩

/-- What is left of a loop that ends, from any state it visits. -/
theorem Ends.after {s t e : σ} (h : Ends c f s e) (hv : Visits c f s t) : Ends c f t e := by
  induction hv with
  | start => exact h
  | @turn t _ runs ih =>
    rcases ih.1.first with rfl | ⟨-, hrest⟩
    · exact absurd runs ih.2
    · exact ⟨hrest, ih.2⟩

/-- A loop ends in one state at most. -/
theorem Ends.unique {s t t' : σ} (h : Ends c f s t) (h' : Ends c f s t') : t = t' := by
  rcases (h'.after h.1).1.first with rfl | ⟨hc, -⟩
  · rfl
  · exact absurd hc h.2

end NamespaceIndexer.Lib.Loop
