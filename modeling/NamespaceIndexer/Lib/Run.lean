import Mathlib.Tactic

/-!
# Runs of a step function

What each step of a run meets, and what every state of it meets.
-/

namespace NamespaceIndexer.Lib.Run

variable {σ α : Type} (step : σ → α → σ)

/-- Each step meets `P` in the state it is taken in. -/
def Along (P : σ → α → Prop) : σ → List α → Prop
  | _, [] => True
  | s, a :: as => P s a ∧ Along P (step s a) as

instance decidableAlong {P : σ → α → Prop} [∀ s a, Decidable (P s a)] :
    (s : σ) → (as : List α) → Decidable (Along step P s as)
  | _, [] => isTrue trivial
  | s, a :: as =>
    have := decidableAlong (P := P) (step s a) as
    inferInstanceAs (Decidable (P s a ∧ Along step P (step s a) as))

/-- Every state of the run meets `Q`. -/
def Throughout (Q : σ → Prop) : σ → List α → Prop
  | s, [] => Q s
  | s, a :: as => Q s ∧ Throughout Q (step s a) as

variable {step}

/-- What holds at the start and is kept by the steps holds throughout. -/
theorem throughout_of_keeps {P : σ → α → Prop} {I Q : σ → Prop}
    (hstep : ∀ s a, I s → P s a → I (step s a)) (hQ : ∀ s, I s → Q s) (as : List α) {s : σ}
    (hs : I s) (h : Along step P s as) : Throughout step Q s as := by
  induction as generalizing s with
  | nil => exact hQ s hs
  | cons a as ih => exact ⟨hQ s hs, ih (hstep s a hs h.1) h.2⟩

/-- What an invariant gives for each step holds along the run. -/
theorem along_of_keeps {P R : σ → α → Prop} {I : σ → Prop}
    (hstep : ∀ s a, I s → P s a → I (step s a) ∧ R s a) (as : List α) {s : σ} (hs : I s)
    (h : Along step P s as) : Along step R s as := by
  induction as generalizing s with
  | nil => trivial
  | cons a as ih =>
    obtain ⟨hnext, hthis⟩ := hstep s a hs h.1
    exact ⟨hthis, ih hnext h.2⟩

/-- What holds throughout holds at the end. -/
theorem Throughout.last {Q : σ → Prop} {as : List α} {s : σ} (h : Throughout step Q s as) :
    Q (as.foldl step s) := by
  induction as generalizing s with
  | nil => exact h
  | cons a as ih => exact ih h.2

theorem Along.mono {P P' : σ → α → Prop} (h : ∀ s a, P s a → P' s a) {as : List α} {s : σ}
    (hs : Along step P s as) : Along step P' s as := by
  induction as generalizing s with
  | nil => trivial
  | cons a as ih => exact ⟨h s a hs.1, ih hs.2⟩

theorem along_append {P : σ → α → Prop} {as bs : List α} {s : σ} :
    Along step P s (as ++ bs) ↔ Along step P s as ∧ Along step P (as.foldl step s) bs := by
  induction as generalizing s with
  | nil => exact (and_iff_right trivial).symm
  | cons a as ih =>
    rw [List.cons_append, Along, Along, ih, and_assoc]
    rfl

theorem along_of_forall {P : σ → α → Prop} (h : ∀ s a, P s a) (as : List α) (s : σ) :
    Along step P s as := by
  induction as generalizing s with
  | nil => trivial
  | cons a as ih => exact ⟨h s a, ih _⟩

/-! ### What the steps put out -/

section Outputs

variable (step) {β : Type} (out : σ → α → List β)

/-- What the steps of a run put out, in order. -/
def outputs : σ → List α → List β
  | _, [] => []
  | s, a :: as => out s a ++ outputs (step s a) as

variable {step out}

/-- Where every step adds to a measure at most what its outputs are worth, so does the run. -/
theorem measure_le_outputs {I : σ → Prop} {P : σ → α → Prop} (measure : σ → ℕ) (worth : β → ℕ)
    (hstep : ∀ s a, I s → P s a →
      I (step s a) ∧ measure (step s a) ≤ measure s + ((out s a).map worth).sum)
    (as : List α) {s : σ} (hs : I s) (h : Along step P s as) :
    measure (as.foldl step s) ≤ measure s + ((outputs step out s as).map worth).sum := by
  induction as generalizing s with
  | nil => exact Nat.le_add_right _ _
  | cons a as ih =>
    obtain ⟨hnext, hle⟩ := hstep s a hs h.1
    have hrest := ih hnext h.2
    rw [outputs, List.map_append, List.sum_append]
    exact hrest.trans (by omega)

end Outputs

/-! ### What the states stand for -/

/-- Where every step takes a state that stands for a value to one that stands for a related value, so does
the run, value by value. `I` and `R` may look at what the run has taken so far. -/
theorem exists_trace {γ : Type} {I : List α → σ → γ → Prop} {R : List α → γ → γ → Prop}
    (hstep : ∀ seen s g a, I seen s g → ∃ g', I (seen ++ [a]) (step s a) g' ∧ R (seen ++ [a]) g g')
    (as : List α) {s : σ} {g : γ} (hs : I [] s g) :
    ∃ gs : ℕ → γ, gs 0 = g ∧
      (∀ i ≤ as.length, I (as.take i) ((as.take i).foldl step s) (gs i)) ∧
      ∀ i < as.length, R (as.take (i + 1)) (gs i) (gs (i + 1)) := by
  induction as using List.reverseRecOn with
  | nil =>
    refine ⟨fun _ => g, rfl, fun i _ => ?_, fun i hi => absurd hi (Nat.not_lt_zero i)⟩
    rw [List.take_nil]
    exact hs
  | append_singleton as a ih =>
    obtain ⟨gs, hstart, hstands, hsteps⟩ := ih
    have hlast := hstands as.length le_rfl
    rw [List.take_length] at hlast
    obtain ⟨g', hnext, hrel⟩ := hstep as _ _ a hlast
    -- the values so far, then the one of the last step
    refine ⟨fun i => if i ≤ as.length then gs i else g', hstart, fun i hi => ?_, fun i hi => ?_⟩
    · dsimp only
      by_cases hle : i ≤ as.length
      · rw [if_pos hle, List.take_append_of_le_length hle]
        exact hstands i hle
      · rw [if_neg hle, List.take_of_length_le (by rw [List.length_append, List.length_singleton]; omega),
          List.foldl_append]
        exact hnext
    · dsimp only
      rw [List.length_append, List.length_singleton] at hi
      by_cases hlt : i < as.length
      · rw [if_pos hlt.le, if_pos (by omega), List.take_append_of_le_length (by omega)]
        exact hsteps i hlt
      · obtain rfl : i = as.length := by omega
        rw [if_pos le_rfl, if_neg (by omega), List.take_of_length_le (by simp)]
        exact hrel

end NamespaceIndexer.Lib.Run
