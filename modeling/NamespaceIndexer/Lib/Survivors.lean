import Mathlib.Tactic

/-!
# What a fold leaves in a table

A step of a fold takes some entries out of a table and puts others in. What is
there at the end was there at the start, or was put in by some step, and no step
after that took it out.
-/

namespace NamespaceIndexer.Lib.Survivors

variable {α β γ : Type} {f : β → α → β} {table : β → γ → Prop} {keep : α → γ → Prop}
  {emit : β → α → γ → Prop} {good : β → Prop}

/-- `c` was put in by some step over `l`, and no step after it took it out. -/
def Emitted (f : β → α → β) (keep : α → γ → Prop) (emit : β → α → γ → Prop) (b : β) (l : List α)
    (c : γ) : Prop :=
  ∃ pre a post, l = pre ++ a :: post ∧ emit (pre.foldl f b) a c ∧ ∀ a' ∈ post, keep a' c

theorem not_emitted_nil {b : β} {c : γ} : ¬ Emitted f keep emit b [] c := by
  rintro ⟨pre, a, post, h, -⟩
  cases pre <;> cases h

/-- The first step, or one after it. -/
theorem emitted_cons {b : β} {a : α} {l : List α} {c : γ} :
    Emitted f keep emit b (a :: l) c ↔
      (emit b a c ∧ ∀ a' ∈ l, keep a' c) ∨ Emitted f keep emit (f b a) l c := by
  constructor
  · rintro ⟨pre, x, post, h, hx, hpost⟩
    cases pre with
    | nil =>
      cases h
      exact Or.inl ⟨hx, hpost⟩
    | cons y pre =>
      cases h
      exact Or.inr ⟨pre, x, post, rfl, hx, hpost⟩
  · rintro (⟨ha, hl⟩ | ⟨pre, x, post, rfl, hx, hpost⟩)
    · exact ⟨[], a, l, rfl, ha, hl⟩
    · exact ⟨a :: pre, x, post, rfl, hx, hpost⟩

variable (table keep emit good)

/-- The table at the end of a fold, from what one step does to it. -/
theorem mem_foldl (hgood : ∀ b a, good b → good (f b a))
    (hstep : ∀ b a c, good b → (table (f b a) c ↔ (table b c ∧ keep a c) ∨ emit b a c))
    (l : List α) {b : β} (hb : good b) (c : γ) :
    table (l.foldl f b) c ↔
      (table b c ∧ ∀ a ∈ l, keep a c) ∨ Emitted f keep emit b l c := by
  induction l generalizing b with
  | nil =>
    rw [or_iff_left not_emitted_nil]
    simp
  | cons a l ih =>
    rw [List.foldl_cons, ih (hgood b a hb), emitted_cons, hstep b a c hb, List.forall_mem_cons]
    tauto

/-- Where no step takes anything out. -/
theorem mem_foldl_of_keep (hgood : ∀ b a, good b → good (f b a))
    (hstep : ∀ b a c, good b → (table (f b a) c ↔ table b c ∨ emit b a c))
    (l : List α) {b : β} (hb : good b) (c : γ) :
    table (l.foldl f b) c ↔
      table b c ∨ ∃ pre a post, l = pre ++ a :: post ∧ emit (pre.foldl f b) a c := by
  have h := mem_foldl table (fun _ _ => True) emit good hgood
    (fun b a c hb => by rw [and_true]; exact hstep b a c hb) l hb c
  simpa [Emitted] using h

end NamespaceIndexer.Lib.Survivors
