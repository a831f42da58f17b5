import Mathlib.Tactic

/-!
# Encodings that mark their own end

An encoding is delimited when two encoded values with anything after them can
only be one string by being the same, rests included. Such encodings follow one
another and repeat, and what they tell of the values is told by the whole string.
-/

namespace NamespaceIndexer.Lib

variable {α β γ δ σ : Type}

/-- Over the values in `P`, an encoding in front of a string determines `f` of the value and the
rest of the string. -/
def Delimited (P : α → Prop) (enc : α → List σ) (f : α → β) : Prop :=
  ∀ a b x y, P a → P b → enc a ++ x = enc b ++ y → f a = f b ∧ x = y

namespace Delimited

variable {P : α → Prop} {enc enc' : α → List σ} {f : α → β} {g : α → γ}

theorem of_length (n : ℕ) (hlen : ∀ a, P a → (enc a).length = n)
    (hinj : ∀ a b, P a → P b → enc a = enc b → f a = f b) : Delimited P enc f := by
  intro a b x y ha hb h
  obtain ⟨henc, hrest⟩ := List.append_inj h (by rw [hlen a ha, hlen b hb])
  exact ⟨hinj a b ha hb henc, hrest⟩

theorem append (h : Delimited P enc f) (h' : Delimited P enc' g) :
    Delimited P (fun a => enc a ++ enc' a) fun a => (f a, g a) := by
  intro a b x y ha hb heq
  simp only [List.append_assoc] at heq
  obtain ⟨hf, hrest⟩ := h a b _ _ ha hb heq
  obtain ⟨hg, hxy⟩ := h' a b x y ha hb hrest
  exact ⟨Prod.ext hf hg, hxy⟩

/-- The first encoding may say how to read the second. -/
theorem append_of (h : Delimited P enc f)
    (h' : ∀ a b x y, P a → P b → f a = f b → enc' a ++ x = enc' b ++ y → g a = g b ∧ x = y) :
    Delimited P (fun a => enc a ++ enc' a) g := by
  intro a b x y ha hb heq
  simp only [List.append_assoc] at heq
  obtain ⟨hf, hrest⟩ := h a b _ _ ha hb heq
  exact h' a b x y ha hb hf hrest

theorem imp (h : Delimited P enc f) (hg : ∀ a b, P a → P b → f a = f b → g a = g b) :
    Delimited P enc g := by
  intro a b x y ha hb heq
  obtain ⟨hf, hrest⟩ := h a b x y ha hb heq
  exact ⟨hg a b ha hb hf, hrest⟩

theorem comp {Q : δ → Prop} (h : Delimited P enc f) (p : δ → α) (hp : ∀ d, Q d → P (p d)) :
    Delimited Q (fun d => enc (p d)) fun d => f (p d) :=
  fun a b _ _ ha hb heq => h (p a) (p b) _ _ (hp a ha) (hp b hb) heq

theorem inj (h : Delimited P enc f) {a b : α} (ha : P a) (hb : P b) (heq : enc a = enc b) :
    f a = f b := by
  have happ : enc a ++ [] = enc b ++ [] := by rw [heq]
  exact (h a b [] [] ha hb happ).1

/-- No encoding is the beginning of another. -/
theorem eq_of_take (h : Delimited P enc f) {a b : α} {n : ℕ} (ha : P a) (hb : P b)
    (heq : enc a = (enc b).take n) : f a = f b := by
  have happ : enc a ++ (enc b).drop n = enc b ++ [] := by
    rw [heq, List.take_append_drop, List.append_nil]
  exact (h a b _ _ ha hb happ).1

/-- Equally many encodings in a row. -/
theorem flatten (h : Delimited P enc f) {as bs : List α} {x y : List σ}
    (hlen : as.length = bs.length) (has : ∀ a ∈ as, P a) (hbs : ∀ b ∈ bs, P b)
    (heq : (as.map enc).flatten ++ x = (bs.map enc).flatten ++ y) :
    as.map f = bs.map f ∧ x = y := by
  induction as generalizing bs with
  | nil =>
    have hbs0 : bs = [] := List.length_eq_zero_iff.mp hlen.symm
    subst hbs0
    exact ⟨rfl, by simpa using heq⟩
  | cons a as ih =>
    cases bs with
    | nil => simp at hlen
    | cons b bs =>
      simp only [List.map_cons, List.flatten_cons, List.append_assoc] at heq
      obtain ⟨hf, hrest⟩ := h a b _ _ (has a (by simp)) (hbs b (by simp)) heq
      obtain ⟨hmap, hxy⟩ := ih (by simpa using hlen) (fun c hc => has c (by simp [hc]))
        (fun c hc => hbs c (by simp [hc])) hrest
      exact ⟨by simp only [List.map_cons, hf, hmap], hxy⟩

end Delimited

end NamespaceIndexer.Lib
