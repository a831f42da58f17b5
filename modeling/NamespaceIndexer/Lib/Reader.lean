import Mathlib.Tactic

/-!
# Readers that consume a prefix

A reader takes a value off the front of a list of symbols, or fails. A reader is
local when what it returns depends only on the symbols it consumes; two readers
march together when they consume the same symbols wherever both succeed.
-/

namespace NamespaceIndexer.Lib

/-- A value read off the front, with what is left. -/
abbrev Reader (σ α : Type) := StateT (List σ) Option α

namespace Reader

variable {σ α β γ δ : Type}

/-- The next `n` symbols. -/
def take (n : ℕ) : Reader σ (List σ) := fun s =>
  if n ≤ s.length then some (s.take n, s.drop n) else none

/-- Fail unless `p`. -/
def require (p : Bool) : Reader σ Unit := fun s => if p then some ((), s) else none

/-- `n` values in a row. -/
def replicate (p : Reader σ α) : ℕ → Reader σ (List α)
  | 0 => pure []
  | n + 1 => do
    let a ← p
    let as ← replicate p n
    pure (a :: as)

/-- What the reader returns, with the symbols it consumes. -/
def span (p : Reader σ α) : Reader σ (α × List σ) := fun s =>
  match p s with
  | none => none
  | some (a, r) => some ((a, s.take (s.length - r.length)), r)

/-- What the reader returns is determined by the symbols it consumes. -/
def Local (p : Reader σ α) : Prop :=
  ∀ s a r, p s = some (a, r) → ∃ c, s = c ++ r ∧ ∀ r', p (c ++ r') = some (a, r')

/-- Wherever both readers succeed they consume the same, and return related values. -/
def March (R : α → β → Prop) (p : Reader σ α) (q : Reader σ β) : Prop :=
  ∀ s a r b r', p s = some (a, r) → q s = some (b, r') → R a b ∧ r = r'

/-- Wherever the first reader succeeds the second does, over the same symbols. -/
def Follows (R : α → β → Prop) (p : Reader σ α) (q : Reader σ β) : Prop :=
  ∀ s a r, p s = some (a, r) → ∃ b, q s = some (b, r) ∧ R a b

theorem bind_eq_some {p : Reader σ α} {f : α → Reader σ β} {s r : List σ} {b : β} :
    (p >>= f) s = some (b, r) ↔ ∃ a t, p s = some (a, t) ∧ f a t = some (b, r) := by
  change (p s >>= fun x => f x.1 x.2) = some (b, r) ↔ _
  rw [Option.bind_eq_bind, Option.bind_eq_some_iff]
  exact ⟨fun ⟨⟨a, t⟩, h, h'⟩ => ⟨a, t, h, h'⟩, fun ⟨a, t, h, h'⟩ => ⟨(a, t), h, h'⟩⟩

theorem pure_eq_some {a b : α} {s r : List σ} :
    (pure a : Reader σ α) s = some (b, r) ↔ a = b ∧ s = r := by
  change some (a, s) = some (b, r) ↔ _
  rw [Option.some_inj, Prod.mk.injEq]

theorem take_eq_some {n : ℕ} {s a r : List σ} :
    take n s = some (a, r) ↔ s = a ++ r ∧ a.length = n := by
  unfold take
  by_cases h : n ≤ s.length
  · rw [if_pos h, Option.some_inj, Prod.mk.injEq]
    constructor
    · rintro ⟨rfl, rfl⟩
      exact ⟨(List.take_append_drop n s).symm, List.length_take_of_le h⟩
    · rintro ⟨rfl, rfl⟩
      exact ⟨List.take_left, List.drop_left⟩
  · rw [if_neg h]
    constructor
    · intro hn
      cases hn
    · rintro ⟨rfl, rfl⟩
      rw [List.length_append] at h
      omega

theorem require_eq_some {p : Bool} {s r : List σ} {u : Unit} :
    require p s = some (u, r) ↔ p = true ∧ s = r := by
  unfold require
  by_cases hp : p = true
  · rw [if_pos hp, Option.some_inj, Prod.mk.injEq]
    exact ⟨fun h => ⟨hp, h.2⟩, fun h => ⟨rfl, h.2⟩⟩
  · rw [if_neg hp]
    exact ⟨fun h => (Option.some_ne_none _ h.symm).elim, fun h => (hp h.1).elim⟩

theorem span_eq_some {p : Reader σ α} {s r : List σ} {b : α × List σ} :
    span p s = some (b, r) ↔ p s = some (b.1, r) ∧ b.2 = s.take (s.length - r.length) := by
  unfold span
  cases h : p s with
  | none => simp
  | some o =>
    obtain ⟨a, t⟩ := o
    simp only [Option.some_inj, Prod.ext_iff]
    constructor
    · rintro ⟨⟨ha, hb⟩, rfl⟩
      exact ⟨⟨ha, rfl⟩, hb.symm⟩
    · rintro ⟨⟨ha, rfl⟩, hb⟩
      exact ⟨⟨ha, hb.symm⟩, rfl⟩

/-! ### Local readers -/

theorem Local.pure (a : α) : Local (pure a : Reader σ α) := by
  intro s b r h
  obtain ⟨rfl, rfl⟩ := pure_eq_some.mp h
  exact ⟨[], rfl, fun r' => pure_eq_some.mpr ⟨rfl, rfl⟩⟩

theorem Local.bind {p : Reader σ α} {f : α → Reader σ β} (hp : Local p) (hf : ∀ a, Local (f a)) :
    Local (p >>= f) := by
  intro s b r h
  obtain ⟨a, t, h1, h2⟩ := bind_eq_some.mp h
  obtain ⟨c1, rfl, hc1⟩ := hp s a t h1
  obtain ⟨c2, rfl, hc2⟩ := hf a t b r h2
  refine ⟨c1 ++ c2, (List.append_assoc ..).symm, fun r' => bind_eq_some.mpr ?_⟩
  exact ⟨a, c2 ++ r', by rw [List.append_assoc]; exact hc1 _, hc2 r'⟩

theorem Local.take (n : ℕ) : Local (take n : Reader σ (List σ)) := by
  intro s a r h
  obtain ⟨hs, hn⟩ := take_eq_some.mp h
  exact ⟨a, hs, fun r' => take_eq_some.mpr ⟨rfl, hn⟩⟩

theorem Local.require (p : Bool) : Local (require p : Reader σ Unit) := by
  intro s a r h
  obtain ⟨hp, rfl⟩ := require_eq_some.mp h
  exact ⟨[], rfl, fun r' => require_eq_some.mpr ⟨hp, rfl⟩⟩

theorem Local.replicate {p : Reader σ α} (hp : Local p) (n : ℕ) : Local (replicate p n) := by
  induction n with
  | zero => exact Local.pure []
  | succ n ih => exact hp.bind fun a => ih.bind fun as => Local.pure (a :: as)

theorem Local.ite {p q : Reader σ α} (b : Prop) [Decidable b] (hp : Local p) (hq : Local q) :
    Local (if b then p else q) := by
  by_cases hb : b
  · rw [if_pos hb]
    exact hp
  · rw [if_neg hb]
    exact hq

theorem Local.span {p : Reader σ α} (hp : Local p) : Local (span p) := by
  intro s a r h
  obtain ⟨h1, h2⟩ := span_eq_some.mp h
  obtain ⟨c, rfl, hc⟩ := hp s a.1 r h1
  have ha : a.2 = c := by simpa using h2
  refine ⟨c, rfl, fun r' => span_eq_some.mpr ⟨hc r', ?_⟩⟩
  simpa using ha

/-- A local reader reads again what it consumed, whatever follows. -/
theorem Local.span_again {p : Reader σ α} (hp : Local p) {s c r : List σ} {a : α}
    (h : Reader.span p s = some ((a, c), r)) : s = c ++ r ∧ ∀ r', p (c ++ r') = some (a, r') := by
  obtain ⟨h1, h2⟩ := span_eq_some.mp h
  obtain ⟨c', rfl, hc⟩ := hp s a r h1
  have hcut : c = c' := by simpa using h2
  rw [hcut]
  exact ⟨rfl, hc⟩

/-- A local reader leaves an end of what it was given. -/
theorem Local.length_le {p : Reader σ α} (hp : Local p) {s r : List σ} {a : α}
    (h : p s = some (a, r)) : r.length ≤ s.length := by
  obtain ⟨c, rfl, -⟩ := hp s a r h
  rw [List.length_append]
  omega

/-! ### Readers that march together -/

theorem March.pure {R : α → β → Prop} {a : α} {b : β} (h : R a b) :
    March R (pure a : Reader σ α) (pure b) := by
  intro s a' r b' r' h1 h2
  obtain ⟨rfl, rfl⟩ := pure_eq_some.mp h1
  obtain ⟨rfl, rfl⟩ := pure_eq_some.mp h2
  exact ⟨h, rfl⟩

theorem March.bind {R : α → β → Prop} {S : γ → δ → Prop} {p : Reader σ α} {q : Reader σ β}
    {f : α → Reader σ γ} {g : β → Reader σ δ} (h : March R p q)
    (hfg : ∀ a b, R a b → March S (f a) (g b)) : March S (p >>= f) (q >>= g) := by
  intro s c r d r' h1 h2
  obtain ⟨a, t, ha, hc⟩ := bind_eq_some.mp h1
  obtain ⟨b, t', hb, hd⟩ := bind_eq_some.mp h2
  obtain ⟨hR, rfl⟩ := h s a t b t' ha hb
  exact hfg a b hR t c r d r' hc hd

theorem March.refl (p : Reader σ α) : March (fun a b => a = b) p p := by
  intro s a r b r' h1 h2
  rw [h1, Option.some_inj, Prod.mk.injEq] at h2
  exact h2

theorem March.mono {R S : α → β → Prop} {p : Reader σ α} {q : Reader σ β} (h : March R p q)
    (hRS : ∀ a b, R a b → S a b) : March S p q := by
  intro s a r b r' h1 h2
  obtain ⟨hR, hr⟩ := h s a r b r' h1 h2
  exact ⟨hRS a b hR, hr⟩

theorem March.requireLeft {R : α → β → Prop} {b : Bool} {p : Reader σ α} {q : Reader σ β}
    (h : b = true → March R p q) : March R (require b >>= fun _ => p) q := by
  intro s a r a' r' h1 h2
  obtain ⟨u, t, hu, hp⟩ := bind_eq_some.mp h1
  obtain ⟨hb, rfl⟩ := require_eq_some.mp hu
  exact h hb s a r a' r' hp h2

theorem March.requireRight {R : α → β → Prop} {b : Bool} {p : Reader σ α} {q : Reader σ β}
    (h : b = true → March R p q) : March R p (require b >>= fun _ => q) := by
  intro s a r a' r' h1 h2
  obtain ⟨u, t, hu, hq⟩ := bind_eq_some.mp h2
  obtain ⟨hb, rfl⟩ := require_eq_some.mp hu
  exact h hb s a r a' r' h1 hq

theorem March.spanLeft {R : α → β → Prop} {p : Reader σ α} {q : Reader σ β} (h : March R p q) :
    March (fun a b => R a.1 b) (span p) q := by
  intro s a r b r' h1 h2
  exact h s a.1 r b r' (span_eq_some.mp h1).1 h2

theorem March.replicate {R : α → β → Prop} {p : Reader σ α} {q : Reader σ β} (h : March R p q)
    (n : ℕ) : March (fun as bs => List.Forall₂ R as bs) (replicate p n) (replicate q n) := by
  induction n with
  | zero => exact March.pure List.Forall₂.nil
  | succ n ih =>
    exact h.bind fun a b hab => ih.bind fun as bs hs => March.pure (List.Forall₂.cons hab hs)

/-! ### A reader that follows another -/

theorem Follows.pure {R : α → β → Prop} {a : α} {b : β} (h : R a b) :
    Follows R (pure a : Reader σ α) (pure b) := by
  intro s a' r h1
  obtain ⟨rfl, rfl⟩ := pure_eq_some.mp h1
  exact ⟨b, rfl, h⟩

theorem Follows.bind {R : α → β → Prop} {S : γ → δ → Prop} {p : Reader σ α} {q : Reader σ β}
    {f : α → Reader σ γ} {g : β → Reader σ δ} (h : Follows R p q)
    (hfg : ∀ a b, R a b → Follows S (f a) (g b)) : Follows S (p >>= f) (q >>= g) := by
  intro s c r h1
  obtain ⟨a, t, ha, hc⟩ := bind_eq_some.mp h1
  obtain ⟨b, hb, hR⟩ := h s a t ha
  obtain ⟨d, hd, hS⟩ := hfg a b hR t c r hc
  exact ⟨d, bind_eq_some.mpr ⟨b, t, hb, hd⟩, hS⟩

theorem Follows.refl (p : Reader σ α) : Follows (fun a b => a = b) p p :=
  fun _ a _ h => ⟨a, h, rfl⟩

theorem Follows.mono {R S : α → β → Prop} {p : Reader σ α} {q : Reader σ β} (h : Follows R p q)
    (hRS : ∀ a b, R a b → S a b) : Follows S p q := by
  intro s a r ha
  obtain ⟨b, hb, hR⟩ := h s a r ha
  exact ⟨b, hb, hRS a b hR⟩

/-- A check of the reader that leads is known to the one that follows. -/
theorem Follows.requireLeft {R : α → β → Prop} {b : Bool} {p : Reader σ α} {q : Reader σ β}
    (h : b = true → Follows R p q) : Follows R (require b >>= fun _ => p) q := by
  intro s a r h1
  obtain ⟨u, t, hu, hp⟩ := bind_eq_some.mp h1
  obtain ⟨hb, rfl⟩ := require_eq_some.mp hu
  exact h hb s a r hp

theorem Follows.requireRight {R : α → β → Prop} {b : Bool} {p : Reader σ α} {q : Reader σ β}
    (hb : b = true) (h : Follows R p q) : Follows R p (require b >>= fun _ => q) := by
  intro s a r h1
  obtain ⟨c, hc, hR⟩ := h s a r h1
  exact ⟨c, bind_eq_some.mpr ⟨(), s, require_eq_some.mpr ⟨hb, rfl⟩, hc⟩, hR⟩

theorem Follows.spanLeft {R : α → β → Prop} {p : Reader σ α} {q : Reader σ β}
    (h : Follows R p q) : Follows (fun a b => R a.1 b) (span p) q := by
  intro s a r h1
  exact h s a.1 r (span_eq_some.mp h1).1

theorem Follows.replicate {R : α → β → Prop} {p : Reader σ α} {q : Reader σ β}
    (h : Follows R p q) (n : ℕ) :
    Follows (fun as bs => List.Forall₂ R as bs) (replicate p n) (replicate q n) := by
  induction n with
  | zero => exact Follows.pure List.Forall₂.nil
  | succ n ih =>
    exact h.bind fun a b hab => ih.bind fun as bs hs => Follows.pure (List.Forall₂.cons hab hs)

end Reader

end NamespaceIndexer.Lib
