import NamespaceIndexer.Lib.Reader

/-!
# Cursors over a buffer

A cursor walks a buffer by an index. It may refuse, and it may fault: step outside the buffer or
outside the integers it counts with. A cursor keeps to a reader when it stands where the reader
stands, refuses where the reader fails, and returns what the reader returns.
-/

namespace NamespaceIndexer.Lib

/-- Why a walk stops before its end. -/
inductive Stop where
  | refuse
  | fault
deriving DecidableEq

/-- A walk from an index to an index. -/
abbrev Cursor (α : Type) := StateT ℤ (Except Stop) α

namespace Cursor

variable {σ α β γ δ : Type}

def refuse : Cursor α := fun _ => .error .refuse

/-- `n` values in a row. -/
def replicate (w : Cursor α) : ℕ → Cursor (List α)
  | 0 => pure []
  | n + 1 => do
    let a ← w
    let as ← replicate w n
    pure (a :: as)

theorem bind_ok {w : Cursor α} {f : α → Cursor β} {p q : ℤ} {a : α} (h : w p = .ok (a, q)) :
    (w >>= f) p = f a q := by
  change (w p >>= fun x => f x.1 x.2) = _
  rw [h]
  rfl

theorem bind_error {w : Cursor α} {f : α → Cursor β} {p : ℤ} {e : Stop} (h : w p = .error e) :
    (w >>= f) p = .error e := by
  change (w p >>= fun x => f x.1 x.2) = _
  rw [h]
  rfl

theorem bind_eq_ok {w : Cursor α} {f : α → Cursor β} {p q : ℤ} {b : β} :
    (w >>= f) p = .ok (b, q) ↔ ∃ a m, w p = .ok (a, m) ∧ f a m = .ok (b, q) := by
  cases h : w p with
  | error e =>
    rw [bind_error h]
    constructor
    · intro h'
      cases h'
    · rintro ⟨a, m, h', _⟩
      cases h'
  | ok x =>
    rw [bind_ok h]
    constructor
    · intro h'
      exact ⟨x.1, x.2, rfl, h'⟩
    · rintro ⟨a, m, h1, h2⟩
      cases h1
      exact h2

theorem pure_eq_ok {a b : α} {p q : ℤ} :
    (pure a : Cursor α) p = .ok (b, q) ↔ a = b ∧ p = q := by
  change Except.ok (a, p) = .ok (b, q) ↔ _
  rw [Except.ok.injEq, Prod.mk.injEq]

theorem forall_of_replicate {w : Cursor α} {P : α → Prop} (hw : ∀ p a q, w p = .ok (a, q) → P a)
    {n : ℕ} {p q : ℤ} {as : List α} (h : replicate w n p = .ok (as, q)) : ∀ a ∈ as, P a := by
  induction n generalizing p q as with
  | zero =>
    obtain ⟨rfl, _⟩ := pure_eq_ok.mp h
    simp
  | succ n ih =>
    obtain ⟨a, m, ha, h⟩ := bind_eq_ok.mp h
    obtain ⟨as', m', h', h⟩ := bind_eq_ok.mp h
    obtain ⟨rfl, _⟩ := pure_eq_ok.mp h
    exact List.forall_mem_cons.mpr ⟨hw p a m ha, ih h'⟩

theorem length_of_replicate {w : Cursor α} {n : ℕ} {p q : ℤ} {as : List α}
    (h : replicate w n p = .ok (as, q)) : as.length = n := by
  induction n generalizing p q as with
  | zero =>
    obtain ⟨rfl, _⟩ := pure_eq_ok.mp h
    rfl
  | succ n ih =>
    obtain ⟨a, m, _, h⟩ := bind_eq_ok.mp h
    obtain ⟨as', m', h', h⟩ := bind_eq_ok.mp h
    obtain ⟨rfl, _⟩ := pure_eq_ok.mp h
    rw [List.length_cons, ih h']

/-! ### Where a walk stands in a buffer -/

variable (raw : List σ)

/-- The index at which the rest `s` of the buffer starts. -/
def place (s : List σ) : ℤ := (raw.length : ℤ) - s.length

/-- From the start of `s` on the walk keeps to the reader, or `W`. -/
def Keeps (W : Prop) (s : List σ) (w : Cursor α) (c : Reader σ β) (R : α → β → Prop) : Prop :=
  s <:+ raw →
    match c s with
    | some (b, t) => t <:+ raw ∧ ∃ a, w (place raw s) = .ok (a, place raw t) ∧ R a b
    | none => w (place raw s) = .error .refuse ∨ W

variable {raw} {W : Prop} {s : List σ}

theorem Keeps.mono {w : Cursor α} {c : Reader σ β} {R S : α → β → Prop} (h : Keeps raw W s w c R)
    (hRS : ∀ a b, R a b → S a b) : Keeps raw W s w c S := by
  intro hs
  have h := h hs
  cases hc : c s with
  | none =>
    rw [hc] at h
    exact h
  | some x =>
    obtain ⟨b, t⟩ := x
    rw [hc] at h
    obtain ⟨ht, a, hw, hR⟩ := h
    exact ⟨ht, a, hw, hRS a b hR⟩

theorem Keeps.pure {R : α → β → Prop} {a : α} {b : β} (h : R a b) :
    Keeps raw W s (pure a) (pure b) R := by
  intro hs
  show s <:+ raw ∧ ∃ a', (Pure.pure a : Cursor α) (place raw s) = .ok (a', place raw s) ∧ R a' b
  exact ⟨hs, a, rfl, h⟩

theorem Keeps.bind {w : Cursor α} {c : Reader σ β} {f : α → Cursor γ} {g : β → Reader σ δ}
    {R : α → β → Prop} {S : γ → δ → Prop} (h : Keeps raw W s w c R)
    (hfg : ∀ a b t, c s = some (b, t) → R a b → Keeps raw W t (f a) (g b) S) :
    Keeps raw W s (w >>= f) (c >>= g) S := by
  intro hs
  have h := h hs
  cases hc : c s with
  | none =>
    rw [hc] at h
    have hg : (c >>= g) s = none := by
      change (c s >>= fun x => g x.1 x.2) = none
      rw [hc]
      rfl
    rw [hg]
    rcases h with h | h
    · exact Or.inl (bind_error h)
    · exact Or.inr h
  | some x =>
    obtain ⟨b, t⟩ := x
    rw [hc] at h
    obtain ⟨ht, a, hw, hR⟩ := h
    have hg : (c >>= g) s = g b t := by
      change (c s >>= fun x => g x.1 x.2) = _
      rw [hc]
      rfl
    rw [hg, bind_ok hw]
    exact hfg a b t hc hR ht

/-- A loop keeps to a loop when each round does, wherever the reader starts it. -/
theorem Keeps.replicate {w : Cursor α} {c : Reader σ β} {R : α → β → Prop} (n : ℕ)
    (h : ∀ j < n, ∀ bs u, Reader.replicate c j s = some (bs, u) → Keeps raw W u w c R) :
    Keeps raw W s (replicate w n) (Reader.replicate c n) (List.Forall₂ R) := by
  induction n generalizing s with
  | zero => exact Keeps.pure List.Forall₂.nil
  | succ n ih =>
    apply Keeps.bind (h 0 (Nat.succ_pos n) [] s rfl)
    intro a b t hc hR
    have hrest : Keeps raw W t (Cursor.replicate w n) (Reader.replicate c n) (List.Forall₂ R) := by
      apply ih
      intro j hj bs u hu
      apply h (j + 1) (by omega) (b :: bs) u
      exact Reader.bind_eq_some.mpr ⟨b, t, hc, Reader.bind_eq_some.mpr ⟨bs, u, hu, rfl⟩⟩
    exact hrest.bind fun as bs u _ hS => Keeps.pure (List.Forall₂.cons hR hS)

/-- A reader's check that the walk makes as well. -/
theorem Keeps.ite {p : Prop} [Decidable p] {w : Cursor α} {c : Reader σ β} {R : α → β → Prop}
    {q : Bool} (hpq : p ↔ q = false) (h : q = true → Keeps raw W s w c R) :
    Keeps raw W s (if p then refuse else w) (Reader.require q >>= fun _ => c) R := by
  intro hs
  cases hq : q with
  | false =>
    rw [if_pos (hpq.mpr hq)]
    exact Or.inl rfl
  | true =>
    have hp : ¬p := fun hp => by
      rw [hpq.mp hp] at hq
      cases hq
    rw [if_neg hp]
    exact h hq hs

/-- Where both return related values, they end at the same place. -/
def Follows (raw : List σ) (w : Cursor α) (c : Reader σ β) (R : α → β → Prop) : Prop :=
  ∀ s a q b t, s <:+ raw → w (place raw s) = .ok (a, q) → c s = some (b, t) → R a b →
    q = place raw t ∧ t <:+ raw

theorem Follows.replicate {w : Cursor α} {c : Reader σ β} {R : α → β → Prop}
    (h : Follows raw w c R) (n : ℕ) :
    Follows raw (replicate w n) (Reader.replicate c n) (List.Forall₂ R) := by
  induction n with
  | zero =>
    intro s as q bs t hs hw hc _
    obtain ⟨_, rfl⟩ := pure_eq_ok.mp hw
    obtain ⟨_, rfl⟩ := Reader.pure_eq_some.mp hc
    exact ⟨rfl, hs⟩
  | succ n ih =>
    intro s as q bs t hs hw hc hR
    obtain ⟨a, m, hw1, hw2⟩ := bind_eq_ok.mp hw
    obtain ⟨as', m', hw3, hw4⟩ := bind_eq_ok.mp hw2
    obtain ⟨rfl, rfl⟩ := pure_eq_ok.mp hw4
    obtain ⟨b, u, hc1, hc2⟩ := Reader.bind_eq_some.mp hc
    obtain ⟨bs', u', hc3, hc4⟩ := Reader.bind_eq_some.mp hc2
    obtain ⟨rfl, rfl⟩ := Reader.pure_eq_some.mp hc4
    cases hR with
    | cons hab hR =>
      obtain ⟨rfl, hu⟩ := h s a m b u hs hw1 hc1 hab
      exact ih u as' m' bs' u' hu hw3 hc3 hR

theorem place_drop {k : ℕ} (h : k ≤ s.length) : place raw (s.drop k) = place raw s + k := by
  unfold place
  rw [List.length_drop]
  omega

theorem place_nonneg (h : s <:+ raw) : 0 ≤ place raw s := by
  have := h.length_le
  unfold place
  omega

theorem drop_place (h : s <:+ raw) : raw.drop (place raw s).toNat = s := by
  have hle := h.length_le
  have : (place raw s).toNat = raw.length - s.length := by
    unfold place
    omega
  rw [this]
  exact (List.suffix_iff_eq_drop.mp h).symm

end Cursor

end NamespaceIndexer.Lib
