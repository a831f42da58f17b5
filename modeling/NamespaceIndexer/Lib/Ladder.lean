import Mathlib.Tactic

/-!
# Square and multiply

A power computed from the bits of its exponent, the top bit first: every bit squares, a set bit
also multiplies. One lemma for every monoid, and one for any step that follows it through a
relation.
-/

namespace NamespaceIndexer.Lib.Ladder

/-- The number that bits stand for, the top bit first. -/
def bitsVal (l : List Bool) : ℕ := l.foldl (fun n b => 2 * n + b.toNat) 0

/-- The low `k` bits of `n`, the top bit first. -/
def topBits : ℕ → ℕ → List Bool
  | 0, _ => []
  | k + 1, n => n.testBit k :: topBits k n

theorem foldl_bits (l : List Bool) (n : ℕ) :
    l.foldl (fun n b => 2 * n + b.toNat) n = 2 ^ l.length * n + bitsVal l := by
  unfold bitsVal
  induction l generalizing n with
  | nil => simp
  | cons b l ih =>
    rw [List.foldl_cons, ih, List.foldl_cons, ih (2 * 0 + b.toNat), List.length_cons, pow_succ]
    ring

theorem bitsVal_cons (b : Bool) (l : List Bool) :
    bitsVal (b :: l) = 2 ^ l.length * b.toNat + bitsVal l := by
  have h := foldl_bits l (2 * 0 + b.toNat)
  simpa [bitsVal] using h

theorem bitsVal_append (l m : List Bool) :
    bitsVal (l ++ m) = 2 ^ m.length * bitsVal l + bitsVal m := by
  have h := foldl_bits m (bitsVal l)
  unfold bitsVal at h ⊢
  rw [List.foldl_append, h]

@[simp] theorem topBits_length (k n : ℕ) : (topBits k n).length = k := by
  induction k with
  | zero => rfl
  | succ k ih => simp [topBits, ih]

theorem bitsVal_topBits (k n : ℕ) : bitsVal (topBits k n) = n % 2 ^ k := by
  induction k with
  | zero => simp [topBits, bitsVal, Nat.mod_one]
  | succ k ih =>
    rw [topBits, bitsVal_cons, ih, topBits_length, Nat.toNat_testBit, Nat.mod_pow_succ]
    ring

/-! ### Powers -/

/-- One bit of the exponent. -/
def step {M : Type*} (sq : M → M) (mul : M → M) (r : M) (b : Bool) : M :=
  if b then mul (sq r) else sq r

/-- Any squaring and multiplying that follow a monoid through `R` end at the power. -/
theorem foldl_step {M N : Type*} [Monoid N] {R : M → N → Prop} {sq mul : M → M} {a : N}
    (hsq : ∀ r x, R r x → R (sq r) (x * x)) (hmul : ∀ r x, R r x → R (mul r) (x * a))
    (l : List Bool) {r : M} {k : ℕ} (h : R r (a ^ k)) :
    R (l.foldl (step sq mul) r) (a ^ (2 ^ l.length * k + bitsVal l)) := by
  induction l generalizing r k with
  | nil => simpa [bitsVal] using h
  | cons b l ih =>
    have hdouble : R (sq r) (a ^ (2 * k)) := by
      rw [two_mul, pow_add]
      exact hsq r _ h
    have hstep : R (step sq mul r b) (a ^ (2 * k + b.toNat)) := by
      cases b with
      | false => exact hdouble
      | true =>
        rw [Bool.toNat_true, pow_succ]
        exact hmul _ _ hdouble
    have hexp : 2 ^ (b :: l).length * k + bitsVal (b :: l)
        = 2 ^ l.length * (2 * k + b.toNat) + bitsVal l := by
      rw [bitsVal_cons, List.length_cons, pow_succ]
      ring
    rw [List.foldl_cons, hexp]
    exact ih hstep

theorem foldl_step_one {M N : Type*} [Monoid N] {R : M → N → Prop} {sq mul : M → M} {a : N}
    (hsq : ∀ r x, R r x → R (sq r) (x * x)) (hmul : ∀ r x, R r x → R (mul r) (x * a))
    (l : List Bool) {r : M} (h : R r 1) : R (l.foldl (step sq mul) r) (a ^ bitsVal l) := by
  have hrun := foldl_step hsq hmul l (k := 0) (by rwa [pow_zero])
  rwa [mul_zero, zero_add] at hrun

/-- `a ^ n % m` for an exponent of `k` bits. -/
def powMod (m a k n : ℕ) : ℕ :=
  (topBits k n).foldl (step (fun r => r * r % m) (fun r => r * a % m)) (1 % m)

theorem powMod_eq (m a : ℕ) {k n : ℕ} (hn : n < 2 ^ k) : powMod m a k n = a ^ n % m := by
  have hsq : ∀ r x : ℕ, r = x % m → r * r % m = x * x % m := by
    intro r x hr
    rw [hr, ← Nat.mul_mod]
  have hmul : ∀ r x : ℕ, r = x % m → r * a % m = x * a % m := by
    intro r x hr
    rw [hr, Nat.mod_mul_mod]
  have h : powMod m a k n = a ^ bitsVal (topBits k n) % m :=
    foldl_step_one (R := fun r x => r = x % m) hsq hmul (topBits k n) rfl
  rw [h, bitsVal_topBits, Nat.mod_eq_of_lt hn]

end NamespaceIndexer.Lib.Ladder
