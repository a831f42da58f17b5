import Mathlib.FieldTheory.Finite.Basic
import Mathlib.GroupTheory.Perm.Cycle.Type
import NamespaceIndexer.Lib.Ladder
import NamespaceIndexer.Lib.ShortCurve

/-!
# The order of a curve's group

A multiple of a point computed on numbers below the field size, so that the kernel can evaluate it,
and the order of a group that is known to be smaller than three times a prime.
-/

namespace NamespaceIndexer.Lib.CurveOrder

open ShortCurve WeierstrassCurve Ladder

/-- A number handed on once it is evaluated. -/
def force {α : Type*} (n : ℕ) (k : ℕ → α) : α :=
  match n with
  | 0 => k 0
  | m + 1 => k (m + 1)

@[simp] theorem force_eq {α : Type*} (n : ℕ) (k : ℕ → α) : force n k = k n := by
  cases n <;> rfl

section Run

variable (p gx gy ex ey : ℕ)

/-- The double of a point, handed on. -/
def double {α : Type*} (X Y Z : ℕ) (k : ℕ → ℕ → ℕ → α) : α :=
  force (4 * X * Y * Y % p) fun S =>
  force (3 * X * X % p) fun M =>
  force ((M * M + 2 * (p - S)) % p) fun X3 =>
  force ((M * (S + (p - X3)) + 8 * (p - Y * Y * Y * Y % p)) % p) fun Y3 =>
  force (2 * Y * Z % p) fun Z3 => k X3 Y3 Z3

/-- The sum with the base point, handed on unless the abscissae are equal. -/
def addBase (X Y Z : ℕ) (k : ℕ → ℕ → ℕ → Bool) : Bool :=
  force ((gx * Z * Z + (p - X)) % p) fun H =>
  force ((gy * Z * Z * Z + (p - Y)) % p) fun R =>
  force (X * H * H % p) fun V =>
  force (H * H * H % p) fun W =>
  force ((R * R + (p - W) + 2 * (p - V)) % p) fun X3 =>
  force ((R * (V + (p - X3)) + Y * (p - W)) % p) fun Y3 =>
  force (Z * H % p) fun Z3 => H != 0 && k X3 Y3 Z3

/-- Whether the multiple of the base point is the point `(ex, ey)`. -/
def endsAt : List Bool → ℕ → ℕ → ℕ → Bool
  | [], X, Y, Z => X == ex * Z * Z % p && Y == ey * Z * Z * Z % p
  | b :: l, X, Y, Z =>
    double p X Y Z fun X Y Z => if b then addBase p gx gy X Y Z (endsAt l) else endsAt l X Y Z

end Run

section Sound

variable {p gx gy : ℕ} [Fact p.Prime] {b : ZMod p}

theorem cast_sub_mod {a : ℕ} (h : a ≤ p) : ((p - a : ℕ) : ZMod p) = -(a : ZMod p) := by
  rw [Nat.cast_sub h, ZMod.natCast_self, zero_sub]

/-- A point of numbers below the field size. -/
def AtNat (P : (curve b).Point) (X Y Z : ℕ) : Prop :=
  X < p ∧ Y < p ∧ At P (X : ZMod p) (Y : ZMod p) (Z : ZMod p)

theorem mod_le (n : ℕ) : n % p ≤ p := (Nat.mod_lt n (Fact.out : p.Prime).pos).le

theorem double_spec {α : Type*} {P : (curve b).Point} {X Y Z : ℕ} (h2 : (2 : ZMod p) ≠ 0)
    (hy : ∀ x y : ZMod p, y ^ 2 = x ^ 3 + b → y ≠ 0) (h : AtNat P X Y Z) (k : ℕ → ℕ → ℕ → α) :
    ∃ X3 Y3 Z3, double p X Y Z k = k X3 Y3 Z3 ∧ AtNat (P + P) X3 Y3 Z3 := by
  obtain ⟨hX, hY, hat⟩ := h
  have hY0 : (Y : ZMod p) ≠ 0 := by
    obtain ⟨hZ, hns, -⟩ := hat
    intro h0
    refine hy _ _ ((equation_iff _ _).mp hns.1) ?_
    rw [h0, zero_div]
  have hpos := (Fact.out : p.Prime).pos
  unfold double
  simp only [force_eq]
  refine ⟨_, _, _, rfl, Nat.mod_lt _ hpos, Nat.mod_lt _ hpos, ?_⟩
  convert hat.double h2 hY0 using 1
  · simp only [ZMod.natCast_mod, Nat.cast_add, Nat.cast_mul, cast_sub_mod (mod_le _)]
    push_cast
    ring
  · simp only [ZMod.natCast_mod, Nat.cast_add, Nat.cast_mul, cast_sub_mod (mod_le _)]
    push_cast
    ring
  · simp only [ZMod.natCast_mod, Nat.cast_mul]
    push_cast
    ring

theorem addBase_spec {P : (curve b).Point} {X Y Z : ℕ}
    (hG : (curve b).Nonsingular (gx : ZMod p) (gy : ZMod p)) (h : AtNat P X Y Z)
    {k : ℕ → ℕ → ℕ → Bool} (hrun : addBase p gx gy X Y Z k = true) :
    ∃ X3 Y3 Z3, k X3 Y3 Z3 = true ∧
      AtNat (P + .some (gx : ZMod p) (gy : ZMod p) hG) X3 Y3 Z3 := by
  obtain ⟨hX, hY, hat⟩ := h
  have hpos := (Fact.out : p.Prime).pos
  unfold addBase at hrun
  simp only [force_eq, Bool.and_eq_true, bne_iff_ne] at hrun
  obtain ⟨hne, hrun⟩ := hrun
  refine ⟨_, _, _, hrun, Nat.mod_lt _ hpos, Nat.mod_lt _ hpos, ?_⟩
  have hH : (gx : ZMod p) * Z ^ 2 - X ≠ 0 := by
    intro h0
    refine hne ?_
    have hcast : ((gx * Z * Z + (p - X) : ℕ) : ZMod p) = 0 := by
      rw [Nat.cast_add, cast_sub_mod hX.le]
      push_cast
      linear_combination h0
    rw [ZMod.natCast_eq_zero_iff] at hcast
    exact Nat.mod_eq_zero_of_dvd hcast
  have hU : (X : ZMod p) = X * 1 ^ 2 := by ring
  have hS : (Y : ZMod p) = Y * 1 ^ 3 := by ring
  convert hat.add (at_one hG) hU hS rfl rfl hH using 1
  · simp only [ZMod.natCast_mod, Nat.cast_add, Nat.cast_mul, cast_sub_mod (mod_le _),
      cast_sub_mod hX.le, cast_sub_mod hY.le]
    push_cast
    ring
  · simp only [ZMod.natCast_mod, Nat.cast_add, Nat.cast_mul, cast_sub_mod (mod_le _),
      cast_sub_mod hX.le, cast_sub_mod hY.le]
    ring
  · simp only [ZMod.natCast_mod, Nat.cast_add, Nat.cast_mul, cast_sub_mod hX.le]
    ring

/-- A run that ends true has found the multiple. -/
theorem endsAt_sound {ex ey : ℕ} (h2 : (2 : ZMod p) ≠ 0)
    (hy : ∀ x y : ZMod p, y ^ 2 = x ^ 3 + b → y ≠ 0)
    (hG : (curve b).Nonsingular (gx : ZMod p) (gy : ZMod p))
    (hE : (curve b).Nonsingular (ex : ZMod p) (ey : ZMod p)) (l : List Bool) {k X Y Z : ℕ}
    (h : AtNat (k • Affine.Point.some (gx : ZMod p) (gy : ZMod p) hG) X Y Z)
    (hrun : endsAt p gx gy ex ey l X Y Z = true) :
    (2 ^ l.length * k + bitsVal l) • Affine.Point.some (gx : ZMod p) (gy : ZMod p) hG
      = .some (ex : ZMod p) (ey : ZMod p) hE := by
  induction l generalizing k X Y Z with
  | nil =>
    obtain ⟨hX, hY, hat⟩ := h
    unfold endsAt at hrun
    rw [Bool.and_eq_true, beq_iff_eq, beq_iff_eq] at hrun
    obtain ⟨hx, hyy⟩ := hrun
    have hx' : (X : ZMod p) = ex * Z ^ 2 := by
      rw [hx, ZMod.natCast_mod]
      push_cast
      ring
    have hy' : (Y : ZMod p) = ey * Z ^ 3 := by
      rw [hyy, ZMod.natCast_mod]
      push_cast
      ring
    rw [List.length_nil, pow_zero, one_mul, show bitsVal [] = 0 from rfl, add_zero]
    exact (hat.eq_of (at_one hE) (by rw [hx']; ring)).1 (by rw [hy']; ring)
  | cons c l ih =>
    have hexp : 2 ^ (c :: l).length * k + bitsVal (c :: l)
        = 2 ^ l.length * (2 * k + c.toNat) + bitsVal l := by
      rw [bitsVal_cons, List.length_cons, pow_succ]
      ring
    unfold endsAt at hrun
    obtain ⟨X', Y', Z', hdouble, hat'⟩ := double_spec h2 hy h
      fun X Y Z => if c then addBase p gx gy X Y Z (endsAt p gx gy ex ey l)
        else endsAt p gx gy ex ey l X Y Z
    rw [hdouble] at hrun
    rw [← two_nsmul, ← mul_nsmul'] at hat'
    rw [hexp]
    cases c with
    | false => exact ih hat' hrun
    | true =>
      obtain ⟨X₃, Y₃, Z₃, hrest, hat₃⟩ := addBase_spec hG hat' hrun
      rw [← succ_nsmul] at hat₃
      exact ih hat₃ hrest

end Sound

/-- A group of fewer than `3 * n` elements that holds an element of the prime order `n` and none of
order two has exponent `n`. -/
theorem nsmul_eq_zero_of_card {G : Type*} [AddCommGroup G] [Finite G] {n : ℕ} (hn : n.Prime)
    {g : G} (hg : g ≠ 0) (hng : n • g = 0) (hcard : Nat.card G < 3 * n)
    (htwo : ∀ h : G, h + h = 0 → h = 0) (h : G) : n • h = 0 := by
  have : Fact n.Prime := ⟨hn⟩
  have horder : addOrderOf g = n := addOrderOf_eq_prime hng hg
  obtain ⟨m, hm⟩ : n ∣ Nat.card G := horder ▸ addOrderOf_dvd_natCard g
  have hpos : 0 < Nat.card G := Nat.card_pos
  have hm3 : m < 3 := by
    rw [hm, mul_comm] at hcard
    exact Nat.lt_of_mul_lt_mul_right hcard
  have hm2 : m ≠ 2 := by
    rintro rfl
    obtain ⟨t, ht⟩ := exists_prime_addOrderOf_dvd_card' (G := G) 2 ⟨n, by rw [hm, mul_comm]⟩
    have hzero : t + t = 0 := by
      rw [← two_nsmul, ← ht]
      exact addOrderOf_nsmul_eq_zero t
    rw [htwo t hzero, addOrderOf_zero] at ht
    exact absurd ht (by norm_num)
  have hm1 : m = 1 := by
    have : m ≠ 0 := by
      rintro rfl
      omega
    omega
  rw [hm1, mul_one] at hm
  rw [← hm]
  exact card_nsmul_eq_zero'

end NamespaceIndexer.Lib.CurveOrder
