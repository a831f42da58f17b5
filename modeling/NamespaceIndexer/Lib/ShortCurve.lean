import Mathlib.AlgebraicGeometry.EllipticCurve.Affine.Point
import Mathlib.Tactic

/-!
# The curve `y^2 = x^3 + b` in Jacobian coordinates

The point `(X / Z^2, Y / Z^3)` and what the usual formulas for the double and the sum compute, over
any field.
-/

namespace NamespaceIndexer.Lib.ShortCurve

open WeierstrassCurve

variable {F : Type*} [Field F] {b : F}

/-- The curve `y^2 = x^3 + b`. -/
def curve (b : F) : Affine F := { a₁ := 0, a₂ := 0, a₃ := 0, a₄ := 0, a₆ := b }

@[simp] theorem equation_iff (x y : F) : (curve b).Equation x y ↔ y ^ 2 = x ^ 3 + b := by
  rw [Affine.equation_iff]
  simp [curve]

@[simp] theorem negY_eq (x y : F) : (curve b).negY x y = -y := by
  simp [Affine.negY, curve]

theorem nonsingular_of {x y : F} (h2 : (2 : F) ≠ 0) (hy : y ≠ 0) (h : y ^ 2 = x ^ 3 + b) :
    (curve b).Nonsingular x y := by
  rw [Affine.nonsingular_iff']
  refine ⟨(equation_iff x y).mpr h, Or.inr ?_⟩
  simpa [curve] using ⟨h2, hy⟩

/-- The point has the Jacobian coordinates. -/
def At (P : (curve b).Point) (X Y Z : F) : Prop :=
  Z ≠ 0 ∧ ∃ h, P = .some (X / Z ^ 2) (Y / Z ^ 3) h

theorem At.ne_zero {P : (curve b).Point} {X Y Z : F} (h : At P X Y Z) : P ≠ 0 := by
  obtain ⟨_, hns, rfl⟩ := h
  exact Affine.Point.some_ne_zero hns

theorem at_some {P : (curve b).Point} {X Y Z x y : F} (hZ : Z ≠ 0)
    (hns : (curve b).Nonsingular x y) (hP : P = .some x y hns) (hx : x = X / Z ^ 2)
    (hy : y = Y / Z ^ 3) : At P X Y Z := by
  subst hx hy
  exact ⟨hZ, hns, hP⟩

theorem at_one {x y : F} (h : (curve b).Nonsingular x y) : At (.some x y h) x y 1 :=
  at_some one_ne_zero h rfl (by rw [one_pow, div_one]) (by rw [one_pow, div_one])

/-- The affine coordinates of a point. -/
theorem At.affine {P : (curve b).Point} {X Y Z : F} (h : At P X Y Z) :
    ∃ hns, P = .some (X * (Z⁻¹ * Z⁻¹)) (Y * (Z⁻¹ * Z⁻¹ * Z⁻¹)) hns := by
  obtain ⟨hZ, hns, rfl⟩ := h
  have hx : X / Z ^ 2 = X * (Z⁻¹ * Z⁻¹) := by field_simp
  have hy : Y / Z ^ 3 = Y * (Z⁻¹ * Z⁻¹ * Z⁻¹) := by field_simp
  refine ⟨by rwa [← hx, ← hy], ?_⟩
  rw [Affine.Point.some.injEq]
  exact ⟨hx, hy⟩

variable [DecidableEq F]

/-- The double. -/
theorem At.double {P : (curve b).Point} {X Y Z : F} (h2 : (2 : F) ≠ 0) (h : At P X Y Z)
    (hY : Y ≠ 0) :
    At (P + P) ((3 * X ^ 2) ^ 2 - 2 * (4 * X * Y ^ 2))
      (3 * X ^ 2 * (4 * X * Y ^ 2 - ((3 * X ^ 2) ^ 2 - 2 * (4 * X * Y ^ 2))) - 8 * Y ^ 4)
      (2 * (Y * Z)) := by
  obtain ⟨hZ, hns, rfl⟩ := h
  have hy : Y / Z ^ 3 ≠ (curve b).negY (X / Z ^ 2) (Y / Z ^ 3) := by
    rw [negY_eq, Ne, eq_neg_iff_add_eq_zero, ← two_mul]
    exact mul_ne_zero h2 (div_ne_zero hY (pow_ne_zero 3 hZ))
  have hslope : (curve b).slope (X / Z ^ 2) (X / Z ^ 2) (Y / Z ^ 3) (Y / Z ^ 3)
      = 3 * X ^ 2 / (2 * (Y * Z)) := by
    rw [Affine.slope_of_Y_ne rfl hy, negY_eq]
    simp only [curve]
    rw [sub_neg_eq_add, ← two_mul]
    field_simp
    ring
  refine at_some (mul_ne_zero h2 (mul_ne_zero hY hZ)) _ (Affine.Point.add_self_of_Y_ne hy) ?_ ?_
  · rw [hslope]
    simp only [Affine.addX, curve]
    field_simp
    ring
  · rw [hslope]
    simp only [Affine.addY, Affine.negAddY, Affine.addX, Affine.negY, curve]
    field_simp
    ring

/-- The sum of two points of different abscissae. -/
theorem At.add {P Q : (curve b).Point} {X₁ Y₁ Z₁ X₂ Y₂ Z₂ : F} (hP : At P X₁ Y₁ Z₁)
    (hQ : At Q X₂ Y₂ Z₂) {U₁ S₁ H R : F} (hU₁ : U₁ = X₁ * Z₂ ^ 2) (hS₁ : S₁ = Y₁ * Z₂ ^ 3)
    (hH : H = X₂ * Z₁ ^ 2 - U₁) (hR : R = Y₂ * Z₁ ^ 3 - S₁) (hne : H ≠ 0) :
    At (P + Q) (R ^ 2 - H ^ 3 - 2 * (U₁ * H ^ 2))
      (R * (U₁ * H ^ 2 - (R ^ 2 - H ^ 3 - 2 * (U₁ * H ^ 2))) - S₁ * H ^ 3) (Z₁ * Z₂ * H) := by
  obtain ⟨hZ₁, hns₁, rfl⟩ := hP
  obtain ⟨hZ₂, hns₂, rfl⟩ := hQ
  have hdiff : X₂ / Z₂ ^ 2 - X₁ / Z₁ ^ 2 = H / (Z₁ * Z₂) ^ 2 := by
    rw [hH, hU₁]
    field_simp
  have hx : X₁ / Z₁ ^ 2 ≠ X₂ / Z₂ ^ 2 := by
    intro heq
    rw [heq, sub_self, eq_comm, div_eq_zero_iff] at hdiff
    rcases hdiff with h | h
    · exact hne h
    · exact pow_ne_zero 2 (mul_ne_zero hZ₁ hZ₂) h
  have hslope : (curve b).slope (X₁ / Z₁ ^ 2) (X₂ / Z₂ ^ 2) (Y₁ / Z₁ ^ 3) (Y₂ / Z₂ ^ 3)
      = R / (Z₁ * Z₂ * H) := by
    rw [Affine.slope_of_X_ne hx, ← neg_sub (X₂ / Z₂ ^ 2), hdiff, hR, hS₁]
    field_simp
    ring
  have hX₂ : X₂ / Z₂ ^ 2 = X₁ / Z₁ ^ 2 + H / (Z₁ * Z₂) ^ 2 := by rw [← hdiff]; ring
  refine at_some (mul_ne_zero (mul_ne_zero hZ₁ hZ₂) hne) _ (Affine.Point.add_of_X_ne hx) ?_ ?_
  · rw [hslope, hX₂, hU₁]
    simp only [Affine.addX, curve]
    field_simp
    ring
  · rw [hslope, hX₂, hU₁, hS₁]
    simp only [Affine.addY, Affine.negAddY, Affine.addX, Affine.negY, curve]
    field_simp
    ring

/-- Equal abscissae: the same point, or opposite ones. -/
theorem At.eq_of {P Q : (curve b).Point} {X₁ Y₁ Z₁ X₂ Y₂ Z₂ : F} (hP : At P X₁ Y₁ Z₁)
    (hQ : At Q X₂ Y₂ Z₂) (hX : X₁ * Z₂ ^ 2 = X₂ * Z₁ ^ 2) :
    (Y₁ * Z₂ ^ 3 = Y₂ * Z₁ ^ 3 → P = Q) ∧ (Y₁ * Z₂ ^ 3 ≠ Y₂ * Z₁ ^ 3 → P + Q = 0) := by
  obtain ⟨hZ₁, hns₁, rfl⟩ := hP
  obtain ⟨hZ₂, hns₂, rfl⟩ := hQ
  have hx : X₁ / Z₁ ^ 2 = X₂ / Z₂ ^ 2 :=
    (div_eq_div_iff (pow_ne_zero 2 hZ₁) (pow_ne_zero 2 hZ₂)).mpr hX
  have hy : Y₁ / Z₁ ^ 3 = Y₂ / Z₂ ^ 3 ↔ Y₁ * Z₂ ^ 3 = Y₂ * Z₁ ^ 3 :=
    div_eq_div_iff (pow_ne_zero 3 hZ₁) (pow_ne_zero 3 hZ₂)
  constructor
  · intro h
    rw [Affine.Point.some.injEq]
    exact ⟨hx, hy.mpr h⟩
  · intro h
    rcases Affine.Y_eq_of_X_eq hns₁.1 hns₂.1 hx with h' | h'
    · exact absurd (hy.mp h') h
    · exact Affine.Point.add_of_Y_eq hx h'

end NamespaceIndexer.Lib.ShortCurve
