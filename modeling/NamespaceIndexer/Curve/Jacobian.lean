import Mathlib.AlgebraicGeometry.EllipticCurve.Affine.Point
import NamespaceIndexer.Curve.Field
import NamespaceIndexer.Lib.ShortCurve

/-!
# Points of `secp256k1.c`

The point operations on limbs, and the group that they compute in.
-/

namespace NamespaceIndexer.Curve

open Fold Lib ShortCurve WeierstrassCurve

/-- `jac`. -/
structure Jac where
  X : Fe
  Y : Fe
  Z : Fe
  inf : Bool
  deriving DecidableEq

/-- `jac_set_inf`. -/
def jacSetInf : Jac := ⟨feSetU64 1, feSetU64 1, feSetU64 0, true⟩

/-- `jac_double`. -/
def jacDouble (p : Jac) : Jac :=
  if p.inf || feIsZero p.Y then jacSetInf
  else
    let A := feSqr p.X
    let B := feSqr p.Y
    let C := feSqr B
    let t := feSqr (feAdd p.X B)
    let t := feSub (feSub t A) C
    let D := feAdd t t
    let E := feAdd (feAdd A A) A
    let F := feSqr E
    let X3 := feSub (feSub F D) D
    let t := feMul E (feSub D X3)
    let t2 := feAdd C C
    let t2 := feAdd t2 t2
    let t2 := feAdd t2 t2
    let Z3 := feMul p.Y p.Z
    ⟨X3, feSub t t2, feAdd Z3 Z3, false⟩

/-- `jac_add`. -/
def jacAdd (p q : Jac) : Jac :=
  if p.inf then q
  else if q.inf then p
  else
    let Z1Z1 := feSqr p.Z
    let Z2Z2 := feSqr q.Z
    let U1 := feMul p.X Z2Z2
    let U2 := feMul q.X Z1Z1
    let S1 := feMul (feMul p.Y q.Z) Z2Z2
    let S2 := feMul (feMul q.Y p.Z) Z1Z1
    if feEq U1 U2 then
      if !feEq S1 S2 then jacSetInf else jacDouble p
    else
      let H := feSub U2 U1
      let R := feSub S2 S1
      let HH := feSqr H
      let HHH := feMul H HH
      let V := feMul U1 HH
      let t := feSub (feSqr R) HHH
      let X3 := feSub t (feAdd V V)
      let t := feMul R (feSub V X3)
      let t2 := feMul S1 HHH
      ⟨X3, feSub t t2, feMul (feMul p.Z q.Z) H, false⟩

/-- `jac_mul`. -/
def jacMul (p : Jac) (k : Fixed 32) : Jac :=
  (bitsBe k.val).foldl (Ladder.step jacDouble fun acc => jacAdd acc p) jacSetInf

/-- `jac_affine`. -/
def jacAffine (p : Jac) : Option (Fe × Fe) :=
  if p.inf || feIsZero p.Z then none
  else
    let zinv := feInv p.Z
    let zinv2 := feSqr zinv
    let zinv3 := feMul zinv2 zinv
    some (feMul p.X zinv2, feMul p.Y zinv3)

/-- `jac_from_affine`. -/
def jacFromAffine (x y : Fe) : Jac := ⟨x, y, feSetU64 1, false⟩

/-! ### The group -/

/-- The points of the curve `y^2 = x^3 + 7`. -/
abbrev Pt := (curve (7 : ZMod fieldP)).Point

theorem two_ne_zero_field : (2 : ZMod fieldP) ≠ 0 := by decide +kernel

/-- No point has `y = 0`: `-7` is not a cube. -/
theorem y_ne_zero {x y : ZMod fieldP} (h : y ^ 2 = x ^ 3 + 7) : y ≠ 0 := by
  rintro rfl
  have hcube : x ^ 3 = ((fieldP - 7 : ℕ) : ZMod fieldP) := by
    rw [Nat.cast_sub (by decide), ZMod.natCast_self, zero_sub, Nat.cast_ofNat]
    linear_combination -h
  have hx : x ≠ 0 := by
    rintro rfl
    rw [zero_pow three_ne_zero, eq_comm, ZMod.natCast_eq_zero_iff] at hcube
    exact absurd (Nat.le_of_dvd (by decide) hcube) (by decide)
  have hexp : 3 * ((fieldP - 1) / 3) = fieldP - 1 := by decide
  have hpow : ((fieldP - 7 : ℕ) : ZMod fieldP) ^ ((fieldP - 1) / 3) = 1 := by
    rw [← hcube, ← pow_mul, hexp]
    exact ZMod.pow_card_sub_one_eq_one hx
  rw [Primes.cast_pow_eq_one_iff (Nat.Prime.one_lt fieldP_prime),
    ← Ladder.powMod_eq fieldP (fieldP - 7) (k := 256) (by decide)] at hpow
  exact absurd hpow (by decide +kernel)

theorem nonsingular_of_eq {x y : ZMod fieldP} (h : y ^ 2 = x ^ 3 + 7) :
    (curve (7 : ZMod fieldP)).Nonsingular x y :=
  nonsingular_of two_ne_zero_field (y_ne_zero h) h

theorem eq_of_nonsingular {x y : ZMod fieldP} (h : (curve (7 : ZMod fieldP)).Nonsingular x y) :
    y ^ 2 = x ^ 3 + 7 := (equation_iff x y).mp h.1

/-- The point that a `jac` stands for. -/
inductive Rep (p : Jac) : Pt → Prop
  | infinity (h : p.inf = true) : Rep p 0
  | point {P : Pt} {x y z : ZMod fieldP} (h : p.inf = false) (hX : IsF p.X x) (hY : IsF p.Y y)
      (hZ : IsF p.Z z) (hat : At P x y z) : Rep p P

theorem rep_inf : Rep jacSetInf 0 := .infinity rfl

theorem rep_of {X Y Z : Fe} {x y z : ZMod fieldP} {P : Pt} (hX : IsF X x) (hY : IsF Y y)
    (hZ : IsF Z z) (h : At P x y z) : Rep ⟨X, Y, Z, false⟩ P := .point rfl hX hY hZ h

theorem rep_fromAffine {X Y : Fe} {x y : ZMod fieldP} (hX : IsF X x) (hY : IsF Y y)
    (h : (curve (7 : ZMod fieldP)).Nonsingular x y) : Rep (jacFromAffine X Y) (.some x y h) := by
  have hone : IsF (feSetU64 1) 1 := by simpa using isF_setU64 1
  exact rep_of hX hY hone (at_one h)

/-- A point's ordinate is not zero. -/
theorem at_y_ne_zero {P : Pt} {x y z : ZMod fieldP} (h : At P x y z) : y ≠ 0 := by
  obtain ⟨-, hns, -⟩ := h
  intro hy
  refine y_ne_zero (eq_of_nonsingular hns) ?_
  rw [hy, zero_div]

theorem isF_not_zero {a : Fe} {x : ZMod fieldP} (h : IsF a x) (hx : x ≠ 0) :
    feIsZero a = false := by
  rw [Bool.eq_false_iff, Ne, feIsZero_iff h.1, h.2]
  exact hx

theorem rep_double {p : Jac} {P : Pt} (h : Rep p P) : Rep (jacDouble p) (P + P) := by
  unfold jacDouble
  cases h with
  | infinity hinf =>
    rw [hinf, Bool.true_or, if_pos rfl, add_zero]
    exact rep_inf
  | @point _ x y z hinf hX hY hZ hat =>
    have hy := at_y_ne_zero hat
    rw [hinf, isF_not_zero hY hy, Bool.false_or, if_neg (by decide)]
    have hA := hX.sqr
    have hB := hY.sqr
    have hC := hB.sqr
    have ht := ((hX.add hB).sqr.sub hA).sub hC
    have hD := ht.add ht
    have hE := (hA.add hA).add hA
    have hX3 := (hE.sqr.sub hD).sub hD
    have h8C := ((hC.add hC).add (hC.add hC)).add ((hC.add hC).add (hC.add hC))
    have hY3 := (hE.mul (hD.sub hX3)).sub h8C
    have hZ3 := (hY.mul hZ).add (hY.mul hZ)
    refine rep_of hX3 hY3 hZ3 ?_
    convert hat.double two_ne_zero_field hy using 1 <;> ring

/-- The sum of points of different abscissae. -/
theorem at_sum {P Q : Pt} {x₁ y₁ z₁ x₂ y₂ z₂ u₁ s₁ h r : ZMod fieldP} (hP : At P x₁ y₁ z₁)
    (hQ : At Q x₂ y₂ z₂) (hu₁ : u₁ = x₁ * (z₂ * z₂)) (hs₁ : s₁ = y₁ * z₂ * (z₂ * z₂))
    (hh : h = x₂ * (z₁ * z₁) - u₁) (hr : r = y₂ * z₁ * (z₁ * z₁) - s₁) (hne : h ≠ 0) :
    At (P + Q) (r * r - h * (h * h) - (u₁ * (h * h) + u₁ * (h * h)))
      (r * (u₁ * (h * h) - (r * r - h * (h * h) - (u₁ * (h * h) + u₁ * (h * h))))
        - s₁ * (h * (h * h))) (z₁ * z₂ * h) := by
  have hat := hP.add hQ (hu₁.trans (by ring)) (hs₁.trans (by ring)) (hh.trans (by ring))
    (hr.trans (by ring)) hne
  convert hat using 1 <;> ring

theorem rep_add {p q : Jac} {P Q : Pt} (hp : Rep p P) (hq : Rep q Q) :
    Rep (jacAdd p q) (P + Q) := by
  rcases hp with hinf | @⟨_, x₁, y₁, z₁, hinf, hX₁, hY₁, hZ₁, hat₁⟩
  · rw [jacAdd, if_pos hinf, zero_add]
    exact hq
  rcases hq with hinf' | @⟨_, x₂, y₂, z₂, hinf', hX₂, hY₂, hZ₂, hat₂⟩
  · rw [jacAdd, if_neg (by rw [hinf]; decide), if_pos hinf', add_zero]
    exact .point hinf hX₁ hY₁ hZ₁ hat₁
  rw [jacAdd, if_neg (by rw [hinf]; decide), if_neg (by rw [hinf']; decide)]
  have hU1 := hX₁.mul hZ₂.sqr
  have hU2 := hX₂.mul hZ₁.sqr
  have hS1 := (hY₁.mul hZ₂).mul hZ₂.sqr
  have hS2 := (hY₂.mul hZ₁).mul hZ₁.sqr
  have hUeq := hU1.eq_iff hU2
  have hSeq := hS1.eq_iff hS2
  have hof := hat₁.eq_of hat₂
  dsimp only
  split
  · -- equal abscissae: the same point twice, or a point and its opposite
    rename_i hU
    have hx := hUeq.mp hU
    obtain ⟨hsame, hopp⟩ := hof (by linear_combination hx)
    split
    · rename_i hS
      have hy : y₁ * z₂ * (z₂ * z₂) ≠ y₂ * z₁ * (z₁ * z₁) := by
        intro hy
        rw [hSeq.mpr hy] at hS
        exact absurd hS (by decide)
      rw [hopp (fun h => hy (by linear_combination h))]
      exact rep_inf
    · rename_i hS
      rw [Bool.not_eq_true, Bool.not_eq_false'] at hS
      have hPQ := hsame (by linear_combination hSeq.mp hS)
      subst hPQ
      exact rep_double (.point hinf hX₁ hY₁ hZ₁ hat₁)
  · rename_i hU
    have hne : x₂ * (z₁ * z₁) - x₁ * (z₂ * z₂) ≠ 0 :=
      fun h => hU (hUeq.mpr (by linear_combination -h))
    have hH := hU2.sub hU1
    have hR := hS2.sub hS1
    have hHH := hH.sqr
    have hHHH := hH.mul hHH
    have hV := hU1.mul hHH
    have hX3 := (hR.sqr.sub hHHH).sub (hV.add hV)
    have hY3 := (hR.mul (hV.sub hX3)).sub (hS1.mul hHHH)
    exact rep_of hX3 hY3 ((hZ₁.mul hZ₂).mul hH) (at_sum hat₁ hat₂ rfl rfl rfl rfl hne)

/-- The ladder multiplies. -/
theorem rep_mul {p : Jac} {P : Pt} (h : Rep p P) (k : Fixed 32) :
    Rep (jacMul p k) (beVal k.val • P) := by
  have hsq : ∀ (r : Jac) (x : Multiplicative Pt), Rep r x.toAdd → Rep (jacDouble r) (x * x).toAdd :=
    fun _ _ hr => rep_double hr
  have hmul : ∀ (r : Jac) (x : Multiplicative Pt), Rep r x.toAdd →
      Rep (jacAdd r p) (x * Multiplicative.ofAdd P).toAdd := fun _ _ hr => rep_add hr h
  rw [← (bitsVal_bitsBe k.val).2]
  exact Ladder.foldl_step_one hsq hmul (bitsBe k.val) rep_inf

/-- The affine coordinates, or nothing for the point at infinity. -/
theorem Rep.affine {p : Jac} {P : Pt} (h : Rep p P) : (P = 0 ∧ jacAffine p = none) ∨
    ∃ X Y x y hns, jacAffine p = some (X, Y) ∧ IsF X x ∧ IsF Y y ∧ P = .some x y hns := by
  unfold jacAffine
  cases h with
  | infinity hinf =>
    rw [hinf, Bool.true_or, if_pos rfl]
    exact Or.inl ⟨rfl, rfl⟩
  | point hinf hX hY hZ hat =>
    obtain ⟨hns, hP⟩ := hat.affine
    rw [hinf, isF_not_zero hZ hat.1, Bool.false_or, if_neg (by decide)]
    have hinv2 := hZ.inv.sqr
    exact Or.inr ⟨_, _, _, _, hns, rfl, hX.mul hinv2, hY.mul (hinv2.mul hZ.inv), hP⟩

end NamespaceIndexer.Curve
