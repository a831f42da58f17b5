import NamespaceIndexer.Curve.Encode
import NamespaceIndexer.Lib.CurveOrder

/-!
# The order of the group

The group order times any point is the point at infinity: the base point has that order, and the
curve has too few points for another multiple.
-/

namespace NamespaceIndexer.Curve

open Fold Lib ShortCurve WeierstrassCurve CurveOrder

/-- The coordinates of the base point. -/
def baseX : ℕ := 0x79BE667EF9DCBBAC55A06295CE870B07029BFCDB2DCE28D959F2815B16F81798
def baseY : ℕ := 0x483ADA7726A3C4655DA4FBFC0E1108A8FD17B448A68554199C47D08FFB10D4B8

theorem base_curve : (baseY : ZMod fieldP) ^ 2 = (baseX : ZMod fieldP) ^ 3 + 7 := by
  have h : baseY ^ 2 % fieldP = (baseX ^ 3 + 7) % fieldP := by decide +kernel
  have hcast := (ZMod.natCast_eq_natCast_iff _ _ fieldP).mpr h
  push_cast at hcast
  exact hcast

theorem base_nonsingular :
    (curve (7 : ZMod fieldP)).Nonsingular (baseX : ZMod fieldP) (baseY : ZMod fieldP) :=
  nonsingular_of_eq base_curve

/-- The base point. -/
def basePt : Pt := .some (baseX : ZMod fieldP) (baseY : ZMod fieldP) base_nonsingular

/-- A multiple of the base point, from a run that the kernel evaluates. -/
theorem nsmul_basePt (j m : ℕ) {x y : ℕ} (hm : m / 2 ^ j = 1)
    (hE : (curve (7 : ZMod fieldP)).Nonsingular (x : ZMod fieldP) (y : ZMod fieldP))
    (hrun : endsAt fieldP baseX baseY x y (Ladder.topBits j m) baseX baseY 1 = true) :
    m • basePt = .some (x : ZMod fieldP) (y : ZMod fieldP) hE := by
  have hone : AtNat (1 • basePt) baseX baseY 1 := by
    refine ⟨by decide, by decide, ?_⟩
    rw [one_nsmul, Nat.cast_one]
    exact at_one _
  have hmul := endsAt_sound two_ne_zero_field (fun _ _ => y_ne_zero) _ hE (Ladder.topBits j m) hone
    hrun
  have hexp : 2 ^ (Ladder.topBits j m).length * 1 + Ladder.bitsVal (Ladder.topBits j m) = m := by
    have hdiv := Nat.div_add_mod m (2 ^ j)
    rw [Ladder.topBits_length, Ladder.bitsVal_topBits]
    rwa [hm] at hdiv
  rwa [hexp] at hmul

theorem orderN_basePt : orderN • basePt = 0 := by
  have hcast : ((fieldP - baseY : ℕ) : ZMod fieldP) = -(baseY : ZMod fieldP) :=
    cast_sub_mod (by decide)
  have hE : (curve (7 : ZMod fieldP)).Nonsingular (baseX : ZMod fieldP)
      ((fieldP - baseY : ℕ) : ZMod fieldP) :=
    nonsingular_of_eq (by rw [hcast, neg_sq, base_curve])
  have hmul := nsmul_basePt 255 (orderN - 1) (by decide) hE (by decide +kernel)
  have hneg : Affine.Point.some (baseX : ZMod fieldP) ((fieldP - baseY : ℕ) : ZMod fieldP) hE
      = -basePt := by
    unfold basePt
    rw [Affine.Point.neg_some, Affine.Point.some.injEq]
    exact ⟨rfl, by rw [hcast, negY_eq]⟩
  have hsucc : orderN = orderN - 1 + 1 := by decide
  rw [hsucc, succ_nsmul, hmul, hneg, neg_add_cancel]

/-- What tells points apart: the abscissa and the parity of the ordinate. -/
def pointCode : Pt → Option (ZMod fieldP × Bool)
  | .zero => none
  | .some x y _ => some (x, y.val % 2 == 1)

theorem pointCode_inj : Function.Injective pointCode := by
  intro P Q h
  cases P with
  | zero =>
    cases Q with
    | zero => rfl
    | some x' y' h' => cases h
  | some x y hns =>
    cases Q with
    | zero => cases h
    | some x' y' hns' =>
      rw [pointCode, pointCode, Option.some.injEq, Prod.mk.injEq] at h
      obtain ⟨rfl, hpar⟩ := h
      rw [Affine.Point.some.injEq]
      refine ⟨rfl, ?_⟩
      have hy := eq_of_nonsingular hns
      have hy' := eq_of_nonsingular hns'
      rcases sq_eq_sq_iff_eq_or_eq_neg.mp (hy.trans hy'.symm) with heq | heq
      · exact heq
      · -- opposite ordinates differ in parity
        have hlt := ZMod.val_lt y'
        have hval : y.val = fieldP - y'.val := by
          rw [heq, ZMod.neg_val, if_neg (y_ne_zero hy')]
        have hodd : fieldP % 2 = 1 := by decide
        rw [hval, Bool.eq_iff_iff, beq_iff_eq, beq_iff_eq] at hpar
        omega

instance : Finite Pt := Finite.of_injective pointCode pointCode_inj

theorem card_pt : Nat.card Pt < 3 * orderN := by
  have hle := Nat.card_le_card_of_injective pointCode pointCode_inj
  rw [Finite.card_option, Nat.card_prod, Nat.card_zmod,
    Nat.card_eq_fintype_card (α := Bool), Fintype.card_bool] at hle
  have hlt : fieldP * 2 + 1 < 3 * orderN := by decide
  omega

theorem eq_zero_of_add_self {P : Pt} (h : P + P = 0) : P = 0 := by
  cases P with
  | zero => rfl
  | some x y hns =>
    have hy := y_ne_zero (eq_of_nonsingular hns)
    have hne : y ≠ (curve (7 : ZMod fieldP)).negY x y := by
      rw [negY_eq, Ne, eq_neg_iff_add_eq_zero, ← two_mul]
      exact mul_ne_zero two_ne_zero_field hy
    rw [Affine.Point.add_self_of_Y_ne hne] at h
    exact absurd h (Affine.Point.some_ne_zero _)

theorem orderN_nsmul (P : Pt) : orderN • P = 0 :=
  nsmul_eq_zero_of_card orderN_prime (Affine.Point.some_ne_zero _) orderN_basePt card_pt
    (fun _ => eq_zero_of_add_self) P

end NamespaceIndexer.Curve
