import NamespaceIndexer.Curve.Shim

/-!
# The point arithmetic of `secp256k1.c` is the group law

Every function on representatives of points returns a representative of what the group says, and
`pub_decode` takes the encodings of the finite points.
-/

namespace NamespaceIndexer.Curve

open Fold Lib ShortCurve WeierstrassCurve

/-- The encodings of a finite point: `02` or `03` by the parity of the ordinate, then the abscissa;
or `04` and both coordinates. -/
inductive Sec1 : Bytes → Pt → Prop
  | compressed {x y : ZMod fieldP} {hns : (curve (7 : ZMod fieldP)).Nonsingular x y}
      (xb : Fixed 32) (hx : beVal xb.val = x.val) :
      Sec1 (parityPrefix 0x02 0x03 y :: xb.val) (.some x y hns)
  | uncompressed {x y : ZMod fieldP} {hns : (curve (7 : ZMod fieldP)).Nonsingular x y}
      (xb yb : Fixed 32) (hx : beVal xb.val = x.val) (hy : beVal yb.val = y.val) :
      Sec1 (0x04 :: xb.val ++ yb.val) (.some x y hns)

theorem Sec1.encodes {pub : Bytes} {P : Pt} (h : Sec1 pub P) :
    Shim.sec1PrefixOk pub = true ∧ Encodes pub P := by
  cases h with
  | @compressed x y hns xb hx =>
    have hlen : (parityPrefix 0x02 0x03 y :: xb.val).length = 33 := by
      rw [List.length_cons, xb.property]
    have hfirst : parityPrefix 0x02 0x03 y = 0x02 ∨ parityPrefix 0x02 0x03 y = 0x03 := by
      unfold parityPrefix
      split
      · exact Or.inr rfl
      · exact Or.inl rfl
    unfold Shim.sec1PrefixOk
    rw [if_pos hlen, List.headD_cons, Bool.or_eq_true, beq_iff_eq, beq_iff_eq]
    exact ⟨hfirst, .compressed xb hx⟩
  | uncompressed xb yb hx hy =>
    have hlen : ((0x04 : Byte) :: xb.val ++ yb.val).length = 65 := by
      rw [List.cons_append, List.length_cons, List.length_append, xb.property, yb.property]
    unfold Shim.sec1PrefixOk
    rw [if_neg (by omega), if_pos hlen]
    exact ⟨rfl, .uncompressed 0x04 xb yb hx hy (Or.inl rfl)⟩

/-- `pub_decode` reads the point of an encoding, and nothing else. -/
theorem keyPoint_iff_sec1 {pub : Bytes} {P : Pt} : KeyPoint pub P ↔ Sec1 pub P := by
  constructor
  · intro h
    obtain ⟨hpre, henc⟩ := h.encodes
    cases henc with
    | compressed xb hx => exact .compressed xb hx
    | uncompressed c xb yb hx hy hc =>
      rw [head_of_sec1PrefixOk hpre]
      exact .uncompressed xb yb hx hy
  · intro h
    obtain ⟨hpre, henc⟩ := h.encodes
    exact henc.keyPoint hpre

theorem pubDecode_iff {pub : Bytes} {X Y : Fe} : pubDecode pub = some (X, Y) ↔
    ∃ x y hns, IsF X x ∧ IsF Y y ∧ Sec1 pub (.some x y hns) := by
  constructor
  · intro h
    obtain ⟨x, y, hX, hY, hcurve, -⟩ := pubDecode_some h
    have hns := nonsingular_of_eq hcurve
    exact ⟨x, y, hns, hX, hY, keyPoint_iff_sec1.mp ⟨X, Y, x, y, hns, h, hX, hY, rfl⟩⟩
  · intro h
    obtain ⟨x, y, hns, hX, hY, henc⟩ := h
    obtain ⟨X', Y', x', y', hns', hdec, hX', hY', heq⟩ := keyPoint_iff_sec1.mpr henc
    rw [Affine.Point.some.injEq] at heq
    obtain ⟨rfl, rfl⟩ := heq
    rw [hdec, hX'.unique hX, hY'.unique hY]

/-- `Z` is zero under the flag only. -/
theorem Rep.inf_of_zero {p : Jac} {P : Pt} (h : Rep p P) (hZ : feIsZero p.Z = true) :
    p.inf = true := by
  cases h with
  | infinity hinf => exact hinf
  | point _ _ _ hz hat =>
    rw [isF_not_zero hz hat.1] at hZ
    cases hZ

theorem Rep.affine_some {p : Jac} {x y : ZMod fieldP}
    {hns : (curve (7 : ZMod fieldP)).Nonsingular x y} (h : Rep p (.some x y hns)) :
    ∃ X Y, jacAffine p = some (X, Y) ∧ IsF X x ∧ IsF Y y := by
  rcases h.affine with ⟨hzero, -⟩ | ⟨X, Y, x', y', hns', hsome, hX, hY, heq⟩
  · exact absurd hzero (Affine.Point.some_ne_zero hns)
  · rw [Affine.Point.some.injEq] at heq
    obtain ⟨rfl, rfl⟩ := heq
    exact ⟨X, Y, hsome, hX, hY⟩

/-- The double, the sum and the multiples of points, from any of their representatives; the affine
coordinates of a finite point; and the keys that decode. -/
theorem points_exact :
    (∀ (p : Jac) (P : Pt), Rep p P → Rep (jacDouble p) (2 • P)) ∧
    (∀ (p q : Jac) (P Q : Pt), Rep p P → Rep q Q → Rep (jacAdd p q) (P + Q)) ∧
    (∀ (p : Jac) (P : Pt) (k : Fixed 32), Rep p P → Rep (jacMul p k) (beVal k.val • P)) ∧
    (∀ (p : Jac) (P : Pt), Rep p P → feIsZero p.Z = true → p.inf = true) ∧
    (∀ (p : Jac) (x y : ZMod fieldP) (hns : (curve (7 : ZMod fieldP)).Nonsingular x y),
      Rep p (.some x y hns) → ∃ X Y, jacAffine p = some (X, Y) ∧ IsF X x ∧ IsF Y y) ∧
    ∀ (pub : Bytes) (X Y : Fe), pubDecode pub = some (X, Y) ↔
      ∃ x y hns, IsF X x ∧ IsF Y y ∧ Sec1 pub (.some x y hns) := by
  refine ⟨?_, ?_, ?_, ?_, ?_, ?_⟩
  · intro p P h
    rw [two_nsmul]
    exact rep_double h
  · intro p q P Q hp hq
    exact rep_add hp hq
  · intro p P k h
    exact rep_mul h k
  · intro p P h hZ
    exact h.inf_of_zero hZ
  · intro p x y hns h
    exact h.affine_some
  · intro pub X Y
    exact pubDecode_iff

/-- The base point: its multiples, its coordinates and its key of 65 bytes. -/
theorem points_exact_sample :
    Rep (jacDouble secpG) (2 • basePt) ∧ Rep (jacAdd secpG secpG) (basePt + basePt) ∧
    Rep (jacAdd secpG jacSetInf) (basePt + 0) ∧
    Rep (jacMul secpG (zeros 32)) (beVal (zeros 32).val • basePt) ∧ jacSetInf.inf = true ∧
    (∃ X Y, jacAffine secpG = some (X, Y) ∧ IsF X (baseX : ZMod fieldP) ∧
      IsF Y (baseY : ZMod fieldP)) ∧
    pubDecode (0x04 :: secpGxBe.val ++ secpGyBe.val) = some (secpG.X, secpG.Y) := by
  obtain ⟨hdouble, hadd, hmul, hflag, haffine, hdecode⟩ := points_exact
  have hx : beVal secpGxBe.val = (baseX : ZMod fieldP).val := by
    rw [ZMod.val_natCast_of_lt (by decide)]
    decide
  have hy : beVal secpGyBe.val = (baseY : ZMod fieldP).val := by
    rw [ZMod.val_natCast_of_lt (by decide)]
    decide
  exact ⟨hdouble _ _ rep_G, hadd _ _ _ _ rep_G rep_G, hadd _ _ _ _ rep_G rep_inf,
    hmul _ _ (zeros 32) rep_G, hflag _ _ rep_inf (by decide), haffine _ _ _ _ rep_G,
    (hdecode _ _ _).mpr ⟨_, _, base_nonsingular, isF_of_beVal hx, isF_of_beVal hy,
      .uncompressed _ _ hx hy⟩⟩

end NamespaceIndexer.Curve
