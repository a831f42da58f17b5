import NamespaceIndexer.Curve.Jacobian

/-!
# Encoded points of `secp256k1.c`

Public keys and accumulators as bytes. A compressed point reads back, and two encodings of one
point are equal bytes.
-/

namespace NamespaceIndexer.Curve

open Fold Lib ShortCurve WeierstrassCurve

/-- `fe_from_be_lt_p`. -/
def feFromBeLtP (b : Fixed 32) : Option Fe :=
  if limbCmp (be32ToLimbs b) feP = .lt then some (be32ToLimbs b) else none

/-- `rhs_curve`. -/
def rhsCurve (x : Fe) : Fe := feAdd (feMul (feSqr x) x) (feSetU64 7)

/-- The root of the wanted parity. -/
def feWithParity (beta : Fe) (wantOdd : Bool) : Fe :=
  if feIsOdd beta ≠ wantOdd then feSub feP beta else beta

/-- `pub_decode`. -/
def pubDecode (pub : Bytes) : Option (Fe × Fe) :=
  if pub.length = 33 ∧ (pub.headD 0 = 0x02 ∨ pub.headD 0 = 0x03) then
    match feFromBeLtP (copyFrom 32 (pub.drop 1)) with
    | none => none
    | some x =>
      let rhs := rhsCurve x
      let beta := feSqrt rhs
      if feEq (feSqr beta) rhs then some (x, feWithParity beta (pub.headD 0 == 0x03)) else none
  else if pub.length = 65 ∧ pub.headD 0 = 0x04 then
    match feFromBeLtP (copyFrom 32 (pub.drop 1)), feFromBeLtP (copyFrom 32 (pub.drop 33)) with
    | some x, some y => if feEq (feSqr y) (rhsCurve x) then some (x, y) else none
    | _, _ => none
  else none

/-- `secp_on_curve`. -/
def secpOnCurve (pub : Bytes) : Bool := (pubDecode pub).isSome

/-- The compressed point. -/
def compress (x y : Fe) : Fixed 33 :=
  ⟨(if feIsOdd y then 0x03 else 0x02) :: (limbsToBe32 x).val, by
    rw [List.length_cons, (limbsToBe32 x).property]⟩

/-- `ecmh_ser`. -/
def ecmhSer (p : Jac) : Fixed 33 :=
  if p.inf then zeros 33
  else
    match jacAffine p with
    | none => zeros 33
    | some (x, y) => compress x y

/-- `ecmh_load`. -/
def ecmhLoad (b : Fixed 33) : Jac :=
  if b.val.headD 0 = 0 then jacSetInf
  else
    match pubDecode b.val with
    | none => jacSetInf
    | some (x, y) => jacFromAffine x y

/-! ### Coordinates -/

theorem feFromBeLtP_eq (b : Fixed 32) :
    feFromBeLtP b = if beVal b.val < fieldP then some (be32ToLimbs b) else none := by
  unfold feFromBeLtP
  simp only [limbCmp_eq, limbVal_be32ToLimbs, limbVal_feP, compare_lt_iff_lt]

theorem feFromBeLtP_some {b : Fixed 32} {x : Fe} (h : feFromBeLtP b = some x) :
    Reduced x ∧ limbsToBe32 x = b := by
  rw [feFromBeLtP_eq, Option.ite_none_right_eq_some, Option.some.injEq] at h
  obtain ⟨hlt, rfl⟩ := h
  refine ⟨?_, limbsToBe32_be32ToLimbs b⟩
  unfold Reduced
  rwa [limbVal_be32ToLimbs]

theorem feFromBeLtP_limbs {x : Fe} (h : Reduced x) : feFromBeLtP (limbsToBe32 x) = some x := by
  have hlt : limbVal x < fieldP := h
  rw [feFromBeLtP_eq, beVal_limbsToBe32, if_pos hlt, be32ToLimbs_limbsToBe32]

theorem IsF.rhs {X : Fe} {x : ZMod fieldP} (h : IsF X x) : IsF (rhsCurve X) (x ^ 3 + 7) := by
  have hr := (h.sqr.mul h).add (isF_setU64 7)
  have heq : x * x * x + ((7 : UInt64).toNat : ZMod fieldP) = x ^ 3 + 7 := by
    rw [pow_succ, pow_two]
    rfl
  unfold rhsCurve
  rwa [heq] at hr

/-! ### Roots of either parity -/

theorem feIsOdd_neg {Y : Fe} {y : ZMod fieldP} (h : IsF Y y) (hy : y ≠ 0) :
    IsF (feSub feP Y) (-y) ∧ feIsOdd (feSub feP Y) = !feIsOdd Y := by
  have hle := limbVal_feSub (le_of_eq limbVal_feP) h.1.le
  rw [limbVal_feP, if_pos h.1.le] at hle
  have hpos : 0 < limbVal Y := by
    rcases Nat.eq_zero_or_pos (limbVal Y) with h0 | h0
    · refine absurd ?_ hy
      rw [← h.2, toF, h0, Nat.cast_zero]
    · exact h0
  have hlt : limbVal Y < fieldP := h.1
  refine ⟨⟨by unfold Reduced; omega, ?_⟩, ?_⟩
  · refine toF_of_eq hle ?_
    rw [Nat.cast_sub hlt.le, ZMod.natCast_self, zero_sub, ← h.2]
    rfl
  · have hodd : fieldP % 2 = 1 := by decide
    rw [feIsOdd_eq, feIsOdd_eq, hle, Bool.eq_iff_iff, Bool.not_eq_true', beq_iff_eq,
      beq_eq_false_iff_ne]
    omega

theorem feWithParity_spec {B : Fe} {b : ZMod fieldP} (h : IsF B b) (hb : b ≠ 0) (odd : Bool) :
    (IsF (feWithParity B odd) b ∨ IsF (feWithParity B odd) (-b)) ∧
      feIsOdd (feWithParity B odd) = odd := by
  obtain ⟨hneg, hpar⟩ := feIsOdd_neg h hb
  unfold feWithParity
  split
  · rename_i hne
    refine ⟨Or.inr hneg, ?_⟩
    rw [hpar, Bool.not_eq_eq_eq_not]
    exact Bool.eq_not.mpr hne
  · rename_i heq
    rw [ne_eq, not_not] at heq
    exact ⟨Or.inl h, heq⟩

/-- Roots of one square and of one parity are equal. -/
theorem eq_of_parity {Y Y' : Fe} {y y' : ZMod fieldP} (h : IsF Y y) (h' : IsF Y' y') (hy : y ≠ 0)
    (hsq : y' ^ 2 = y ^ 2) (hpar : feIsOdd Y' = feIsOdd Y) : Y' = Y := by
  rcases sq_eq_sq_iff_eq_or_eq_neg.mp hsq with heq | heq
  · rw [heq] at h'
    exact h'.unique h
  · obtain ⟨hneg, hodd⟩ := feIsOdd_neg h hy
    rw [heq] at h'
    rw [h'.unique hneg, hodd] at hpar
    exact absurd hpar (by simp)

/-! ### Decoding -/

/-- A candidate abscissa is one of a point exactly when the root squares back. -/
theorem feSqrt_iff {X : Fe} {x : ZMod fieldP} (h : IsF X x) :
    feEq (feSqr (feSqrt (rhsCurve X))) (rhsCurve X) = true ↔ IsSquare (x ^ 3 + 7) := by
  obtain ⟨r, hr, hsq⟩ := h.rhs.sqrt
  rw [hr.sqr.eq_iff h.rhs, hsq]

/-- The encoding of the abscissa and the parity that a key gives. -/
theorem compress_of {pub : Bytes} {X Y : Fe} (hlen : pub.length = 33)
    (hhead : pub.headD 0 = 0x02 ∨ pub.headD 0 = 0x03)
    (hX : limbsToBe32 X = copyFrom 32 (pub.drop 1)) (hY : feIsOdd Y = (pub.headD 0 == 0x03)) :
    (compress X Y).val = pub := by
  cases pub with
  | nil => simp at hlen
  | cons c rest =>
    have hrest : (limbsToBe32 X).val = rest := by
      have hlen' : rest.length = 32 := Nat.succ.inj hlen
      have hcopy := copyFrom_append 32 ⟨rest, hlen'⟩ []
      rw [List.append_nil] at hcopy
      rw [hX, List.drop_one, List.tail_cons, hcopy]
    unfold compress
    dsimp only
    rw [hY, hrest]
    rcases hhead with hc | hc
    · rw [List.headD_cons] at hc
      rw [hc]
      rfl
    · rw [List.headD_cons] at hc
      rw [hc]
      rfl

/-- What `pub_decode` returns is a point, its encoding being the key where that is compressed. -/
theorem pubDecode_some {pub : Bytes} {X Y : Fe} (h : pubDecode pub = some (X, Y)) :
    ∃ x y, IsF X x ∧ IsF Y y ∧ y ^ 2 = x ^ 3 + 7 ∧ (pub.length = 33 → (compress X Y).val = pub) := by
  unfold pubDecode at h
  split at h
  · rename_i hform
    obtain ⟨hlen, hhead⟩ := hform
    split at h
    · cases h
    · rename_i X' hX'
      obtain ⟨hred, hbytes⟩ := feFromBeLtP_some hX'
      dsimp only at h
      rw [Option.ite_none_right_eq_some, Option.some.injEq, Prod.mk.injEq] at h
      obtain ⟨hroot, rfl, rfl⟩ := h
      obtain ⟨r, hr, -⟩ := hred.isF.rhs.sqrt
      have hsq : r ^ 2 = toF X' ^ 3 + 7 := by
        rw [pow_two]
        exact (hr.sqr.eq_iff hred.isF.rhs).mp hroot
      obtain ⟨hy, hpar⟩ := feWithParity_spec hr (y_ne_zero hsq) (pub.headD 0 == 0x03)
      have hcompress := compress_of hlen hhead hbytes hpar
      rcases hy with hy | hy
      · exact ⟨_, _, hred.isF, hy, hsq, fun _ => hcompress⟩
      · exact ⟨_, _, hred.isF, hy, by rw [neg_sq, hsq], fun _ => hcompress⟩
  · split at h
    · rename_i hform
      split at h
      · rename_i X' Y' hX' hY'
        have hX := (feFromBeLtP_some hX').1.isF
        have hY := (feFromBeLtP_some hY').1.isF
        rw [Option.ite_none_right_eq_some, Option.some.injEq, Prod.mk.injEq] at h
        obtain ⟨hcurve, rfl, rfl⟩ := h
        have hsq := (hY.sqr.eq_iff hX.rhs).mp hcurve
        refine ⟨_, _, hX, hY, by rw [pow_two, hsq], fun h33 => ?_⟩
        omega
      · cases h
    · cases h

/-- A compressed point reads back. -/
theorem pubDecode_compress {X Y : Fe} {x y : ZMod fieldP} (hX : IsF X x) (hY : IsF Y y)
    (h : y ^ 2 = x ^ 3 + 7) : pubDecode (compress X Y).val = some (X, Y) := by
  have hhead : (compress X Y).val.headD 0 = if feIsOdd Y then 0x03 else 0x02 := rfl
  have hrest : copyFrom 32 ((compress X Y).val.drop 1) = limbsToBe32 X := by
    have htail : (compress X Y).val.drop 1 = (limbsToBe32 X).val := rfl
    rw [htail, ← List.append_nil (limbsToBe32 X).val, copyFrom_append]
  have hodd : ((compress X Y).val.headD 0 == 0x03) = feIsOdd Y := by
    rw [hhead]
    cases feIsOdd Y <;> rfl
  have hform : (compress X Y).val.length = 33 ∧
      ((compress X Y).val.headD 0 = 0x02 ∨ (compress X Y).val.headD 0 = 0x03) := by
    refine ⟨(compress X Y).property, ?_⟩
    rw [hhead]
    cases feIsOdd Y <;> decide
  obtain ⟨r, hr, hroot⟩ := hX.rhs.sqrt
  have hr2 : r * r = x ^ 3 + 7 := hroot.mpr ⟨y, by rw [← h, pow_two]⟩
  have hrne : r ≠ 0 := y_ne_zero (by rw [pow_two, hr2])
  obtain ⟨hy', hpar⟩ := feWithParity_spec hr hrne (feIsOdd Y)
  have heq : feWithParity (feSqrt (rhsCurve X)) (feIsOdd Y) = Y := by
    rcases hy' with hy' | hy'
    · exact eq_of_parity hY hy' (y_ne_zero h) (by rw [h, pow_two, hr2]) hpar
    · exact eq_of_parity hY hy' (y_ne_zero h) (by rw [neg_sq, h, pow_two, hr2]) hpar
  unfold pubDecode
  rw [if_pos hform, hrest, feFromBeLtP_limbs hX.1, hodd]
  dsimp only
  rw [if_pos ((hr.sqr.eq_iff hX.rhs).mpr hr2), heq]

end NamespaceIndexer.Curve
