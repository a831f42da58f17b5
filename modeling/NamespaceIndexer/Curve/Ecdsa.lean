import Mathlib.Algebra.Module.ZMod
import NamespaceIndexer.Curve.Order
import NamespaceIndexer.Curve.Scalar

/-!
# ECDSA of `secp256k1.c`

The verifier computes the textbook equation in the group of the curve, a module over the scalars;
the signer's signatures satisfy it.
-/

namespace NamespaceIndexer.Curve

open Fold Lib ShortCurve WeierstrassCurve

/-- `SECP_GX_BE`. -/
def secpGxBe : Fixed 32 :=
  ⟨[0x79, 0xBE, 0x66, 0x7E, 0xF9, 0xDC, 0xBB, 0xAC, 0x55, 0xA0, 0x62, 0x95, 0xCE, 0x87, 0x0B, 0x07,
    0x02, 0x9B, 0xFC, 0xDB, 0x2D, 0xCE, 0x28, 0xD9, 0x59, 0xF2, 0x81, 0x5B, 0x16, 0xF8, 0x17, 0x98],
    rfl⟩

/-- `SECP_GY_BE`. -/
def secpGyBe : Fixed 32 :=
  ⟨[0x48, 0x3A, 0xDA, 0x77, 0x26, 0xA3, 0xC4, 0x65, 0x5D, 0xA4, 0xFB, 0xFC, 0x0E, 0x11, 0x08, 0xA8,
    0xFD, 0x17, 0xB4, 0x48, 0xA6, 0x85, 0x54, 0x19, 0x9C, 0x47, 0xD0, 0x8F, 0xFB, 0x10, 0xD4, 0xB8],
    rfl⟩

/-- `SECP_N_HALF_BE`. -/
def secpNHalfBe : Fixed 32 :=
  ⟨[0x7F, 0xFF, 0xFF, 0xFF, 0xFF, 0xFF, 0xFF, 0xFF, 0xFF, 0xFF, 0xFF, 0xFF, 0xFF, 0xFF, 0xFF, 0xFF,
    0x5D, 0x57, 0x6E, 0x73, 0x57, 0xA4, 0x50, 0x1D, 0xDF, 0xE9, 0x2F, 0x46, 0x68, 0x1B, 0x20, 0xA0],
    rfl⟩

/-- `secp_G`. -/
def secpG : Jac := jacFromAffine (be32ToLimbs secpGxBe) (be32ToLimbs secpGyBe)

/-- `secp_ecdsa_verify`. -/
def secpEcdsaVerify (hash32 r32 s32 : Fixed 32) (pub : Bytes) : Bool :=
  match pubDecode pub with
  | none => false
  | some (qx, qy) =>
    let r := be32ToLimbs r32
    let s := be32ToLimbs s32
    if limbIsZero r || limbCmp r scN != .lt then false
    else if limbIsZero s || limbCmp s scN != .lt then false
    else
      let z := scReduce (be32ToLimbs hash32)
      match scInv s with
      | none => false
      | some w =>
        let u1 := scMul z w
        let u2 := scMul r w
        let A := jacMul secpG (limbsToBe32 u1)
        let B := jacMul (jacFromAffine qx qy) (limbsToBe32 u2)
        match jacAffine (jacAdd A B) with
        | none => false
        | some (rx, _) => limbCmp (scReduce rx) r == .eq

/-- `hmac_sha256`. -/
def hmacSha256 (sha256 : Bytes → Hash256) (key msg : Bytes) : Hash256 :=
  let k : Fixed 64 := if 64 < key.length then copyFrom 64 (sha256 key).val else copyFrom 64 key
  let inner := sha256 (k.val.map (fun x => x ^^^ 0x36) ++ msg)
  sha256 (k.val.map (fun x => x ^^^ 0x5c) ++ inner.val)

/-- The loop of `rfc6979_k`, for a number of turns. -/
def rfc6979Loop (sha256 : Bytes → Hash256) : ℕ → Fixed 32 → Fixed 32 → Option (Fixed 32)
  | 0, _, _ => none
  | turns + 1, K, V =>
    let V := hmacSha256 sha256 K.val V.val
    let kz := be32ToLimbs V
    if !limbIsZero kz && limbCmp kz scN == .lt then some V
    else
      let K := hmacSha256 sha256 K.val (V.val ++ [0x00])
      let V := hmacSha256 sha256 K.val V.val
      rfc6979Loop sha256 turns K V

/-- `rfc6979_k`: the nonce, `none` while the loop has not ended. -/
def rfc6979K (sha256 : Bytes → Hash256) (turns : ℕ) (priv32 hash32 : Fixed 32) :
    Option (Fixed 32) :=
  let h1o := limbsToBe32 (scReduce (be32ToLimbs hash32))
  let V : Fixed 32 := ⟨List.replicate 32 0x01, List.length_replicate⟩
  let K := hmacSha256 sha256 (zeros 32).val (V.val ++ [0x00] ++ priv32.val ++ h1o.val)
  let V := hmacSha256 sha256 K.val V.val
  let K := hmacSha256 sha256 K.val (V.val ++ [0x01] ++ priv32.val ++ h1o.val)
  let V := hmacSha256 sha256 K.val V.val
  rfc6979Loop sha256 turns K V

/-- The body of the loop of `secp_ecdsa_sign` after the nonce; `none` is its `continue`. -/
def signWith (d z : Limbs4) (kb : Fixed 32) : Option (Fixed 32 × Fixed 32) :=
  match jacAffine (jacMul secpG kb) with
  | none => none
  | some (rx, _) =>
    let r := scReduce rx
    if limbIsZero r then none
    else
      match scInv (be32ToLimbs kb) with
      | none => none
      | some kinv =>
        let zrd := scAddMod z (scMul r d) scN
        let s := scMul kinv zrd
        if limbIsZero s then none
        else
          let s := if limbCmp s (be32ToLimbs secpNHalfBe) = .gt then (limbSub scN s).1 else s
          some (limbsToBe32 r, limbsToBe32 s)

/-- The loop of `secp_ecdsa_sign`. -/
def signLoop (sha256 : Bytes → Hash256) (turns : ℕ) (priv32 : Fixed 32) (d z : Limbs4) :
    ℕ → Fixed 32 → Option (Fixed 32 × Fixed 32)
  | 0, _ => none
  | attempts + 1, feed =>
    match rfc6979K sha256 turns priv32 feed with
    | none => none
    | some kb =>
      match signWith d z kb with
      | some sig => some sig
      | none => signLoop sha256 turns priv32 d z attempts (sha256 kb.val)

/-- `secp_ecdsa_sign`: the signature where it returns 1. -/
def secpEcdsaSign (sha256 : Bytes → Hash256) (turns : ℕ) (priv32 hash32 : Fixed 32) :
    Option (Fixed 32 × Fixed 32) :=
  let d := be32ToLimbs priv32
  if limbIsZero d || limbCmp d scN != .lt then none
  else
    let z := scReduce (be32ToLimbs hash32)
    signLoop sha256 turns priv32 d z 64 hash32

/-- `secp_pubkey`. -/
def secpPubkey (priv32 : Fixed 32) : Option (Fixed 33) :=
  let d := be32ToLimbs priv32
  if limbIsZero d || limbCmp d scN != .lt then none
  else
    match jacAffine (jacMul secpG priv32) with
    | none => none
    | some (x, y) => some (compress x y)

/-! ### Scalars acting on points -/

instance : Module (ZMod orderN) Pt := AddCommGroup.zmodModule orderN_nsmul

theorem isF_be32 {b : Fixed 32} (h : beVal b.val < fieldP) :
    IsF (be32ToLimbs b) (beVal b.val : ZMod fieldP) := by
  constructor
  · unfold Reduced
    rwa [limbVal_be32ToLimbs]
  · rw [toF, limbVal_be32ToLimbs]

theorem rep_G : Rep secpG basePt := by
  have hx : beVal secpGxBe.val = baseX := by decide
  have hy : beVal secpGyBe.val = baseY := by decide
  have hX := isF_be32 (b := secpGxBe) (by rw [hx]; decide)
  have hY := isF_be32 (b := secpGyBe) (by rw [hy]; decide)
  rw [hx] at hX
  rw [hy] at hY
  exact rep_fromAffine hX hY _

/-- The ladder over the bytes of a scalar. -/
theorem rep_scalar {p : Jac} {P : Pt} (h : Rep p P) (u : Limbs4) :
    Rep (jacMul p (limbsToBe32 u)) ((limbVal u : ZMod orderN) • P) := by
  have hmul := rep_mul h (limbsToBe32 u)
  rwa [beVal_limbsToBe32, ← Nat.cast_smul_eq_nsmul (ZMod orderN)] at hmul

/-- The abscissa of a point, modulo the order, is `r`. -/
def AbscissaIs (P : Pt) (r : ℕ) : Prop := ∃ x y hns, P = .some x y hns ∧ x.val % orderN = r

/-- The equation of ECDSA: `r` is the abscissa of `z / s` times the base point and `r / s` times
the key. -/
def EcdsaEq (z r s : ℕ) (Q : Pt) : Prop :=
  AbscissaIs (((z : ZMod orderN) * (s : ZMod orderN)⁻¹) • basePt
    + ((r : ZMod orderN) * (s : ZMod orderN)⁻¹) • Q) r

theorem abscissaIs_neg {P : Pt} {r : ℕ} (h : AbscissaIs P r) : AbscissaIs (-P) r := by
  obtain ⟨x, y, hns, rfl, hr⟩ := h
  exact ⟨x, _, _, Affine.Point.neg_some hns, hr⟩

theorem abscissaIs_neg_iff {P : Pt} {r : ℕ} : AbscissaIs (-P) r ↔ AbscissaIs P r := by
  refine ⟨fun h => ?_, abscissaIs_neg⟩
  have hneg := abscissaIs_neg h
  rwa [neg_neg] at hneg

/-- Negating `s` negates the point. -/
theorem ecdsaEq_neg {z r s t : ℕ} {Q : Pt} (h : (t : ZMod orderN) = -(s : ZMod orderN)) :
    EcdsaEq z r t Q ↔ EcdsaEq z r s Q := by
  unfold EcdsaEq
  rw [h, inv_neg, mul_neg, mul_neg, neg_smul, neg_smul, ← neg_add, abscissaIs_neg_iff]

/-! ### Verification -/

/-- The key as `pub_decode` reads it. -/
def KeyPoint (pub : Bytes) (Q : Pt) : Prop :=
  ∃ X Y x y hns, pubDecode pub = some (X, Y) ∧ IsF X x ∧ IsF Y y ∧ Q = .some x y hns

theorem KeyPoint.unique {pub : Bytes} {Q Q' : Pt} (h : KeyPoint pub Q) (h' : KeyPoint pub Q') :
    Q = Q' := by
  obtain ⟨X, Y, x, y, hns, hdec, hX, hY, rfl⟩ := h
  obtain ⟨X', Y', x', y', hns', hdec', hX', hY', rfl⟩ := h'
  rw [hdec, Option.some.injEq, Prod.mk.injEq] at hdec'
  obtain ⟨rfl, rfl⟩ := hdec'
  rw [Affine.Point.some.injEq]
  exact ⟨hX.2.symm.trans hX'.2, hY.2.symm.trans hY'.2⟩

theorem keyPoint_of_decode {pub : Bytes} {X Y : Fe} (h : pubDecode pub = some (X, Y)) :
    ∃ Q, KeyPoint pub Q ∧ Rep (jacFromAffine X Y) Q := by
  obtain ⟨x, y, hX, hY, hcurve, -⟩ := pubDecode_some h
  have hns := nonsingular_of_eq hcurve
  exact ⟨.some x y hns, ⟨X, Y, x, y, hns, h, hX, hY, rfl⟩, rep_fromAffine hX hY hns⟩

theorem scalar_ok_iff (b : Fixed 32) :
    (limbIsZero (be32ToLimbs b) || limbCmp (be32ToLimbs b) scN != .lt) = false ↔
      beVal b.val ≠ 0 ∧ beVal b.val < orderN := by
  rw [Bool.or_eq_false_iff, ← Bool.not_eq_true, limbIsZero_iff, limbVal_be32ToLimbs,
    bne_eq_false_iff_eq, limbCmp_lt_iff, limbVal_be32ToLimbs, limbVal_scN]

theorem cast_scMul (a b : Limbs4) :
    (limbVal (scMul a b) : ZMod orderN) = limbVal a * limbVal b := by
  rw [limbVal_scMul, ZMod.natCast_mod, Nat.cast_mul]

/-- The verifier computes the equation of ECDSA. -/
theorem secpEcdsaVerify_iff {hash32 r32 s32 : Fixed 32} {pub : Bytes} :
    secpEcdsaVerify hash32 r32 s32 pub = true ↔ ∃ Q, KeyPoint pub Q ∧
      (beVal r32.val ≠ 0 ∧ beVal r32.val < orderN) ∧ (beVal s32.val ≠ 0 ∧ beVal s32.val < orderN) ∧
      EcdsaEq (beVal hash32.val) (beVal r32.val) (beVal s32.val) Q := by
  cases hdec : pubDecode pub with
  | none =>
    unfold secpEcdsaVerify
    rw [hdec]
    constructor
    · intro h
      cases h
    · rintro ⟨Q, ⟨X, Y, x, y, hns, hdec', -⟩, -⟩
      rw [hdec] at hdec'
      cases hdec'
  | some q =>
    obtain ⟨X, Y⟩ := q
    obtain ⟨Q, hkey, hrep⟩ := keyPoint_of_decode hdec
    have hQ : ∀ {p : Pt → Prop}, (∃ Q', KeyPoint pub Q' ∧ p Q') ↔ p Q := by
      intro p
      constructor
      · rintro ⟨Q', hkey', hp⟩
        rwa [hkey.unique hkey']
      · intro hp
        exact ⟨Q, hkey, hp⟩
    rw [hQ]
    have hr := scalar_ok_iff r32
    have hs := scalar_ok_iff s32
    unfold secpEcdsaVerify
    rw [hdec]
    dsimp only
    by_cases hrok : beVal r32.val ≠ 0 ∧ beVal r32.val < orderN
    · rw [hr.mpr hrok, if_neg (by decide)]
      by_cases hsok : beVal s32.val ≠ 0 ∧ beVal s32.val < orderN
      · rw [hs.mpr hsok, if_neg (by decide)]
        rw [← limbVal_be32ToLimbs s32] at hsok
        obtain ⟨w, hw, -, hinv⟩ := scInv_spec hsok.1 hsok.2
        rw [limbVal_be32ToLimbs] at hsok hinv
        have hinv' : (beVal s32.val : ZMod orderN)⁻¹ = limbVal w := inv_eq_of_mul_eq_one_right hinv
        have hsum := rep_add (rep_scalar rep_G (scMul (scReduce (be32ToLimbs hash32)) w))
          (rep_scalar hrep (scMul (be32ToLimbs r32) w))
        rw [cast_scMul, cast_scMul, limbVal_scReduce, ZMod.natCast_mod, limbVal_be32ToLimbs,
          limbVal_be32ToLimbs, ← hinv'] at hsum
        rw [hw]
        dsimp only
        simp only [hrok, hsok, ne_eq, not_false_eq_true, and_self, true_and]
        unfold EcdsaEq
        rcases hsum.affine with ⟨hzero, hnone⟩ | ⟨X', Y', x, y, hns, hsome, hX', hY', hpt⟩
        · rw [hnone, hzero]
          constructor
          · intro h
            cases h
          · rintro ⟨x, y, hns, hpt, -⟩
            exact absurd hpt.symm (Affine.Point.some_ne_zero hns)
        · rw [hsome, hpt]
          dsimp only
          rw [beq_iff_eq, limbCmp_eq_iff, limbVal_scReduce, limbVal_be32ToLimbs, hX'.limbVal_eq]
          constructor
          · intro h
            exact ⟨x, y, hns, rfl, h⟩
          · rintro ⟨x', y', hns', heq, h⟩
            rw [Affine.Point.some.injEq] at heq
            rw [heq.1]
            exact h
      · rw [Bool.eq_true_of_not_eq_false (mt hs.mp hsok), if_pos rfl]
        simp only [hsok, false_and, and_false, Bool.false_eq_true]
    · rw [Bool.eq_true_of_not_eq_false (mt hr.mp hrok), if_pos rfl]
      simp only [hrok, false_and, Bool.false_eq_true]

/-- Verification does not tell `s` from its opposite. -/
theorem secpEcdsaVerify_neg {hash32 r32 s32 t32 : Fixed 32} (pub : Bytes)
    (hs : beVal s32.val ≠ 0 ∧ beVal s32.val < orderN)
    (ht : beVal t32.val = orderN - beVal s32.val) :
    secpEcdsaVerify hash32 r32 t32 pub = secpEcdsaVerify hash32 r32 s32 pub := by
  have hcast : (beVal t32.val : ZMod orderN) = -(beVal s32.val : ZMod orderN) := by
    rw [ht, Nat.cast_sub hs.2.le, ZMod.natCast_self, zero_sub]
  have hrange : beVal t32.val ≠ 0 ∧ beVal t32.val < orderN := by omega
  rw [Bool.eq_iff_iff, secpEcdsaVerify_iff, secpEcdsaVerify_iff]
  simp only [ecdsaEq_neg hcast, hs, hrange, ne_eq, not_false_eq_true, and_self, true_and]

/-! ### Signing -/

theorem rfc6979Loop_range {sha256 : Bytes → Hash256} {turns : ℕ} {K V kb : Fixed 32}
    (h : rfc6979Loop sha256 turns K V = some kb) : beVal kb.val ≠ 0 ∧ beVal kb.val < orderN := by
  induction turns generalizing K V with
  | zero => cases h
  | succ turns ih =>
    unfold rfc6979Loop at h
    dsimp only at h
    split at h
    · rename_i hok
      rw [Option.some.injEq] at h
      rw [h, Bool.and_eq_true, Bool.not_eq_true', beq_iff_eq] at hok
      rw [← scalar_ok_iff, hok.1, hok.2]
      rfl
    · exact ih h

theorem limbVal_scAddMod {a b : Limbs4} (ha : limbVal a < orderN) (hb : limbVal b < orderN) :
    (limbVal (scAddMod a b scN) : ZMod orderN) = limbVal a + limbVal b := by
  have hadd := limbAdd_val a b
  obtain ⟨hborrow, hsub⟩ := limbSub_val (limbAdd a b).1 scN
  have hlow := limbVal_lt (limbAdd a b).1
  have hres := limbVal_lt (limbSub (limbAdd a b).1 scN).1
  have hcmp := limbCmp_lt_iff (limbAdd a b).1 scN
  rw [limbVal_scN] at hsub hcmp
  unfold scAddMod
  dsimp only
  by_cases h : (limbAdd a b).2 ≠ 0 ∨ limbCmp (limbAdd a b).1 scN ≠ .lt
  · rw [if_pos h]
    have hge : orderN ≤ limbVal a + limbVal b := by
      rcases h with h | h
      · unfold orderN
        omega
      · have := mt hcmp.mpr h
        omega
    have hval : limbVal (limbSub (limbAdd a b).1 scN).1 + orderN = limbVal a + limbVal b := by
      unfold orderN at *
      omega
    have hcast := congrArg (Nat.cast (R := ZMod orderN)) hval
    rwa [Nat.cast_add, ZMod.natCast_self, add_zero, Nat.cast_add] at hcast
  · rw [if_neg h]
    rw [not_or, not_not] at h
    rw [h.1, mul_zero, add_zero] at hadd
    rw [hadd, Nat.cast_add]

theorem cast_eq_zero_iff {a : ℕ} (h : a < orderN) : (a : ZMod orderN) = 0 ↔ a = 0 := by
  rw [ZMod.natCast_eq_zero_iff]
  exact ⟨fun hd => Nat.eq_zero_of_dvd_of_lt hd h, fun h0 => h0 ▸ dvd_zero _⟩

theorem limbVal_nHalf : limbVal (be32ToLimbs secpNHalfBe) = orderN / 2 := by
  rw [limbVal_be32ToLimbs]
  decide

/-- The low one of a scalar and its opposite. -/
theorem lowS_spec {s : Limbs4} (h0 : limbVal s ≠ 0) (hlt : limbVal s < orderN) {t : Limbs4}
    (ht : t = if limbCmp s (be32ToLimbs secpNHalfBe) = .gt then (limbSub scN s).1 else s) :
    limbVal t ≠ 0 ∧ limbVal t ≤ orderN / 2 ∧ ((limbVal t : ZMod orderN) = limbVal s ∨
      (limbVal t : ZMod orderN) = -(limbVal s : ZMod orderN)) := by
  have hgt : limbCmp s (be32ToLimbs secpNHalfBe) = .gt ↔ orderN / 2 < limbVal s := by
    rw [limbCmp_eq, limbVal_nHalf, compare_gt_iff_gt]
  have hodd : orderN % 2 = 1 := by decide
  by_cases h : orderN / 2 < limbVal s
  · rw [if_pos (hgt.mpr h)] at ht
    obtain ⟨hborrow, hsub⟩ := limbSub_val scN s
    have hres := limbVal_lt (limbSub scN s).1
    rw [limbVal_scN, ← ht] at hsub
    rw [← ht] at hres
    have hval : limbVal t + limbVal s = orderN := by omega
    refine ⟨by omega, by omega, Or.inr ?_⟩
    rw [eq_neg_iff_add_eq_zero, ← Nat.cast_add, hval, ZMod.natCast_self]
  · rw [if_neg (mt hgt.mp h)] at ht
    rw [ht]
    exact ⟨h0, not_lt.mp h, Or.inl rfl⟩

/-- What one nonce signs satisfies the equation of ECDSA, with a low `s`. -/
theorem signWith_spec {d z : Limbs4} {kb r32 s32 : Fixed 32} (hz : limbVal z < orderN)
    (hk : beVal kb.val ≠ 0 ∧ beVal kb.val < orderN)
    (h : signWith d z kb = some (r32, s32)) :
    (beVal r32.val ≠ 0 ∧ beVal r32.val < orderN) ∧
      (beVal s32.val ≠ 0 ∧ beVal s32.val ≤ orderN / 2) ∧
      EcdsaEq (limbVal z) (beVal r32.val) (beVal s32.val)
        ((limbVal d : ZMod orderN) • basePt) := by
  have hmul := rep_mul rep_G kb
  rw [← Nat.cast_smul_eq_nsmul (ZMod orderN)] at hmul
  rw [← limbVal_be32ToLimbs] at hk
  obtain ⟨kinv, hkinv, -, hinv⟩ := scInv_spec hk.1 hk.2
  rw [limbVal_be32ToLimbs] at hinv
  unfold signWith at h
  rw [hkinv] at h
  rcases hmul.affine with ⟨-, hnone⟩ | ⟨X, Y, x, y, hns, hsome, hX, hY, hpt⟩
  · rw [hnone] at h
    cases h
  rw [hsome] at h
  dsimp only at h
  have hr := limbVal_scReduce X
  have hrlt : limbVal (scReduce X) < orderN := hr ▸ Nat.mod_lt _ (Nat.Prime.pos orderN_prime)
  have hrd : limbVal (scMul (scReduce X) d) < orderN :=
    limbVal_scMul (scReduce X) d ▸ Nat.mod_lt _ (Nat.Prime.pos orderN_prime)
  have hzrd := limbVal_scAddMod hz hrd
  rw [cast_scMul] at hzrd
  have hs := cast_scMul kinv (scAddMod z (scMul (scReduce X) d) scN)
  have hslt : limbVal (scMul kinv (scAddMod z (scMul (scReduce X) d) scN)) < orderN :=
    limbVal_scMul kinv _ ▸ Nat.mod_lt _ (Nat.Prime.pos orderN_prime)
  rw [hzrd] at hs
  generalize scMul kinv (scAddMod z (scMul (scReduce X) d) scN) = s at h hs hslt
  split at h
  · cases h
  rename_i hr0
  rw [limbIsZero_iff] at hr0
  split at h
  · cases h
  rename_i hs0
  rw [limbIsZero_iff] at hs0
  rw [Option.some.injEq, Prod.mk.injEq] at h
  obtain ⟨rfl, hs32⟩ := h
  obtain ⟨ht0, htle, hteq⟩ := lowS_spec hs0 hslt rfl
  rw [← hs32, beVal_limbsToBe32, beVal_limbsToBe32]
  refine ⟨⟨hr0, hrlt⟩, ⟨ht0, htle⟩, ?_⟩
  have hsne : (limbVal s : ZMod orderN) ≠ 0 := mt (cast_eq_zero_iff hslt).mp hs0
  have heq : EcdsaEq (limbVal z) (limbVal (scReduce X)) (limbVal s)
      ((limbVal d : ZMod orderN) • basePt) := by
    have hk' : (limbVal z : ZMod orderN) + limbVal (scReduce X) * limbVal d
        = beVal kb.val * limbVal s := by
      rw [hs, ← mul_assoc, hinv, one_mul]
    have hpoint : ((limbVal z : ZMod orderN) * (limbVal s : ZMod orderN)⁻¹) • basePt
        + ((limbVal (scReduce X) : ZMod orderN) * (limbVal s : ZMod orderN)⁻¹) •
          (limbVal d : ZMod orderN) • basePt = (beVal kb.val : ZMod orderN) • basePt := by
      rw [smul_smul, ← add_smul]
      congr 1
      field_simp
      linear_combination hk'
    unfold EcdsaEq
    rw [hpoint, hpt]
    exact ⟨x, y, hns, rfl, by rw [hr, hX.limbVal_eq]⟩
  rcases hteq with hteq | hteq
  · unfold EcdsaEq at heq ⊢
    rwa [hteq]
  · exact (ecdsaEq_neg hteq).mpr heq

/-- A nonce signs unless one of the two scalars is zero. -/
theorem signWith_isSome {d z : Limbs4} {kb : Fixed 32} (hz : limbVal z < orderN)
    (hk : beVal kb.val ≠ 0 ∧ beVal kb.val < orderN) {x y : ZMod fieldP}
    {hns : (curve (7 : ZMod fieldP)).Nonsingular x y}
    (hpt : beVal kb.val • basePt = .some x y hns) (hr : x.val % orderN ≠ 0)
    (hs : (limbVal z : ZMod orderN) + (x.val : ZMod orderN) * limbVal d ≠ 0) :
    (signWith d z kb).isSome := by
  have hmul := rep_mul rep_G kb
  rw [hpt] at hmul
  rw [← limbVal_be32ToLimbs] at hk
  obtain ⟨kinv, hkinv, -, hinv⟩ := scInv_spec hk.1 hk.2
  rcases hmul.affine with ⟨hzero, -⟩ | ⟨X, Y, x', y', hns', hsome, hX, hY, heq⟩
  · exact absurd hzero (Affine.Point.some_ne_zero hns)
  rw [Affine.Point.some.injEq] at heq
  rw [← heq.1] at hX
  have hrval := limbVal_scReduce X
  rw [hX.limbVal_eq] at hrval
  have hrd : limbVal (scMul (scReduce X) d) < orderN :=
    limbVal_scMul (scReduce X) d ▸ Nat.mod_lt _ (Nat.Prime.pos orderN_prime)
  have hzrd := limbVal_scAddMod hz hrd
  rw [cast_scMul, hrval, ZMod.natCast_mod] at hzrd
  have hscalar := cast_scMul kinv (scAddMod z (scMul (scReduce X) d) scN)
  rw [hzrd] at hscalar
  have hne : limbVal (scMul kinv (scAddMod z (scMul (scReduce X) d) scN)) ≠ 0 := by
    intro h0
    rw [h0, Nat.cast_zero, eq_comm, mul_eq_zero] at hscalar
    rcases hscalar with h | h
    · rw [h, mul_zero] at hinv
      exact zero_ne_one hinv
    · exact hs h
  have hrne : limbVal (scReduce X) ≠ 0 := by rwa [hrval]
  unfold signWith
  rw [hsome, hkinv]
  dsimp only
  rw [if_neg (mt (limbIsZero_iff _).mp hrne), if_neg (mt (limbIsZero_iff _).mp hne)]
  rfl

theorem signLoop_spec {sha256 : Bytes → Hash256} {turns : ℕ} {priv32 : Fixed 32} {d z : Limbs4}
    (hz : limbVal z < orderN) (attempts : ℕ) {feed r32 s32 : Fixed 32}
    (h : signLoop sha256 turns priv32 d z attempts feed = some (r32, s32)) :
    (beVal r32.val ≠ 0 ∧ beVal r32.val < orderN) ∧
      (beVal s32.val ≠ 0 ∧ beVal s32.val ≤ orderN / 2) ∧
      EcdsaEq (limbVal z) (beVal r32.val) (beVal s32.val)
        ((limbVal d : ZMod orderN) • basePt) := by
  induction attempts generalizing feed with
  | zero => cases h
  | succ attempts ih =>
    unfold signLoop at h
    split at h
    · cases h
    · rename_i kb hkb
      split at h
      · rename_i sig hsig
        rw [Option.some.injEq] at h
        rw [h] at hsig
        exact signWith_spec hz (rfc6979Loop_range hkb) hsig
      · exact ih h

/-- The public key of a private key in range. -/
theorem secpPubkey_spec {priv32 : Fixed 32} (h0 : beVal priv32.val ≠ 0)
    (hlt : beVal priv32.val < orderN) : ∃ pub, secpPubkey priv32 = some pub ∧
      KeyPoint pub.val ((beVal priv32.val : ZMod orderN) • basePt) := by
  have hmul := rep_mul rep_G priv32
  rw [← Nat.cast_smul_eq_nsmul (ZMod orderN)] at hmul
  unfold secpPubkey
  dsimp only
  rw [(scalar_ok_iff priv32).mpr ⟨h0, hlt⟩, if_neg (by decide)]
  rcases hmul.affine with ⟨hzero, -⟩ | ⟨X, Y, x, y, hns, hsome, hX, hY, hpt⟩
  · -- a multiple in range is not the point at infinity
    rw [smul_eq_zero, cast_eq_zero_iff hlt] at hzero
    rcases hzero with hzero | hzero
    · exact absurd hzero h0
    · exact absurd hzero (Affine.Point.some_ne_zero _)
  · rw [hsome, hpt]
    exact ⟨_, rfl, X, Y, x, y, hns, pubDecode_compress hX hY (eq_of_nonsingular hns), hX, hY, rfl⟩

/-- A signature that the signer returns is in range with a low `s` and is accepted under the
derived key, and `s` and its opposite verify alike. -/
theorem secpEcdsaVerify_sign (sha256 : Bytes → Hash256) (turns : ℕ) :
    (∀ priv32 hash32 r32 s32 : Fixed 32, 1 ≤ beVal priv32.val ∧ beVal priv32.val < orderN →
      secpEcdsaSign sha256 turns priv32 hash32 = some (r32, s32) →
      (1 ≤ beVal r32.val ∧ beVal r32.val < orderN) ∧
        (1 ≤ beVal s32.val ∧ beVal s32.val ≤ (orderN - 1) / 2) ∧
        ∃ pub, secpPubkey priv32 = some pub ∧
          secpEcdsaVerify hash32 r32 s32 pub.val = true) ∧
    (∀ (hash32 r32 s32 t32 : Fixed 32) (pub : Bytes),
      1 ≤ beVal s32.val ∧ beVal s32.val < orderN → beVal t32.val = orderN - beVal s32.val →
      secpEcdsaVerify hash32 r32 t32 pub = secpEcdsaVerify hash32 r32 s32 pub) := by
  constructor
  · intro priv32 hash32 r32 s32 hpriv hsign
    have hpriv0 : beVal priv32.val ≠ 0 := by omega
    unfold secpEcdsaSign at hsign
    dsimp only at hsign
    rw [(scalar_ok_iff priv32).mpr ⟨hpriv0, hpriv.2⟩, if_neg (by decide)] at hsign
    have hz : limbVal (scReduce (be32ToLimbs hash32)) < orderN :=
      limbVal_scReduce _ ▸ Nat.mod_lt _ (Nat.Prime.pos orderN_prime)
    obtain ⟨hr, hs, heq⟩ := signLoop_spec hz 64 hsign
    obtain ⟨pub, hpub, hkey⟩ := secpPubkey_spec hpriv0 hpriv.2
    have hhalf : orderN / 2 = (orderN - 1) / 2 := by decide
    have hslt : beVal s32.val < orderN := by
      have hpos := (Nat.Prime.pos orderN_prime)
      omega
    refine ⟨⟨by omega, hr.2⟩, ⟨by omega, by omega⟩, pub, hpub, ?_⟩
    rw [secpEcdsaVerify_iff]
    refine ⟨_, hkey, hr, ⟨hs.1, hslt⟩, ?_⟩
    rw [limbVal_be32ToLimbs] at heq
    unfold EcdsaEq at heq ⊢
    rwa [limbVal_scReduce, ZMod.natCast_mod, limbVal_be32ToLimbs] at heq
  · intro hash32 r32 s32 t32 pub hs ht
    exact secpEcdsaVerify_neg pub ⟨by omega, hs.2⟩ ht

/-- The SHA-256 values of the messages below. -/
def sampleHashes : List Hash256 :=
  [⟨[0, 127, 0, 5, 146, 184, 44, 22, 121, 27, 165, 39, 114, 155, 76, 131, 75, 113, 53, 92, 77,
      92, 189, 220, 235, 204, 22, 121, 22, 34, 149, 177], rfl⟩,
    ⟨[172, 16, 119, 194, 205, 215, 234, 60, 86, 66, 119, 144, 130, 83, 240, 60, 184, 75, 64, 154,
      23, 79, 91, 35, 6, 97, 17, 179, 150, 110, 154, 105], rfl⟩,
    ⟨[167, 74, 35, 124, 252, 32, 200, 108, 76, 211, 126, 138, 108, 121, 149, 183, 61, 94, 27, 98,
      77, 15, 83, 79, 167, 140, 187, 20, 3, 227, 112, 35], rfl⟩,
    ⟨[22, 28, 48, 116, 117, 57, 121, 69, 217, 116, 104, 147, 129, 210, 107, 116, 209, 198, 238,
      57, 204, 179, 59, 37, 168, 157, 246, 80, 118, 18, 244, 113], rfl⟩,
    ⟨[18, 60, 84, 247, 97, 35, 62, 51, 228, 80, 252, 209, 157, 190, 166, 136, 62, 140, 133, 7,
      105, 53, 96, 73, 136, 171, 47, 136, 40, 85, 135, 114], rfl⟩,
    ⟨[71, 169, 144, 94, 18, 165, 101, 201, 19, 249, 123, 173, 245, 166, 47, 135, 252, 4, 122, 32,
      45, 10, 206, 253, 138, 20, 145, 153, 88, 6, 89, 113], rfl⟩,
    ⟨[169, 90, 149, 94, 96, 210, 46, 150, 124, 190, 145, 105, 67, 120, 71, 42, 93, 89, 252, 52,
      109, 82, 181, 24, 169, 186, 180, 54, 25, 247, 245, 249], rfl⟩,
    ⟨[101, 16, 249, 57, 186, 209, 151, 147, 36, 141, 57, 110, 79, 238, 250, 3, 171, 43, 207, 177,
      183, 24, 244, 216, 24, 246, 11, 54, 213, 176, 160, 9], rfl⟩,
    ⟨[92, 137, 23, 66, 117, 227, 26, 12, 96, 59, 205, 76, 113, 26, 205, 43, 157, 87, 71, 145,
      187, 227, 88, 118, 184, 156, 219, 249, 159, 142, 29, 12], rfl⟩,
    ⟨[1, 4, 151, 211, 105, 179, 213, 37, 202, 21, 236, 41, 193, 4, 166, 148, 33, 11, 181, 159,
      246, 202, 191, 193, 10, 254, 109, 240, 40, 56, 150, 223], rfl⟩]

/-- A padded key. -/
def samplePad (key : Bytes) (c : Byte) : Bytes := (copyFrom 64 key).val.map fun x => x ^^^ c

/-- The messages hashed for the private key 1 and the hash 0. -/
def sampleMessages (h : ℕ → Bytes) : List Bytes :=
  let one : Bytes := List.replicate 31 0 ++ [1]
  let zero : Bytes := List.replicate 32 0
  let V0 : Bytes := List.replicate 32 1
  [samplePad zero 0x36 ++ (V0 ++ [0] ++ one ++ zero), samplePad zero 0x5c ++ h 0,
    samplePad (h 1) 0x36 ++ V0, samplePad (h 1) 0x5c ++ h 2,
    samplePad (h 1) 0x36 ++ (h 3 ++ [1] ++ one ++ zero), samplePad (h 1) 0x5c ++ h 4,
    samplePad (h 5) 0x36 ++ h 3, samplePad (h 5) 0x5c ++ h 6,
    samplePad (h 5) 0x36 ++ h 7, samplePad (h 5) 0x5c ++ h 8]

/-- The hash on the messages that the nonce takes. -/
def sampleSignSha (b : Bytes) : Hash256 :=
  (((sampleMessages fun i => (sampleHashes.getD i (zeros 32)).val).zip sampleHashes).find?
    fun e => e.1 == b).elim (zeros 32) Prod.snd

def sampleOne : Fixed 32 := ⟨List.replicate 31 0 ++ [1], rfl⟩

/-- The nonce's point. -/
def sampleX : ℕ := 0xa0b37f8fba683cc68f6574cd43b39f0343a50008bf6ccea9d13231d9e7e2e1e4
def sampleY : ℕ := 0x371c2e8c31b05f82cebc443424c560c831e0563691df3e633a6cd0843415e1fe

theorem sample_curve : (sampleY : ZMod fieldP) ^ 2 = (sampleX : ZMod fieldP) ^ 3 + 7 := by
  have h : sampleY ^ 2 % fieldP = (sampleX ^ 3 + 7) % fieldP := by decide +kernel
  have hcast := (ZMod.natCast_eq_natCast_iff _ _ fieldP).mpr h
  push_cast at hcast
  exact hcast

theorem sample_signs : ∃ r32 s32,
    secpEcdsaSign sampleSignSha 1 sampleOne (zeros 32) = some (r32, s32) := by
  obtain ⟨kb, hkb, hval⟩ : ∃ kb, rfc6979K sampleSignSha 1 sampleOne (zeros 32) = some kb ∧
      beVal kb.val = 0x10497d369b3d525ca15ec29c104a694210bb59ff6cabfc10afe6df0283896df := by
    refine ⟨sampleHashes.getD 9 (zeros 32), ?_, ?_⟩
    · decide +kernel
    · decide +kernel
  have hpt := nsmul_basePt 248 0x10497d369b3d525ca15ec29c104a694210bb59ff6cabfc10afe6df0283896df
    (by decide) (nonsingular_of_eq sample_curve) (by decide +kernel)
  rw [← hval] at hpt
  have hx : (sampleX : ZMod fieldP).val = sampleX := by
    rw [ZMod.val_natCast]
    exact Nat.mod_eq_of_lt (by decide)
  have hd : limbVal (be32ToLimbs sampleOne) = 1 := by
    rw [limbVal_be32ToLimbs]
    decide
  have hz : limbVal (scReduce (be32ToLimbs (zeros 32))) = 0 := by
    rw [limbVal_scReduce, limbVal_be32ToLimbs]
    decide
  have hsome := signWith_isSome (d := be32ToLimbs sampleOne)
    (z := scReduce (be32ToLimbs (zeros 32)))
    (by rw [hz]; decide) (by rw [hval]; decide) hpt (by rw [hx]; decide) (by
      rw [hz, hd, hx, Nat.cast_zero, zero_add, Nat.cast_one, mul_one, Ne,
        cast_eq_zero_iff (by decide)]
      decide)
  obtain ⟨⟨r32, s32⟩, hsig⟩ := Option.isSome_iff_exists.mp hsome
  refine ⟨r32, s32, ?_⟩
  have hrange : (limbIsZero (be32ToLimbs sampleOne) || limbCmp (be32ToLimbs sampleOne) scN != .lt)
      = false := (scalar_ok_iff sampleOne).mpr (by decide)
  unfold secpEcdsaSign
  dsimp only
  rw [hrange, if_neg (by decide), signLoop, hkb]
  dsimp only
  rw [hsig]

/-- The private key 1 and the hash 0; and the scalars 1 and its opposite. -/
theorem secpEcdsaVerify_sign_sample :
    (∃ r32 s32, secpEcdsaSign sampleSignSha 1 sampleOne (zeros 32) = some (r32, s32) ∧
      (1 ≤ beVal r32.val ∧ beVal r32.val < orderN) ∧
      (1 ≤ beVal s32.val ∧ beVal s32.val ≤ (orderN - 1) / 2) ∧
      ∃ pub, secpPubkey sampleOne = some pub ∧
        secpEcdsaVerify (zeros 32) r32 s32 pub.val = true) ∧
    secpEcdsaVerify (zeros 32) sampleOne (limbsToBe32 (limbSub scN oneLimbs).1) [0x02]
      = secpEcdsaVerify (zeros 32) sampleOne sampleOne [0x02] := by
  obtain ⟨r32, s32, hsign⟩ := sample_signs
  obtain ⟨haccept, hneg⟩ := secpEcdsaVerify_sign sampleSignSha 1
  refine ⟨⟨r32, s32, hsign, haccept _ _ _ _ (by decide) hsign⟩, hneg _ _ _ _ _ (by decide) ?_⟩
  rw [beVal_limbsToBe32]
  decide +kernel

end NamespaceIndexer.Curve
