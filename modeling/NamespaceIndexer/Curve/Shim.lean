import NamespaceIndexer.Curve.Ecdsa
import NamespaceIndexer.Curve.Ecmh

/-!
# The curve layer over libsecp256k1 (`secp_shim.c`)

The library is a parameter: its functions, and what its documentation says of them. The shim's
functions return what the reference's do.
-/

namespace NamespaceIndexer.Curve

open Fold Lib ShortCurve WeierstrassCurve

/-! ### The library -/

/-- The functions of libsecp256k1 that the shim calls. -/
structure Libsecp where
  Pubkey : Type
  Signature : Type
  ecPubkeyParse : Bytes → Option Pubkey
  ecdsaSignatureParseCompact : Bytes → Option Signature
  ecdsaSignatureNormalize : Signature → Signature
  ecdsaVerify : Signature → Hash256 → Pubkey → Bool
  ecPubkeyCombine : Pubkey → Pubkey → Option Pubkey
  ecPubkeySerializeCompressed : Pubkey → Fixed 33

/-- The prefix of an ordinate's parity. -/
def parityPrefix (even odd : Byte) (y : ZMod fieldP) : Byte := if y.val % 2 = 1 then odd else even

/-- The encodings of a curve point: `02`/`03` and the abscissa, or `04`, `06` or `07` and both
coordinates, all below the field size; the hybrid prefixes give the parity too. -/
inductive Encodes : Bytes → Pt → Prop
  | compressed {x y : ZMod fieldP} {hns : (curve (7 : ZMod fieldP)).Nonsingular x y}
      (xb : Fixed 32) (hx : beVal xb.val = x.val) :
      Encodes (parityPrefix 0x02 0x03 y :: xb.val) (.some x y hns)
  | uncompressed {x y : ZMod fieldP} {hns : (curve (7 : ZMod fieldP)).Nonsingular x y}
      (c : Byte) (xb yb : Fixed 32) (hx : beVal xb.val = x.val) (hy : beVal yb.val = y.val)
      (hc : c = 0x04 ∨ c = parityPrefix 0x06 0x07 y) :
      Encodes (c :: xb.val ++ yb.val) (.some x y hns)

/-- What the library documents: the point of a key and the scalars of a signature, and what each
function does with them. -/
structure Documented (L : Libsecp) where
  point : L.Pubkey → Pt
  scalars : L.Signature → ℕ × ℕ
  parse_some : ∀ pub pk, L.ecPubkeyParse pub = some pk → Encodes pub (point pk)
  parse_none : ∀ pub, L.ecPubkeyParse pub = none → ∀ P, ¬Encodes pub P
  parseCompact_some : ∀ r s : Fixed 32, beVal r.val < orderN → beVal s.val < orderN →
    ∃ sig, L.ecdsaSignatureParseCompact (r.val ++ s.val) = some sig ∧
      scalars sig = (beVal r.val, beVal s.val)
  parseCompact_none : ∀ r s : Fixed 32, orderN ≤ beVal r.val ∨ orderN ≤ beVal s.val →
    L.ecdsaSignatureParseCompact (r.val ++ s.val) = none
  normalize : ∀ sig, scalars (L.ecdsaSignatureNormalize sig) = ((scalars sig).1,
    if orderN / 2 < (scalars sig).2 then orderN - (scalars sig).2 else (scalars sig).2)
  verify : ∀ sig (hash : Hash256) pk, L.ecdsaVerify sig hash pk = true ↔
    (scalars sig).1 ≠ 0 ∧ (scalars sig).2 ≠ 0 ∧ (scalars sig).2 ≤ orderN / 2 ∧
      EcdsaEq (beVal hash.val) (scalars sig).1 (scalars sig).2 (point pk)
  combine_some : ∀ a b, point a + point b ≠ 0 →
    ∃ r, L.ecPubkeyCombine a b = some r ∧ point r = point a + point b
  combine_none : ∀ a b, point a + point b = 0 → L.ecPubkeyCombine a b = none
  serialize : ∀ pk x y hns, point pk = .some x y hns →
    ∃ xb : Fixed 32, beVal xb.val = x.val ∧
      (L.ecPubkeySerializeCompressed pk).val = parityPrefix 0x02 0x03 y :: xb.val

/-! ### The shim -/

namespace Shim

/-- `P_BE`. -/
def pBe : Fixed 32 :=
  ⟨[0xFF, 0xFF, 0xFF, 0xFF, 0xFF, 0xFF, 0xFF, 0xFF, 0xFF, 0xFF, 0xFF, 0xFF, 0xFF, 0xFF, 0xFF, 0xFF,
    0xFF, 0xFF, 0xFF, 0xFF, 0xFF, 0xFF, 0xFF, 0xFF, 0xFF, 0xFF, 0xFF, 0xFE, 0xFF, 0xFF, 0xFC, 0x2F],
    rfl⟩

/-- The comparison of `mod_p_once`: the first difference decides. -/
def geBe : Bytes → Bytes → Bool
  | a :: as, b :: bs => if a ≠ b then b < a else geBe as bs
  | _, _ => true

/-- The subtraction of `mod_p_once`, from the last byte up, with the borrow. -/
def subBe : Bytes → Bytes → Bytes × ℕ
  | a :: as, b :: bs =>
    let r := subBe as bs
    let d : ℤ := a.val - b.val - r.2
    if d < 0 then (Fin.ofNat 256 (d + 256).toNat :: r.1, 1) else (Fin.ofNat 256 d.toNat :: r.1, 0)
  | _, _ => ([], 0)

theorem subBe_spec {as bs : Bytes} (hlen : as.length = bs.length) :
    (subBe as bs).1.length = as.length ∧ (subBe as bs).2 ≤ 1 ∧
      beVal (subBe as bs).1 + beVal bs = beVal as + 256 ^ as.length * (subBe as bs).2 := by
  induction as generalizing bs with
  | nil =>
    rw [List.length_eq_zero_iff.mp hlen.symm]
    exact ⟨rfl, Nat.zero_le 1, rfl⟩
  | cons a as ih =>
    cases bs with
    | nil => simp at hlen
    | cons b bs =>
      have hlen' : as.length = bs.length := by simpa using hlen
      obtain ⟨hl, hle, hval⟩ := ih hlen'
      have ha := a.isLt
      have hb := b.isLt
      unfold subBe
      dsimp only
      generalize subBe as bs = r at hl hle hval
      split
      · rename_i hneg
        refine ⟨by simp [hl], le_rfl, ?_⟩
        have hdigit : (Fin.ofNat 256 ((a.val : ℤ) - b.val - r.2 + 256).toNat).val + b.val + r.2
            = a.val + 256 := by
          rw [Fin.val_ofNat]
          omega
        rw [beVal_cons, beVal_cons, beVal_cons, hl, ← hlen', List.length_cons, pow_succ]
        generalize (Fin.ofNat 256 ((a.val : ℤ) - b.val - r.2 + 256).toNat).val = d at hdigit
        have hmul := congrArg (256 ^ as.length * ·) hdigit
        simp only [Nat.mul_add] at hmul
        rw [mul_one]
        omega
      · rename_i hpos
        refine ⟨by simp [hl], Nat.zero_le 1, ?_⟩
        have hdigit : (Fin.ofNat 256 ((a.val : ℤ) - b.val - r.2).toNat).val + b.val + r.2
            = a.val := by
          rw [Fin.val_ofNat]
          omega
        rw [beVal_cons, beVal_cons, beVal_cons, hl, ← hlen']
        generalize (Fin.ofNat 256 ((a.val : ℤ) - b.val - r.2).toNat).val = d at hdigit
        have hmul := congrArg (256 ^ as.length * ·) hdigit
        simp only [Nat.mul_add] at hmul
        rw [mul_zero]
        omega

/-- `mod_p_once`. -/
def modPOnce (x : Fixed 32) : Fixed 32 :=
  if geBe x.val pBe.val then
    ⟨(subBe x.val pBe.val).1, by
      rw [(subBe_spec (x.property.trans pBe.property.symm)).1, x.property]⟩
  else x

/-- `sec1_prefix_ok`. -/
def sec1PrefixOk (pub : Bytes) : Bool :=
  if pub.length = 33 then pub.headD 0 == 0x02 || pub.headD 0 == 0x03
  else if pub.length = 65 then pub.headD 0 == 0x04
  else false

section Functions

variable (L : Libsecp)

/-- `secp_on_curve`. -/
def secpOnCurve (pub : Bytes) : Bool :=
  if !sec1PrefixOk pub then false else (L.ecPubkeyParse pub).isSome

/-- `secp_ecdsa_verify`. -/
def secpEcdsaVerify (hash32 r32 s32 : Fixed 32) (pub : Bytes) : Bool :=
  if !sec1PrefixOk pub then false
  else
    match L.ecPubkeyParse pub with
    | none => false
    | some pk =>
      match L.ecdsaSignatureParseCompact (r32.val ++ s32.val) with
      | none => false
      | some sig => L.ecdsaVerify (L.ecdsaSignatureNormalize sig) hash32 pk

/-- The loop of `secp_ecmh_hash` from a counter on, for a number of turns. -/
def ecmhHashFrom (sha256 : Bytes → Hash256) (pre : Bytes) : ℕ → ℕ → Option (ℕ × Fixed 33)
  | 0, _ => none
  | turns + 1, ctr =>
    let h := modPOnce (sha256 (ecmhH2cTag ++ pre ++ leBytes 4 ctr))
    let cand : Fixed 33 := ⟨0x02 :: h.val, by rw [List.length_cons, h.property]⟩
    if (L.ecPubkeyParse cand.val).isSome then some (ctr, cand)
    else ecmhHashFrom sha256 pre turns (ctr + 1)

/-- `secp_ecmh_hash`. -/
def secpEcmhHash (sha256 : Bytes → Hash256) (turns : ℕ) (pre : Bytes) : Option (ℕ × Fixed 33) :=
  ecmhHashFrom L sha256 pre turns 0

/-- `secp_ecmh_add`. -/
def secpEcmhAdd (acc pt : Fixed 33) : Fixed 33 :=
  if pt.val.headD 0 = 0 then acc
  else if acc.val.headD 0 = 0 then pt
  else
    match L.ecPubkeyParse acc.val, L.ecPubkeyParse pt.val with
    | some a, some b =>
      match L.ecPubkeyCombine a b with
      | none => zeros 33
      | some r => L.ecPubkeySerializeCompressed r
    | _, _ => acc

end Functions

end Shim

/-! ### Encodings and decodings -/

theorem exists_isF (x : ZMod fieldP) : ∃ X, IsF X x := by
  have hval := ZMod.val_lt x
  have hbe : beVal (leBytes 32 x.val).reverse = x.val := by
    unfold beVal
    rw [List.reverse_reverse, leVal_leBytes]
    refine Nat.mod_eq_of_lt (lt_trans hval ?_)
    decide
  have h := isF_be32 (b := ⟨(leBytes 32 x.val).reverse, by simp⟩) (by rw [hbe]; exact hval)
  rw [hbe, ZMod.natCast_zmod_val] at h
  exact ⟨_, h⟩

theorem isF_of_beVal {b : Fixed 32} {x : ZMod fieldP} (h : beVal b.val = x.val) :
    IsF (be32ToLimbs b) x := by
  have hF := isF_be32 (b := b) (by rw [h]; exact ZMod.val_lt x)
  rwa [h, ZMod.natCast_zmod_val] at hF

theorem IsF.beVal_eq {X : Fe} {x : ZMod fieldP} (h : IsF X x) :
    beVal (limbsToBe32 X).val = x.val := by
  rw [beVal_limbsToBe32, h.limbVal_eq]

theorem compress_eq {X Y : Fe} {x y : ZMod fieldP} (hY : IsF Y y) {xb : Fixed 32}
    (hX : IsF X x) (hx : beVal xb.val = x.val) :
    (compress X Y).val = parityPrefix 0x02 0x03 y :: xb.val := by
  have hbytes : limbsToBe32 X = xb := beVal_fixed_inj (by rw [hX.beVal_eq, hx])
  unfold compress parityPrefix
  dsimp only
  rw [hbytes, feIsOdd_eq, hY.limbVal_eq]
  simp only [beq_iff_eq]

/-- The compressed encoding of a point is the accumulator of that point. -/
theorem enc_of_bytes {b : Fixed 33} {x y : ZMod fieldP}
    (hns : (curve (7 : ZMod fieldP)).Nonsingular x y) {xb : Fixed 32} (hx : beVal xb.val = x.val)
    (hb : b.val = parityPrefix 0x02 0x03 y :: xb.val) : Enc b (.some x y hns) := by
  obtain ⟨Y, hY⟩ := exists_isF y
  have heq : compress (be32ToLimbs xb) Y = b :=
    Subtype.ext ((compress_eq hY (isF_of_beVal hx) hx).trans hb.symm)
  rw [← heq]
  exact .point (isF_of_beVal hx) hY hns

theorem keyPoint_compress {X Y : Fe} {x y : ZMod fieldP} (hX : IsF X x) (hY : IsF Y y)
    (hns : (curve (7 : ZMod fieldP)).Nonsingular x y) :
    KeyPoint (compress X Y).val (.some x y hns) :=
  ⟨X, Y, x, y, hns, pubDecode_compress hX hY (eq_of_nonsingular hns), hX, hY, rfl⟩

/-- What decodes has a canonical prefix and is an encoding of the point. -/
theorem KeyPoint.encodes {pub : Bytes} {Q : Pt} (h : KeyPoint pub Q) :
    Shim.sec1PrefixOk pub = true ∧ Encodes pub Q := by
  obtain ⟨X, Y, x, y, hns, hdec, hX, hY, rfl⟩ := h
  obtain ⟨-, -, -, -, -, hbytes⟩ := pubDecode_some hdec
  unfold pubDecode at hdec
  unfold Shim.sec1PrefixOk
  split at hdec
  · rename_i hform
    obtain ⟨hlen, hhead⟩ := hform
    rw [if_pos hlen, Bool.or_eq_true, beq_iff_eq, beq_iff_eq]
    refine ⟨hhead, ?_⟩
    rw [← hbytes hlen, compress_eq hY hX hX.beVal_eq]
    exact .compressed _ hX.beVal_eq
  · split at hdec
    · rename_i hform
      obtain ⟨hlen, hhead⟩ := hform
      rw [if_neg (by omega), if_pos hlen, beq_iff_eq]
      refine ⟨hhead, ?_⟩
      split at hdec
      · rename_i X' Y' hX' hY'
        rw [Option.ite_none_right_eq_some, Option.some.injEq, Prod.mk.injEq] at hdec
        obtain ⟨-, rfl, rfl⟩ := hdec
        obtain ⟨-, hxb⟩ := feFromBeLtP_some hX'
        obtain ⟨-, hyb⟩ := feFromBeLtP_some hY'
        have hpub : pub = 0x04 :: (limbsToBe32 X').val ++ (limbsToBe32 Y').val := by
          rw [hxb, hyb]
          match pub, hlen, hhead with
          | c :: rest, hlen, hhead =>
            have hrest : rest.length = 64 := by simpa using hlen
            have hc : c = 0x04 := hhead
            have hfirst : (copyFrom 32 (List.drop 1 (c :: rest))).val = rest.take 32 := by
              rw [List.drop_one, List.tail_cons, copyFrom_val (by omega)]
            have hsecond : (copyFrom 32 (List.drop 33 (c :: rest))).val = rest.drop 32 := by
              rw [List.drop_succ_cons, copyFrom_val (by rw [List.length_drop]; omega),
                List.take_of_length_le (by rw [List.length_drop]; omega)]
            rw [hfirst, hsecond, hc, List.cons_append, List.take_append_drop]
        rw [hpub]
        exact .uncompressed 0x04 _ _ hX.beVal_eq hY.beVal_eq (Or.inl rfl)
      · cases hdec
    · cases hdec

theorem head_of_sec1PrefixOk {c : Byte} {xb yb : Fixed 32}
    (hpre : Shim.sec1PrefixOk (c :: xb.val ++ yb.val) = true) : c = 0x04 := by
  have hlen : (c :: xb.val ++ yb.val).length = 65 := by
    rw [List.cons_append, List.length_cons, List.length_append, xb.property, yb.property]
  unfold Shim.sec1PrefixOk at hpre
  rw [if_neg (by omega), if_pos hlen, beq_iff_eq] at hpre
  exact hpre

/-- An encoding of canonical prefix decodes to its point. -/
theorem Encodes.keyPoint {pub : Bytes} {Q : Pt} (h : Encodes pub Q)
    (hpre : Shim.sec1PrefixOk pub = true) : KeyPoint pub Q := by
  cases h with
  | @compressed x y hns xb hx =>
    obtain ⟨Y, hY⟩ := exists_isF y
    have hX := isF_of_beVal hx
    rw [← compress_eq hY hX hx]
    exact ⟨_, Y, x, y, hns, pubDecode_compress hX hY (eq_of_nonsingular hns), hX, hY, rfl⟩
  | @uncompressed x y hns c xb yb hx hy hc =>
    have hX := isF_of_beVal hx
    have hY := isF_of_beVal hy
    have hlen : (c :: xb.val ++ yb.val).length = 65 := by
      rw [List.cons_append, List.length_cons, List.length_append, xb.property, yb.property]
    have hc4 := head_of_sec1PrefixOk hpre
    refine ⟨_, _, x, y, hns, ?_, hX, hY, rfl⟩
    have hfirst : copyFrom 32 ((c :: xb.val ++ yb.val).drop 1) = xb := by
      rw [List.drop_one, List.cons_append, List.tail_cons, copyFrom_append]
    have hsecond : copyFrom 32 ((c :: xb.val ++ yb.val).drop 33) = yb := by
      rw [List.cons_append, List.drop_succ_cons, List.drop_append_of_le_length (by rw [xb.property]),
        List.drop_of_length_le (by rw [xb.property]), List.nil_append]
      have h := copyFrom_append 32 yb []
      rwa [List.append_nil] at h
    have hcurve := (hY.sqr.eq_iff hX.rhs).mpr (by rw [← pow_two]; exact eq_of_nonsingular hns)
    have hxlt : beVal xb.val < fieldP := by rw [hx]; exact ZMod.val_lt x
    have hylt : beVal yb.val < fieldP := by rw [hy]; exact ZMod.val_lt y
    unfold pubDecode
    rw [if_neg (by rw [hlen]; omega), if_pos ⟨hlen, hc4⟩, hfirst, hsecond, feFromBeLtP_eq,
      feFromBeLtP_eq, if_pos hxlt, if_pos hylt]
    dsimp only
    rw [if_pos hcurve]

/-! ### The library's answers -/

section Library

variable {L : Libsecp} (doc : Documented L)

include doc

/-- A key is parsed to its point. -/
theorem parse_of_keyPoint {pub : Bytes} {Q : Pt} (h : KeyPoint pub Q) :
    ∃ pk, L.ecPubkeyParse pub = some pk ∧ doc.point pk = Q := by
  obtain ⟨hpre, henc⟩ := h.encodes
  cases hparse : L.ecPubkeyParse pub with
  | none => exact absurd henc (doc.parse_none pub hparse Q)
  | some pk => exact ⟨pk, rfl, ((doc.parse_some pub pk hparse).keyPoint hpre).unique h⟩

theorem keyPoint_of_parse {pub : Bytes} {pk : L.Pubkey} (hpre : Shim.sec1PrefixOk pub = true)
    (h : L.ecPubkeyParse pub = some pk) : KeyPoint pub (doc.point pk) :=
  (doc.parse_some pub pk h).keyPoint hpre

theorem parse_isSome_iff {pub : Bytes} (hpre : Shim.sec1PrefixOk pub = true) :
    (L.ecPubkeyParse pub).isSome = (pubDecode pub).isSome := by
  rw [Bool.eq_iff_iff]
  constructor
  · intro h
    obtain ⟨pk, hpk⟩ := Option.isSome_iff_exists.mp h
    obtain ⟨X, Y, x, y, hns, hdec, -⟩ := keyPoint_of_parse doc hpre hpk
    rw [hdec]
    rfl
  · intro h
    obtain ⟨⟨X, Y⟩, hdec⟩ := Option.isSome_iff_exists.mp h
    obtain ⟨Q, hkey, -⟩ := keyPoint_of_decode hdec
    obtain ⟨pk, hpk, -⟩ := parse_of_keyPoint doc hkey
    rw [hpk]
    rfl

theorem shim_onCurve (pub : Bytes) : Shim.secpOnCurve L pub = secpOnCurve pub := by
  unfold Shim.secpOnCurve secpOnCurve
  cases hpre : Shim.sec1PrefixOk pub with
  | true => exact parse_isSome_iff doc hpre
  | false =>
    cases hdec : pubDecode pub with
    | none => rfl
    | some q =>
      obtain ⟨Q, hkey, -⟩ := keyPoint_of_decode (X := q.1) (Y := q.2) hdec
      rw [hkey.encodes.1] at hpre
      cases hpre

theorem shim_ecdsaVerify (hash32 r32 s32 : Fixed 32) (pub : Bytes) :
    Shim.secpEcdsaVerify L hash32 r32 s32 pub = secpEcdsaVerify hash32 r32 s32 pub := by
  rw [Bool.eq_iff_iff, secpEcdsaVerify_iff]
  unfold Shim.secpEcdsaVerify
  cases hpre : Shim.sec1PrefixOk pub with
  | false =>
    constructor
    · intro h
      cases h
    · rintro ⟨Q, hkey, -⟩
      rw [hkey.encodes.1] at hpre
      cases hpre
  | true =>
    rw [Bool.not_true, if_neg (by decide)]
    cases hparse : L.ecPubkeyParse pub with
    | none =>
      constructor
      · intro h
        cases h
      · rintro ⟨Q, hkey, -⟩
        exact absurd hkey.encodes.2 (doc.parse_none pub hparse Q)
    | some pk =>
      have hkey := keyPoint_of_parse doc hpre hparse
      have hQ : ∀ {p : Pt → Prop}, (∃ Q, KeyPoint pub Q ∧ p Q) ↔ p (doc.point pk) := by
        intro p
        constructor
        · rintro ⟨Q, hkey', hp⟩
          rwa [hkey.unique hkey']
        · intro hp
          exact ⟨_, hkey, hp⟩
      rw [hQ]
      dsimp only
      by_cases hrange : beVal r32.val < orderN ∧ beVal s32.val < orderN
      · obtain ⟨sig, hsig, hscalars⟩ := doc.parseCompact_some r32 s32 hrange.1 hrange.2
        have hnorm := doc.normalize sig
        rw [hscalars] at hnorm
        rw [hsig]
        dsimp only at hnorm ⊢
        rw [doc.verify, hnorm]
        dsimp only
        have hodd : orderN % 2 = 1 := by decide
        by_cases hhigh : orderN / 2 < beVal s32.val
        · have hneg : ((orderN - beVal s32.val : ℕ) : ZMod orderN) = -(beVal s32.val : ZMod orderN) := by
            rw [Nat.cast_sub hrange.2.le, ZMod.natCast_self, zero_sub]
          rw [if_pos hhigh, ecdsaEq_neg hneg]
          constructor
          · rintro ⟨hr, hs, -, heq⟩
            exact ⟨⟨hr, hrange.1⟩, ⟨by omega, hrange.2⟩, heq⟩
          · rintro ⟨hr, hs, heq⟩
            exact ⟨hr.1, by omega, by omega, heq⟩
        · rw [if_neg hhigh]
          constructor
          · rintro ⟨hr, hs, -, heq⟩
            exact ⟨⟨hr, hrange.1⟩, ⟨hs, hrange.2⟩, heq⟩
          · rintro ⟨hr, hs, heq⟩
            exact ⟨hr.1, hs.1, by omega, heq⟩
      · rw [doc.parseCompact_none r32 s32 (by omega)]
        constructor
        · intro h
          cases h
        · rintro ⟨hr, hs, -⟩
          exact absurd ⟨hr.2, hs.2⟩ hrange

omit doc in
theorem geBe_iff {as bs : Bytes} (hlen : as.length = bs.length) :
    Shim.geBe as bs = true ↔ beVal bs ≤ beVal as := by
  induction as generalizing bs with
  | nil =>
    rw [List.length_eq_zero_iff.mp hlen.symm]
    simp [Shim.geBe]
  | cons a as ih =>
    cases bs with
    | nil => simp at hlen
    | cons b bs =>
      have hlen' : as.length = bs.length := by simpa using hlen
      have hlt := beVal_lt as
      have hlt' := beVal_lt bs
      rw [← hlen'] at hlt'
      unfold Shim.geBe
      rw [beVal_cons, beVal_cons, ← hlen']
      by_cases hab : a = b
      · rw [hab, if_neg (not_not.mpr rfl), ih hlen']
        omega
      · rw [if_pos hab, decide_eq_true_iff, Fin.lt_def]
        have hne : a.val ≠ b.val := fun h => hab (Fin.ext h)
        constructor
        · intro h
          have hmul := Nat.mul_le_mul_left (256 ^ as.length) (show b.val + 1 ≤ a.val from h)
          rw [Nat.mul_add, mul_one] at hmul
          omega
        · intro h
          by_contra hle
          have hmul := Nat.mul_le_mul_left (256 ^ as.length) (show a.val + 1 ≤ b.val by omega)
          rw [Nat.mul_add, mul_one] at hmul
          omega

omit doc in
/-- Both layers reduce a hash modulo the field size. -/
theorem modPOnce_eq (x : Fixed 32) :
    Shim.modPOnce x = limbsToBe32 (feCondSubP (be32ToLimbs x)) := by
  apply beVal_fixed_inj
  rw [beVal_limbsToBe32, limbVal_feCondSubP, limbVal_be32ToLimbs]
  have hlen : x.val.length = Shim.pBe.val.length := x.property.trans Shim.pBe.property.symm
  have hlt := beVal_lt x.val
  rw [x.property] at hlt
  have hp : beVal Shim.pBe.val = fieldP := by decide
  have hge := geBe_iff hlen
  rw [hp] at hge
  unfold Shim.modPOnce
  by_cases h : fieldP ≤ beVal x.val
  · rw [if_pos (hge.mpr h)]
    obtain ⟨hl, hborrow, hval⟩ := Shim.subBe_spec hlen
    have hres := beVal_lt (Shim.subBe x.val Shim.pBe.val).1
    rw [hl, x.property] at hres
    rw [hp, x.property] at hval
    dsimp only
    unfold fieldP at *
    omega
  · rw [if_neg (mt hge.mp h), Nat.mod_eq_of_lt (not_le.mp h)]

omit doc in
/-- The candidate of an abscissa decodes exactly when the right-hand side has a root. -/
theorem pubDecode_candidate {X : Fe} (hX : Reduced X) :
    (pubDecode (0x02 :: (limbsToBe32 X).val)).isSome
      = feEq (feSqr (feSqrt (rhsCurve X))) (rhsCurve X) := by
  have hlen : (0x02 :: (limbsToBe32 X).val : Bytes).length = 33 := by
    rw [List.length_cons, (limbsToBe32 X).property]
  have hcopy := copyFrom_append 32 (limbsToBe32 X) []
  rw [List.append_nil] at hcopy
  unfold pubDecode
  rw [if_pos ⟨hlen, Or.inl rfl⟩, List.drop_one, List.tail_cons, hcopy, feFromBeLtP_limbs hX]
  dsimp only
  cases feEq (feSqr (feSqrt (rhsCurve X))) (rhsCurve X) <;> rfl

theorem shim_ecmhHashFrom (sha256 : Bytes → Hash256) (pre : Bytes) (turns ctr : ℕ) :
    Shim.ecmhHashFrom L sha256 pre turns ctr = ecmhHashFrom sha256 pre turns ctr := by
  induction turns generalizing ctr with
  | zero => rfl
  | succ turns ih =>
    unfold Shim.ecmhHashFrom ecmhHashFrom
    simp only [modPOnce_eq, ih]
    have hpre : Shim.sec1PrefixOk (0x02 :: (limbsToBe32 (feCondSubP (be32ToLimbs
        (sha256 (ecmhH2cTag ++ pre ++ leBytes 4 ctr))))).val) = true := by
      unfold Shim.sec1PrefixOk
      rw [if_pos (by rw [List.length_cons, (limbsToBe32 _).property])]
      rfl
    rw [parse_isSome_iff doc hpre, pubDecode_candidate (reduced_feCondSubP _)]
    cases feEq (feSqr (feSqrt (rhsCurve (feCondSubP (be32ToLimbs
      (sha256 (ecmhH2cTag ++ pre ++ leBytes 4 ctr))))))) (rhsCurve (feCondSubP (be32ToLimbs
      (sha256 (ecmhH2cTag ++ pre ++ leBytes 4 ctr))))) <;> rfl

/-- The shim's sum is the encoding of the sum. -/
theorem shim_add_enc {acc pt : Fixed 33} {P Q : Pt} (hacc : Enc acc P) (hpt : Enc pt Q) :
    Enc (Shim.secpEcmhAdd L acc pt) (P + Q) := by
  unfold Shim.secpEcmhAdd
  cases hpt with
  | infinity =>
    rw [if_pos (by rfl), add_zero]
    exact hacc
  | @point X₂ Y₂ x₂ y₂ hX₂ hY₂ hns₂ =>
    rw [if_neg (compress_head_ne_zero X₂ Y₂)]
    cases hacc with
    | infinity =>
      rw [if_pos (by rfl), zero_add]
      exact .point hX₂ hY₂ hns₂
    | @point X₁ Y₁ x₁ y₁ hX₁ hY₁ hns₁ =>
      obtain ⟨a, ha, hpa⟩ := parse_of_keyPoint doc (keyPoint_compress hX₁ hY₁ hns₁)
      obtain ⟨b, hb, hpb⟩ := parse_of_keyPoint doc (keyPoint_compress hX₂ hY₂ hns₂)
      rw [if_neg (compress_head_ne_zero X₁ Y₁), ha, hb, ← hpa, ← hpb]
      dsimp only
      by_cases hsum : doc.point a + doc.point b = 0
      · rw [doc.combine_none a b hsum, hsum]
        exact .infinity
      · obtain ⟨r, hr, hpr⟩ := doc.combine_some a b hsum
        rw [hr, ← hpr]
        rw [← hpr] at hsum
        cases hpoint : doc.point r with
        | zero => exact absurd hpoint hsum
        | some x y hns =>
          obtain ⟨xb, hxb, hbytes⟩ := doc.serialize r x y hns hpoint
          exact enc_of_bytes hns hxb hbytes

end Library

/-- A valid accumulator: 33 zero bytes or a compressed curve point. -/
def ValidAcc (b : Fixed 33) : Prop := b = zeros 33 ∨ secpOnCurve b.val = true

theorem ValidAcc.enc {b : Fixed 33} (h : ValidAcc b) : ∃ P, Enc b P := by
  rcases h with rfl | h
  · exact ⟨0, .infinity⟩
  · exact exists_enc h

/-- The shim's functions return what the reference's do. -/
theorem shim_eq_reference (L : Libsecp) (doc : Documented L) :
    (∀ pub, Shim.secpOnCurve L pub = secpOnCurve pub) ∧
    (∀ hash32 r32 s32 pub,
      Shim.secpEcdsaVerify L hash32 r32 s32 pub = secpEcdsaVerify hash32 r32 s32 pub) ∧
    (∀ sha256 turns pre,
      Shim.secpEcmhHash L sha256 turns pre = secpEcmhHash sha256 turns pre) ∧
    (∀ acc pt, ValidAcc acc → ValidAcc pt → Shim.secpEcmhAdd L acc pt = secpEcmhAdd acc pt) := by
  refine ⟨shim_onCurve doc, shim_ecdsaVerify doc, ?_, ?_⟩
  · intro sha256 turns pre
    exact shim_ecmhHashFrom doc sha256 pre turns 0
  · intro acc pt hacc hpt
    obtain ⟨P, hP⟩ := hacc.enc
    obtain ⟨Q, hQ⟩ := hpt.enc
    exact (shim_add_enc doc hP hQ).unique (hP.add hQ)

/-! ### A library of points and pairs -/

theorem Encodes.ne_zero {pub : Bytes} {P : Pt} (h : Encodes pub P) : P ≠ 0 := by
  cases h with
  | compressed => exact Affine.Point.some_ne_zero _
  | uncompressed => exact Affine.Point.some_ne_zero _

theorem exists_enc_of_pt (P : Pt) : ∃ b, Enc b P := by
  cases P with
  | zero => exact ⟨zeros 33, .infinity⟩
  | some x y hns =>
    obtain ⟨X, hX⟩ := exists_isF x
    obtain ⟨Y, hY⟩ := exists_isF y
    exact ⟨compress X Y, .point hX hY hns⟩

open Classical in
/-- The library whose keys are points and whose signatures are pairs of scalars. -/
noncomputable def idealLib : Libsecp where
  Pubkey := {P : Pt // P ≠ 0}
  Signature := {rs : ℕ × ℕ // rs.1 < orderN ∧ rs.2 < orderN}
  ecPubkeyParse pub :=
    if h : ∃ P, Encodes pub P then some ⟨h.choose, h.choose_spec.ne_zero⟩ else none
  ecdsaSignatureParseCompact b :=
    if h : beVal (b.take 32) < orderN ∧ beVal (b.drop 32) < orderN then
      some ⟨(beVal (b.take 32), beVal (b.drop 32)), h⟩
    else none
  ecdsaSignatureNormalize sig :=
    ⟨(sig.val.1, if orderN / 2 < sig.val.2 then orderN - sig.val.2 else sig.val.2), sig.property.1, by
      have hlt := sig.property.2
      dsimp only
      split <;> omega⟩
  ecdsaVerify sig hash pk :=
    decide (sig.val.1 ≠ 0 ∧ sig.val.2 ≠ 0 ∧ sig.val.2 ≤ orderN / 2 ∧
      EcdsaEq (beVal hash.val) sig.val.1 sig.val.2 pk.val)
  ecPubkeyCombine a b := if h : a.val + b.val = 0 then none else some ⟨a.val + b.val, h⟩
  ecPubkeySerializeCompressed pk := (exists_enc_of_pt pk.val).choose

noncomputable def idealLib_documented : Documented idealLib where
  point pk := pk.val
  scalars sig := sig.val
  parse_some pub pk h := by
    unfold idealLib at h
    dsimp only at h
    split at h
    · rename_i hex
      have heq := Option.some.inj h
      rw [← heq]
      exact hex.choose_spec
    · cases h
  parse_none pub h P hP := by
    unfold idealLib at h
    dsimp only at h
    rw [dif_pos ⟨P, hP⟩] at h
    cases h
  parseCompact_some r s hr hs := by
    have htake : (r.val ++ s.val).take 32 = r.val := List.take_left' r.property
    have hdrop : (r.val ++ s.val).drop 32 = s.val := List.drop_left' r.property
    refine ⟨⟨(beVal r.val, beVal s.val), hr, hs⟩, ?_, rfl⟩
    unfold idealLib
    dsimp only
    simp only [htake, hdrop]
    rw [dif_pos ⟨hr, hs⟩]
  parseCompact_none r s h := by
    have htake : (r.val ++ s.val).take 32 = r.val := List.take_left' r.property
    have hdrop : (r.val ++ s.val).drop 32 = s.val := List.drop_left' r.property
    unfold idealLib
    dsimp only
    simp only [htake, hdrop]
    rw [dif_neg (by omega)]
  normalize sig := rfl
  verify sig hash pk := by
    classical
    unfold idealLib
    dsimp only
    rw [decide_eq_true_iff]
  combine_some a b h := ⟨⟨a.val + b.val, h⟩, dif_neg h, rfl⟩
  combine_none a b h := dif_pos h
  serialize pk x y hns h := by
    have henc := (exists_enc_of_pt pk.val).choose_spec
    unfold idealLib
    dsimp only
    generalize (exists_enc_of_pt pk.val).choose = b at henc
    rw [h] at henc
    generalize hP : Affine.Point.some x y hns = P at henc
    cases henc with
    | infinity => cases hP
    | point hX hY hns' =>
      rw [Affine.Point.some.injEq] at hP
      obtain ⟨rfl, rfl⟩ := hP
      exact ⟨_, hX.beVal_eq, compress_eq hY hX hX.beVal_eq⟩

theorem Enc.validAcc {b : Fixed 33} {P : Pt} (h : Enc b P) : ValidAcc b := by
  cases h with
  | infinity => exact Or.inl rfl
  | point hX hY hns =>
    right
    rw [secpOnCurve, pubDecode_compress hX hY (eq_of_nonsingular hns)]
    rfl

theorem Enc.keyPoint {b : Fixed 33} {P : Pt} (h : Enc b P) (hP : P ≠ 0) : KeyPoint b.val P := by
  cases h with
  | infinity => exact absurd rfl hP
  | point hX hY hns => exact keyPoint_compress hX hY hns

/-- The keys of the base point and of its negative. -/
def baseKey : Fixed 33 := ⟨0x02 :: secpGxBe.val, by rw [List.length_cons, secpGxBe.property]⟩
def negBaseKey : Fixed 33 := ⟨0x03 :: secpGxBe.val, by rw [List.length_cons, secpGxBe.property]⟩

theorem beVal_secpGxBe : beVal secpGxBe.val = (baseX : ZMod fieldP).val := by
  rw [ZMod.val_natCast_of_lt (by decide)]
  decide

theorem enc_baseKey : Enc baseKey basePt := by
  refine enc_of_bytes base_nonsingular beVal_secpGxBe ?_
  rw [parityPrefix, ZMod.val_natCast_of_lt (by decide)]
  rfl

theorem validAcc_negBaseKey : ValidAcc negBaseKey := by
  have hcast : ((fieldP - baseY : ℕ) : ZMod fieldP) = -(baseY : ZMod fieldP) :=
    CurveOrder.cast_sub_mod (by decide)
  have hns : (curve (7 : ZMod fieldP)).Nonsingular (baseX : ZMod fieldP)
      ((fieldP - baseY : ℕ) : ZMod fieldP) :=
    nonsingular_of_eq (by rw [hcast, neg_sq, base_curve])
  refine (enc_of_bytes hns beVal_secpGxBe ?_).validAcc
  rw [parityPrefix, ZMod.val_natCast_of_lt (by decide)]
  rfl

/-- The signature of the zero hash by the key 1 with the nonce 1. -/
theorem baseKey_verifies :
    secpEcdsaVerify (zeros 32) secpGxBe secpGxBe baseKey.val = true := by
  have hr : beVal secpGxBe.val = baseX := by decide
  have hz : beVal (zeros 32).val = 0 := by decide
  have hne : (baseX : ZMod orderN) ≠ 0 := by
    rw [Ne, ZMod.natCast_eq_zero_iff]
    decide
  have hkey := enc_baseKey.keyPoint (Affine.Point.some_ne_zero _)
  rw [secpEcdsaVerify_iff]
  refine ⟨basePt, hkey, by rw [hr]; decide, by rw [hr]; decide, ?_⟩
  have hzero : (0 : ZMod orderN) • basePt = 0 := zero_smul (ZMod orderN) basePt
  unfold EcdsaEq
  rw [hr, hz, Nat.cast_zero, zero_mul, hzero, zero_add, mul_inv_cancel₀ hne, one_smul]
  refine ⟨_, _, base_nonsingular, rfl, ?_⟩
  rw [ZMod.val_natCast_of_lt (by decide)]
  decide

/-- The shim over that library: the key of the base point, its signature, its double and its sum with
its negative. -/
theorem shim_eq_reference_ideal :
    Shim.secpOnCurve idealLib baseKey.val = secpOnCurve baseKey.val ∧
    Shim.secpEcdsaVerify idealLib (zeros 32) secpGxBe secpGxBe baseKey.val = true ∧
    Shim.secpEcmhHash idealLib sampleSha 1 [] = secpEcmhHash sampleSha 1 [] ∧
    Shim.secpEcmhAdd idealLib baseKey baseKey = secpEcmhAdd baseKey baseKey ∧
    Shim.secpEcmhAdd idealLib baseKey negBaseKey = secpEcmhAdd baseKey negBaseKey := by
  obtain ⟨honCurve, hverify, hhash, hadd⟩ := shim_eq_reference idealLib idealLib_documented
  have hbase : ValidAcc baseKey := enc_baseKey.validAcc
  exact ⟨honCurve _, (hverify _ _ _ _).trans baseKey_verifies, hhash _ _ _,
    hadd _ _ hbase hbase, hadd _ _ hbase validAcc_negBaseKey⟩

end NamespaceIndexer.Curve
