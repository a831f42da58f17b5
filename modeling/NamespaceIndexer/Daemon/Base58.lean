import Mathlib.Data.List.GetD
import NamespaceIndexer.Daemon.Chain
import NamespaceIndexer.Lib.Numeral

/-!
# Addresses (`base58.c`)

A string is a numeral in base 58 of the bytes and their checksum, with a `1` for each leading zero
byte; the encoder and the decoder compute the two directions of that relation.
-/

namespace NamespaceIndexer.Daemon

open Fold Lib Lib.Numeral

/-! ### The code -/

/-- `ALPHA`. -/
def alpha : Bytes :=
  ['1', '2', '3', '4', '5', '6', '7', '8', '9', 'A', 'B', 'C', 'D', 'E', 'F', 'G', 'H', 'J', 'K',
    'L', 'M', 'N', 'P', 'Q', 'R', 'S', 'T', 'U', 'V', 'W', 'X', 'Y', 'Z', 'a', 'b', 'c', 'd', 'e',
    'f', 'g', 'h', 'i', 'j', 'k', 'm', 'n', 'o', 'p', 'q', 'r', 's', 't', 'u', 'v', 'w', 'x', 'y',
    'z'].map fun c => Fin.ofNat 256 c.toNat

/-- `ALPHA[rem]`. -/
def alphaAt (rem : Fin 58) : Byte := alpha.getD rem.val 0

/-- `b58val`. -/
def b58val (c : Byte) : Option (Fin 58) :=
  if c ≠ 0 then (alpha.idxOf? c).map (Fin.ofNat 58) else none

section

variable (sha256 : Bytes → Hash256)

/-- `buf`: the version, the payload and the first bytes of the checksum. -/
def b58Buf (version : Byte) (payload : Bytes) : Bytes :=
  version :: payload ++ (idxSha256d sha256 (version :: payload)).val.take 4

/-- `idx_b58check_encode`: the string in `out`. -/
def idxB58checkEncode (version : Byte) (payload : Bytes) (outMax : ℕ) : Option Bytes :=
  if 64 < payload.length + 5 then none
  else
    let buf := b58Buf sha256 version payload
    let zeros := leadZeros buf
    match digits 58 96 (significant buf) with
    | none => none
    | some tmp =>
      if outMax < zeros + tmp.length + 1 then none
      else some (List.replicate zeros 0x31 ++ (tmp.map alphaAt).reverse)

/-- The turn of the loop of `idx_b58check_decode`. -/
def b58Turn (num : Bytes) (c : Byte) : Option Bytes := (b58val c).bind (mulAdd 58 64 num)

/-- `idx_b58check_decode`: the version and the payload. -/
def idxB58checkDecode (s : Bytes) (payloadMax : ℕ) : Option (Byte × Bytes) :=
  let zeros := (s.takeWhile (· = 0x31)).length
  match s.foldlM b58Turn [] with
  | none => none
  | some num =>
    let full := List.replicate zeros 0 ++ num
    let flen := zeros + num.length
    if 64 < flen ∨ flen < 5 then none
    else
      let ck := idxSha256d sha256 (full.take (flen - 4))
      if ck.val.take 4 ≠ full.drop (flen - 4) then none
      else
        let plen := flen - 5
        if payloadMax < plen then none else some (full.headD 0, (full.drop 1).take plen)

end

/-! ### The alphabet -/

theorem b58val_alphaAt (d : Fin 58) : b58val (alphaAt d) = some d := by
  revert d
  decide +kernel

theorem alphaAt_of_b58val {c : Byte} {d : Fin 58} (h : b58val c = some d) : alphaAt d = c := by
  have hmem : c ∈ alpha := by
    by_contra hout
    rw [b58val, List.idxOf?_eq_none_iff.mpr hout] at h
    simp at h
  obtain ⟨i, hi, rfl⟩ := List.mem_iff_getElem.mp hmem
  have hat : alphaAt ⟨i, hi⟩ = alpha[i] := List.getD_eq_getElem alpha 0 hi
  rw [← hat, b58val_alphaAt, Option.some.injEq] at h
  rw [← h, hat]

theorem alphaAt_inj {d e : Fin 58} (h : alphaAt d = alphaAt e) : d = e := by
  have hval := b58val_alphaAt d
  rw [h, b58val_alphaAt, Option.some.injEq] at hval
  exact hval.symm

theorem alphaAt_zero : alphaAt 0 = 0x31 := by decide

theorem leadOnes (D : List (Fin 58)) :
    ((D.map alphaAt).takeWhile (· = 0x31)).length = leadZeros D := by
  induction D with
  | nil => rfl
  | cons d D ih =>
    by_cases hd : d = 0
    · rw [hd, List.map_cons, List.takeWhile_cons_of_pos (by simp [alphaAt_zero])]
      simpa [leadZeros] using ih
    · have hone : alphaAt d ≠ 0x31 := by
        intro h
        rw [← alphaAt_zero] at h
        exact hd (alphaAt_inj h)
      rw [List.map_cons, List.takeWhile_cons_of_neg (by simpa using hone)]
      simp [leadZeros, hd]

/-! ### Strings and the bytes that they spell -/

/-- The string has a digit for each power of 58, and a `1` for each leading zero byte. -/
def Spells (s B : Bytes) : Prop := ∃ D, s = D.map alphaAt ∧ Converts B D

theorem Spells.unique {s s' B : Bytes} (h : Spells s B) (h' : Spells s' B) : s = s' := by
  obtain ⟨D, rfl, hD⟩ := h
  obtain ⟨D', rfl, hD'⟩ := h'
  rw [hD.unique hD' (by decide)]

/-- The divisions of the encoder fit in `tmp`. -/
theorem digits_fit {B : Bytes} (hlen : B.length ≤ 64) :
    ∃ tmp, digits 58 96 (significant B) = some tmp ∧
      Spells (List.replicate (leadZeros B) 0x31 ++ (tmp.map alphaAt).reverse) B := by
  obtain ⟨hcan, hval⟩ := significant_spec B
  have hfits : val (significant B) < 58 ^ 96 := by
    have hlt := val_lt B
    have hpow : 256 ^ B.length ≤ 256 ^ 64 := Nat.pow_le_pow_right (by omega) hlen
    have hroom : 256 ^ 64 ≤ 58 ^ 96 := by norm_num
    rw [hval]
    omega
  obtain ⟨tmp, htmp⟩ := digits_isSome hfits hcan
  obtain ⟨htop, hvalue, -⟩ := digits_spec hcan htmp
  obtain ⟨hzeros, hsame⟩ := zeros_append_spec (leadZeros B) htop
  refine ⟨tmp, htmp, List.replicate (leadZeros B) 0 ++ tmp.reverse, ?_, hzeros.symm, ?_⟩
  · simp [alphaAt_zero]
  · rw [hsame, hvalue, hval]

theorem exists_spells {B : Bytes} (hlen : B.length ≤ 64) : ∃ s, Spells s B := by
  obtain ⟨tmp, -, hspell⟩ := digits_fit hlen
  exact ⟨_, hspell⟩

/-- The multiplications of the decoder read the digits. -/
theorem foldlM_b58Turn {s num num' : Bytes} : s.foldlM b58Turn num = some num' ↔
    ∃ D : List (Fin 58), s = D.map alphaAt ∧ D.foldlM (mulAdd 58 64) num = some num' := by
  induction s generalizing num with
  | nil =>
    constructor
    · intro h
      exact ⟨[], rfl, h⟩
    · intro h
      obtain ⟨D, hD, h⟩ := h
      rw [List.map_eq_nil_iff.mp hD.symm] at h
      exact h
  | cons c s ih =>
    rw [List.foldlM_cons]
    constructor
    · intro h
      obtain ⟨num₁, hturn, hrest⟩ := Option.bind_eq_some_iff.mp h
      obtain ⟨d, hd, hstep⟩ := Option.bind_eq_some_iff.mp hturn
      obtain ⟨D, hs, hD⟩ := ih.mp hrest
      refine ⟨d :: D, ?_, ?_⟩
      · rw [List.map_cons, alphaAt_of_b58val hd, hs]
      · rw [List.foldlM_cons]
        exact Option.bind_eq_some_iff.mpr ⟨num₁, hstep, hD⟩
    · intro h
      obtain ⟨D, hs, hD⟩ := h
      cases D with
      | nil => cases hs
      | cons d D =>
        rw [List.map_cons, List.cons.injEq] at hs
        obtain ⟨num₁, hstep, hrest⟩ := Option.bind_eq_some_iff.mp hD
        have hturn : b58Turn num c = some num₁ := by
          rw [b58Turn, hs.1, b58val_alphaAt]
          exact hstep
        exact Option.bind_eq_some_iff.mpr ⟨num₁, hturn, ih.mpr ⟨D, hs.2, hrest⟩⟩

/-- What the loop of the decoder leaves, with the zeros of the leading `1`s in front. -/
theorem loop_spells {s num : Bytes} : s.foldlM b58Turn [] = some num ↔
    Canonical num ∧ num.length ≤ 64 ∧
      Spells s (List.replicate (s.takeWhile (· = 0x31)).length 0 ++ num) := by
  rw [foldlM_b58Turn]
  constructor
  · intro h
    obtain ⟨D, rfl, hD⟩ := h
    obtain ⟨hcan, hval, hlen⟩ := (foldlM_mulAdd D (by decide) canonical_nil (by decide)).mp hD
    rw [val_nil, zero_mul, zero_add] at hval
    obtain ⟨hzeros, hsame⟩ := zeros_append_spec (leadZeros D) hcan
    refine ⟨hcan, hlen, D, rfl, ?_⟩
    rw [leadOnes]
    exact ⟨hzeros, hsame.trans hval⟩
  · intro h
    obtain ⟨hcan, hlen, D, rfl, hD⟩ := h
    refine ⟨D, rfl, (foldlM_mulAdd D (by decide) canonical_nil (by decide)).mpr ⟨hcan, ?_, hlen⟩⟩
    have hsame := (zeros_append_spec ((D.map alphaAt).takeWhile (· = 0x31)).length hcan).2
    rw [val_nil, zero_mul, zero_add, ← hD.value, hsame]

/-! ### The checksum -/

section

variable {sha256 : Bytes → Hash256}

theorem b58Buf_length (v : Byte) (p : Bytes) : (b58Buf sha256 v p).length = p.length + 5 := by
  simp [b58Buf, (idxSha256d sha256 (v :: p)).property]

/-- Bytes whose checksum is right. -/
theorem eq_b58Buf {full : Bytes} (hlen : 5 ≤ full.length)
    (hck : (idxSha256d sha256 (full.take (full.length - 4))).val.take 4
      = full.drop (full.length - 4)) :
    full = b58Buf sha256 (full.headD 0) ((full.drop 1).take (full.length - 5)) := by
  have hbody : full.take (full.length - 4)
      = full.headD 0 :: (full.drop 1).take (full.length - 5) := by
    cases full with
    | nil => cases hlen
    | cons c rest =>
      rw [List.length_cons, show rest.length + 1 - 4 = rest.length + 1 - 5 + 1 by
        rw [List.length_cons] at hlen; omega]
      rfl
  rw [b58Buf, ← hbody, hck, List.take_append_drop]

theorem b58Buf_parts (v : Byte) (p : Bytes) :
    (b58Buf sha256 v p).take (p.length + 1) = v :: p ∧
      (b58Buf sha256 v p).drop (p.length + 1) = (idxSha256d sha256 (v :: p)).val.take 4 ∧
      ((b58Buf sha256 v p).drop 1).take p.length = p :=
  ⟨List.take_left' rfl, List.drop_left' rfl, List.take_left' rfl⟩

/-! ### The encoder and the decoder -/

theorem idxB58checkEncode_iff {v : Byte} {p s : Bytes} {outMax : ℕ} :
    idxB58checkEncode sha256 v p outMax = some s ↔
      p.length ≤ 59 ∧ s.length < outMax ∧ Spells s (b58Buf sha256 v p) := by
  have hsize : (b58Buf sha256 v p).length = p.length + 5 := b58Buf_length v p
  by_cases hlen : p.length ≤ 59
  · obtain ⟨tmp, htmp, hspell⟩ := digits_fit (B := b58Buf sha256 v p) (by omega)
    have hout : (List.replicate (leadZeros (b58Buf sha256 v p)) (0x31 : Byte) ++
        (tmp.map alphaAt).reverse).length = leadZeros (b58Buf sha256 v p) + tmp.length := by simp
    unfold idxB58checkEncode
    simp only [htmp]
    rw [if_neg (by omega), Option.ite_none_left_eq_some, Option.some.injEq]
    constructor
    · intro h
      obtain ⟨hroom, rfl⟩ := h
      exact ⟨hlen, by omega, hspell⟩
    · intro h
      obtain ⟨-, hroom, hs⟩ := h
      have hsame := hspell.unique hs
      rw [← hsame] at hroom
      exact ⟨by omega, hsame⟩
  · unfold idxB58checkEncode
    rw [if_pos (by omega)]
    constructor
    · intro h
      cases h
    · intro h
      exact absurd h.1 hlen

theorem idxB58checkDecode_iff {v : Byte} {p s : Bytes} {payloadMax : ℕ} :
    idxB58checkDecode sha256 s payloadMax = some (v, p) ↔
      p.length ≤ 59 ∧ p.length ≤ payloadMax ∧ Spells s (b58Buf sha256 v p) := by
  have hsize : (b58Buf sha256 v p).length = p.length + 5 := b58Buf_length v p
  unfold idxB58checkDecode
  constructor
  · intro h
    dsimp only at h
    split at h
    · cases h
    · rename_i num hloop
      obtain ⟨-, -, hspell⟩ := loop_spells.mp hloop
      have hflen : (List.replicate (s.takeWhile (· = 0x31)).length (0 : Byte) ++ num).length
          = (s.takeWhile (· = 0x31)).length + num.length := by simp
      rw [← hflen] at h
      generalize List.replicate (s.takeWhile (· = 0x31)).length (0 : Byte) ++ num = full
        at h hspell hflen
      simp only [Option.ite_none_left_eq_some, ne_eq, not_not, Option.some.injEq,
        Prod.mk.injEq] at h
      obtain ⟨hbounds, hck, hmax, rfl, rfl⟩ := h
      have hfull := eq_b58Buf (by omega) hck
      rw [← hfull] at hsize ⊢
      exact ⟨by omega, by omega, hspell⟩
  · intro h
    obtain ⟨hlen, hmax, D, hs, hD⟩ := h
    obtain ⟨hcan, -⟩ := significant_spec (b58Buf sha256 v p)
    have hones : (s.takeWhile (· = 0x31)).length = leadZeros (b58Buf sha256 v p) := by
      rw [hs, leadOnes, hD.zeros]
    have hfull := zeros_append_significant (b58Buf sha256 v p)
    have hshort := significant_length_le (b58Buf sha256 v p)
    have hloop : s.foldlM b58Turn [] = some (significant (b58Buf sha256 v p)) := by
      refine loop_spells.mpr ⟨hcan, by omega, D, hs, ?_⟩
      rw [hones, hfull]
      exact hD
    have hflen : leadZeros (b58Buf sha256 v p) + (significant (b58Buf sha256 v p)).length
        = p.length + 5 := by
      rw [← hsize, ← congrArg List.length hfull]
      simp
    obtain ⟨hbody, hck, hpay⟩ := @b58Buf_parts sha256 v p
    rw [hloop]
    dsimp only
    rw [hones, hflen, hfull, show p.length + 5 - 4 = p.length + 1 by omega, hbody, hck,
      if_neg (by omega), if_neg (not_not.mpr rfl), Nat.add_sub_cancel, if_neg (by omega), hpay]
    rfl

end

/-- The decoder returns what the encoder was given; a string that it accepts is the encoder's, and
the only one of its address. -/
theorem b58check_round_trip (sha256 : Bytes → Hash256) :
    (∀ (version : Byte) (payload : Bytes), payload.length ≤ 59 → ∃ s,
      (∀ outMax, s.length < outMax →
        idxB58checkEncode sha256 version payload outMax = some s) ∧
      ∀ payloadMax, payload.length ≤ payloadMax →
        idxB58checkDecode sha256 s payloadMax = some (version, payload)) ∧
    (∀ (s : Bytes) (payloadMax : ℕ) (version : Byte) (payload : Bytes),
      idxB58checkDecode sha256 s payloadMax = some (version, payload) →
      ∀ outMax, s.length < outMax →
        idxB58checkEncode sha256 version payload outMax = some s) ∧
    ∀ (s s' : Bytes) (payloadMax payloadMax' : ℕ) (a : Byte × Bytes),
      idxB58checkDecode sha256 s payloadMax = some a →
      idxB58checkDecode sha256 s' payloadMax' = some a → s = s' := by
  refine ⟨?_, ?_, ?_⟩
  · intro version payload hlen
    have hsize : (b58Buf sha256 version payload).length ≤ 64 := by
      rw [b58Buf_length]
      omega
    obtain ⟨s, hspell⟩ := exists_spells hsize
    refine ⟨s, ?_, ?_⟩
    · intro outMax hout
      exact idxB58checkEncode_iff.mpr ⟨hlen, hout, hspell⟩
    · intro payloadMax hmax
      exact idxB58checkDecode_iff.mpr ⟨hlen, hmax, hspell⟩
  · intro s payloadMax version payload h outMax hout
    obtain ⟨hlen, -, hspell⟩ := idxB58checkDecode_iff.mp h
    exact idxB58checkEncode_iff.mpr ⟨hlen, hout, hspell⟩
  · intro s s' payloadMax payloadMax' a h h'
    obtain ⟨version, payload⟩ := a
    obtain ⟨-, -, hspell⟩ := idxB58checkDecode_iff.mp h
    obtain ⟨-, -, hspell'⟩ := idxB58checkDecode_iff.mp h'
    exact hspell.unique hspell'

/-- A hash for the sample. -/
def lengthHash (data : Bytes) : Hash256 :=
  ⟨Fin.ofNat 256 (7 * data.length) :: List.replicate 31 3, by simp⟩

theorem b58check_round_trip_sample :
    (∃ s, idxB58checkEncode lengthHash 0x1e [0, 0, 5] (s.length + 1) = some s ∧
      idxB58checkDecode lengthHash s 3 = some (0x1e, [0, 0, 5])) ∧
    idxB58checkEncode lengthHash 0 [0] 9 = some [49, 49, 54, 106, 55, 69, 111, 76] ∧
    ∀ s, idxB58checkDecode lengthHash s 1 = some (0, [0]) →
      s = [49, 49, 54, 106, 55, 69, 111, 76] := by
  have hdec : idxB58checkDecode lengthHash [49, 49, 54, 106, 55, 69, 111, 76] 1 = some (0, [0]) := by
    decide
  obtain ⟨hback, hstring, honly⟩ := b58check_round_trip lengthHash
  obtain ⟨s, henc, hread⟩ := hback 0x1e [0, 0, 5] (by decide)
  exact ⟨⟨s, henc _ (by omega), hread 3 (by decide)⟩, hstring _ _ _ _ hdec 9 (by decide),
    fun s hs => honly _ _ _ _ _ hs hdec⟩

end NamespaceIndexer.Daemon
