import Mathlib.Data.Nat.Bitwise
import NamespaceIndexer.Daemon.Pow
import NamespaceIndexer.Fold.Encode
import NamespaceIndexer.Lib.Radix

/-!
# Targets as 32 bytes (`pow.c`)

A target lies in its array with the lowest byte first. Each function on arrays computes the number
that the functions on numbers do.
-/

namespace NamespaceIndexer.Daemon

open Fold Lib

theorem leVal_eq_val (a : Bytes) : leVal a = Radix.val a := by
  induction a with
  | nil => rfl
  | cons x xs ih => rw [leVal, ih, Radix.val_cons]

def zero256 : Bytes := List.replicate 32 0
def one256 : Bytes := 1 :: List.replicate 31 0

@[simp] theorem zero256_length : zero256.length = 32 := List.length_replicate

@[simp] theorem one256_length : one256.length = 32 := rfl

@[simp] theorem leVal_zero256 : leVal zero256 = 0 := by
  rw [leVal_eq_val, zero256, Radix.val_replicate_zero]

@[simp] theorem leVal_one256 : leVal one256 = 1 := by
  rw [leVal_eq_val, one256, Radix.val_cons, Radix.val_replicate_zero]
  rfl

/-- `cmp256`. -/
def cmp256 (a b : Bytes) : ℤ :=
  match Radix.cmp a b with
  | .lt => -1
  | .eq => 0
  | .gt => 1

theorem cmp256_eq {a b : Bytes} (hlen : a.length = b.length) :
    cmp256 a b = if leVal a < leVal b then -1 else if leVal a = leVal b then 0 else 1 := by
  rw [cmp256, Radix.cmp_eq hlen, leVal_eq_val, leVal_eq_val]
  rcases lt_trichotomy (Radix.val a) (Radix.val b) with h | h | h
  · rw [compare_lt_iff_lt.mpr h, if_pos h]
  · rw [compare_eq_iff_eq.mpr h, if_neg (by omega), if_pos h]
  · rw [compare_gt_iff_gt.mpr h, if_neg (by omega), if_neg (by omega)]

theorem cmp256_pos {a b : Bytes} (hlen : a.length = b.length) :
    0 < cmp256 a b ↔ leVal b < leVal a := by
  rw [cmp256_eq hlen]
  split_ifs <;> omega

theorem cmp256_nonneg {a b : Bytes} (hlen : a.length = b.length) :
    0 ≤ cmp256 a b ↔ leVal b ≤ leVal a := by
  rw [cmp256_eq hlen]
  split_ifs <;> omega

/-! ### From a compact value -/

/-- The three bytes of a mantissa, the highest at `exp - 1`. -/
def putMant (exp mant : ℕ) : Bytes :=
  ((zero256.set (exp - 1) (Fin.ofNat 256 (mant >>> 16))).set (exp - 2)
    (Fin.ofNat 256 (mant >>> 8))).set (exp - 3) (Fin.ofNat 256 mant)

/-- `bits_to_target`. -/
def bitsToTargetLe (bits : ℕ) : Option Bytes :=
  let exp := bits >>> 24
  let mant := bits &&& 0x007fffff
  if bits &&& 0x00800000 ≠ 0 then none
  else if mant = 0 then none
  else if exp ≤ 3 then
    let mant := mant >>> (8 * (3 - exp))
    if mant = 0 then none else some (putMant 3 mant)
  else if 32 < exp then none
  else some (putMant exp mant)

theorem putMant_length (exp mant : ℕ) : (putMant exp mant).length = 32 := by
  simp [putMant]

theorem leVal_putMant {exp mant : ℕ} (hlow : 3 ≤ exp) (hhigh : exp ≤ 32) (hm : mant < 2 ^ 24) :
    leVal (putMant exp mant) = mant * 256 ^ (exp - 3) := by
  obtain ⟨k, rfl⟩ := Nat.exists_eq_add_of_le' hlow
  have hlen : zero256.length = 32 := zero256_length
  have hzero (i : ℕ) : zero256.getD i 0 = 0 := Radix.getD_replicate_zero 32 i
  rw [leVal_eq_val, putMant, Radix.val_set_zero, Radix.val_set_zero, Radix.val_set_zero,
    ← leVal_eq_val, leVal_zero256]
  · have hbytes : mant % 256 + 256 * (mant / 2 ^ 8 % 256) + 256 ^ 2 * (mant / 2 ^ 16 % 256)
        = mant := by omega
    rw [show k + 3 - 1 = k + 2 by omega, show k + 3 - 2 = k + 1 by omega, Nat.add_sub_cancel]
    simp only [Radix.val_ofNat, Nat.shiftRight_eq_div_pow]
    linear_combination 256 ^ k * hbytes
  · omega
  · exact hzero _
  · rw [List.length_set]
    omega
  · rw [Radix.getD_set_ne (by omega), hzero]
  · rw [List.length_set, List.length_set]
    omega
  · rw [Radix.getD_set_ne (by omega), Radix.getD_set_ne (by omega), hzero]

theorem bitsToTargetLe_length {bits : ℕ} {t : Bytes} (h : bitsToTargetLe bits = some t) :
    t.length = 32 := by
  unfold bitsToTargetLe at h
  simp only at h
  split_ifs at h
  · rw [← Option.some_inj.mp h, putMant_length]
  · rw [← Option.some_inj.mp h, putMant_length]

/-- The sign bit of a compact value. -/
theorem and_signBit (bits : ℕ) : bits &&& 0x00800000 ≠ 0 ↔ bits / 2 ^ 23 % 2 = 1 := by
  have hbit : bits &&& 2 ^ 23 = 2 ^ 23 * (bits.testBit 23).toNat := by
    rw [Nat.and_two_pow, mul_comm]
  rw [show (0x00800000 : ℕ) = 2 ^ 23 by norm_num, hbit, Nat.testBit_eq_decide_div_mod_eq]
  by_cases h : bits / 2 ^ 23 % 2 = 1 <;> simp

theorem bitsToTargetLe_map (bits : ℕ) : (bitsToTargetLe bits).map leVal = bitsToTarget bits := by
  have hmant : bits &&& 0x007fffff = bits % 2 ^ 23 := Nat.and_two_pow_sub_one_eq_mod bits 23
  have hlt : bits % 2 ^ 23 < 2 ^ 23 := Nat.mod_lt _ (by norm_num)
  unfold bitsToTargetLe bitsToTarget
  simp only [hmant, and_signBit, Nat.shiftRight_eq_div_pow]
  split_ifs with hsign hzero hexp hsmall hbig
  · rfl
  · rfl
  · rfl
  · have hle := Nat.div_le_self (bits % 2 ^ 23) (2 ^ (8 * (3 - bits / 2 ^ 24)))
    rw [Option.map_some, leVal_putMant le_rfl (by omega) (by omega), Nat.sub_self, pow_zero, mul_one]
  · rfl
  · rw [Option.map_some, leVal_putMant (by omega) (by omega) (by omega), pow_mul]
    norm_num

/-! ### The numbers in a compact value -/

/-- The mantissa of `v` under an exponent: all but `exp - 3` bytes. -/
def mantissa (v exp : ℕ) : ℕ := v * 256 ^ (3 - exp) / 256 ^ (exp - 3)

/-- The number that a mantissa and an exponent stand for. -/
def scaled (mant exp : ℕ) : ℕ := mant * 256 ^ (exp - 3) / 256 ^ (3 - exp)

theorem mantissa_eq (v exp : ℕ) :
    (if 3 ≤ exp then v / 2 ^ (8 * (exp - 3)) else v * 2 ^ (8 * (3 - exp))) = mantissa v exp := by
  have hbase : (2 : ℕ) ^ 8 = 256 := by norm_num
  rw [mantissa, pow_mul, pow_mul, hbase]
  by_cases h : 3 ≤ exp
  · rw [if_pos h, Nat.sub_eq_zero_of_le h, pow_zero, mul_one]
  · rw [if_neg h, Nat.sub_eq_zero_of_le (by omega : exp ≤ 3), pow_zero, Nat.div_one]

theorem mantissa_succ (v exp : ℕ) : mantissa v exp / 256 = mantissa v (exp + 1) := by
  rw [mantissa, mantissa]
  rcases Nat.lt_or_ge exp 3 with h | h
  · rw [Nat.sub_eq_zero_of_le h.le, Nat.sub_eq_zero_of_le (by omega : exp + 1 ≤ 3),
      show 3 - exp = 3 - (exp + 1) + 1 by omega, pow_zero, Nat.div_one, Nat.div_one, pow_succ,
      ← mul_assoc, Nat.mul_div_cancel _ (by norm_num)]
  · rw [Nat.sub_eq_zero_of_le h, Nat.sub_eq_zero_of_le (by omega : 3 ≤ exp + 1),
      show exp + 1 - 3 = exp - 3 + 1 by omega, pow_succ, Nat.div_div_eq_div_mul]

/-- A mantissa is within bounds when the number is within them, scaled. -/
theorem mantissa_mem (v lo hi exp : ℕ) :
    (lo ≤ mantissa v exp ∧ mantissa v exp < hi) ↔
      lo * 256 ^ exp ≤ v * 256 ^ 3 ∧ v * 256 ^ 3 < hi * 256 ^ exp := by
  have hpos : 0 < 256 ^ (exp - 3) := by positivity
  have hexp : 256 ^ exp * 256 ^ (3 - exp) = 256 ^ 3 * 256 ^ (exp - 3) := by
    rw [← pow_add, ← pow_add]
    congr 1
    omega
  have hscale (x : ℕ) : x * 256 ^ exp ≤ v * 256 ^ 3 ↔ x * 256 ^ (exp - 3) ≤ v * 256 ^ (3 - exp) := by
    have hx : x * 256 ^ exp * 256 ^ (3 - exp) = x * 256 ^ (exp - 3) * 256 ^ 3 := by
      rw [mul_assoc, hexp]
      ring
    have hv : v * 256 ^ 3 * 256 ^ (3 - exp) = v * 256 ^ (3 - exp) * 256 ^ 3 := mul_right_comm ..
    rw [← Nat.mul_le_mul_right_iff (by positivity : 0 < 256 ^ (3 - exp)), hx, hv,
      Nat.mul_le_mul_right_iff (by norm_num)]
  rw [mantissa, Nat.le_div_iff_mul_le hpos, Nat.div_lt_iff_lt_mul hpos, ← hscale, ← not_le,
    ← hscale hi, not_le]

theorem mantissa_bounds {v s : ℕ} (hlow : 256 ^ s ≤ v) (hhigh : v < 256 ^ (s + 1)) :
    2 ^ 16 ≤ mantissa v (s + 1) ∧ mantissa v (s + 1) < 2 ^ 24 := by
  rw [mantissa_mem]
  rw [pow_succ] at hhigh ⊢
  omega

/-- The compact form keeps a mantissa whose sign bit is clear. -/
theorem targetToBits_eq {v : ℕ} (hv : 0 < v) :
    ∃ exp, 2 ^ 15 ≤ mantissa v exp ∧ mantissa v exp < 2 ^ 23 ∧
      targetToBits v = exp * 2 ^ 24 + mantissa v exp := by
  have hlow : 256 ^ (v.log2 / 8) ≤ v := by
    have hle : 2 ^ (8 * (v.log2 / 8)) ≤ v := (Nat.le_log2 hv.ne').mp (Nat.mul_div_le _ 8)
    rwa [pow_mul] at hle
  have hhigh : v < 256 ^ (v.log2 / 8 + 1) := by
    have hlt : v < 2 ^ (8 * (v.log2 / 8 + 1)) := (Nat.log2_lt hv.ne').mp (by omega)
    rwa [pow_mul] at hlt
  obtain ⟨hge, hlt⟩ := mantissa_bounds hlow hhigh
  have hcases : targetToBits v =
      if mantissa v (v.log2 / 8 + 1) / 2 ^ 23 % 2 = 1 then
        (v.log2 / 8 + 1 + 1) * 2 ^ 24 + mantissa v (v.log2 / 8 + 1) / 2 ^ 8
      else (v.log2 / 8 + 1) * 2 ^ 24 + mantissa v (v.log2 / 8 + 1) := by
    rw [targetToBits, if_neg hv.ne']
    dsimp only
    rw [mantissa_eq]
  by_cases hsign : mantissa v (v.log2 / 8 + 1) / 2 ^ 23 % 2 = 1
  · have hnext := mantissa_succ v (v.log2 / 8 + 1)
    refine ⟨v.log2 / 8 + 1 + 1, by omega, by omega, ?_⟩
    rw [hcases, if_pos hsign, ← hnext]
    rfl
  · refine ⟨v.log2 / 8 + 1, by omega, by omega, ?_⟩
    rw [hcases, if_neg hsign]

/-- Only one exponent leaves such a mantissa. -/
theorem mantissa_unique {v e e' : ℕ} (h : 2 ^ 15 ≤ mantissa v e ∧ mantissa v e < 2 ^ 23)
    (h' : 2 ^ 15 ≤ mantissa v e' ∧ mantissa v e' < 2 ^ 23) : e = e' := by
  rw [mantissa_mem] at h h'
  have hle {i j : ℕ} (hlow : 2 ^ 15 * 256 ^ j ≤ v * 256 ^ 3)
      (hhigh : v * 256 ^ 3 < 2 ^ 23 * 256 ^ i) : j ≤ i := by
    have hlt : (256 : ℕ) ^ j < 256 ^ (i + 1) := by
      rw [pow_succ]
      omega
    have := (Nat.pow_lt_pow_iff_right (by norm_num : 1 < 256)).mp hlt
    omega
  exact le_antisymm (hle h.1 h'.2) (hle h'.1 h.2)

/-- A compact value never reaches the last bit. -/
theorem bitsToTarget_bounds {bits t : ℕ} (h : bitsToTarget bits = some t) : 0 < t ∧ t < 2 ^ 255 := by
  have hlt : bits % 2 ^ 23 < 2 ^ 23 := Nat.mod_lt _ (by norm_num)
  unfold bitsToTarget at h
  dsimp only at h
  split_ifs at h with hsign hzero hexp hsmall hbig
  · have hle := Nat.div_le_self (bits % 2 ^ 23) (2 ^ (8 * (3 - bits / 2 ^ 24)))
    rw [← Option.some_inj.mp h]
    exact ⟨Nat.pos_of_ne_zero hsmall, by omega⟩
  · have hpow : 2 ^ (8 * (bits / 2 ^ 24 - 3)) ≤ 2 ^ 232 := Nat.pow_le_pow_right (by norm_num) (by omega)
    have hpos : 0 < bits % 2 ^ 23 * 2 ^ (8 * (bits / 2 ^ 24 - 3)) :=
      Nat.mul_pos (Nat.pos_of_ne_zero hzero) (by positivity)
    have hmul : bits % 2 ^ 23 * 2 ^ (8 * (bits / 2 ^ 24 - 3)) ≤ bits % 2 ^ 23 * 2 ^ 232 :=
      Nat.mul_le_mul_left _ hpow
    rw [← Option.some_inj.mp h]
    omega

theorem bitsToTarget_pack {exp mant : ℕ} (hm : mant < 2 ^ 23) (hexp : exp ≤ 32) :
    bitsToTarget (exp * 2 ^ 24 + mant) = if scaled mant exp = 0 then none else some (scaled mant exp) := by
  have hbase : (2 : ℕ) ^ 8 = 256 := by norm_num
  unfold bitsToTarget
  rw [show (exp * 2 ^ 24 + mant) / 2 ^ 24 = exp by omega,
    show (exp * 2 ^ 24 + mant) % 2 ^ 23 = mant by omega, if_neg (by omega), scaled]
  dsimp only
  by_cases hzero : mant = 0
  · rw [if_pos hzero, hzero, zero_mul, Nat.zero_div, if_pos rfl]
  rw [if_neg hzero, pow_mul, pow_mul, hbase]
  by_cases hsmall : exp ≤ 3
  · rw [if_pos hsmall, Nat.sub_eq_zero_of_le hsmall, pow_zero, mul_one]
  · have hpos : mant * 256 ^ (exp - 3) ≠ 0 := by positivity
    rw [if_neg hsmall, if_neg (by omega), Nat.sub_eq_zero_of_le (by omega : 3 ≤ exp), pow_zero,
      Nat.div_one, if_neg hpos]

/-! ### To a compact value -/

/-- How many bytes are left without the zeros at the top. -/
def sizeLe (t : Bytes) : ℕ → ℕ
  | 0 => 0
  | n + 1 => if t.getD n 0 = 0 then sizeLe t n else n + 1

/-- `target_to_bits`. -/
def targetToBitsLe (t : Bytes) : ℕ :=
  let size := sizeLe t 32
  if size = 0 then 0
  else
    let mant :=
      if 3 ≤ size then
        (t.getD (size - 1) 0).val <<< 16 ||| (t.getD (size - 2) 0).val <<< 8 |||
          (t.getD (size - 3) 0).val
      else if size = 2 then (t.getD 1 0).val <<< 16 ||| (t.getD 0 0).val <<< 8
      else (t.getD 0 0).val <<< 16
    if mant &&& 0x00800000 ≠ 0 then (size + 1) <<< 24 ||| mant >>> 8
    else size <<< 24 ||| mant

theorem sizeLe_spec {t : Bytes} {n : ℕ} (h : leVal t < 256 ^ n) :
    if sizeLe t n = 0 then leVal t = 0
    else 256 ^ (sizeLe t n - 1) ≤ leVal t ∧ leVal t < 256 ^ sizeLe t n := by
  induction n with
  | zero =>
    rw [sizeLe, if_pos rfl]
    omega
  | succ n ih =>
    have hbyte : (t.getD n 0).val = leVal t / 256 ^ n := by
      rw [Radix.getD_val, ← leVal_eq_val]
      exact Nat.mod_eq_of_lt (Nat.div_lt_of_lt_mul (by rwa [pow_succ] at h))
    rw [sizeLe]
    by_cases hz : t.getD n 0 = 0
    · rw [if_pos hz]
      rw [hz, Fin.val_zero] at hbyte
      exact ih ((Nat.div_eq_zero_iff_lt (by positivity)).mp hbyte.symm)
    · have hpos : 0 < leVal t / 256 ^ n := by
        rw [← hbyte]
        exact Nat.pos_of_ne_zero fun h0 => hz (Fin.ext h0)
      rw [if_neg hz, if_neg (Nat.succ_ne_zero n)]
      exact ⟨(Nat.div_pos_iff.mp hpos).2, h⟩

/-- The number of bytes, by the number's bits. -/
theorem log2_div {v s : ℕ} (hlow : 256 ^ s ≤ v) (hhigh : v < 256 ^ (s + 1)) : v.log2 / 8 = s := by
  have hv : v ≠ 0 := by
    have hpos : 0 < 256 ^ s := by positivity
    omega
  have hpow (k : ℕ) : 256 ^ k = 2 ^ (8 * k) := by
    rw [pow_mul]
    norm_num
  rw [hpow] at hlow hhigh
  have hle := (Nat.le_log2 hv).mpr hlow
  have hlt := (Nat.log2_lt hv).mpr hhigh
  omega

/-- Bits put above a number are added to it. -/
theorem shiftLeft_or (a : ℕ) {k x : ℕ} (hx : x < 2 ^ k) : a <<< k ||| x = a * 2 ^ k + x := by
  rw [← Nat.shiftLeft_add_eq_or_of_lt hx, Nat.shiftLeft_eq]

theorem threeBytes (x y z : Byte) :
    x.val <<< 16 ||| y.val <<< 8 ||| z.val = (x.val * 256 + y.val) * 256 + z.val := by
  have hy := y.isLt
  have hz := z.isLt
  have htop : x.val <<< 16 ||| y.val <<< 8 = (x.val * 256 + y.val) <<< 8 := by
    rw [shiftLeft_or x.val (by rw [Nat.shiftLeft_eq]; omega), Nat.shiftLeft_eq, Nat.shiftLeft_eq]
    ring
  rw [htop, shiftLeft_or _ (by omega)]
  norm_num

/-- The mantissa of a number of `size` bytes is its three bytes at the top. -/
theorem mant_eq {t : Bytes} {s : ℕ} (hhigh : leVal t < 256 ^ (s + 1)) :
    (if 3 ≤ s + 1 then
        (t.getD (s + 1 - 1) 0).val <<< 16 ||| (t.getD (s + 1 - 2) 0).val <<< 8 |||
          (t.getD (s + 1 - 3) 0).val
      else if s + 1 = 2 then (t.getD 1 0).val <<< 16 ||| (t.getD 0 0).val <<< 8
      else (t.getD 0 0).val <<< 16) =
    if 3 ≤ s + 1 then leVal t / 2 ^ (8 * (s + 1 - 3)) else leVal t * 2 ^ (8 * (3 - (s + 1))) := by
  by_cases hs : 3 ≤ s + 1
  · obtain ⟨k, rfl⟩ : ∃ k, s = k + 2 := ⟨s - 2, by omega⟩
    have hw : leVal t / 256 ^ k < 256 ^ 3 := by
      rw [Nat.div_lt_iff_lt_mul (by positivity), ← pow_add]
      exact (by ring : 3 + k = k + 2 + 1) ▸ hhigh
    rw [if_pos hs, if_pos hs, threeBytes, show k + 2 + 1 - 1 = k + 2 by omega,
      show k + 2 + 1 - 2 = k + 1 by omega, show k + 2 + 1 - 3 = k by omega, Radix.getD_val,
      Radix.getD_val, Radix.getD_val, ← leVal_eq_val, pow_mul, show (2 : ℕ) ^ 8 = 256 by norm_num,
      pow_add, pow_add, ← Nat.div_div_eq_div_mul, ← Nat.div_div_eq_div_mul]
    generalize leVal t / 256 ^ k = w at hw ⊢
    norm_num at hw ⊢
    omega
  · rw [if_neg hs, if_neg hs]
    by_cases htwo : s + 1 = 2
    · obtain rfl : s = 1 := by omega
      rw [if_pos rfl, shiftLeft_or _ (by rw [Nat.shiftLeft_eq]; omega), Nat.shiftLeft_eq,
        Radix.getD_val, Radix.getD_val, ← leVal_eq_val]
      norm_num at hhigh ⊢
      omega
    · obtain rfl : s = 0 := by omega
      rw [if_neg (by omega), Nat.shiftLeft_eq, Radix.getD_val, ← leVal_eq_val]
      norm_num at hhigh ⊢
      omega

theorem targetToBitsLe_eq {t : Bytes} (hlen : t.length = 32) :
    targetToBitsLe t = targetToBits (leVal t) := by
  have hlt : leVal t < 256 ^ 32 := hlen ▸ leVal_lt t
  have hspec := sizeLe_spec hlt
  unfold targetToBitsLe targetToBits
  by_cases hz : sizeLe t 32 = 0
  · rw [if_pos hz] at hspec
    rw [if_pos hz, if_pos hspec]
  · rw [if_neg hz] at hspec
    obtain ⟨s, hs⟩ := Nat.exists_eq_succ_of_ne_zero hz
    rw [hs, Nat.succ_eq_add_one, Nat.add_sub_cancel] at hspec
    obtain ⟨hlow, hhigh⟩ := hspec
    have hv : leVal t ≠ 0 := by
      have hpos : 0 < 256 ^ s := by positivity
      omega
    rw [if_neg hz, if_neg hv]
    dsimp only
    rw [hs, Nat.succ_eq_add_one, log2_div hlow hhigh, mant_eq hhigh]
    rw [mantissa_eq]
    have hlt24 := (mantissa_bounds hlow hhigh).2
    simp only [and_signBit]
    rw [shiftLeft_or _ hlt24, shiftLeft_or, Nat.shiftRight_eq_div_pow]
    rw [Nat.shiftRight_eq_div_pow]
    omega

end NamespaceIndexer.Daemon
