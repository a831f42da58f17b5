import NamespaceIndexer.Daemon.Compact

/-!
# The retarget on bytes (`pow.c`)

`idx_pow_next_bits` multiplies and divides a target byte by byte, in a buffer of 40 bytes.
-/

namespace NamespaceIndexer.Daemon

open Fold Lib

/-- The bytes of a carry, until it is used up, and what is left of it. -/
def spill : ℕ → ℕ → Bytes × ℕ
  | 0, carry => ([], carry)
  | n + 1, carry =>
    if carry = 0 then (List.replicate (n + 1) 0, 0)
    else
      let r := spill n (carry >>> 8)
      (Fin.ofNat 256 carry :: r.1, r.2)

/-- `prev * modulated` in the buffer, and the carry that does not fit. -/
def wideMul (prev : Bytes) (modulated : ℕ) : Bytes × ℕ :=
  let low := Radix.mulSmall modulated prev 0
  let high := spill 8 low.2
  (low.1 ++ high.1, high.2)

/-- `idx_pow_next_bits`. The times of headers have 32 bits, so their difference is one of 64. -/
def idxPowNextBitsLe (prevBits : ℕ) (prevTime prevprevTime : ℤ) (powlimit : ℕ) : ℕ :=
  let actual := prevTime - prevprevTime
  let modulated := 60 + (actual - 60).tdiv 8
  let modulated := if modulated < 45 then 45 else modulated
  let modulated := if modulated > 90 then 90 else modulated
  match bitsToTargetLe prevBits, bitsToTargetLe powlimit with
  | some prev, some lim =>
    let wide := (Radix.divSmall 60 (wideMul prev modulated.toNat).1 0).1
    let isOver := (wide.drop 32).any (· != 0)
    let t := wide.take 32
    targetToBitsLe (if isOver ∨ 0 < cmp256 t lim then lim else t)
  | _, _ => 0

/-! ### The product -/

theorem spill_length (n carry : ℕ) : (spill n carry).1.length = n := by
  induction n generalizing carry with
  | zero => rfl
  | succ n ih =>
    rw [spill]
    split
    · exact List.length_replicate
    · exact congrArg Nat.succ (ih _)

theorem spill_val (n carry : ℕ) :
    Radix.val (spill n carry).1 + 256 ^ n * (spill n carry).2 = carry := by
  induction n generalizing carry with
  | zero => simp [spill, Radix.val]
  | succ n ih =>
    rw [spill]
    by_cases hz : carry = 0
    · rw [if_pos hz, hz, Radix.val_replicate_zero]
      rfl
    · have hrest := ih (carry >>> 8)
      rw [Nat.shiftRight_eq_div_pow] at hrest
      rw [if_neg hz, Radix.val_cons, Radix.val_ofNat, Nat.shiftRight_eq_div_pow, pow_succ']
      have hdigit := Nat.mod_add_div carry 256
      linear_combination 256 * hrest + hdigit

theorem wideMul_length {prev : Bytes} (hlen : prev.length = 32) (m : ℕ) :
    (wideMul prev m).1.length = 40 := by
  rw [wideMul, List.length_append, spill_length, Radix.mulSmall_length, hlen]

/-- The product is exact as soon as it is below `2 ^ 320`. -/
theorem wideMul_exact {prev : Bytes} (hlen : prev.length = 32) {m : ℕ} (hm : m ≤ 256) :
    (wideMul prev m).2 = 0 ∧ leVal (wideMul prev m).1 = leVal prev * m := by
  have hlow := Radix.mulSmall_val m prev 0
  have hhigh := spill_val 8 (Radix.mulSmall m prev 0).2
  have hval : leVal (wideMul prev m).1 + 256 ^ 40 * (wideMul prev m).2 = leVal prev * m := by
    rw [leVal_eq_val, leVal_eq_val, wideMul, Radix.val_append, Radix.mulSmall_length, hlen]
    rw [hlen] at hlow
    linear_combination 256 ^ 32 * hhigh + hlow
  have hlt : leVal prev < 256 ^ 32 := hlen ▸ leVal_lt prev
  have hprod : leVal prev * m ≤ leVal prev * 256 := Nat.mul_le_mul_left _ hm
  have hzero : (wideMul prev m).2 = 0 := by omega
  rw [hzero] at hval
  exact ⟨hzero, hval⟩

/-- The carry between two bytes of the product stays below the factor. -/
theorem mulSmall_carry_le (m : ℕ) (ds : Bytes) {c : ℕ} (hc : c ≤ m) :
    (Radix.mulSmall m ds c).2 ≤ m := by
  induction ds generalizing c with
  | nil => exact hc
  | cons d ds ih =>
    have hd := d.isLt
    have hmul : d.val * m ≤ 255 * m := Nat.mul_le_mul_right m (by omega)
    exact ih (by omega)

/-! ### The quotient -/

/-- A number in the buffer, or the limit when that is less. -/
theorem capped {wide lim : Bytes} (hwide : wide.length = 40) (hlim : lim.length = 32) :
    leVal (if (wide.drop 32).any (· != 0) = true ∨ 0 < cmp256 (wide.take 32) lim then lim
      else wide.take 32) = min (leVal wide) (leVal lim) := by
  have htake : (wide.take 32).length = 32 := by
    rw [List.length_take]
    omega
  have hsplit : leVal wide = leVal (wide.take 32) + 256 ^ 32 * leVal (wide.drop 32) := by
    have h := Radix.val_append (wide.take 32) (wide.drop 32)
    rwa [List.take_append_drop, htake, ← leVal_eq_val, ← leVal_eq_val, ← leVal_eq_val] at h
  have hlt : leVal lim < 256 ^ 32 := hlim ▸ leVal_lt lim
  have hover : (wide.drop 32).any (· != 0) = true ↔ leVal (wide.drop 32) ≠ 0 := by
    rw [leVal_eq_val, Ne, Radix.val_eq_zero]
    simp
  simp only [hover, cmp256_pos (htake.trans hlim.symm)]
  by_cases hhigh : leVal (wide.drop 32) = 0
  · rw [hhigh] at hsplit ⊢
    split
    · omega
    · omega
  · rw [if_pos (Or.inl hhigh)]
    omega

/-- The quotient of the buffer is exact. -/
theorem divSmall_exact (wide : Bytes) :
    leVal (Radix.divSmall 60 wide 0).1 = leVal wide / 60 := by
  obtain ⟨hdiv, hrem⟩ := Radix.divSmall_val (m := 60) wide (by norm_num : 0 < 60)
  rw [leVal_eq_val, leVal_eq_val]
  omega

theorem idxPowNextBitsLe_eq (prevBits : ℕ) (prevTime prevprevTime : ℤ) (powlimit : ℕ) :
    idxPowNextBitsLe prevBits prevTime prevprevTime powlimit =
      idxPowNextBits prevBits prevTime prevprevTime powlimit := by
  unfold idxPowNextBitsLe idxPowNextBits
  rw [← bitsToTargetLe_map prevBits, ← bitsToTargetLe_map powlimit]
  dsimp only
  generalize hclamp : (if (if 60 + (prevTime - prevprevTime - 60).tdiv 8 < 45 then 45
    else 60 + (prevTime - prevprevTime - 60).tdiv 8) > 90 then 90
    else if 60 + (prevTime - prevprevTime - 60).tdiv 8 < 45 then 45
    else 60 + (prevTime - prevprevTime - 60).tdiv 8 : ℤ) = m
  have hm : m.toNat ≤ 256 := by
    rw [← hclamp]
    split_ifs <;> omega
  cases hprev : bitsToTargetLe prevBits with
  | none => rfl
  | some prev =>
    cases hlim : bitsToTargetLe powlimit with
    | none => rfl
    | some lim =>
      have hprevLen := bitsToTargetLe_length hprev
      have hlimLen := bitsToTargetLe_length hlim
      have hquot : (Radix.divSmall 60 (wideMul prev m.toNat).1 0).1.length = 40 := by
        rw [Radix.divSmall_length, wideMul_length hprevLen]
      show targetToBitsLe _ = targetToBits (min (leVal prev * m.toNat / 60) (leVal lim))
      rw [targetToBitsLe_eq, capped hquot hlimLen, divSmall_exact, (wideMul_exact hprevLen hm).2]
      split
      · exact hlimLen
      · rw [List.length_take, hquot]
        rfl

/-! ### The round trips of the compact form -/

/-- A compact value as `target_to_bits` writes it: a size, and a mantissa that starts with the
number's first byte, or with a zero byte when that one would set the sign. -/
structure Normalised (bits : ℕ) : Prop where
  size_pos : 1 ≤ bits / 2 ^ 24
  size_le : bits / 2 ^ 24 ≤ 32
  mant_low : 2 ^ 15 ≤ bits % 2 ^ 24
  mant_high : bits % 2 ^ 24 < 2 ^ 23
  whole : 256 ^ (3 - bits / 2 ^ 24) ∣ bits % 2 ^ 24

instance (bits : ℕ) : Decidable (Normalised bits) :=
  decidable_of_iff (1 ≤ bits / 2 ^ 24 ∧ bits / 2 ^ 24 ≤ 32 ∧ 2 ^ 15 ≤ bits % 2 ^ 24 ∧
      bits % 2 ^ 24 < 2 ^ 23 ∧ 256 ^ (3 - bits / 2 ^ 24) ∣ bits % 2 ^ 24)
    ⟨fun ⟨h1, h2, h3, h4, h5⟩ => ⟨h1, h2, h3, h4, h5⟩,
      fun ⟨h1, h2, h3, h4, h5⟩ => ⟨h1, h2, h3, h4, h5⟩⟩

/-- A number less its low bytes. -/
theorem scaled_mantissa (v exp : ℕ) :
    scaled (mantissa v exp) exp = v / 256 ^ (exp - 3) * 256 ^ (exp - 3) := by
  rw [scaled, mantissa]
  rcases Nat.le_total exp 3 with h | h
  · rw [Nat.sub_eq_zero_of_le h, pow_zero, Nat.div_one, Nat.div_one, mul_one, mul_one,
      Nat.mul_div_cancel _ (by positivity)]
  · rw [Nat.sub_eq_zero_of_le h, pow_zero, mul_one, Nat.div_one]

/-- A mantissa comes back from the number it stands for. -/
theorem mantissa_scaled {mant exp : ℕ} (hwhole : 256 ^ (3 - exp) ∣ mant) :
    mantissa (scaled mant exp) exp = mant := by
  rw [mantissa, scaled, Nat.div_mul_cancel (hwhole.mul_right _), Nat.mul_div_cancel _ (by positivity)]

theorem bitsToTarget_targetToBits {v : ℕ} (hv : 0 < v) (hlt : v < 2 ^ 255) :
    bitsToTarget (targetToBits v) =
      some (v / 256 ^ (targetToBits v / 2 ^ 24 - 3) * 256 ^ (targetToBits v / 2 ^ 24 - 3)) := by
  obtain ⟨exp, hlow, hhigh, hbits⟩ := targetToBits_eq hv
  have hsize : targetToBits v / 2 ^ 24 = exp := by omega
  have hexp : exp ≤ 32 := by
    have hmem := ((mantissa_mem v (2 ^ 15) (2 ^ 23) exp).mp ⟨hlow, hhigh⟩).1
    have hpow : 256 ^ exp < 256 ^ 33 := by omega
    exact Nat.lt_succ_iff.mp ((Nat.pow_lt_pow_iff_right (by norm_num)).mp hpow)
  have hpos : scaled (mantissa v exp) exp ≠ 0 := by
    intro hzero
    have hmant : mantissa v exp = 0 := by
      rw [scaled_mantissa] at hzero
      rcases Nat.le_total exp 3 with h | h
      · rw [Nat.sub_eq_zero_of_le h, pow_zero, Nat.div_one, mul_one] at hzero
        omega
      · rw [mantissa, Nat.sub_eq_zero_of_le h, pow_zero, mul_one]
        exact (Nat.mul_eq_zero.mp hzero).resolve_right (by positivity)
    omega
  rw [hsize, hbits, bitsToTarget_pack hhigh hexp, if_neg hpos, scaled_mantissa]

theorem targetToBits_bitsToTarget {bits : ℕ} (h : Normalised bits) :
    ∃ v, bitsToTarget bits = some v ∧ targetToBits v = bits := by
  obtain ⟨hpos, hle, hlow, hhigh, hwhole⟩ := h
  have hback := mantissa_scaled hwhole
  have hv : 0 < scaled (bits % 2 ^ 24) (bits / 2 ^ 24) := by
    refine Nat.pos_of_ne_zero fun hzero => ?_
    rw [hzero, mantissa, zero_mul, Nat.zero_div] at hback
    omega
  obtain ⟨exp, hlow', hhigh', hto⟩ := targetToBits_eq hv
  have hexp : exp = bits / 2 ^ 24 := mantissa_unique ⟨hlow', hhigh'⟩ (by rw [hback]; exact ⟨hlow, hhigh⟩)
  refine ⟨scaled (bits % 2 ^ 24) (bits / 2 ^ 24), ?_, ?_⟩
  · have hpack := bitsToTarget_pack hhigh hle
    rwa [if_neg hv.ne', show bits / 2 ^ 24 * 2 ^ 24 + bits % 2 ^ 24 = bits by omega] at hpack
  · rw [hto, hexp, hback]
    omega

/-- The arithmetic of the retarget is exact, in its buffers too, and the compact form loses the low
bytes of a target and nothing else. -/
theorem retarget_exact :
    (∀ prevBits powlimit prev lim, bitsToTargetLe prevBits = some prev →
      bitsToTargetLe powlimit = some lim → ∀ prevTime prevprevTime : ℤ,
        let actual := prevTime - prevprevTime
        let m := (max 45 (min 90 (60 + (actual - 60).tdiv 8))).toNat
        let next := min (leVal lim) (leVal prev * m / 60)
        idxPowNextBitsLe prevBits prevTime prevprevTime powlimit =
            targetToBitsLe (leBytes 32 next) ∧
          (∀ i, (Radix.mulSmall m (prev.take i) 0).2 ≤ m) ∧ (wideMul prev m).2 = 0 ∧
            leVal (wideMul prev m).1 = leVal prev * m ∧
            (0 ≤ prevTime → prevTime < 2 ^ 32 → 0 ≤ prevprevTime → prevprevTime < 2 ^ 32 →
              -2 ^ 63 ≤ actual - 60 ∧ actual < 2 ^ 63)) ∧
      (∀ t : Bytes, t.length = 32 → 0 < leVal t → leVal t < 2 ^ 255 →
        let low := 256 ^ (targetToBitsLe t / 2 ^ 24 - 3)
        ∃ t', bitsToTargetLe (targetToBitsLe t) = some t' ∧
          leVal t' = leVal t / low * low ∧ leVal t' ≤ leVal t) ∧
        ∀ bits, Normalised bits →
          ∃ t, bitsToTargetLe bits = some t ∧ targetToBitsLe t = bits := by
  refine ⟨?_, ?_, ?_⟩
  · intro prevBits powlimit prev lim hprev hlim prevTime prevprevTime actual m next
    have hprevLen := bitsToTargetLe_length hprev
    have hlimLen := bitsToTargetLe_length hlim
    have hm : m ≤ 90 := by omega
    have hnext : leVal (leBytes 32 next) = next := by
      have hlt : leVal lim < 256 ^ 32 := hlimLen ▸ leVal_lt lim
      rw [leVal_leBytes, Nat.mod_eq_of_lt (lt_of_le_of_lt (Nat.min_le_left _ _) hlt)]
    have hclamp : (if (if 60 + (actual - 60).tdiv 8 < 45 then 45 else 60 + (actual - 60).tdiv 8) > 90
        then 90 else if 60 + (actual - 60).tdiv 8 < 45 then 45
        else 60 + (actual - 60).tdiv 8 : ℤ) = max 45 (min 90 (60 + (actual - 60).tdiv 8)) := by
      split_ifs <;> omega
    obtain ⟨hcarry, hprod⟩ := wideMul_exact hprevLen (by omega : m ≤ 256)
    refine ⟨?_, fun i => mulSmall_carry_le m _ (Nat.zero_le m), hcarry, hprod, fun _ _ _ _ => by omega⟩
    rw [idxPowNextBitsLe_eq, targetToBitsLe_eq (length_leBytes ..), hnext, idxPowNextBits,
      ← bitsToTargetLe_map prevBits, ← bitsToTargetLe_map powlimit, hprev, hlim]
    dsimp only [Option.map_some]
    rw [hclamp, min_comm]
  · intro t hlen hpos hlt low
    have hback := bitsToTarget_targetToBits hpos hlt
    rw [← targetToBitsLe_eq hlen, ← bitsToTargetLe_map] at hback
    obtain ⟨t', ht', hval⟩ := Option.map_eq_some_iff.mp hback
    exact ⟨t', ht', hval, hval.trans_le (Nat.div_mul_le_self _ _)⟩
  · intro bits hnorm
    obtain ⟨v, hv, hbits⟩ := targetToBits_bitsToTarget hnorm
    rw [← bitsToTargetLe_map] at hv
    obtain ⟨t, ht, rfl⟩ := Option.map_eq_some_iff.mp hv
    exact ⟨t, ht, (targetToBitsLe_eq (bitsToTargetLe_length ht)).trans hbits⟩

end NamespaceIndexer.Daemon
