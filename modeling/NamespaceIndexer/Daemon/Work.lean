import NamespaceIndexer.Daemon.Compact

/-!
# The work of a block on bytes (`pow.c`)

`idx_pow_work` divides bit by bit, the highest bit first: 256 rounds of shift, compare, subtract.
-/

namespace NamespaceIndexer.Daemon

open Fold Lib

/-- `u256_add`. -/
def u256Add (a b : Bytes) : Bytes := (Radix.add a b 0).1

/-- `u256_sub`. -/
def u256Sub (a b : Bytes) : Bytes := (Radix.sub a b 0).1

/-- The bytes shifted by one bit, and the bit shifted out. -/
def shl1 : Bytes → ℕ → Bytes × ℕ
  | [], carry => ([], carry)
  | a :: as, carry =>
    let r := shl1 as (a.val >>> 7)
    (Fin.ofNat 256 (a.val <<< 1 ||| carry) :: r.1, r.2)

/-- `u256_shl1`. -/
def u256Shl1 (a : Bytes) : Bytes := (shl1 a 0).1

def bitAt (a : Bytes) (bit : ℕ) : ℕ := (a.getD (bit >>> 3) 0).val >>> (bit &&& 7) &&& 1

/-- `a[i] |= x`. -/
def orAt (a : Bytes) (i x : ℕ) : Bytes := a.set i (Fin.ofNat 256 ((a.getD i 0).val ||| x))

/-- The remainder after the next bit of the dividend. -/
def nextRem (nt rem : Bytes) (bit : ℕ) : Bytes := orAt (u256Shl1 rem) 0 (bitAt nt bit)

/-- One round, on the remainder and the quotient. -/
def workStep (nt den : Bytes) (s : Bytes × Bytes) (bit : ℕ) : Bytes × Bytes :=
  let rem := nextRem nt s.1 bit
  if 0 ≤ cmp256 rem den then (u256Sub rem den, orAt s.2 (bit >>> 3) (1 <<< (bit &&& 7)))
  else (rem, s.2)

/-- The rounds, from bit 255 down. -/
def workLoop (nt den : Bytes) : ℕ → Bytes × Bytes
  | 0 => (zero256, zero256)
  | k + 1 => workStep nt den (workLoop nt den k) (255 - k)

/-- The dividend `~target` and the divisor `target + 1`. -/
def workNt (target : Bytes) : Bytes := target.map Fin.rev
def workDen (target : Bytes) : Bytes := u256Add target one256

/-- `idx_pow_work`. -/
def idxPowWorkLe (bits : ℕ) : Bytes :=
  match bitsToTargetLe bits with
  | none => zero256
  | some target => u256Add (workLoop (workNt target) (workDen target) 256).2 one256

/-- `idx_pow_work_add`. -/
def idxPowWorkAddLe (acc add : Bytes) : Bytes := u256Add acc add

/-- `idx_pow_work_cmp`. -/
def idxPowWorkCmp (a b : Bytes) : ℤ := cmp256 a b

/-! ### The operations -/

theorem u256Add_length {a b : Bytes} (ha : a.length = 32) (hb : b.length = 32) :
    (u256Add a b).length = 32 := (Radix.add_length (ha.trans hb.symm) 0).trans ha

theorem u256Add_val {a b : Bytes} (ha : a.length = 32) (hb : b.length = 32)
    (hlt : leVal a + leVal b < 2 ^ 256) :
    leVal (u256Add a b) = leVal a + leVal b ∧ (Radix.add a b 0).2 = 0 := by
  have h := Radix.add_val (ha.trans hb.symm) 0
  rw [ha, ← leVal_eq_val, ← leVal_eq_val, ← leVal_eq_val] at h
  have hzero : (Radix.add a b 0).2 = 0 := by omega
  rw [hzero] at h
  exact ⟨h, hzero⟩

theorem u256Sub_length {a b : Bytes} (ha : a.length = 32) (hb : b.length = 32) :
    (u256Sub a b).length = 32 := (Radix.sub_length (ha.trans hb.symm) 0).trans ha

theorem u256Sub_val {a b : Bytes} (ha : a.length = 32) (hb : b.length = 32)
    (hle : leVal b ≤ leVal a) :
    leVal (u256Sub a b) + leVal b = leVal a ∧ (Radix.sub a b 0).2 = 0 := by
  have h := Radix.sub_val (ha.trans hb.symm) (Nat.zero_le 1)
  have hlt : leVal (u256Sub a b) < 256 ^ 32 := u256Sub_length ha hb ▸ leVal_lt (u256Sub a b)
  have hval : leVal (u256Sub a b) = Radix.val (Radix.sub a b 0).1 := leVal_eq_val _
  rw [ha, ← leVal_eq_val b, ← leVal_eq_val a, ← hval] at h
  have hzero : (Radix.sub a b 0).2 = 0 := by omega
  rw [hzero] at h
  exact ⟨h, hzero⟩

/-- A shift is a product by two. -/
theorem shl1_eq (a : Bytes) {carry : ℕ} (hc : carry ≤ 1) : shl1 a carry = Radix.mulSmall 2 a carry := by
  induction a generalizing carry with
  | nil => rfl
  | cons x xs ih =>
    have hx := x.isLt
    have hdigit : x.val <<< 1 ||| carry = carry + x.val * 2 := by
      rw [shiftLeft_or x.val (by omega)]
      omega
    have hcarry : x.val >>> 7 = (carry + x.val * 2) / 256 := by
      rw [Nat.shiftRight_eq_div_pow]
      omega
    rw [shl1, Radix.mulSmall, hdigit, hcarry, ih (by omega)]

theorem u256Shl1_length {a : Bytes} (ha : a.length = 32) : (u256Shl1 a).length = 32 := by
  rw [u256Shl1, shl1_eq a (Nat.zero_le 1), Radix.mulSmall_length, ha]

theorem u256Shl1_val {a : Bytes} (ha : a.length = 32) (hlt : leVal a < 2 ^ 255) :
    leVal (u256Shl1 a) = 2 * leVal a ∧ (shl1 a 0).2 = 0 := by
  have h := Radix.mulSmall_val 2 a 0
  rw [← shl1_eq a (Nat.zero_le 1), ha, ← leVal_eq_val, ← leVal_eq_val] at h
  have hzero : (shl1 a 0).2 = 0 := by omega
  rw [hzero] at h
  exact ⟨by rw [u256Shl1]; omega, hzero⟩

/-- A bit of a number lies in one of its bytes. -/
theorem byte_bit (a : Bytes) (bit : ℕ) :
    (a.getD (bit / 8) 0).val / 2 ^ (bit % 8) % 2 = leVal a / 2 ^ bit % 2 := by
  have hm := Nat.mod_lt bit (by norm_num : 0 < 8)
  have hsplit : leVal a / 2 ^ bit = leVal a / 256 ^ (bit / 8) / 2 ^ (bit % 8) := by
    rw [Nat.div_div_eq_div_mul, show (256 : ℕ) = 2 ^ 8 by norm_num, ← pow_mul, ← pow_add,
      Nat.div_add_mod]
  rw [hsplit, Radix.getD_val, ← leVal_eq_val]
  generalize leVal a / 256 ^ (bit / 8) = w
  interval_cases bit % 8 <;> omega

theorem bitAt_eq (a : Bytes) (bit : ℕ) : bitAt a bit = leVal a / 2 ^ bit % 2 := by
  have hlow : bit &&& 7 = bit % 8 := Nat.and_two_pow_sub_one_eq_mod bit 3
  rw [bitAt, hlow, Nat.shiftRight_eq_div_pow, Nat.shiftRight_eq_div_pow, Nat.and_one_is_mod]
  exact byte_bit a bit

theorem orAt_length (a : Bytes) (i x : ℕ) : (orAt a i x).length = a.length := List.length_set

/-- A clear bit of a byte, or-ed. -/
theorem or_bit : ∀ (b : Byte) (m : Fin 8) (x : Fin 2), b.val / 2 ^ m.val % 2 = 0 →
    (b.val ||| x.val <<< m.val) % 256 = b.val + x.val * 2 ^ m.val := by
  decide +kernel

/-- A bit set where it was clear. -/
theorem orAt_val {a : Bytes} {bit x : ℕ} (hbit : bit < 8 * a.length) (hx : x ≤ 1)
    (hclear : leVal a / 2 ^ bit % 2 = 0) :
    leVal (orAt a (bit >>> 3) (x <<< (bit &&& 7))) = leVal a + x * 2 ^ bit := by
  have hlow : bit &&& 7 = bit % 8 := Nat.and_two_pow_sub_one_eq_mod bit 3
  have hbyte : (256 : ℕ) ^ (bit / 8) * 2 ^ (bit % 8) = 2 ^ bit := by
    rw [show (256 : ℕ) = 2 ^ 8 by norm_num, ← pow_mul, ← pow_add, Nat.div_add_mod]
  rw [← byte_bit] at hclear
  have hor := or_bit (a.getD (bit / 8) 0) ⟨bit % 8, Nat.mod_lt _ (by norm_num)⟩ ⟨x, by omega⟩ hclear
  have hset := @Radix.val_set 256 _ a (bit / 8) (by omega)
    (Fin.ofNat 256 ((a.getD (bit / 8) 0).val ||| x <<< (bit % 8)))
  rw [Radix.val_ofNat, hor] at hset
  rw [orAt, hlow, Nat.shiftRight_eq_div_pow, leVal_eq_val, leVal_eq_val]
  linear_combination hset + x * hbyte

/-! ### The division -/

/-- A dividend `n` whose bits from `j` up are divided by `d`. -/
structure Dividing (n d j : ℕ) (s : Bytes × Bytes) : Prop where
  rem_length : s.1.length = 32
  quo_length : s.2.length = 32
  rem_val : leVal s.1 = n / 2 ^ j % d
  quo_val : leVal s.2 = n / 2 ^ j / d * 2 ^ j

/-- A round shifts no bit out and borrows nothing. -/
structure RoundFits (nt den rem : Bytes) (bit : ℕ) : Prop where
  shift : (shl1 rem 0).2 = 0
  borrow : 0 ≤ cmp256 (nextRem nt rem bit) den → (Radix.sub (nextRem nt rem bit) den 0).2 = 0

theorem nextRem_length {rem : Bytes} (hlen : rem.length = 32) (nt : Bytes) (bit : ℕ) :
    (nextRem nt rem bit).length = 32 := (orAt_length ..).trans (u256Shl1_length hlen)

theorem nextRem_val {rem : Bytes} (hlen : rem.length = 32) (hlt : leVal rem < 2 ^ 255) (nt : Bytes)
    (bit : ℕ) : leVal (nextRem nt rem bit) = 2 * leVal rem + leVal nt / 2 ^ bit % 2 := by
  have hshift := (u256Shl1_val hlen hlt).1
  have hbit : bitAt nt bit ≤ 1 := by
    rw [bitAt_eq]
    omega
  have hset := @orAt_val (u256Shl1 rem) 0 _ (by rw [u256Shl1_length hlen]; norm_num) hbit
    (by rw [hshift]; omega)
  rw [pow_zero, mul_one, hshift] at hset
  rw [← bitAt_eq]
  exact hset

variable {nt den : Bytes} {s : Bytes × Bytes} {j : ℕ}

theorem workStep_dividing (hden : den.length = 32) (hpos : 0 < leVal den)
    (hle : leVal den ≤ 2 ^ 255) (hj : j < 256)
    (h : Dividing (leVal nt) (leVal den) (j + 1) s) :
    Dividing (leVal nt) (leVal den) j (workStep nt den s j) ∧ RoundFits nt den s.1 j := by
  have hlt : leVal s.1 < leVal den := h.rem_val ▸ Nat.mod_lt _ hpos
  have hlen := nextRem_length h.rem_length nt j
  have hrem := nextRem_val h.rem_length (by omega) nt j
  have hhalf : leVal nt / 2 ^ (j + 1) = leVal nt / 2 ^ j / 2 := by
    rw [pow_succ, Nat.div_div_eq_div_mul]
  have hstep := Radix.div_bit (leVal nt / 2 ^ j) hpos
  have hquo := h.quo_val
  rw [h.rem_val, hhalf] at hrem
  rw [hhalf, pow_succ'] at hquo
  rw [← hrem] at hstep
  have hcmp := cmp256_nonneg (hlen.trans hden.symm)
  have hshift := (u256Shl1_val h.rem_length (by omega)).2
  by_cases hge : leVal den ≤ leVal (nextRem nt s.1 j)
  · obtain ⟨hsub, hborrow⟩ := u256Sub_val hlen hden hge
    rw [if_pos hge] at hstep
    have hclear : leVal s.2 / 2 ^ j % 2 = 0 := by
      rw [hquo, show leVal nt / 2 ^ j / 2 / leVal den * (2 * 2 ^ j)
        = 2 * (leVal nt / 2 ^ j / 2 / leVal den) * 2 ^ j by ring,
        Nat.mul_div_cancel _ (by positivity), Nat.mul_mod_right]
    have hset := orAt_val (x := 1) (by rw [h.quo_length]; omega) le_rfl hclear
    rw [workStep, if_pos (hcmp.mpr hge)]
    refine ⟨⟨u256Sub_length hlen hden, (orAt_length ..).trans h.quo_length,
      Nat.add_right_cancel (hsub.trans hstep.1.symm), ?_⟩, hshift, fun _ => hborrow⟩
    rw [hset, hquo, hstep.2]
    ring
  · rw [if_neg hge] at hstep
    have hneg : ¬ 0 ≤ cmp256 (nextRem nt s.1 j) den := fun hc => hge (hcmp.mp hc)
    rw [workStep, if_neg hneg]
    refine ⟨⟨hlen, h.quo_length, hstep.1.symm, ?_⟩, hshift, fun hc => absurd hc hneg⟩
    rw [hquo, hstep.2]
    ring

/-- The rounds divide, from the top bit down. -/
theorem workLoop_dividing (hnt : nt.length = 32) (hden : den.length = 32) (hpos : 0 < leVal den)
    (hle : leVal den ≤ 2 ^ 255) {k : ℕ} (hk : k ≤ 256) :
    Dividing (leVal nt) (leVal den) (256 - k) (workLoop nt den k) := by
  induction k with
  | zero =>
    have hlt : leVal nt < 256 ^ 32 := hnt ▸ leVal_lt nt
    have hzero : leVal nt / 2 ^ 256 = 0 := Nat.div_eq_of_lt hlt
    exact ⟨zero256_length, zero256_length, by rw [Nat.sub_zero, hzero, Nat.zero_mod]; exact leVal_zero256,
      by rw [Nat.sub_zero, hzero, Nat.zero_div, zero_mul]; exact leVal_zero256⟩
  | succ k ih =>
    have hprev := ih (by omega)
    rw [show 256 - k = 255 - k + 1 by omega] at hprev
    rw [show 256 - (k + 1) = 255 - k by omega]
    exact (workStep_dividing hden hpos hle (by omega) hprev).1

theorem workLoop_fits (hnt : nt.length = 32) (hden : den.length = 32) (hpos : 0 < leVal den)
    (hle : leVal den ≤ 2 ^ 255) {k : ℕ} (hk : k < 256) :
    RoundFits nt den (workLoop nt den k).1 (255 - k) := by
  have hprev := workLoop_dividing hnt hden hpos hle hk.le
  rw [show 256 - k = 255 - k + 1 by omega] at hprev
  exact (workStep_dividing hden hpos hle (by omega) hprev).2

/-! ### The work -/

/-- What a block proves: `2 ^ 256 / (target + 1)`, nothing without a target. -/
def blockProof (bits : ℕ) : ℕ :=
  match bitsToTarget bits with
  | none => 0
  | some target => 2 ^ 256 / (target + 1)

theorem workNt_val {target : Bytes} (hlen : target.length = 32) :
    (workNt target).length = 32 ∧ leVal (workNt target) + leVal target + 1 = 2 ^ 256 := by
  have h := Radix.val_map_rev target
  rw [hlen, ← leVal_eq_val, ← leVal_eq_val] at h
  exact ⟨(List.length_map _).trans hlen, h⟩

theorem workDen_val {target : Bytes} (hlen : target.length = 32) (hlt : leVal target < 2 ^ 255) :
    (workDen target).length = 32 ∧ leVal (workDen target) = leVal target + 1 ∧
      (Radix.add target one256 0).2 = 0 := by
  have h := u256Add_val hlen one256_length (by rw [leVal_one256]; omega)
  rw [leVal_one256] at h
  exact ⟨u256Add_length hlen one256_length, h⟩

/-- Everything about the work of an accepted target. -/
theorem idxPowWorkLe_some {bits : ℕ} {target : Bytes} (h : bitsToTargetLe bits = some target) :
    (idxPowWorkLe bits).length = 32 ∧ leVal (idxPowWorkLe bits) = 2 ^ 256 / (leVal target + 1) ∧
      (Radix.add target one256 0).2 = 0 ∧
      (∀ k < 256, RoundFits (workNt target) (workDen target)
        (workLoop (workNt target) (workDen target) k).1 (255 - k)) ∧
      (Radix.add (workLoop (workNt target) (workDen target) 256).2 one256 0).2 = 0 := by
  have hlen := bitsToTargetLe_length h
  have htarget : bitsToTarget bits = some (leVal target) := by
    rw [← bitsToTargetLe_map, h]
    rfl
  obtain ⟨hpos, hlt⟩ := bitsToTarget_bounds htarget
  obtain ⟨hntLen, hnt⟩ := workNt_val hlen
  obtain ⟨hdenLen, hden, hcarry⟩ := workDen_val hlen hlt
  have hdenPos : 0 < leVal (workDen target) := by omega
  have hdenLe : leVal (workDen target) ≤ 2 ^ 255 := by omega
  have hloop := workLoop_dividing hntLen hdenLen hdenPos hdenLe (k := 256) le_rfl
  have hquo := hloop.quo_val
  rw [Nat.sub_self, pow_zero, Nat.div_one, mul_one, hden] at hquo
  have hdiv : 2 ^ 256 / (leVal target + 1) = leVal (workNt target) / (leVal target + 1) + 1 := by
    rw [← hnt, show leVal (workNt target) + leVal target + 1
      = leVal (workNt target) + (leVal target + 1) by ring, Nat.add_div_right _ (Nat.succ_pos _)]
  have hsmall : 2 ^ 256 / (leVal target + 1) ≤ 2 ^ 256 / 2 := Nat.div_le_div_left (by omega) (by norm_num)
  have hsum : leVal (workLoop (workNt target) (workDen target) 256).2 + leVal one256 < 2 ^ 256 := by
    rw [leVal_one256]
    omega
  obtain ⟨hval, hlast⟩ := u256Add_val hloop.quo_length one256_length hsum
  have hwork : idxPowWorkLe bits =
      u256Add (workLoop (workNt target) (workDen target) 256).2 one256 := by
    rw [idxPowWorkLe, h]
  refine ⟨?_, ?_, hcarry, fun k hk => workLoop_fits hntLen hdenLen hdenPos hdenLe hk, hlast⟩
  · rw [hwork, u256Add_length hloop.quo_length one256_length]
  · rw [hwork, hval, leVal_one256, hquo, hdiv]

theorem idxPowWorkLe_none {bits : ℕ} (h : bitsToTargetLe bits = none) :
    idxPowWorkLe bits = zero256 := by
  rw [idxPowWorkLe, h]

theorem idxPowWorkLe_length (bits : ℕ) : (idxPowWorkLe bits).length = 32 := by
  cases h : bitsToTargetLe bits with
  | none => rw [idxPowWorkLe_none h, zero256_length]
  | some target => exact (idxPowWorkLe_some h).1

theorem idxPowWorkLe_val (bits : ℕ) : leVal (idxPowWorkLe bits) = blockProof bits := by
  rw [blockProof, ← bitsToTargetLe_map]
  cases h : bitsToTargetLe bits with
  | none => rw [idxPowWorkLe_none h, leVal_zero256, Option.map_none]
  | some target => exact (idxPowWorkLe_some h).2.1

/-- The division on bytes and the one on numbers. -/
theorem idxPowWork_eq (bits : ℕ) : idxPowWork bits = blockProof bits := by
  rw [idxPowWork, blockProof]
  cases h : bitsToTarget bits with
  | none => rfl
  | some target =>
    have hlt := (bitsToTarget_bounds h).2
    dsimp only
    rw [show 2 ^ 256 / (target + 1) = (2 ^ 256 - 1 - target + (target + 1)) / (target + 1) by
      congr 1; omega, Nat.add_div_right _ (Nat.succ_pos _)]

/-- The work of the headers of a chain, onto what there was. -/
def chainWork (acc : Bytes) (chain : List ℕ) : Bytes :=
  chain.foldl (fun acc bits => idxPowWorkAddLe acc (idxPowWorkLe bits)) acc

/-- A total below `2 ^ 256` is exact. -/
theorem chainWork_val {acc : Bytes} {chain : List ℕ} (hlen : acc.length = 32)
    (hlt : leVal acc + (chain.map blockProof).sum < 2 ^ 256) :
    (chainWork acc chain).length = 32 ∧
      leVal (chainWork acc chain) = leVal acc + (chain.map blockProof).sum := by
  induction chain generalizing acc with
  | nil => exact ⟨hlen, rfl⟩
  | cons bits chain ih =>
    rw [List.map_cons, List.sum_cons] at hlt ⊢
    have hadd := (u256Add_val hlen (idxPowWorkLe_length bits) (by rw [idxPowWorkLe_val]; omega)).1
    rw [idxPowWorkLe_val] at hadd
    obtain ⟨hl, hv⟩ := ih (u256Add_length hlen (idxPowWorkLe_length bits)) (by omega)
    exact ⟨hl, by rw [chainWork, List.foldl_cons]; exact hv.trans (by omega)⟩

/-- The work of a block is exact and grows as the target falls, and the totals order the chains. -/
theorem work_exact :
    (∀ bits target, bitsToTargetLe bits = some target →
      leVal (idxPowWorkLe bits) = 2 ^ 256 / (leVal target + 1) ∧
        (Radix.add target one256 0).2 = 0 ∧
        (∀ k < 256, RoundFits (workNt target) (workDen target)
          (workLoop (workNt target) (workDen target) k).1 (255 - k)) ∧
        (Radix.add (workLoop (workNt target) (workDen target) 256).2 one256 0).2 = 0) ∧
      (∀ bits, bitsToTargetLe bits = none → idxPowWorkLe bits = zero256) ∧
      (∀ bits bits' target target', bitsToTargetLe bits = some target →
        bitsToTargetLe bits' = some target' → leVal target ≤ leVal target' →
          0 ≤ idxPowWorkCmp (idxPowWorkLe bits) (idxPowWorkLe bits')) ∧
      ∀ (acc acc' : Bytes) (chain chain' : List ℕ), acc.length = 32 → acc'.length = 32 →
        let total := leVal acc + (chain.map blockProof).sum
        let total' := leVal acc' + (chain'.map blockProof).sum
        total < 2 ^ 256 → total' < 2 ^ 256 →
          idxPowWorkCmp (chainWork acc chain) (chainWork acc' chain') =
            if total < total' then -1 else if total = total' then 0 else 1 := by
  refine ⟨fun bits target h => (idxPowWorkLe_some h).2, fun bits h => idxPowWorkLe_none h, ?_, ?_⟩
  · intro bits bits' target target' h h' hle
    rw [idxPowWorkCmp, cmp256_nonneg ((idxPowWorkLe_length bits).trans (idxPowWorkLe_length bits').symm),
      (idxPowWorkLe_some h).2.1, (idxPowWorkLe_some h').2.1]
    exact Nat.div_le_div_left (by omega) (Nat.succ_pos _)
  · intro acc acc' chain chain' hlen hlen' total total' hlt hlt'
    obtain ⟨hl, hv⟩ := chainWork_val hlen hlt
    obtain ⟨hl', hv'⟩ := chainWork_val hlen' hlt'
    rw [idxPowWorkCmp, cmp256_eq (hl.trans hl'.symm), hv, hv']

end NamespaceIndexer.Daemon
