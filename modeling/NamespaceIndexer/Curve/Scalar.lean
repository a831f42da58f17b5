import NamespaceIndexer.Curve.Field

/-!
# Scalar arithmetic of `secp256k1.c`

Products and inverses modulo the group order.
-/

namespace NamespaceIndexer.Curve

open Fold Lib

instance : Fact orderN.Prime := ⟨orderN_prime⟩

/-- `SECP_N_BE`. -/
def secpNBe : Fixed 32 :=
  ⟨[0xFF, 0xFF, 0xFF, 0xFF, 0xFF, 0xFF, 0xFF, 0xFF, 0xFF, 0xFF, 0xFF, 0xFF, 0xFF, 0xFF, 0xFF, 0xFE,
    0xBA, 0xAE, 0xDC, 0xE6, 0xAF, 0x48, 0xA0, 0x3B, 0xBF, 0xD2, 0x5E, 0x8C, 0xD0, 0x36, 0x41, 0x41],
    rfl⟩

/-- `sc_n`. -/
def scN : Limbs4 := be32ToLimbs secpNBe

/-- `limb_is_zero`. -/
def limbIsZero (a : Limbs4) : Bool := a.val.all fun w => w == 0

/-- The low bit of the lowest limb. -/
def limbIsOdd (a : Limbs4) : Bool := (a.val.headD 0).toNat % 2 == 1

/-- One bit up, with the bit that comes in and the one that falls out. -/
def limbShl (a : Limbs4) (c : Bool) : Limbs4 × Bool :=
  let r := Limbs.shl a.val (if c then 1 else 0)
  (⟨r.1, by rw [(Limbs.shl_val a.val (by cases c <;> decide)).1, a.property]⟩, r.2 != 0)

/-- One bit down, with the bit that comes in from above. -/
def limbShr (a : Limbs4) (c : UInt64) : Limbs4 :=
  ⟨Limbs.shr a.val c, by rw [Limbs.shr_length, a.property]⟩

/-- `sc_reduce`. The loop runs at most once: `2^256` is below twice the order. -/
def scReduce (a : Limbs4) : Limbs4 := if limbCmp a scN = .lt then a else (limbSub a scN).1

/-- One turn of the reduction in `sc_mul`: the next bit in, and the order out. -/
def scMulStep (rem : Limbs4) (bit : Bool) : Limbs4 :=
  let r := limbShl rem bit
  if r.2 || limbCmp r.1 scN != .lt then (limbSub r.1 scN).1 else r.1

/-- The bits of limbs, the top bit first. -/
def limbBits (t : List UInt64) : List Bool := t.reverse.flatMap fun w => Ladder.topBits 64 w.toNat

/-- `sc_mul`. -/
def scMul (a b : Limbs4) : Limbs4 := (limbBits (limbMul a b)).foldl scMulStep zeroLimbs

/-- `sc_add_mod`. -/
def scAddMod (a b m : Limbs4) : Limbs4 :=
  let s := limbAdd a b
  if s.2 ≠ 0 ∨ limbCmp s.1 m ≠ .lt then (limbSub s.1 m).1 else s.1

/-- `sc_sub_mod`. -/
def scSubMod (a b m : Limbs4) : Limbs4 :=
  if limbCmp a b ≠ .lt then (limbSub a b).1 else (limbAdd (limbSub a b).1 m).1

/-- `halve_mod`. -/
def halveMod (x m : Limbs4) : Limbs4 :=
  let r := if limbIsOdd x then limbAdd x m else (x, 0)
  limbShr r.1 (UInt64.ofNat r.2)

/-- The inner loops of `sc_inv`: `u` is halved while it is even, `x` with it. A number of 256 bits
that is not zero is odd after fewer than 256 turns. -/
def halveEven : ℕ → Limbs4 → Limbs4 → Limbs4 × Limbs4
  | 0, u, x => (u, x)
  | fuel + 1, u, x => if limbIsOdd u then (u, x) else halveEven fuel (limbShr u 0) (halveMod x scN)

def oneLimbs : Limbs4 := ⟨[1, 0, 0, 0], rfl⟩

/-- The variables of `sc_inv`. -/
structure InvState where
  u : Limbs4
  v : Limbs4
  x1 : Limbs4
  x2 : Limbs4

/-- The body of the outer loop of `sc_inv`. -/
def scInvBody (s : InvState) : InvState :=
  let a := halveEven 256 s.u s.x1
  let b := halveEven 256 s.v s.x2
  if limbCmp a.1 b.1 ≠ .lt then ⟨(limbSub a.1 b.1).1, b.1, scSubMod a.2 b.2 scN, b.2⟩
  else ⟨a.1, (limbSub b.1 a.1).1, a.2, scSubMod b.2 a.2 scN⟩

/-- The outer loop of `sc_inv`, for a number of turns. -/
def scInvLoop : ℕ → InvState → InvState
  | 0, s => s
  | fuel + 1, s =>
    if limbCmp s.u oneLimbs ≠ .eq ∧ limbCmp s.v oneLimbs ≠ .eq then scInvLoop fuel (scInvBody s)
    else s

/-- `sc_inv`. The loop ends within 513 turns: after the first, each halves the product of `u` and
`v`. -/
def scInv (a : Limbs4) : Option Limbs4 :=
  if limbIsZero a then none
  else
    let s := scInvLoop 513 ⟨a, scN, oneLimbs, zeroLimbs⟩
    some (if limbCmp s.u oneLimbs = .eq then s.x1 else s.x2)

/-! ### Values -/

theorem limbVal_scN : limbVal scN = orderN := by
  unfold scN
  rw [limbVal_be32ToLimbs]
  decide

theorem limbCmp_lt_iff (a b : Limbs4) : limbCmp a b = .lt ↔ limbVal a < limbVal b := by
  rw [limbCmp_eq, compare_lt_iff_lt]

theorem limbCmp_eq_iff (a b : Limbs4) : limbCmp a b = .eq ↔ limbVal a = limbVal b := by
  rw [limbCmp_eq, compare_eq_iff_eq]

theorem limbIsZero_iff (a : Limbs4) : limbIsZero a = true ↔ limbVal a = 0 := by
  have hzero : limbIsZero a = true ↔ a = zeroLimbs := by
    obtain ⟨v, hv⟩ := a
    match v, hv with
    | [w, x, y, z], _ => simp [limbIsZero, zeroLimbs]
  rw [hzero]
  constructor
  · rintro rfl
    rfl
  · intro h
    exact limbVal_inj h

theorem limbIsOdd_eq (a : Limbs4) : limbIsOdd a = (limbVal a % 2 == 1) := feIsOdd_eq a

theorem limbVal_one : limbVal oneLimbs = 1 := rfl

theorem limbVal_zero : limbVal zeroLimbs = 0 := rfl

theorem limbShl_val (a : Limbs4) (c : Bool) :
    limbVal (limbShl a c).1 + 2 ^ 256 * (limbShl a c).2.toNat = 2 * limbVal a + c.toNat := by
  obtain ⟨-, hout, hval⟩ := Limbs.shl_val a.val (c := if c then 1 else 0) (by cases c <;> decide)
  have hbit : (if c then (1 : UInt64) else 0).toNat = c.toNat := by cases c <;> rfl
  rw [a.property, hbit] at hval
  have htop : ∀ w : UInt64, w.toNat < 2 → (w != 0).toNat = w.toNat := by
    intro w hw
    by_cases h0 : w = 0
    · rw [h0]
      rfl
    · have hne : w.toNat ≠ 0 := fun h => h0 (UInt64.toNat_inj.mp h)
      rw [bne_iff_ne.mpr h0, Bool.toNat_true]
      omega
  unfold limbShl limbVal
  dsimp only
  rw [htop _ hout]
  exact hval

theorem limbShr_val (a : Limbs4) (c : UInt64) :
    limbVal (limbShr a c) = (limbVal a + 2 ^ 256 * (c.toNat % 2)) / 2 := by
  have h := Limbs.shr_val a.val c
  rwa [a.property] at h

theorem limbVal_scReduce (a : Limbs4) : limbVal (scReduce a) = limbVal a % orderN := by
  have hlt := limbVal_lt a
  obtain ⟨hborrow, hsub⟩ := limbSub_val a scN
  have hres := limbVal_lt (limbSub a scN).1
  unfold scReduce
  by_cases h : limbVal a < orderN
  · rw [if_pos ((limbCmp_lt_iff a scN).mpr (by rwa [limbVal_scN])), Nat.mod_eq_of_lt h]
  · rw [if_neg (fun hc => h (by rwa [limbCmp_lt_iff, limbVal_scN] at hc))]
    rw [limbVal_scN] at hsub
    unfold orderN at *
    omega

/-! ### Products -/

theorem limbVal_scMulStep {rem : Limbs4} (h : limbVal rem < orderN) (bit : Bool) :
    limbVal (scMulStep rem bit) = (2 * limbVal rem + bit.toNat) % orderN := by
  have hshl := limbShl_val rem bit
  have hlow := limbVal_lt (limbShl rem bit).1
  have hbit : bit.toNat ≤ 1 := Bool.toNat_le bit
  unfold scMulStep
  dsimp only
  generalize limbShl rem bit = r at *
  obtain ⟨hborrow, hsub⟩ := limbSub_val r.1 scN
  have hres := limbVal_lt (limbSub r.1 scN).1
  rw [limbVal_scN] at hsub
  have hcmp := limbCmp_lt_iff r.1 scN
  rw [limbVal_scN] at hcmp
  unfold orderN at *
  cases htop : r.2 with
  | true =>
    rw [Bool.true_or, if_pos rfl]
    rw [htop, Bool.toNat_true] at hshl
    omega
  | false =>
    rw [htop, Bool.toNat_false] at hshl
    rw [Bool.false_or]
    by_cases hlt : limbCmp r.1 scN = .lt
    · have hlow' := hcmp.mp hlt
      rw [hlt, if_neg (by decide)]
      omega
    · have hge := mt hcmp.mpr hlt
      rw [if_pos (bne_iff_ne.mpr hlt)]
      omega

theorem foldl_scMulStep (l : List Bool) {rem : Limbs4} {k : ℕ} (h : limbVal rem = k % orderN) :
    limbVal (l.foldl scMulStep rem) = (2 ^ l.length * k + Ladder.bitsVal l) % orderN := by
  induction l generalizing rem k with
  | nil =>
    rw [List.foldl_nil, h, List.length_nil, pow_zero, one_mul]
    rfl
  | cons b l ih =>
    have hlt : limbVal rem < orderN := h ▸ Nat.mod_lt _ (Nat.Prime.pos orderN_prime)
    have hstep : limbVal (scMulStep rem b) = (2 * k + b.toNat) % orderN := by
      rw [limbVal_scMulStep hlt, h, Nat.add_mod, Nat.mul_mod, Nat.mod_mod, ← Nat.mul_mod,
        ← Nat.add_mod]
    have hexp : 2 ^ (b :: l).length * k + Ladder.bitsVal (b :: l)
        = 2 ^ l.length * (2 * k + b.toNat) + Ladder.bitsVal l := by
      rw [Ladder.bitsVal_cons, List.length_cons, pow_succ]
      ring
    rw [List.foldl_cons, ih hstep, hexp]

theorem bitsVal_limbBits (t : List UInt64) :
    (limbBits t).length = 64 * t.length ∧ Ladder.bitsVal (limbBits t) = Limbs.val t := by
  induction t with
  | nil => exact ⟨rfl, rfl⟩
  | cons w t ih =>
    obtain ⟨ihlen, ihval⟩ := ih
    have hw := w.toNat_lt
    have hcons : limbBits (w :: t) = limbBits t ++ Ladder.topBits 64 w.toNat := by
      unfold limbBits
      rw [List.reverse_cons, List.flatMap_append, List.flatMap_singleton]
    rw [hcons, Ladder.bitsVal_append, Ladder.topBits_length, Ladder.bitsVal_topBits, ihval,
      List.length_append, Ladder.topBits_length, ihlen, Limbs.val_cons, List.length_cons,
      Nat.mod_eq_of_lt hw]
    omega

/-- `sc_mul` multiplies modulo the order. -/
theorem limbVal_scMul (a b : Limbs4) : limbVal (scMul a b) = limbVal a * limbVal b % orderN := by
  have hzero : limbVal zeroLimbs = 0 % orderN := rfl
  have h := foldl_scMulStep (limbBits (limbMul a b)) hzero
  rw [(bitsVal_limbBits _).2, (limbMul_val a b).2, mul_zero, zero_add] at h
  exact h

/-! ### Inverses -/

theorem limbVal_scSubMod {a b : Limbs4} (ha : limbVal a < orderN) (hb : limbVal b < orderN) :
    limbVal (scSubMod a b scN) < orderN ∧
      (limbVal (scSubMod a b scN) : ZMod orderN) = limbVal a - limbVal b := by
  obtain ⟨hborrow, hsub⟩ := limbSub_val a b
  have hadd := limbAdd_val (limbSub a b).1 scN
  have hlow := limbVal_lt (limbSub a b).1
  have hsum := limbVal_lt (limbAdd (limbSub a b).1 scN).1
  rw [limbVal_scN] at hadd
  unfold scSubMod
  by_cases hlt : limbVal a < limbVal b
  · rw [if_neg (not_not.mpr ((limbCmp_lt_iff a b).mpr hlt))]
    have hval : limbVal (limbAdd (limbSub a b).1 scN).1 + limbVal b = limbVal a + orderN := by
      unfold orderN at *
      omega
    refine ⟨by omega, ?_⟩
    rw [eq_sub_iff_add_eq, ← Nat.cast_add, hval, Nat.cast_add, ZMod.natCast_self, add_zero]
  · rw [if_pos (mt (limbCmp_lt_iff a b).mp hlt)]
    have hval : limbVal (limbSub a b).1 + limbVal b = limbVal a := by omega
    refine ⟨by omega, ?_⟩
    rw [eq_sub_iff_add_eq, ← Nat.cast_add, hval]

theorem two_ne_zero_scalar : (2 : ZMod orderN) ≠ 0 := by decide +kernel

/-- `halve_mod` halves modulo the order. -/
theorem limbVal_halveMod {x : Limbs4} (hx : limbVal x < orderN) :
    limbVal (halveMod x scN) < orderN ∧
      2 * (limbVal (halveMod x scN) : ZMod orderN) = limbVal x := by
  have hadd := limbAdd_val x scN
  have hlow := limbVal_lt (limbAdd x scN).1
  have hodd : orderN % 2 = 1 := by decide
  rw [limbVal_scN] at hadd
  unfold halveMod
  rw [limbIsOdd_eq]
  by_cases hpar : limbVal x % 2 = 1
  · rw [if_pos (beq_iff_eq.mpr hpar), limbShr_val, Limbs.toNat_ofNat]
    have hcarry : (limbAdd x scN).2 ≤ 1 := by
      unfold orderN at *
      omega
    have hval : limbVal (limbAdd x scN).1
        + 2 ^ 256 * ((limbAdd x scN).2 % 2 ^ 64 % 2) = limbVal x + orderN := by omega
    rw [hval]
    refine ⟨by omega, ?_⟩
    have htwo : 2 * ((limbVal x + orderN) / 2) = limbVal x + orderN := by omega
    rw [← Nat.cast_two, ← Nat.cast_mul, htwo, Nat.cast_add, ZMod.natCast_self, add_zero]
  · rw [if_neg (by rwa [beq_iff_eq]), limbShr_val]
    have hval : limbVal x + 2 ^ 256 * ((UInt64.ofNat 0).toNat % 2) = limbVal x := by simp
    rw [hval]
    refine ⟨by omega, ?_⟩
    have htwo : 2 * (limbVal x / 2) = limbVal x := by omega
    rw [← Nat.cast_two, ← Nat.cast_mul, htwo]

/-- What the inner loop leaves: an odd divisor of `u`, and the relation to `x`. -/
theorem halveEven_spec (fuel : ℕ) {u x : Limbs4} (hu : limbVal u < 2 ^ fuel) (h0 : limbVal u ≠ 0)
    (hx : limbVal x < orderN) {c : ZMod orderN} (hc : c * limbVal x = limbVal u) :
    limbVal (halveEven fuel u x).1 % 2 = 1 ∧ limbVal (halveEven fuel u x).1 ∣ limbVal u ∧
      limbVal (halveEven fuel u x).2 < orderN ∧
      c * limbVal (halveEven fuel u x).2 = limbVal (halveEven fuel u x).1 := by
  induction fuel generalizing u x with
  | zero => omega
  | succ fuel ih =>
    unfold halveEven
    rw [limbIsOdd_eq]
    by_cases hpar : limbVal u % 2 = 1
    · rw [if_pos (beq_iff_eq.mpr hpar)]
      exact ⟨hpar, dvd_rfl, hx, hc⟩
    · rw [if_neg (by rwa [beq_iff_eq])]
      have hshr : limbVal (limbShr u 0) = limbVal u / 2 := by
        rw [limbShr_val]
        simp
      obtain ⟨hxlt, hxval⟩ := limbVal_halveMod hx
      have htwo : 2 * limbVal (limbShr u 0) = limbVal u := by omega
      have hrel : c * limbVal (halveMod x scN) = limbVal (limbShr u 0) := by
        refine mul_left_cancel₀ two_ne_zero_scalar ?_
        rw [mul_left_comm, hxval, hc, ← Nat.cast_two, ← Nat.cast_mul, htwo]
      rw [pow_succ] at hu
      obtain ⟨hodd, hdvd, hlt, hrel'⟩ := ih (by omega) (by omega) hxlt hrel
      exact ⟨hodd, hdvd.trans ⟨2, by omega⟩, hlt, hrel'⟩

/-- The invariant of the outer loop: the pairs follow multiples of `c`, and `u` and `v` stay
coprime. -/
structure InvOk (c : ZMod orderN) (s : InvState) : Prop where
  coprime : Nat.Coprime (limbVal s.u) (limbVal s.v)
  x1 : limbVal s.x1 < orderN
  x2 : limbVal s.x2 < orderN
  rel1 : c * limbVal s.x1 = limbVal s.u
  rel2 : c * limbVal s.x2 = limbVal s.v

/-- The condition that ends the outer loop. -/
def InvDone (s : InvState) : Prop := limbVal s.u = 1 ∨ limbVal s.v = 1

theorem InvOk.ne_zero {c : ZMod orderN} {s : InvState} (h : InvOk c s) (hd : ¬InvDone s) :
    limbVal s.u ≠ 0 ∧ limbVal s.v ≠ 0 := by
  have hco := h.coprime
  constructor
  · intro h0
    rw [h0, Nat.coprime_zero_left] at hco
    exact hd (Or.inr hco)
  · intro h0
    rw [h0, Nat.coprime_zero_right] at hco
    exact hd (Or.inl hco)

/-- A product of numbers, one of them even, is at least twice that of odd divisors of them. -/
theorem two_mul_le_of_even {u v u' v' : ℕ} (hu : u' ∣ u) (hv : v' ∣ v) (hu0 : u ≠ 0) (hv0 : v ≠ 0)
    (hu' : u' % 2 = 1) (hv' : v' % 2 = 1) (heven : u % 2 = 0 ∨ v % 2 = 0) :
    2 * (u' * v') ≤ u * v := by
  obtain ⟨a, rfl⟩ := hu
  obtain ⟨b, rfl⟩ := hv
  have hab : 2 ≤ a * b := by
    have ha : a ≠ 0 := fun h => hu0 (by rw [h, mul_zero])
    have hb : b ≠ 0 := fun h => hv0 (by rw [h, mul_zero])
    rcases heven with h | h
    · rw [Nat.mul_mod, hu', one_mul, Nat.mod_mod] at h
      have := Nat.mul_le_mul (show 2 ≤ a by omega) (show 1 ≤ b by omega)
      omega
    · rw [Nat.mul_mod, hv', one_mul, Nat.mod_mod] at h
      have := Nat.mul_le_mul (show 1 ≤ a by omega) (show 2 ≤ b by omega)
      omega
  calc 2 * (u' * v') ≤ a * b * (u' * v') := Nat.mul_le_mul_right _ hab
    _ = u' * a * (v' * b) := by ring

theorem scInvBody_ok {c : ZMod orderN} {s : InvState} (h : InvOk c s) (hd : ¬InvDone s) :
    InvOk c (scInvBody s) ∧
      limbVal (scInvBody s).u * limbVal (scInvBody s).v ≤ limbVal s.u * limbVal s.v ∧
      (limbVal (scInvBody s).u % 2 = 0 ∨ limbVal (scInvBody s).v % 2 = 0) ∧
      (limbVal s.u % 2 = 0 ∨ limbVal s.v % 2 = 0 →
        2 * (limbVal (scInvBody s).u * limbVal (scInvBody s).v) ≤ limbVal s.u * limbVal s.v) := by
  obtain ⟨hu0, hv0⟩ := h.ne_zero hd
  obtain ⟨huodd, hudvd, hx1, hrel1⟩ := halveEven_spec 256 (limbVal_lt s.u) hu0 h.x1 h.rel1
  obtain ⟨hvodd, hvdvd, hx2, hrel2⟩ := halveEven_spec 256 (limbVal_lt s.v) hv0 h.x2 h.rel2
  have hco : Nat.Coprime (limbVal (halveEven 256 s.u s.x1).1) (limbVal (halveEven 256 s.v s.x2).1) :=
    (h.coprime.coprime_dvd_left hudvd).coprime_dvd_right hvdvd
  have hhalf := two_mul_le_of_even hudvd hvdvd hu0 hv0 huodd hvodd
  have hle := Nat.mul_le_mul (Nat.le_of_dvd (Nat.pos_of_ne_zero hu0) hudvd)
    (Nat.le_of_dvd (Nat.pos_of_ne_zero hv0) hvdvd)
  unfold scInvBody
  dsimp only
  generalize halveEven 256 s.u s.x1 = a at *
  generalize halveEven 256 s.v s.x2 = b at *
  by_cases hlt : limbVal a.1 < limbVal b.1
  · rw [if_neg (not_not.mpr ((limbCmp_lt_iff a.1 b.1).mpr hlt))]
    obtain ⟨hborrow, hsub⟩ := limbSub_val b.1 a.1
    have hres := limbVal_lt (limbSub b.1 a.1).1
    have hb := limbVal_lt b.1
    obtain ⟨hx, hrel⟩ := limbVal_scSubMod hx2 hx1
    have hval : limbVal (limbSub b.1 a.1).1 = limbVal b.1 - limbVal a.1 := by omega
    have hmul : limbVal a.1 * (limbVal b.1 - limbVal a.1) ≤ limbVal a.1 * limbVal b.1 :=
      Nat.mul_le_mul_left _ (Nat.sub_le _ _)
    refine ⟨⟨?_, hx1, hx, hrel1, ?_⟩, ?_, ?_, ?_⟩
    · rw [hval]
      exact (Nat.coprime_sub_self_right hlt.le).mpr hco
    · rw [hrel, mul_sub, hrel1, hrel2, hval, Nat.cast_sub hlt.le]
    · dsimp only
      rw [hval]
      exact hmul.trans hle
    · dsimp only
      omega
    · intro heven
      dsimp only
      rw [hval]
      exact (Nat.mul_le_mul_left 2 hmul).trans (hhalf heven)
  · rw [if_pos (mt (limbCmp_lt_iff a.1 b.1).mp hlt)]
    obtain ⟨hborrow, hsub⟩ := limbSub_val a.1 b.1
    have hres := limbVal_lt (limbSub a.1 b.1).1
    have ha := limbVal_lt a.1
    obtain ⟨hx, hrel⟩ := limbVal_scSubMod hx1 hx2
    have hval : limbVal (limbSub a.1 b.1).1 = limbVal a.1 - limbVal b.1 := by omega
    have hmul : (limbVal a.1 - limbVal b.1) * limbVal b.1 ≤ limbVal a.1 * limbVal b.1 :=
      Nat.mul_le_mul_right _ (Nat.sub_le _ _)
    refine ⟨⟨?_, hx, hx2, ?_, hrel2⟩, ?_, ?_, ?_⟩
    · rw [hval]
      exact (Nat.coprime_sub_self_left (not_lt.mp hlt)).mpr hco
    · rw [hrel, mul_sub, hrel1, hrel2, hval, Nat.cast_sub (not_lt.mp hlt)]
    · dsimp only
      rw [hval]
      exact hmul.trans hle
    · dsimp only
      omega
    · intro heven
      dsimp only
      rw [hval]
      exact (Nat.mul_le_mul_left 2 hmul).trans (hhalf heven)

theorem scInvLoop_succ (fuel : ℕ) (s : InvState) :
    (InvDone s → scInvLoop (fuel + 1) s = s) ∧
      (¬InvDone s → scInvLoop (fuel + 1) s = scInvLoop fuel (scInvBody s)) := by
  have hturn : scInvLoop (fuel + 1) s =
      if limbCmp s.u oneLimbs ≠ .eq ∧ limbCmp s.v oneLimbs ≠ .eq then scInvLoop fuel (scInvBody s)
      else s := rfl
  rw [hturn]
  simp only [ne_eq, limbCmp_eq_iff, limbVal_one, ← not_or]
  constructor
  · intro hd
    exact if_neg (not_not.mpr hd)
  · intro hd
    exact if_pos hd

/-- The loop ends, and the invariant holds where it ends. -/
theorem scInvLoop_spec {c : ZMod orderN} (fuel : ℕ) {s : InvState} (h : InvOk c s)
    (hfuel : limbVal s.u * limbVal s.v < 2 ^ fuel)
    (heven : limbVal s.u % 2 = 0 ∨ limbVal s.v % 2 = 0) :
    InvOk c (scInvLoop fuel s) ∧ InvDone (scInvLoop fuel s) := by
  induction fuel generalizing s with
  | zero =>
    refine ⟨h, ?_⟩
    by_contra hd
    obtain ⟨hu0, hv0⟩ := h.ne_zero hd
    have hpos := Nat.mul_pos (Nat.pos_of_ne_zero hu0) (Nat.pos_of_ne_zero hv0)
    omega
  | succ fuel ih =>
    by_cases hd : InvDone s
    · rw [(scInvLoop_succ fuel s).1 hd]
      exact ⟨h, hd⟩
    · rw [(scInvLoop_succ fuel s).2 hd]
      obtain ⟨hok, -, heven', hhalf⟩ := scInvBody_ok h hd
      have hlt := hhalf heven
      rw [pow_succ] at hfuel
      exact ih hok (by omega) heven'

/-- What `sc_inv` starts its loop with. -/
def invStart (a : Limbs4) : InvState := ⟨a, scN, oneLimbs, zeroLimbs⟩

theorem invStart_ok {a : Limbs4} (h0 : limbVal a ≠ 0) (hlt : limbVal a < orderN) :
    InvOk (limbVal a : ZMod orderN) (invStart a) := by
  unfold invStart
  refine ⟨?_, ?_, ?_, ?_, ?_⟩
  · rw [limbVal_scN]
    exact (Nat.coprime_of_lt_prime h0 hlt orderN_prime).symm
  · rw [limbVal_one]
    decide
  · rw [limbVal_zero]
    decide
  · rw [limbVal_one, Nat.cast_one, mul_one]
  · rw [limbVal_zero, limbVal_scN, Nat.cast_zero, mul_zero, ZMod.natCast_self]

/-- The loop is over within its turns. -/
theorem scInvLoop_start {a : Limbs4} (h0 : limbVal a ≠ 0) (hlt : limbVal a < orderN) :
    InvOk (limbVal a : ZMod orderN) (scInvLoop 513 (invStart a)) ∧
      InvDone (scInvLoop 513 (invStart a)) := by
  have hstart := invStart_ok h0 hlt
  by_cases hd : InvDone (invStart a)
  · rw [(scInvLoop_succ 512 _).1 hd]
    exact ⟨hstart, hd⟩
  · rw [(scInvLoop_succ 512 _).2 hd]
    obtain ⟨hok, hle, heven, -⟩ := scInvBody_ok hstart hd
    have hprod : limbVal a * limbVal scN < 2 ^ (256 + 256) := by
      rw [pow_add]
      exact Nat.mul_lt_mul'' (limbVal_lt a) (limbVal_lt scN)
    exact scInvLoop_spec (256 + 256) hok (lt_of_le_of_lt hle hprod) heven

theorem scInv_eq {a : Limbs4} (h0 : limbVal a ≠ 0) :
    scInv a = some (if limbCmp (scInvLoop 513 (invStart a)).u oneLimbs = .eq
      then (scInvLoop 513 (invStart a)).x1 else (scInvLoop 513 (invStart a)).x2) :=
  if_neg (mt (limbIsZero_iff a).mp h0)

/-- `sc_inv` inverts modulo the order. -/
theorem scInv_spec {a : Limbs4} (h0 : limbVal a ≠ 0) (hlt : limbVal a < orderN) :
    ∃ w, scInv a = some w ∧ limbVal w < orderN ∧ (limbVal a : ZMod orderN) * limbVal w = 1 := by
  obtain ⟨hok, hdone⟩ := scInvLoop_start h0 hlt
  rw [scInv_eq h0]
  generalize scInvLoop 513 (invStart a) = s at hok hdone
  by_cases hu : limbVal s.u = 1
  · rw [if_pos ((limbCmp_eq_iff s.u oneLimbs).mpr hu)]
    refine ⟨s.x1, rfl, hok.x1, ?_⟩
    rw [hok.rel1, hu, Nat.cast_one]
  · rw [if_neg (mt (limbCmp_eq_iff s.u oneLimbs).mp hu)]
    refine ⟨s.x2, rfl, hok.x2, ?_⟩
    rw [hok.rel2, hdone.resolve_left hu, Nat.cast_one]

end NamespaceIndexer.Curve
