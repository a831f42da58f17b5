import Mathlib.FieldTheory.Finite.Basic
import NamespaceIndexer.Curve.Limbs

/-!
# Field arithmetic of `secp256k1.c`

The operations on limbs, and what each computes modulo the field size.
-/

namespace NamespaceIndexer.Curve

open Fold Lib

instance : Fact fieldP.Prime := ⟨fieldP_prime⟩

/-- `fe`: four limbs, below the field size once reduced. -/
abbrev Fe := Limbs4

/-- `FE_P`. -/
def feP : Fe :=
  ⟨[0xFFFFFFFEFFFFFC2F, 0xFFFFFFFFFFFFFFFF, 0xFFFFFFFFFFFFFFFF, 0xFFFFFFFFFFFFFFFF], rfl⟩

/-- `FE_C`: `2^256` modulo the field size. -/
def feC : UInt64 := 0x1000003D1

/-- `fe_is_zero`. -/
def feIsZero (a : Fe) : Bool := a.val.all fun w => w == 0

/-- `fe_eq`. -/
def feEq (a b : Fe) : Bool := limbCmp a b == .eq

/-- `fe_is_odd`. -/
def feIsOdd (a : Fe) : Bool := (a.val.headD 0).toNat % 2 == 1

/-- `fe_cond_sub_p`. The loop runs at most once: a value is below `2^256`, and that is below twice
the field size. -/
def feCondSubP (a : Fe) : Fe := if limbCmp a feP = .lt then a else (limbSub a feP).1

/-- The limbs of a double word. -/
def doubleWord (c : ℕ) : Limbs4 := ⟨[UInt64.ofNat c, UInt64.ofNat (c / 2 ^ 64), 0, 0], rfl⟩

/-- `fe_add`. -/
def feAdd (a b : Fe) : Fe :=
  let r := limbAdd a b
  feCondSubP (if r.2 ≠ 0 then (limbAdd r.1 (doubleWord (feC.toNat * r.2))).1 else r.1)

/-- `fe_sub`. -/
def feSub (a b : Fe) : Fe :=
  let r := limbSub a b
  if r.2 ≠ 0 then (limbAdd r.1 feP).1 else r.1

/-- The loop `while (low[4])` of `fe_reduce`: the fifth limb is folded back. -/
def foldHigh : ℕ → Limbs4 → ℕ → Limbs4
  | 0, low, _ => low
  | fuel + 1, low, high =>
    if high = 0 then low
    else
      let r := limbAdd low (doubleWord (high * feC.toNat))
      foldHigh fuel r.1 r.2

theorem mulAddHigh_length {t : List UInt64} (h : t.length = 8) :
    (Limbs.mulAdd feC (t.drop 4) (t.take 4) 0).1.length = 4 := by
  rw [Limbs.mulAdd_length _ (by rw [List.length_drop, List.length_take, h]; rfl), List.length_drop, h]

/-- `fe_reduce`. After two turns of the loop there is nothing left to fold. -/
def feReduce (t : List UInt64) (h : t.length = 8) : Fe :=
  let r := Limbs.mulAdd feC (t.drop 4) (t.take 4) 0
  feCondSubP (foldHigh 2 ⟨r.1, mulAddHigh_length h⟩ r.2)

/-- `fe_mul`. -/
def feMul (a b : Fe) : Fe := feReduce (limbMul a b) (limbMul_val a b).1

/-- `fe_sqr`. -/
def feSqr (a : Fe) : Fe := feMul a a

/-- `fe_set_u64`. -/
def feSetU64 (x : UInt64) : Fe := ⟨[x, 0, 0, 0], rfl⟩

/-- The bits of big-endian bytes, the top bit first. -/
def bitsBe (b : Bytes) : List Bool := b.flatMap fun x => Ladder.topBits 8 x.val

/-- `fe_pow`. -/
def fePow (a : Fe) (e : Fixed 32) : Fe :=
  (bitsBe e.val).foldl (Ladder.step feSqr fun r => feMul r a) (feSetU64 1)

/-- `P_MINUS_2`. -/
def pMinus2 : Fixed 32 :=
  ⟨[0xFF, 0xFF, 0xFF, 0xFF, 0xFF, 0xFF, 0xFF, 0xFF, 0xFF, 0xFF, 0xFF, 0xFF, 0xFF, 0xFF, 0xFF, 0xFF,
    0xFF, 0xFF, 0xFF, 0xFF, 0xFF, 0xFF, 0xFF, 0xFF, 0xFF, 0xFF, 0xFF, 0xFE, 0xFF, 0xFF, 0xFC, 0x2D],
    rfl⟩

/-- `fe_inv`. -/
def feInv (a : Fe) : Fe := fePow a pMinus2

/-- `P_PLUS_1_DIV4`. -/
def pPlus1Div4 : Fixed 32 :=
  ⟨[0x3F, 0xFF, 0xFF, 0xFF, 0xFF, 0xFF, 0xFF, 0xFF, 0xFF, 0xFF, 0xFF, 0xFF, 0xFF, 0xFF, 0xFF, 0xFF,
    0xFF, 0xFF, 0xFF, 0xFF, 0xFF, 0xFF, 0xFF, 0xFF, 0xFF, 0xFF, 0xFF, 0xFF, 0xBF, 0xFF, 0xFF, 0x0C],
    rfl⟩

/-- `fe_sqrt`. -/
def feSqrt (a : Fe) : Fe := fePow a pPlus1Div4

/-! ### Values -/

/-- A reduced element. -/
def Reduced (a : Fe) : Prop := limbVal a < fieldP

/-- The element of the field that limbs stand for. -/
def toF (a : Fe) : ZMod fieldP := (limbVal a : ZMod fieldP)

theorem limbVal_feP : limbVal feP = fieldP := by decide

theorem toF_inj {a b : Fe} (ha : Reduced a) (hb : Reduced b) (h : toF a = toF b) : a = b := by
  unfold toF at h
  rw [ZMod.natCast_eq_natCast_iff, Nat.ModEq, Nat.mod_eq_of_lt ha, Nat.mod_eq_of_lt hb] at h
  exact limbVal_inj h

theorem feEq_iff {a b : Fe} (ha : Reduced a) (hb : Reduced b) : feEq a b = true ↔ toF a = toF b := by
  unfold feEq
  rw [beq_iff_eq, limbCmp_eq, compare_eq_iff_eq]
  constructor
  · intro h
    rw [limbVal_inj h]
  · intro h
    rw [toF_inj ha hb h]

theorem feIsZero_iff {a : Fe} (ha : Reduced a) : feIsZero a = true ↔ toF a = 0 := by
  have hzero : feIsZero a = true ↔ a = zeroLimbs := by
    obtain ⟨v, hv⟩ := a
    match v, hv with
    | [w, x, y, z], _ => simp [feIsZero, zeroLimbs]
  rw [hzero]
  constructor
  · rintro rfl
    rfl
  · intro h
    exact toF_inj ha (by unfold Reduced; decide) h

theorem feIsOdd_eq (a : Fe) : feIsOdd a = (limbVal a % 2 == 1) := by
  obtain ⟨v, hv⟩ := a
  match v, hv with
  | w :: v, _ =>
    unfold feIsOdd limbVal
    rw [List.headD_cons, Limbs.val_cons]
    congr 1
    omega

theorem limbVal_feCondSubP (a : Fe) : limbVal (feCondSubP a) = limbVal a % fieldP := by
  have hlt := limbVal_lt a
  obtain ⟨hborrow, hsub⟩ := limbSub_val a feP
  have hres := limbVal_lt (limbSub a feP).1
  unfold feCondSubP
  rw [limbCmp_eq, limbVal_feP] at *
  by_cases h : limbVal a < fieldP
  · rw [if_pos (compare_lt_iff_lt.mpr h), Nat.mod_eq_of_lt h]
  · rw [if_neg (fun hc => h (compare_lt_iff_lt.mp hc))]
    unfold fieldP at *
    omega

theorem reduced_feCondSubP (a : Fe) : Reduced (feCondSubP a) := by
  unfold Reduced
  rw [limbVal_feCondSubP]
  exact Nat.mod_lt _ (Nat.Prime.pos fieldP_prime)

theorem toF_feCondSubP (a : Fe) : toF (feCondSubP a) = toF a := by
  unfold toF
  rw [limbVal_feCondSubP, ZMod.natCast_mod]

theorem limbVal_doubleWord {c : ℕ} (h : c < 2 ^ 128) : limbVal (doubleWord c) = c := by
  simp only [limbVal, doubleWord, Limbs.val_cons, Limbs.val_nil, Limbs.toNat_ofNat]
  norm_num
  omega

theorem toF_of_eq {a : Fe} {n : ℕ} {x : ZMod fieldP} (h : limbVal a = n) (hx : (n : ZMod fieldP) = x) :
    toF a = x := by
  unfold toF
  rw [h, hx]

/-- `2^256` is `FE_C` in the field. -/
theorem two_pow_256 : ((2 ^ 256 : ℕ) : ZMod fieldP) = (feC.toNat : ZMod fieldP) := by
  rw [ZMod.natCast_eq_natCast_iff]
  decide

@[simp] theorem reduced_feAdd (a b : Fe) : Reduced (feAdd a b) := reduced_feCondSubP _

@[simp] theorem toF_feAdd {a b : Fe} (ha : Reduced a) (hb : Reduced b) :
    toF (feAdd a b) = toF a + toF b := by
  have hadd := limbAdd_val a b
  have hlt := limbVal_lt (limbAdd a b).1
  unfold feAdd
  rw [toF_feCondSubP]
  generalize limbAdd a b = r at hadd hlt
  unfold Reduced at ha hb
  by_cases hc : r.2 = 0
  · rw [if_neg (by simpa using hc)]
    refine toF_of_eq (n := limbVal a + limbVal b) (by rw [← hadd, hc]; rfl) ?_
    rw [Nat.cast_add]
    rfl
  · -- one carry, and what it folds to does not carry again
    have hone : r.2 = 1 := by
      unfold fieldP at ha hb
      omega
    rw [if_pos hc, hone, mul_one]
    have hfold := limbAdd_val r.1 (doubleWord feC.toNat)
    have hfoldlt := limbVal_lt (limbAdd r.1 (doubleWord feC.toNat)).1
    rw [limbVal_doubleWord (by decide)] at hfold
    rw [hone] at hadd
    have hval : limbVal (limbAdd r.1 (doubleWord feC.toNat)).1 = limbVal r.1 + feC.toNat := by
      have hC : feC.toNat = 0x1000003D1 := rfl
      unfold fieldP at ha hb
      omega
    refine toF_of_eq hval ?_
    rw [Nat.cast_add, ← two_pow_256, ← Nat.cast_add]
    have hsum : limbVal r.1 + 2 ^ 256 = limbVal a + limbVal b := by omega
    rw [hsum, Nat.cast_add]
    rfl

/-- `fe_sub`, also from the field size itself. -/
theorem limbVal_feSub {a b : Fe} (ha : limbVal a ≤ fieldP) (hb : limbVal b ≤ fieldP) :
    limbVal (feSub a b) = if limbVal b ≤ limbVal a then limbVal a - limbVal b
      else limbVal a + fieldP - limbVal b := by
  obtain ⟨hborrow, hsub⟩ := limbSub_val a b
  have hlt := limbVal_lt (limbSub a b).1
  unfold feSub
  dsimp only
  generalize limbSub a b = r at *
  by_cases h : limbVal b ≤ limbVal a
  · have hzero : r.2 = 0 := by omega
    rw [if_pos h, if_neg (by simpa using hzero)]
    rw [hzero] at hsub
    omega
  · have hone : r.2 = 1 := by omega
    have hadd := limbAdd_val r.1 feP
    have haddlt := limbVal_lt (limbAdd r.1 feP).1
    rw [if_neg h, if_pos (by omega)]
    rw [hone] at hsub
    rw [limbVal_feP] at hadd
    unfold fieldP at *
    omega

theorem toF_sub_aux {a b : Fe} (ha : limbVal a ≤ fieldP) (hb : limbVal b ≤ fieldP) :
    toF (feSub a b) = toF a - toF b := by
  refine toF_of_eq (limbVal_feSub ha hb) ?_
  split
  · rename_i h
    rw [Nat.cast_sub h]
    rfl
  · rw [Nat.cast_sub (by omega), Nat.cast_add, ZMod.natCast_self, add_zero]
    rfl

@[simp] theorem toF_feSub {a b : Fe} (ha : Reduced a) (hb : Reduced b) :
    toF (feSub a b) = toF a - toF b := toF_sub_aux (le_of_lt ha) (le_of_lt hb)

@[simp] theorem reduced_feSub {a b : Fe} (ha : Reduced a) (hb : Reduced b) :
    Reduced (feSub a b) := by
  unfold Reduced at *
  rw [limbVal_feSub ha.le hb.le]
  split <;> omega

/-- A fold keeps the element; two folds leave no fifth limb. -/
theorem toF_foldHigh (low : Limbs4) {high : ℕ} (h : high < 2 ^ 64) :
    toF (foldHigh 2 low high) = toF low + (2 ^ 256 * high : ℕ) := by
  have hstep : ∀ (l : Limbs4) {k : ℕ}, k < 2 ^ 64 →
      limbVal (limbAdd l (doubleWord (k * feC.toNat))).1
        + 2 ^ 256 * (limbAdd l (doubleWord (k * feC.toNat))).2 = limbVal l + k * feC.toNat := by
    intro l k hk
    have hC : feC.toNat = 0x1000003D1 := rfl
    rw [limbAdd_val, limbVal_doubleWord (by rw [hC]; omega)]
  have hfold : ∀ (l : Limbs4) {k : ℕ}, k < 2 ^ 64 →
      toF (limbAdd l (doubleWord (k * feC.toNat))).1
        + (2 ^ 256 * (limbAdd l (doubleWord (k * feC.toNat))).2 : ℕ)
      = toF l + (2 ^ 256 * k : ℕ) := by
    intro l k hk
    unfold toF
    rw [← Nat.cast_add, hstep l hk, Nat.cast_add, Nat.cast_mul, Nat.cast_mul, two_pow_256, mul_comm]
  unfold foldHigh
  split
  · rename_i hz
    rw [hz, Nat.mul_zero, Nat.cast_zero, add_zero]
  · dsimp only
    rw [← hfold low h]
    have hval := hstep low h
    have hlow := limbVal_lt low
    have hlt := limbVal_lt (limbAdd low (doubleWord (high * feC.toNat))).1
    generalize limbAdd low (doubleWord (high * feC.toNat)) = r at hval hlt
    have hC : feC.toNat = 0x1000003D1 := rfl
    rw [hC] at hval
    unfold foldHigh
    split
    · rename_i hz
      rw [hz, Nat.mul_zero, Nat.cast_zero, add_zero]
    · have hone : r.2 = 1 := by omega
      have hval' := hstep r.1 (k := r.2) (by omega)
      rw [← hfold r.1 (k := r.2) (by omega)]
      generalize limbAdd r.1 (doubleWord (r.2 * feC.toNat)) = r' at hval'
      have hz : r'.2 = 0 := by
        rw [hone, hC] at hval'
        omega
      rw [hz, Nat.mul_zero, Nat.cast_zero, add_zero]
      rfl

@[simp] theorem reduced_feMul (a b : Fe) : Reduced (feMul a b) := reduced_feCondSubP _

/-- `fe_reduce` keeps the residue of its eight limbs. -/
theorem toF_feReduce (t : List UInt64) (h : t.length = 8) :
    toF (feReduce t h) = (Limbs.val t : ZMod fieldP) := by
  have hrows : (List.drop 4 t).length = (List.take 4 t).length := by
    rw [List.length_drop, List.length_take, h]
    rfl
  have hrow := Limbs.mulAdd_val feC hrows 0
  have hcarry := Limbs.mulAdd_carry_lt feC hrows (c := 0) (by norm_num)
  have hsplit : Limbs.val t = Limbs.val (t.take 4) + 2 ^ 256 * Limbs.val (t.drop 4) := by
    conv_lhs => rw [← List.take_append_drop 4 t, Limbs.val_append]
    rw [List.length_take, h]
    rfl
  rw [List.length_drop, h, Nat.add_zero] at hrow
  unfold feReduce
  dsimp only
  rw [toF_feCondSubP, toF_foldHigh _ hcarry]
  have hlow : Limbs.val (Limbs.mulAdd feC (t.drop 4) (t.take 4) 0).1
        + 2 ^ 256 * (Limbs.mulAdd feC (t.drop 4) (t.take 4) 0).2
      = feC.toNat * Limbs.val (t.drop 4) + Limbs.val (t.take 4) := hrow
  unfold toF limbVal
  dsimp only
  rw [← Nat.cast_add, hlow, Nat.cast_add, Nat.cast_mul feC.toNat, ← two_pow_256, ← Nat.cast_mul,
    ← Nat.cast_add, add_comm, ← hsplit]

@[simp] theorem toF_feMul (a b : Fe) : toF (feMul a b) = toF a * toF b := by
  obtain ⟨hlen, hval⟩ := limbMul_val a b
  unfold feMul
  rw [toF_feReduce, hval, Nat.cast_mul]
  rfl

@[simp] theorem reduced_feSqr (a : Fe) : Reduced (feSqr a) := reduced_feMul a a

@[simp] theorem toF_feSqr (a : Fe) : toF (feSqr a) = toF a * toF a := toF_feMul a a

@[simp] theorem toF_feSetU64 (x : UInt64) : toF (feSetU64 x) = (x.toNat : ZMod fieldP) := by
  refine toF_of_eq ?_ rfl
  simp [limbVal, feSetU64]

@[simp] theorem reduced_feSetU64 (x : UInt64) : Reduced (feSetU64 x) := by
  have hx := x.toNat_lt
  have hval : limbVal (feSetU64 x) = x.toNat := by simp [limbVal, feSetU64]
  unfold Reduced fieldP
  rw [hval]
  omega

/-! ### Computing with reduced elements -/

/-- A reduced element and what it stands for. -/
def IsF (a : Fe) (x : ZMod fieldP) : Prop := Reduced a ∧ toF a = x

theorem Reduced.isF {a : Fe} (h : Reduced a) : IsF a (toF a) := ⟨h, rfl⟩

theorem IsF.unique {a b : Fe} {x : ZMod fieldP} (ha : IsF a x) (hb : IsF b x) : a = b :=
  toF_inj ha.1 hb.1 (ha.2.trans hb.2.symm)

theorem IsF.limbVal_eq {X : Fe} {x : ZMod fieldP} (h : IsF X x) : limbVal X = x.val := by
  rw [← h.2, toF, ZMod.val_natCast, Nat.mod_eq_of_lt h.1]

theorem IsF.add {a b : Fe} {x y : ZMod fieldP} (ha : IsF a x) (hb : IsF b y) :
    IsF (feAdd a b) (x + y) := by
  refine ⟨reduced_feAdd a b, ?_⟩
  rw [toF_feAdd ha.1 hb.1, ha.2, hb.2]

theorem IsF.sub {a b : Fe} {x y : ZMod fieldP} (ha : IsF a x) (hb : IsF b y) :
    IsF (feSub a b) (x - y) := by
  refine ⟨reduced_feSub ha.1 hb.1, ?_⟩
  rw [toF_feSub ha.1 hb.1, ha.2, hb.2]

theorem IsF.mul {a b : Fe} {x y : ZMod fieldP} (ha : IsF a x) (hb : IsF b y) :
    IsF (feMul a b) (x * y) := by
  refine ⟨reduced_feMul a b, ?_⟩
  rw [toF_feMul, ha.2, hb.2]

theorem IsF.sqr {a : Fe} {x : ZMod fieldP} (ha : IsF a x) : IsF (feSqr a) (x * x) := ha.mul ha

theorem isF_setU64 (x : UInt64) : IsF (feSetU64 x) (x.toNat : ZMod fieldP) :=
  ⟨reduced_feSetU64 x, toF_feSetU64 x⟩

theorem IsF.eq_iff {a b : Fe} {x y : ZMod fieldP} (ha : IsF a x) (hb : IsF b y) :
    feEq a b = true ↔ x = y := by
  rw [feEq_iff ha.1 hb.1, ha.2, hb.2]

/-! ### Powers -/

theorem bitsVal_bitsBe (b : Bytes) : (bitsBe b).length = 8 * b.length ∧
    Ladder.bitsVal (bitsBe b) = beVal b := by
  induction b with
  | nil => exact ⟨rfl, rfl⟩
  | cons x b ih =>
    obtain ⟨ihlen, ihval⟩ := ih
    have hx := x.isLt
    have hcons : bitsBe (x :: b) = Ladder.topBits 8 x.val ++ bitsBe b := rfl
    constructor
    · rw [hcons, List.length_append, Ladder.topBits_length, ihlen, List.length_cons]
      omega
    · have happend := beVal_append [x] b
      have hone : beVal [x] = x.val := by simp [beVal, leVal]
      rw [List.singleton_append, hone] at happend
      rw [hcons, Ladder.bitsVal_append, Ladder.bitsVal_topBits, ihlen, ihval, happend, pow_mul,
        Nat.mod_eq_of_lt (by norm_num)]
      norm_num

theorem IsF.pow {a : Fe} {x : ZMod fieldP} (ha : IsF a x) (e : Fixed 32) :
    IsF (fePow a e) (x ^ beVal e.val) := by
  have hone : IsF (feSetU64 1) 1 := by simpa using isF_setU64 1
  rw [← (bitsVal_bitsBe e.val).2]
  exact Ladder.foldl_step_one (R := IsF) (fun _ _ h => h.sqr) (fun _ _ h => h.mul ha) _ hone

/-- Fermat's inverse, and zero for zero. -/
theorem IsF.inv {a : Fe} {x : ZMod fieldP} (ha : IsF a x) : IsF (feInv a) x⁻¹ := by
  have hexp : beVal pMinus2.val = fieldP - 2 := by decide
  have hpow : x ^ (fieldP - 2) = x⁻¹ := by
    by_cases hz : x = 0
    · rw [hz, inv_zero, zero_pow (by decide)]
    · refine eq_inv_of_mul_eq_one_left ?_
      rw [← pow_succ]
      exact ZMod.pow_card_sub_one_eq_one hz
  have h := ha.pow pMinus2
  rwa [hexp, hpow] at h

/-- `fe_sqrt` finds a root of a square: the field size is 3 modulo 4. -/
theorem IsF.sqrt {a : Fe} {x : ZMod fieldP} (ha : IsF a x) :
    ∃ r, IsF (feSqrt a) r ∧ (r * r = x ↔ IsSquare x) := by
  refine ⟨_, ha.pow pPlus1Div4, fun h => ⟨_, h.symm⟩, ?_⟩
  rintro ⟨y, rfl⟩
  have hexp : 2 * (beVal pPlus1Div4.val + beVal pPlus1Div4.val) = fieldP - 1 + 2 := by decide
  rw [← pow_add, ← pow_two, ← pow_mul, hexp, pow_add]
  by_cases hz : y = 0
  · rw [hz, zero_pow two_ne_zero, mul_zero]
  · rw [ZMod.pow_card_sub_one_eq_one hz, one_mul]

end NamespaceIndexer.Curve
