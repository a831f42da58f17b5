import NamespaceIndexer.Curve.Primes
import NamespaceIndexer.Fold.Encode
import NamespaceIndexer.Lib.Limbs

/-!
# 256-bit numbers of `secp256k1.c`

Four 64-bit limbs, little-endian, and their 32-byte big-endian form.
-/

namespace NamespaceIndexer.Curve

open Fold Lib

/-- `uint64_t v[4]`. -/
abbrev Limbs4 := {v : List UInt64 // v.length = 4}

/-- The number that four limbs stand for. -/
def limbVal (a : Limbs4) : ℕ := Limbs.val a.val

/-- The number that big-endian bytes stand for. -/
def beVal (b : Bytes) : ℕ := leVal b.reverse

def zeroLimbs : Limbs4 := ⟨[0, 0, 0, 0], rfl⟩

/-- `be32_to_limbs`. -/
def be32ToLimbs (b : Fixed 32) : Limbs4 :=
  ⟨[24, 16, 8, 0].map fun i => UInt64.ofNat (beVal ((b.val.drop i).take 8)), rfl⟩

/-- `limbs_to_be32`. -/
def limbsToBe32 (a : Limbs4) : Fixed 32 :=
  ⟨a.val.reverse.flatMap fun w => (leBytes 8 w.toNat).reverse, by
    rw [List.length_flatMap, List.map_congr_left (g := fun _ => 8) (by simp), List.map_const',
      List.sum_replicate, List.length_reverse, a.property]
    rfl⟩

/-- `limb_cmp`. -/
def limbCmp (a b : Limbs4) : Ordering := Limbs.cmp a.val b.val

/-- The sum of the limbs, with the carry. -/
def limbAdd (a b : Limbs4) : Limbs4 × ℕ :=
  (⟨(Limbs.add a.val b.val 0).1, by
    rw [Limbs.add_length (a.property.trans b.property.symm), a.property]⟩,
    (Limbs.add a.val b.val 0).2)

/-- The difference of the limbs, with the borrow. -/
def limbSub (a b : Limbs4) : Limbs4 × ℕ :=
  (⟨(Limbs.sub a.val b.val 0).1, by
    rw [Limbs.sub_length (a.property.trans b.property.symm), a.property]⟩,
    (Limbs.sub a.val b.val 0).2)

/-- The eight limbs of the product. -/
def limbMul (a b : Limbs4) : List UInt64 := Limbs.mul a.val b.val zeroLimbs.val

theorem limbVal_lt (a : Limbs4) : limbVal a < 2 ^ 256 := by
  have h := Limbs.val_lt a.val
  rwa [a.property] at h

theorem limbVal_inj {a b : Limbs4} (h : limbVal a = limbVal b) : a = b :=
  Subtype.ext (Limbs.val_inj (a.property.trans b.property.symm) h)

theorem limbCmp_eq (a b : Limbs4) : limbCmp a b = compare (limbVal a) (limbVal b) :=
  Limbs.cmp_eq (a.property.trans b.property.symm)

theorem limbAdd_val (a b : Limbs4) :
    limbVal (limbAdd a b).1 + 2 ^ 256 * (limbAdd a b).2 = limbVal a + limbVal b := by
  have h := Limbs.add_val (a.property.trans b.property.symm) 0
  rwa [a.property, add_zero] at h

theorem limbSub_val (a b : Limbs4) : (limbSub a b).2 ≤ 1 ∧
    limbVal (limbSub a b).1 + limbVal b = limbVal a + 2 ^ 256 * (limbSub a b).2 := by
  have h := Limbs.sub_val (a.property.trans b.property.symm) (Nat.zero_le 1)
  rwa [a.property, add_zero] at h

theorem limbMul_val (a b : Limbs4) :
    (limbMul a b).length = 8 ∧ Limbs.val (limbMul a b) = limbVal a * limbVal b := by
  have h := Limbs.mul_val a.val b.val (b.property.trans zeroLimbs.property.symm)
  rwa [a.property, b.property, show Limbs.val zeroLimbs.val = 0 from rfl, add_zero] at h

/-! ### Bytes -/

theorem leVal_append (b c : Bytes) : leVal (b ++ c) = leVal b + 256 ^ b.length * leVal c := by
  induction b with
  | nil => simp [leVal]
  | cons x b ih =>
    rw [List.cons_append, leVal, ih, leVal, List.length_cons, pow_succ']
    ring

theorem beVal_append (b c : Bytes) : beVal (b ++ c) = 256 ^ c.length * beVal b + beVal c := by
  unfold beVal
  rw [List.reverse_append, leVal_append, List.length_reverse, add_comm]

theorem beVal_cons (c : Byte) (l : Bytes) : beVal (c :: l) = 256 ^ l.length * c.val + beVal l := by
  have happ := beVal_append [c] l
  have hone : beVal [c] = c.val := by simp [beVal, leVal]
  rwa [List.singleton_append, hone] at happ

theorem beVal_lt (b : Bytes) : beVal b < 256 ^ b.length := by
  have h := leVal_lt b.reverse
  rwa [List.length_reverse] at h

theorem beVal_inj {b c : Bytes} (hlen : b.length = c.length) (h : beVal b = beVal c) : b = c := by
  have hb := leBytes_leVal b.reverse
  have hc := leBytes_leVal c.reverse
  unfold beVal at h
  rw [List.length_reverse] at hb hc
  rw [← hlen, ← h, hb] at hc
  exact List.reverse_inj.mp hc

theorem beVal_fixed_inj {b c : Fixed 32} (h : beVal b.val = beVal c.val) : b = c :=
  Subtype.ext (beVal_inj (b.property.trans c.property.symm) h)

theorem limbVal_be32ToLimbs (b : Fixed 32) : limbVal (be32ToLimbs b) = beVal b.val := by
  obtain ⟨b, hb⟩ := b
  have hword : ∀ i, (UInt64.ofNat (beVal ((b.drop i).take 8))).toNat
      = beVal ((b.drop i).take 8) := by
    intro i
    have hlt := beVal_lt ((b.drop i).take 8)
    have hle : 256 ^ ((b.drop i).take 8).length ≤ 256 ^ 8 :=
      Nat.pow_le_pow_right (by norm_num) (List.length_take_le _ _)
    rw [Limbs.toNat_ofNat, Nat.mod_eq_of_lt (by omega)]
  have hsplit : ∀ i, i + 8 ≤ 32 →
      beVal (b.drop i) = 256 ^ (24 - i) * beVal ((b.drop i).take 8) + beVal (b.drop (i + 8)) := by
    intro i hi
    have h := beVal_append ((b.drop i).take 8) ((b.drop i).drop 8)
    rw [List.take_append_drop, List.drop_drop, List.length_drop, hb] at h
    rw [h]
    congr 3
    omega
  have h0 := hsplit 0 (by norm_num)
  have h8 := hsplit 8 (by norm_num)
  have h16 := hsplit 16 (by norm_num)
  have h24 := hsplit 24 (by norm_num)
  have hnil : beVal (b.drop (24 + 8)) = 0 := by
    rw [List.drop_of_length_le (by omega)]
    rfl
  have hfirst := hword 0
  rw [List.drop_zero] at h0 hfirst
  simp only [limbVal, be32ToLimbs, List.map_cons, List.map_nil, Limbs.val_cons, Limbs.val_nil,
    hword, List.drop_zero, hfirst]
  norm_num at h0 h8 h16 h24 hnil ⊢
  omega

theorem beVal_limbsToBe32 (a : Limbs4) : beVal (limbsToBe32 a).val = limbVal a := by
  have hbytes : ∀ l : List UInt64,
      beVal (l.reverse.flatMap fun w => (leBytes 8 w.toNat).reverse) = Limbs.val l := by
    intro l
    induction l with
    | nil => rfl
    | cons w l ih =>
      have hw := w.toNat_lt
      rw [List.reverse_cons, List.flatMap_append, beVal_append, ih, List.flatMap_singleton, beVal,
        List.reverse_reverse, leVal_leBytes, List.length_reverse, length_leBytes, Limbs.val_cons,
        Nat.mod_eq_of_lt (by omega)]
      norm_num
      omega
  exact hbytes a.val

theorem be32ToLimbs_limbsToBe32 (a : Limbs4) : be32ToLimbs (limbsToBe32 a) = a :=
  limbVal_inj (by rw [limbVal_be32ToLimbs, beVal_limbsToBe32])

theorem limbsToBe32_be32ToLimbs (b : Fixed 32) : limbsToBe32 (be32ToLimbs b) = b :=
  beVal_fixed_inj (by rw [beVal_limbsToBe32, limbVal_be32ToLimbs])

end NamespaceIndexer.Curve
