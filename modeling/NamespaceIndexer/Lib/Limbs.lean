import Mathlib.Tactic

/-!
# Numbers as little-endian 64-bit limbs

The loops of schoolbook arithmetic with a carry in a double word. Each is one recursion over the
limbs, with one lemma that says what it computes.
-/

namespace NamespaceIndexer.Lib.Limbs

abbrev Word := UInt64

/-- The number that limbs stand for. -/
def val : List Word → ℕ
  | [] => 0
  | a :: as => a.toNat + 2 ^ 64 * val as

@[simp] theorem val_nil : val [] = 0 := rfl

@[simp] theorem val_cons (a : Word) (as : List Word) :
    val (a :: as) = a.toNat + 2 ^ 64 * val as := rfl

theorem val_lt (as : List Word) : val as < 2 ^ (64 * as.length) := by
  induction as with
  | nil => simp
  | cons a as ih =>
    have ha := a.toNat_lt
    rw [val_cons, List.length_cons, Nat.mul_succ, pow_add]
    omega

theorem val_inj {as bs : List Word} (hlen : as.length = bs.length) (h : val as = val bs) :
    as = bs := by
  induction as generalizing bs with
  | nil => exact (List.length_eq_zero_iff.mp hlen.symm).symm
  | cons a as ih =>
    cases bs with
    | nil => simp at hlen
    | cons b bs =>
      have ha := a.toNat_lt
      have hb := b.toNat_lt
      rw [val_cons, val_cons] at h
      have hhead : a.toNat = b.toNat := by omega
      have htail : val as = val bs := by omega
      rw [UInt64.toNat_inj.mp hhead, ih (by simpa using hlen) htail]

@[simp] theorem val_append (as bs : List Word) :
    val (as ++ bs) = val as + 2 ^ (64 * as.length) * val bs := by
  induction as with
  | nil => simp
  | cons a as ih =>
    rw [List.cons_append, val_cons, ih, val_cons, List.length_cons, Nat.mul_succ, pow_add]
    ring

theorem toNat_ofNat (x : ℕ) : (UInt64.ofNat x).toNat = x % 2 ^ 64 := UInt64.toNat_ofNat'

/-! ### Comparison -/

/-- The first difference from the top decides. -/
def cmp : List Word → List Word → Ordering
  | a :: as, b :: bs => (cmp as bs).then (compare a.toNat b.toNat)
  | _, _ => .eq

theorem cmp_eq {as bs : List Word} (hlen : as.length = bs.length) :
    cmp as bs = compare (val as) (val bs) := by
  induction as generalizing bs with
  | nil =>
    rw [List.length_eq_zero_iff.mp hlen.symm]
    rfl
  | cons a as ih =>
    cases bs with
    | nil => simp at hlen
    | cons b bs =>
      have ha := a.toNat_lt
      have hb := b.toNat_lt
      unfold cmp
      rw [ih (by simpa using hlen), val_cons, val_cons]
      rcases lt_trichotomy (val as) (val bs) with h | h | h
      · rw [compare_lt_iff_lt.mpr h]
        exact (compare_lt_iff_lt.mpr (by omega)).symm
      · rw [h, compare_eq_iff_eq.mpr rfl, Ordering.then]
        rcases lt_trichotomy a.toNat b.toNat with h' | h' | h'
        · rw [compare_lt_iff_lt.mpr h', compare_lt_iff_lt.mpr (by omega)]
        · rw [h', compare_eq_iff_eq.mpr rfl, compare_eq_iff_eq.mpr rfl]
        · rw [compare_gt_iff_gt.mpr h', compare_gt_iff_gt.mpr (by omega)]
      · rw [compare_gt_iff_gt.mpr h]
        exact (compare_gt_iff_gt.mpr (by omega)).symm

/-! ### Addition and subtraction -/

/-- `as + bs + c`: the low limbs and the carry out. -/
def add : List Word → List Word → ℕ → List Word × ℕ
  | a :: as, b :: bs, c =>
    let x := a.toNat + b.toNat + c
    let r := add as bs (x / 2 ^ 64)
    (UInt64.ofNat x :: r.1, r.2)
  | _, _, c => ([], c)

theorem add_length {as bs : List Word} (hlen : as.length = bs.length) (c : ℕ) :
    (add as bs c).1.length = as.length := by
  induction as generalizing bs c with
  | nil => rfl
  | cons a as ih =>
    cases bs with
    | nil => simp at hlen
    | cons b bs =>
      have htail := ih (show as.length = bs.length by simpa using hlen) ((a.toNat + b.toNat + c) / 2 ^ 64)
      simpa [add] using htail

theorem add_val {as bs : List Word} (hlen : as.length = bs.length) (c : ℕ) :
    val (add as bs c).1 + 2 ^ (64 * as.length) * (add as bs c).2 = val as + val bs + c := by
  induction as generalizing bs c with
  | nil =>
    rw [List.length_eq_zero_iff.mp hlen.symm]
    simp [add]
  | cons a as ih =>
    cases bs with
    | nil => simp at hlen
    | cons b bs =>
      have htail := ih (show as.length = bs.length by simpa using hlen) ((a.toNat + b.toNat + c) / 2 ^ 64)
      have hsplit := Nat.div_add_mod (a.toNat + b.toNat + c) (2 ^ 64)
      simp only [add, val_cons, toNat_ofNat, List.length_cons, Nat.mul_succ, pow_add]
      generalize add as bs ((a.toNat + b.toNat + c) / 2 ^ 64) = r at htail
      have hmul : 2 ^ (64 * as.length) * 2 ^ 64 * r.2
          = 2 ^ 64 * (2 ^ (64 * as.length) * r.2) := by ring
      rw [hmul]
      omega

/-- `as - bs - w` on wrapping double words: the low limbs and the borrow out. -/
def sub : List Word → List Word → ℕ → List Word × ℕ
  | a :: as, b :: bs, w =>
    let x := (2 ^ 128 + a.toNat - b.toNat - w) % 2 ^ 128
    let r := sub as bs (x / 2 ^ 64 % 2)
    (UInt64.ofNat x :: r.1, r.2)
  | _, _, w => ([], w)

theorem sub_length {as bs : List Word} (hlen : as.length = bs.length) (w : ℕ) :
    (sub as bs w).1.length = as.length := by
  induction as generalizing bs w with
  | nil => rfl
  | cons a as ih =>
    cases bs with
    | nil => simp at hlen
    | cons b bs =>
      have htail := ih (show as.length = bs.length by simpa using hlen)
        ((2 ^ 128 + a.toNat - b.toNat - w) % 2 ^ 128 / 2 ^ 64 % 2)
      simpa [sub] using htail

/-- One limb: the low word of the difference, and whether it was negative. -/
theorem sub_word (a b : Word) {w : ℕ} (hw : w ≤ 1) :
    let x := (2 ^ 128 + a.toNat - b.toNat - w) % 2 ^ 128
    x / 2 ^ 64 % 2 ≤ 1 ∧ x % 2 ^ 64 + b.toNat + w = a.toNat + 2 ^ 64 * (x / 2 ^ 64 % 2) := by
  intro x
  have ha := a.toNat_lt
  have hb := b.toNat_lt
  by_cases h : b.toNat + w ≤ a.toNat
  · have hx : x = a.toNat - b.toNat - w := by
      change (2 ^ 128 + a.toNat - b.toNat - w) % 2 ^ 128 = _
      omega
    omega
  · have hx : x = 2 ^ 128 + a.toNat - b.toNat - w := by
      change (2 ^ 128 + a.toNat - b.toNat - w) % 2 ^ 128 = _
      omega
    omega

theorem sub_val {as bs : List Word} (hlen : as.length = bs.length) {w : ℕ} (hw : w ≤ 1) :
    (sub as bs w).2 ≤ 1 ∧
      val (sub as bs w).1 + val bs + w = val as + 2 ^ (64 * as.length) * (sub as bs w).2 := by
  induction as generalizing bs w with
  | nil =>
    rw [List.length_eq_zero_iff.mp hlen.symm]
    simp [sub, hw]
  | cons a as ih =>
    cases bs with
    | nil => simp at hlen
    | cons b bs =>
      obtain ⟨hborrow, hword⟩ := sub_word a b hw
      obtain ⟨hle, htail⟩ := ih (show as.length = bs.length by simpa using hlen) hborrow
      simp only [sub, val_cons, toNat_ofNat, List.length_cons, Nat.mul_succ, pow_add]
      generalize sub as bs ((2 ^ 128 + a.toNat - b.toNat - w) % 2 ^ 128 / 2 ^ 64 % 2) = r at *
      have hmul : 2 ^ (64 * as.length) * 2 ^ 64 * r.2
          = 2 ^ 64 * (2 ^ (64 * as.length) * r.2) := by ring
      rw [hmul]
      exact ⟨hle, by omega⟩

/-! ### Multiplication -/

/-- `a * bs + ts + c`: the low limbs and the carry out. -/
def mulAdd (a : Word) : List Word → List Word → ℕ → List Word × ℕ
  | b :: bs, t :: ts, c =>
    let x := a.toNat * b.toNat + t.toNat + c
    let r := mulAdd a bs ts (x / 2 ^ 64)
    (UInt64.ofNat x :: r.1, r.2)
  | _, _, c => ([], c)

theorem mulAdd_length (a : Word) {bs ts : List Word} (hlen : bs.length = ts.length) (c : ℕ) :
    (mulAdd a bs ts c).1.length = bs.length := by
  induction bs generalizing ts c with
  | nil => rfl
  | cons b bs ih =>
    cases ts with
    | nil => simp at hlen
    | cons t ts =>
      have htail := ih (show bs.length = ts.length by simpa using hlen)
        ((a.toNat * b.toNat + t.toNat + c) / 2 ^ 64)
      simpa [mulAdd] using htail

theorem mulAdd_val (a : Word) {bs ts : List Word} (hlen : bs.length = ts.length) (c : ℕ) :
    val (mulAdd a bs ts c).1 + 2 ^ (64 * bs.length) * (mulAdd a bs ts c).2
      = a.toNat * val bs + val ts + c := by
  induction bs generalizing ts c with
  | nil =>
    rw [List.length_eq_zero_iff.mp hlen.symm]
    simp [mulAdd]
  | cons b bs ih =>
    cases ts with
    | nil => simp at hlen
    | cons t ts =>
      have htail := ih (show bs.length = ts.length by simpa using hlen)
        ((a.toNat * b.toNat + t.toNat + c) / 2 ^ 64)
      have hsplit := Nat.div_add_mod (a.toNat * b.toNat + t.toNat + c) (2 ^ 64)
      simp only [mulAdd, val_cons, toNat_ofNat, List.length_cons, Nat.mul_succ, pow_add]
      generalize mulAdd a bs ts ((a.toNat * b.toNat + t.toNat + c) / 2 ^ 64) = r at htail
      have hmul : 2 ^ (64 * bs.length) * 2 ^ 64 * r.2
          = 2 ^ 64 * (2 ^ (64 * bs.length) * r.2) := by ring
      have hdist : a.toNat * (b.toNat + 2 ^ 64 * val bs)
          = a.toNat * b.toNat + 2 ^ 64 * (a.toNat * val bs) := by ring
      rw [hmul, hdist]
      omega

/-- The carry of a row is a word. -/
theorem mulAdd_carry_lt (a : Word) {bs ts : List Word} (hlen : bs.length = ts.length) {c : ℕ}
    (hc : c < 2 ^ 64) : (mulAdd a bs ts c).2 < 2 ^ 64 := by
  induction bs generalizing ts c with
  | nil =>
    rw [List.length_eq_zero_iff.mp hlen.symm]
    exact hc
  | cons b bs ih =>
    cases ts with
    | nil => simp at hlen
    | cons t ts =>
      have ha := a.toNat_lt
      have hb := b.toNat_lt
      have ht := t.toNat_lt
      have hmul : a.toNat * b.toNat ≤ (2 ^ 64 - 1) * (2 ^ 64 - 1) :=
        Nat.mul_le_mul (by omega) (by omega)
      exact ih (by simpa using hlen) (by omega)

/-- `as * bs + ts`, row by row: a row fixes one limb and shifts the window of `bs.length` limbs. -/
def mul : List Word → List Word → List Word → List Word
  | [], _, ts => ts
  | a :: as, bs, ts =>
    let r := mulAdd a bs ts 0
    match r.1 ++ [UInt64.ofNat r.2] with
    | t :: ts => t :: mul as bs ts
    | [] => []

theorem mul_val (as bs : List Word) {ts : List Word} (hlen : bs.length = ts.length) :
    (mul as bs ts).length = as.length + bs.length ∧
      val (mul as bs ts) = val as * val bs + val ts := by
  induction as generalizing ts with
  | nil => simp [mul, hlen]
  | cons a as ih =>
    have hrow := mulAdd_val a hlen 0
    have hcarry := mulAdd_carry_lt a hlen (c := 0) (by norm_num)
    have hrowlen := mulAdd_length a hlen 0
    unfold mul
    generalize mulAdd a bs ts 0 = r at hrow hcarry hrowlen
    dsimp only
    have hwindow : val (r.1 ++ [UInt64.ofNat r.2]) = a.toNat * val bs + val ts := by
      rw [val_append, hrowlen, val_cons, toNat_ofNat, Nat.mod_eq_of_lt hcarry, val_nil]
      omega
    have hwinlen : (r.1 ++ [UInt64.ofNat r.2]).length = bs.length + 1 := by simp [hrowlen]
    generalize r.1 ++ [UInt64.ofNat r.2] = row at hwindow hwinlen
    cases row with
    | nil => simp at hwinlen
    | cons t ts' =>
      obtain ⟨hlen', hval⟩ := ih (show bs.length = ts'.length by simpa using hwinlen.symm)
      rw [val_cons] at hwindow
      refine ⟨by simp [hlen']; omega, ?_⟩
      rw [val_cons, hval, val_cons, add_mul]
      have hmul : 2 ^ 64 * val as * val bs = 2 ^ 64 * (val as * val bs) := by ring
      rw [hmul]
      omega

/-! ### Shifts by one bit -/

/-- One bit up: the limbs and the bit that falls out, for a bit that comes in. -/
def shl : List Word → Word → List Word × Word
  | [], c => ([], c)
  | a :: as, c =>
    let r := shl as (a >>> 63)
    ((a <<< 1 ||| c) :: r.1, r.2)

/-- One bit down, for a bit that comes in from above. -/
def shr : List Word → Word → List Word
  | [], _ => []
  | a :: as, c => (a >>> 1 ||| as.headD c <<< 63) :: shr as c

theorem toNat_top (a : Word) : (a >>> 63).toNat = a.toNat / 2 ^ 63 := by
  rw [UInt64.toNat_shiftRight]
  exact Nat.shiftRight_eq_div_pow ..

theorem toNat_up (a : Word) {c : Word} (hc : c.toNat < 2) :
    (a <<< 1 ||| c).toNat = 2 * a.toNat % 2 ^ 64 + c.toNat := by
  have hup : (a <<< 1).toNat = 2 ^ 1 * (a.toNat % 2 ^ 63) := by
    rw [UInt64.toNat_shiftLeft]
    change a.toNat <<< 1 % 2 ^ 64 = _
    rw [Nat.shiftLeft_eq]
    omega
  rw [UInt64.toNat_or, hup, ← Nat.two_pow_add_eq_or_of_lt (by simpa using hc)]
  omega

theorem toNat_down (a c : Word) :
    (a >>> 1 ||| c <<< 63).toNat = a.toNat / 2 + 2 ^ 63 * (c.toNat % 2) := by
  have ha := a.toNat_lt
  have hdown : (a >>> 1).toNat = a.toNat / 2 := by
    rw [UInt64.toNat_shiftRight]
    change a.toNat >>> 1 = _
    rw [Nat.shiftRight_eq_div_pow]
  have hup : (c <<< 63).toNat = 2 ^ 63 * (c.toNat % 2) := by
    rw [UInt64.toNat_shiftLeft]
    change c.toNat <<< 63 % 2 ^ 64 = _
    rw [Nat.shiftLeft_eq]
    omega
  rw [UInt64.toNat_or, hdown, hup, Nat.or_comm, ← Nat.two_pow_add_eq_or_of_lt (by omega), add_comm]

theorem shl_val (as : List Word) {c : Word} (hc : c.toNat < 2) :
    (shl as c).1.length = as.length ∧ (shl as c).2.toNat < 2 ∧
      val (shl as c).1 + 2 ^ (64 * as.length) * (shl as c).2.toNat = 2 * val as + c.toNat := by
  induction as generalizing c with
  | nil => exact ⟨rfl, hc, by simp [shl]⟩
  | cons a as ih =>
    have ha := a.toNat_lt
    have hlt : (a >>> 63).toNat < 2 := by
      rw [toNat_top]
      omega
    obtain ⟨hlen, hout, hval⟩ := ih hlt
    refine ⟨?_, hout, ?_⟩
    · simp [shl, hlen]
    · rw [toNat_top] at hval
      simp only [shl, val_cons, List.length_cons, Nat.mul_succ, pow_add, toNat_up a hc]
      generalize (shl as (a >>> 63)).2.toNat = out at *
      generalize val (shl as (a >>> 63)).1 = low at *
      have hsplit : 2 ^ (64 * as.length) * 2 ^ 64 * out = 2 ^ 64 * (2 ^ (64 * as.length) * out) := by
        ring
      rw [hsplit]
      generalize 2 ^ (64 * as.length) * out = high at *
      omega

theorem shr_length (as : List Word) (c : Word) : (shr as c).length = as.length := by
  induction as with
  | nil => rfl
  | cons a as ih => simp [shr, ih]

theorem headD_parity (as : List Word) (c : Word) :
    (as.headD c).toNat % 2 = (val as + 2 ^ (64 * as.length) * (c.toNat % 2)) % 2 := by
  cases as with
  | nil => simp
  | cons a as =>
    have hsplit : 2 ^ (64 * (a :: as).length) * (c.toNat % 2)
        = 2 * (2 ^ (64 * as.length + 63) * (c.toNat % 2)) := by
      rw [List.length_cons, Nat.mul_succ, pow_add, pow_add]
      ring
    rw [List.headD_cons, val_cons, hsplit]
    omega

theorem shr_val (as : List Word) (c : Word) :
    val (shr as c) = (val as + 2 ^ (64 * as.length) * (c.toNat % 2)) / 2 := by
  induction as with
  | nil => simp [shr]
  | cons a as ih =>
    have hpar := headD_parity as c
    have hsplit : 2 ^ (64 * (as.length + 1)) * (c.toNat % 2)
        = 2 ^ 64 * (2 ^ (64 * as.length) * (c.toNat % 2)) := by
      rw [Nat.mul_succ, pow_add]
      ring
    rw [shr, val_cons, toNat_down, hpar, ih, val_cons, List.length_cons, hsplit]
    omega

end NamespaceIndexer.Lib.Limbs
