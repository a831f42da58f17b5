import Mathlib.Tactic

/-!
# Numbers as digits, the lowest first

The loops of arithmetic digit by digit in a base, each with the carry it leaves and one lemma that
says what it computes.
-/

namespace NamespaceIndexer.Lib.Radix

variable {b : ℕ} [NeZero b]

/-- The number that digits stand for. -/
def val : List (Fin b) → ℕ
  | [] => 0
  | d :: ds => d.val + b * val ds

omit [NeZero b] in
@[simp] theorem val_cons (d : Fin b) (ds : List (Fin b)) : val (d :: ds) = d.val + b * val ds := rfl

omit [NeZero b] in
theorem val_lt (ds : List (Fin b)) : val ds < b ^ ds.length := by
  induction ds with
  | nil => exact Nat.one_pos
  | cons d ds ih =>
    have hd := d.isLt
    have hmul : b * (val ds + 1) ≤ b * b ^ ds.length := Nat.mul_le_mul_left b ih
    rw [val_cons, List.length_cons, pow_succ']
    rw [Nat.mul_succ] at hmul
    omega

omit [NeZero b] in
theorem val_append (ds es : List (Fin b)) : val (ds ++ es) = val ds + b ^ ds.length * val es := by
  induction ds with
  | nil => simp [val]
  | cons d ds ih =>
    rw [List.cons_append, val_cons, ih, val_cons, List.length_cons, pow_succ']
    ring

omit [NeZero b] in
theorem val_inj {ds es : List (Fin b)} (hlen : ds.length = es.length) (h : val ds = val es) :
    ds = es := by
  induction ds generalizing es with
  | nil => exact (List.length_eq_zero_iff.mp hlen.symm).symm
  | cons d ds ih =>
    cases es with
    | nil => cases hlen
    | cons e es =>
      rw [val_cons, val_cons] at h
      have hd : d.val = e.val := by
        have hmod := congrArg (· % b) h
        simpa [Nat.add_mul_mod_self_left, Nat.mod_eq_of_lt] using hmod
      have hb : 0 < b := Nat.pos_of_ne_zero fun hb => by
        subst hb
        exact d.elim0
      have htail : val ds = val es := Nat.eq_of_mul_eq_mul_left hb (by omega)
      rw [Fin.ext hd, ih (Nat.succ.inj hlen) htail]

theorem val_ofNat (x : ℕ) : (Fin.ofNat b x).val = x % b := rfl

@[simp] theorem val_replicate_zero (n : ℕ) : val (List.replicate n (0 : Fin b)) = 0 := by
  induction n with
  | zero => rfl
  | succ n ih => rw [List.replicate_succ, val_cons, ih, Fin.val_zero, mul_zero, add_zero]

theorem val_eq_zero {ds : List (Fin b)} : val ds = 0 ↔ ∀ d ∈ ds, d = 0 := by
  induction ds with
  | nil => simp [val]
  | cons d ds ih =>
    have hb := NeZero.ne b
    simp [ih, hb]

/-- A digit is read off the number. -/
theorem getD_val (ds : List (Fin b)) (i : ℕ) : (ds.getD i 0).val = val ds / b ^ i % b := by
  induction ds generalizing i with
  | nil => simp [val]
  | cons d ds ih =>
    cases i with
    | zero =>
      rw [val_cons, pow_zero, Nat.div_one, Nat.add_mul_mod_self_left, Nat.mod_eq_of_lt d.isLt]
      rfl
    | succ i =>
      rw [val_cons, pow_succ', ← Nat.div_div_eq_div_mul, Nat.add_mul_div_left _ _ (NeZero.pos b),
        Nat.div_eq_of_lt d.isLt, Nat.zero_add, ← ih]
      rfl

theorem val_set {ds : List (Fin b)} {i : ℕ} (hi : i < ds.length) (d : Fin b) :
    val (ds.set i d) + b ^ i * (ds.getD i 0).val = val ds + b ^ i * d.val := by
  induction ds generalizing i with
  | nil => cases hi
  | cons e ds ih =>
    cases i with
    | zero =>
      rw [List.set_cons_zero, val_cons, val_cons, pow_zero, one_mul, one_mul]
      show d.val + b * val ds + e.val = e.val + b * val ds + d.val
      omega
    | succ i =>
      have hstep := ih (Nat.lt_of_succ_lt_succ hi)
      rw [List.set_cons_succ, val_cons, val_cons, pow_succ']
      show e.val + b * val (ds.set i d) + b * b ^ i * (ds.getD i 0).val = _
      linear_combination b * hstep

/-- A digit put where there was none. -/
theorem val_set_zero {ds : List (Fin b)} {i : ℕ} (hi : i < ds.length) (hzero : ds.getD i 0 = 0)
    (d : Fin b) : val (ds.set i d) = val ds + b ^ i * d.val := by
  have h := val_set hi d
  rwa [hzero, Fin.val_zero, mul_zero, add_zero] at h

theorem getD_set_ne {i j : ℕ} (hij : i ≠ j) (ds : List (Fin b)) (d : Fin b) :
    (ds.set i d).getD j 0 = ds.getD j 0 := by
  rw [List.getD_eq_getElem?_getD, List.getElem?_set_ne hij, ← List.getD_eq_getElem?_getD]

@[simp] theorem getD_replicate_zero (n i : ℕ) :
    (List.replicate n (0 : Fin b)).getD i 0 = 0 := by
  rw [List.getD_eq_getElem?_getD, List.getElem?_replicate]
  split <;> rfl

/-! ### Comparison -/

/-- The first difference from the top decides. -/
def cmp : List (Fin b) → List (Fin b) → Ordering
  | d :: ds, e :: es => (cmp ds es).then (compare d.val e.val)
  | _, _ => .eq

omit [NeZero b] in
theorem cmp_eq {ds es : List (Fin b)} (hlen : ds.length = es.length) :
    cmp ds es = compare (val ds) (val es) := by
  induction ds generalizing es with
  | nil =>
    rw [List.length_eq_zero_iff.mp hlen.symm]
    rfl
  | cons d ds ih =>
    cases es with
    | nil => cases hlen
    | cons e es =>
      have hd := d.isLt
      have he := e.isLt
      rw [cmp, ih (Nat.succ.inj hlen), val_cons, val_cons]
      rcases lt_trichotomy (val ds) (val es) with hlt | heq | hgt
      · have hmul : b * (val ds + 1) ≤ b * val es := Nat.mul_le_mul_left b hlt
        rw [Nat.mul_succ] at hmul
        rw [compare_lt_iff_lt.mpr hlt]
        exact (compare_lt_iff_lt.mpr (by omega)).symm
      · rw [heq, compare_eq_iff_eq.mpr rfl, Ordering.then]
        rcases lt_trichotomy d.val e.val with h | h | h
        · rw [compare_lt_iff_lt.mpr h, compare_lt_iff_lt.mpr (by omega)]
        · rw [h, compare_eq_iff_eq.mpr rfl, compare_eq_iff_eq.mpr rfl]
        · rw [compare_gt_iff_gt.mpr h, compare_gt_iff_gt.mpr (by omega)]
      · have hmul : b * (val es + 1) ≤ b * val ds := Nat.mul_le_mul_left b hgt
        rw [Nat.mul_succ] at hmul
        rw [compare_gt_iff_gt.mpr hgt]
        exact (compare_gt_iff_gt.mpr (by omega)).symm

/-! ### Addition and subtraction -/

/-- `ds + es + c`: the digits and the carry out. -/
def add : List (Fin b) → List (Fin b) → ℕ → List (Fin b) × ℕ
  | d :: ds, e :: es, c =>
    let s := d.val + e.val + c
    let r := add ds es (s / b)
    (Fin.ofNat b s :: r.1, r.2)
  | _, _, c => ([], c)

theorem add_length {ds es : List (Fin b)} (hlen : ds.length = es.length) (c : ℕ) :
    (add ds es c).1.length = ds.length := by
  induction ds generalizing es c with
  | nil => rfl
  | cons d ds ih =>
    cases es with
    | nil => cases hlen
    | cons e es => exact congrArg Nat.succ (ih (Nat.succ.inj hlen) _)

theorem add_val {ds es : List (Fin b)} (hlen : ds.length = es.length) (c : ℕ) :
    val (add ds es c).1 + b ^ ds.length * (add ds es c).2 = val ds + val es + c := by
  induction ds generalizing es c with
  | nil =>
    rw [List.length_eq_zero_iff.mp hlen.symm]
    simp [add, val]
  | cons d ds ih =>
    cases es with
    | nil => cases hlen
    | cons e es =>
      have hstep := ih (Nat.succ.inj hlen) ((d.val + e.val + c) / b)
      have hdigit := Nat.mod_add_div (d.val + e.val + c) b
      simp only [add, val_cons, val_ofNat, List.length_cons, pow_succ']
      linear_combination b * hstep + hdigit

/-- `ds - es - w`: the digits and the borrow out. -/
def sub : List (Fin b) → List (Fin b) → ℕ → List (Fin b) × ℕ
  | d :: ds, e :: es, w =>
    if d.val < e.val + w then
      let r := sub ds es 1
      (Fin.ofNat b (b + d.val - (e.val + w)) :: r.1, r.2)
    else
      let r := sub ds es 0
      (Fin.ofNat b (d.val - (e.val + w)) :: r.1, r.2)
  | _, _, w => ([], w)

theorem sub_length {ds es : List (Fin b)} (hlen : ds.length = es.length) (w : ℕ) :
    (sub ds es w).1.length = ds.length := by
  induction ds generalizing es w with
  | nil => rfl
  | cons d ds ih =>
    cases es with
    | nil => cases hlen
    | cons e es =>
      rw [sub]
      split <;> exact congrArg Nat.succ (ih (Nat.succ.inj hlen) _)

theorem sub_val {ds es : List (Fin b)} (hlen : ds.length = es.length) {w : ℕ} (hw : w ≤ 1) :
    val (sub ds es w).1 + val es + w = val ds + b ^ ds.length * (sub ds es w).2 := by
  induction ds generalizing es w with
  | nil =>
    rw [List.length_eq_zero_iff.mp hlen.symm]
    simp [sub, val]
  | cons d ds ih =>
    cases es with
    | nil => cases hlen
    | cons e es =>
      have hd := d.isLt
      have he := e.isLt
      rw [sub]
      by_cases hlt : d.val < e.val + w
      · have hstep := ih (Nat.succ.inj hlen) (w := 1) le_rfl
        have hdigit : (b + d.val - (e.val + w)) % b + (e.val + w) = b + d.val := by
          rw [Nat.mod_eq_of_lt (by omega)]
          omega
        rw [if_pos hlt]
        simp only [val_cons, val_ofNat, List.length_cons, pow_succ']
        linear_combination b * hstep + hdigit
      · have hstep := ih (Nat.succ.inj hlen) (w := 0) (Nat.zero_le 1)
        have hdigit : (d.val - (e.val + w)) % b + (e.val + w) = d.val := by
          rw [Nat.mod_eq_of_lt (by omega)]
          omega
        rw [if_neg hlt]
        simp only [val_cons, val_ofNat, List.length_cons, pow_succ']
        linear_combination b * hstep + hdigit

/-! ### One digit times, one digit into -/

/-- `ds * m + c`: the digits and the carry out. -/
def mulSmall (m : ℕ) : List (Fin b) → ℕ → List (Fin b) × ℕ
  | [], c => ([], c)
  | d :: ds, c =>
    let s := c + d.val * m
    let r := mulSmall m ds (s / b)
    (Fin.ofNat b s :: r.1, r.2)

theorem mulSmall_length (m : ℕ) (ds : List (Fin b)) (c : ℕ) :
    (mulSmall m ds c).1.length = ds.length := by
  induction ds generalizing c with
  | nil => rfl
  | cons d ds ih => exact congrArg Nat.succ (ih _)

theorem mulSmall_val (m : ℕ) (ds : List (Fin b)) (c : ℕ) :
    val (mulSmall m ds c).1 + b ^ ds.length * (mulSmall m ds c).2 = val ds * m + c := by
  induction ds generalizing c with
  | nil => simp [mulSmall, val]
  | cons d ds ih =>
    have hstep := ih ((c + d.val * m) / b)
    have hdigit := Nat.mod_add_div (c + d.val * m) b
    simp only [mulSmall, val_cons, val_ofNat, List.length_cons, pow_succ']
    linear_combination b * hstep + hdigit

/-- The digits of `r * b ^ n + ds` divided by `m`, from the top, and the remainder. -/
def divSmall (m : ℕ) : List (Fin b) → ℕ → List (Fin b) × ℕ
  | [], r => ([], r)
  | d :: ds, r =>
    let t := divSmall m ds r
    let cur := t.2 * b + d.val
    (Fin.ofNat b (cur / m) :: t.1, cur % m)

theorem divSmall_length (m : ℕ) (ds : List (Fin b)) (r : ℕ) :
    (divSmall m ds r).1.length = ds.length := by
  induction ds with
  | nil => rfl
  | cons d ds ih => exact congrArg Nat.succ ih

theorem divSmall_val {m : ℕ} (ds : List (Fin b)) {r : ℕ} (hr : r < m) :
    val (divSmall m ds r).1 * m + (divSmall m ds r).2 = r * b ^ ds.length + val ds ∧
      (divSmall m ds r).2 < m := by
  induction ds with
  | nil =>
    refine ⟨?_, hr⟩
    simp [divSmall, val]
  | cons d ds ih =>
    obtain ⟨hstep, hlt⟩ := ih
    have hd := d.isLt
    have hdiv := Nat.div_add_mod ((divSmall m ds r).2 * b + d.val) m
    have hsmall : ((divSmall m ds r).2 * b + d.val) / m < b := by
      have hmul : ((divSmall m ds r).2 + 1) * b ≤ m * b := Nat.mul_le_mul_right b hlt
      rw [Nat.succ_mul] at hmul
      exact Nat.div_lt_of_lt_mul (by omega)
    refine ⟨?_, Nat.mod_lt _ (by omega)⟩
    simp only [divSmall, val_cons, val_ofNat, List.length_cons, pow_succ', Nat.mod_eq_of_lt hsmall]
    linear_combination b * hstep + hdiv

/-! ### The bits of a number -/

omit [NeZero b] in
/-- The digits that complement the number. -/
theorem val_map_rev (ds : List (Fin b)) : val (ds.map Fin.rev) + val ds + 1 = b ^ ds.length := by
  induction ds with
  | nil => rfl
  | cons d ds ih =>
    have hd := d.isLt
    rw [List.map_cons, val_cons, val_cons, List.length_cons, pow_succ', ← ih, Fin.val_rev]
    have hdigit : b - (d.val + 1) + d.val + 1 = b := by omega
    linear_combination hdigit

/-- The next bit of a dividend joins the remainder of the bits above it. -/
theorem div_bit (n : ℕ) {d : ℕ} (hd : 0 < d) :
    let x := 2 * (n / 2 % d) + n % 2
    if d ≤ x then n % d + d = x ∧ n / d = 2 * (n / 2 / d) + 1
    else n % d = x ∧ n / d = 2 * (n / 2 / d) := by
  intro x
  have hrem := Nat.mod_lt (n / 2) hd
  have hn : n = x + d * (2 * (n / 2 / d)) := by
    have htop := Nat.mod_add_div (n / 2) d
    have hbit := Nat.mod_add_div n 2
    linear_combination -hbit - 2 * htop
  by_cases h : d ≤ x
  · have hsum : x - d + d * (2 * (n / 2 / d) + 1) = n := by
      rw [mul_add]
      omega
    obtain ⟨hdiv, hmod⟩ := (Nat.div_mod_unique hd).mpr ⟨hsum, by omega⟩
    rw [if_pos h]
    exact ⟨by omega, hdiv⟩
  · obtain ⟨hdiv, hmod⟩ := (Nat.div_mod_unique hd).mpr ⟨hn.symm, by omega⟩
    rw [if_neg h]
    exact ⟨hmod, hdiv⟩

end NamespaceIndexer.Lib.Radix
