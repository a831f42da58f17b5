import NamespaceIndexer.Lib.Radix

/-!
# Numerals, the highest digit first

Division runs from the highest digit and multiplication from the lowest. A numeral in another base
that keeps the number of leading zeros tells the numeral it was made from.
-/

namespace NamespaceIndexer.Lib.Numeral

variable {b m : ℕ}

/-- The number that a numeral stands for. -/
def val (ds : List (Fin b)) : ℕ := Radix.val ds.reverse

@[simp] theorem val_nil : val ([] : List (Fin b)) = 0 := rfl

theorem val_append (ds es : List (Fin b)) : val (ds ++ es) = val ds * b ^ es.length + val es := by
  simp only [val, List.reverse_append, Radix.val_append, List.length_reverse]
  ring

theorem val_singleton (d : Fin b) : val [d] = d.val := by simp [val, Radix.val]

@[simp] theorem val_cons (d : Fin b) (ds : List (Fin b)) :
    val (d :: ds) = d.val * b ^ ds.length + val ds := by
  have happ := val_append [d] ds
  rw [val_singleton, List.singleton_append] at happ
  exact happ

theorem val_lt (ds : List (Fin b)) : val ds < b ^ ds.length := by
  have hlt := Radix.val_lt ds.reverse
  rw [List.length_reverse] at hlt
  exact hlt

theorem val_inj {ds es : List (Fin b)} (hlen : ds.length = es.length) (h : val ds = val es) :
    ds = es := by
  apply List.reverse_injective
  exact Radix.val_inj (by simp [hlen]) h

/-! ### Leading zeros -/

/-- How many zeros a numeral starts with. -/
def leadZeros (ds : List (Fin b)) : ℕ := (ds.takeWhile fun d => d.val = 0).length

/-- The digits after them. -/
def significant (ds : List (Fin b)) : List (Fin b) := ds.dropWhile fun d => d.val = 0

/-- The first digit is not zero. -/
def Canonical (ds : List (Fin b)) : Prop := ∀ d ∈ ds.head?, d.val ≠ 0

theorem canonical_nil : Canonical ([] : List (Fin b)) := by
  intro d hd
  cases hd

@[simp] theorem canonical_cons {d : Fin b} {ds : List (Fin b)} :
    Canonical (d :: ds) ↔ d.val ≠ 0 := by
  simp [Canonical]

theorem significant_spec (ds : List (Fin b)) :
    Canonical (significant ds) ∧ val (significant ds) = val ds := by
  induction ds with
  | nil => exact ⟨canonical_nil, rfl⟩
  | cons d ds ih =>
    by_cases hd : d.val = 0
    · have hskip : significant (d :: ds) = significant ds := by simp [significant, hd]
      rw [hskip, val_cons, hd, zero_mul, zero_add]
      exact ih
    · have hkeep : significant (d :: ds) = d :: ds := by simp [significant, hd]
      rw [hkeep]
      exact ⟨canonical_cons.mpr hd, rfl⟩

theorem significant_length_le (ds : List (Fin b)) : (significant ds).length ≤ ds.length :=
  (List.dropWhile_sublist _).length_le

theorem zeros_append_significant [NeZero b] (ds : List (Fin b)) :
    List.replicate (leadZeros ds) 0 ++ significant ds = ds := by
  induction ds with
  | nil => rfl
  | cons d ds ih =>
    by_cases hd : d = 0
    · have hzeros : leadZeros (d :: ds) = leadZeros ds + 1 := by simp [leadZeros, hd]
      have hskip : significant (d :: ds) = significant ds := by simp [significant, hd]
      rw [hzeros, hskip, List.replicate_succ, List.cons_append, ih, hd]
    · have hzeros : leadZeros (d :: ds) = 0 := by simp [leadZeros, hd]
      have hkeep : significant (d :: ds) = d :: ds := by simp [significant, hd]
      rw [hzeros, hkeep, List.replicate_zero, List.nil_append]

theorem zeros_append_spec [NeZero b] (k : ℕ) {ds : List (Fin b)} (h : Canonical ds) :
    leadZeros (List.replicate k 0 ++ ds) = k ∧ val (List.replicate k 0 ++ ds) = val ds := by
  induction k with
  | zero =>
    cases ds with
    | nil => exact ⟨rfl, rfl⟩
    | cons d ds =>
      have hd : ¬d = 0 := by simpa using canonical_cons.mp h
      exact ⟨by simp [leadZeros, hd], rfl⟩
  | succ k ih =>
    rw [List.replicate_succ, List.cons_append, val_cons, Fin.val_zero, zero_mul, zero_add, ih.2]
    have hstep : leadZeros ((0 : Fin b) :: (List.replicate k 0 ++ ds))
        = leadZeros (List.replicate k 0 ++ ds) + 1 := by simp [leadZeros]
    exact ⟨by rw [hstep, ih.1], rfl⟩

theorem Canonical.pow_le {ds : List (Fin b)} (h : Canonical ds) (hne : ds ≠ []) :
    b ^ (ds.length - 1) ≤ val ds := by
  cases ds with
  | nil => exact absurd rfl hne
  | cons d ds =>
    have hd : 1 ≤ d.val := Nat.one_le_iff_ne_zero.mpr (canonical_cons.mp h)
    have hmul : 1 * b ^ ds.length ≤ d.val * b ^ ds.length := Nat.mul_le_mul_right _ hd
    rw [val_cons, List.length_cons, Nat.add_sub_cancel]
    omega

theorem canonical_of_pow_le {ds : List (Fin b)} (h : b ^ (ds.length - 1) ≤ val ds) :
    Canonical ds := by
  cases ds with
  | nil => exact canonical_nil
  | cons d ds =>
    have hlt := val_lt ds
    rw [val_cons, List.length_cons, Nat.add_sub_cancel] at h
    rw [canonical_cons]
    intro hd
    rw [hd, zero_mul, zero_add] at h
    omega

theorem Canonical.length_le {ds : List (Fin b)} (h : Canonical ds) (hb : 1 < b) {n : ℕ}
    (hlt : val ds < b ^ n) : ds.length ≤ n := by
  by_cases hne : ds = []
  · simp [hne]
  · have hpow := lt_of_le_of_lt (h.pow_le hne) hlt
    have hexp := (Nat.pow_lt_pow_iff_right hb).mp hpow
    omega

/-- A number has one numeral without leading zeros. -/
theorem Canonical.unique {ds es : List (Fin b)} (hds : Canonical ds) (hes : Canonical es)
    (hb : 1 < b) (h : val ds = val es) : ds = es := by
  have hle := hds.length_le hb (h ▸ val_lt es)
  have hge := hes.length_le hb (h ▸ val_lt ds)
  exact val_inj (by omega) h

/-! ### One number in two bases -/

/-- Numerals of one number, with as many leading zeros. -/
structure Converts (ds : List (Fin b)) (es : List (Fin m)) : Prop where
  zeros : leadZeros ds = leadZeros es
  value : val ds = val es

theorem Converts.unique [NeZero m] {ds : List (Fin b)} {es es' : List (Fin m)}
    (h : Converts ds es) (h' : Converts ds es') (hm : 1 < m) : es = es' := by
  obtain ⟨hcan, hval⟩ := significant_spec es
  obtain ⟨hcan', hval'⟩ := significant_spec es'
  have hsame : significant es = significant es' := by
    apply hcan.unique hcan' hm
    rw [hval, hval', ← h.value, ← h'.value]
  rw [← zeros_append_significant es, ← zeros_append_significant es', hsame, ← h.zeros, ← h'.zeros]

/-! ### Division -/

section Division

variable [NeZero b]

/-- The numeral with a remainder `r` in front, divided by `m`, and the remainder. -/
def divBy (m : ℕ) : List (Fin b) → ℕ → List (Fin b) × ℕ
  | [], r => ([], r)
  | d :: ds, r =>
    let v := r * b + d.val
    let t := divBy m ds (v % m)
    (Fin.ofNat b (v / m) :: t.1, t.2)

theorem divBy_length (ds : List (Fin b)) (r : ℕ) : (divBy m ds r).1.length = ds.length := by
  induction ds generalizing r with
  | nil => rfl
  | cons d ds ih => exact congrArg Nat.succ (ih _)

theorem divBy_spec (ds : List (Fin b)) {r : ℕ} (hr : r < m) :
    val (divBy m ds r).1 * m + (divBy m ds r).2 = r * b ^ ds.length + val ds ∧
      (divBy m ds r).2 < m := by
  induction ds generalizing r with
  | nil => simp [divBy, hr]
  | cons d ds ih =>
    have hd := d.isLt
    have hdiv := Nat.div_add_mod (r * b + d.val) m
    have hdigit : (r * b + d.val) / m < b := by
      have hmul : (r + 1) * b ≤ m * b := Nat.mul_le_mul_right b hr
      rw [Nat.succ_mul] at hmul
      exact Nat.div_lt_of_lt_mul (by omega)
    obtain ⟨hstep, hrem⟩ := ih (Nat.mod_lt (r * b + d.val) (by omega))
    simp only [divBy, val_cons, List.length_cons, divBy_length, Radix.val_ofNat,
      Nat.mod_eq_of_lt hdigit, pow_succ']
    constructor
    · linear_combination hstep + b ^ ds.length * hdiv
    · exact hrem

variable (m) [NeZero m]

/-- The remainders of one division after another, the lowest first, where they are at most `room`. -/
def digits : ℕ → List (Fin b) → Option (List (Fin m))
  | _, [] => some []
  | 0, _ :: _ => none
  | room + 1, d :: ds =>
    let t := divBy m (d :: ds) 0
    (digits room (significant t.1)).map (Fin.ofNat m t.2 :: ·)

variable {m}

theorem divBy_zero (ds : List (Fin b)) :
    val (divBy m ds 0).1 = val ds / m ∧ (divBy m ds 0).2 = val ds % m := by
  obtain ⟨hval, hrem⟩ := divBy_spec ds (NeZero.pos m)
  have hsplit : (divBy m ds 0).2 + m * val (divBy m ds 0).1 = val ds := by
    rw [zero_mul, zero_add] at hval
    rw [← hval]
    ring
  obtain ⟨hquot, hmod⟩ := (Nat.div_mod_unique (NeZero.pos m)).mpr ⟨hsplit, hrem⟩
  exact ⟨hquot.symm, hmod.symm⟩

theorem digits_spec {room : ℕ} {ds : List (Fin b)} {es : List (Fin m)} (hcan : Canonical ds)
    (h : digits m room ds = some es) :
    Canonical es.reverse ∧ val es.reverse = val ds ∧ es.length ≤ room := by
  induction room generalizing ds es with
  | zero =>
    cases ds with
    | nil =>
      cases h
      exact ⟨canonical_nil, rfl, le_rfl⟩
    | cons d ds => cases h
  | succ room ih =>
    cases ds with
    | nil =>
      cases h
      exact ⟨canonical_nil, rfl, Nat.zero_le _⟩
    | cons d ds =>
      obtain ⟨hquot, hrem⟩ := divBy_zero (m := m) (d :: ds)
      obtain ⟨hqcan, hqval⟩ := significant_spec (divBy m (d :: ds) 0).1
      rw [digits, Option.map_eq_some_iff] at h
      obtain ⟨high, hhigh, rfl⟩ := h
      obtain ⟨hcan', hval', hlen'⟩ := ih hqcan hhigh
      have hvalue : val (Fin.ofNat m (divBy m (d :: ds) 0).2 :: high).reverse = val (d :: ds) := by
        rw [List.reverse_cons, val_append, hval', hqval, hquot, val_singleton, Radix.val_ofNat, hrem,
          Nat.mod_mod, List.length_singleton, pow_one]
        exact Nat.div_add_mod' _ _
      refine ⟨?_, hvalue, Nat.succ_le_succ hlen'⟩
      -- the highest digit is the last remainder, of a number below the base
      cases hrev : high.reverse with
      | nil =>
        rw [List.reverse_cons, hrev, List.nil_append, val_cons] at hvalue
        have hpos := hcan.pow_le (List.cons_ne_nil d ds)
        have hpow : 0 < b ^ ((d :: ds).length - 1) := Nat.pow_pos (NeZero.pos b)
        rw [List.reverse_cons, hrev, List.nil_append, canonical_cons]
        simp only [List.length_nil, pow_zero, mul_one, val_nil, add_zero] at hvalue
        omega
      | cons e es =>
        rw [hrev, canonical_cons] at hcan'
        rw [List.reverse_cons, hrev, List.cons_append, canonical_cons]
        exact hcan'

theorem digits_isSome {room : ℕ} {ds : List (Fin b)} (h : val ds < m ^ room) (hcan : Canonical ds) :
    ∃ es, digits m room ds = some es := by
  induction room generalizing ds with
  | zero =>
    cases ds with
    | nil => exact ⟨[], rfl⟩
    | cons d ds =>
      have hpos := hcan.pow_le (List.cons_ne_nil d ds)
      have hpow : 0 < b ^ ((d :: ds).length - 1) := Nat.pow_pos (NeZero.pos b)
      rw [pow_zero] at h
      omega
  | succ room ih =>
    cases ds with
    | nil => exact ⟨[], rfl⟩
    | cons d ds =>
      obtain ⟨hqcan, hqval⟩ := significant_spec (divBy m (d :: ds) 0).1
      have hquot : val (significant (divBy m (d :: ds) 0).1) < m ^ room := by
        rw [hqval, (divBy_zero (d :: ds)).1]
        rw [pow_succ'] at h
        exact Nat.div_lt_of_lt_mul h
      obtain ⟨es, hes⟩ := ih hquot hqcan
      exact ⟨Fin.ofNat m (divBy m (d :: ds) 0).2 :: es, by rw [digits, hes]; rfl⟩

end Division

/-! ### Multiplication -/

section Multiplication

variable [NeZero b]

/-- The numeral times `m`, with `c` added, and the carry out. -/
def mulBy (m : ℕ) : List (Fin b) → ℕ → List (Fin b) × ℕ
  | [], c => ([], c)
  | d :: ds, c =>
    let t := mulBy m ds c
    let v := d.val * m + t.2
    (Fin.ofNat b v :: t.1, v / b)

theorem mulBy_length (ds : List (Fin b)) (c : ℕ) : (mulBy m ds c).1.length = ds.length := by
  induction ds with
  | nil => rfl
  | cons d ds ih => exact congrArg Nat.succ ih

theorem mulBy_val (ds : List (Fin b)) (c : ℕ) :
    (mulBy m ds c).2 * b ^ ds.length + val (mulBy m ds c).1 = val ds * m + c := by
  induction ds with
  | nil => simp [mulBy]
  | cons d ds ih =>
    have hdiv := Nat.div_add_mod (d.val * m + (mulBy m ds c).2) b
    simp only [mulBy, val_cons, List.length_cons, mulBy_length, Radix.val_ofNat, pow_succ']
    linear_combination ih + b ^ ds.length * hdiv

/-- The digits of a carry in front, where they are at most `room`. -/
def carryIn : ℕ → List (Fin b) → ℕ → Option (List (Fin b))
  | _, ds, 0 => some ds
  | 0, _, _ + 1 => none
  | room + 1, ds, c + 1 => carryIn room (Fin.ofNat b (c + 1) :: ds) ((c + 1) / b)

theorem carryIn_spec {room c : ℕ} {ds ds' : List (Fin b)} (hcan : c = 0 → Canonical ds)
    (h : carryIn room ds c = some ds') :
    Canonical ds' ∧ val ds' = c * b ^ ds.length + val ds ∧ ds'.length ≤ ds.length + room := by
  induction room generalizing c ds with
  | zero =>
    cases c with
    | zero =>
      cases h
      exact ⟨hcan rfl, by rw [zero_mul, zero_add], le_rfl⟩
    | succ c => cases h
  | succ room ih =>
    cases c with
    | zero =>
      cases h
      exact ⟨hcan rfl, by rw [zero_mul, zero_add], Nat.le_add_right _ _⟩
    | succ c =>
      have hdiv := Nat.div_add_mod (c + 1) b
      have hnext : (c + 1) / b = 0 → Canonical (Fin.ofNat b (c + 1) :: ds) := by
        intro hzero
        rw [canonical_cons, Radix.val_ofNat]
        rw [hzero, mul_zero, zero_add] at hdiv
        omega
      obtain ⟨hcan', hval, hlen⟩ := ih hnext h
      rw [List.length_cons] at hlen
      refine ⟨hcan', ?_, by omega⟩
      rw [hval, val_cons, List.length_cons, Radix.val_ofNat, pow_succ']
      linear_combination b ^ ds.length * hdiv

theorem carryIn_isSome {room c : ℕ} (h : c < b ^ room) (ds : List (Fin b)) :
    ∃ ds', carryIn room ds c = some ds' := by
  induction room generalizing c ds with
  | zero =>
    cases c with
    | zero => exact ⟨ds, rfl⟩
    | succ c =>
      rw [pow_zero] at h
      omega
  | succ room ih =>
    cases c with
    | zero => exact ⟨ds, rfl⟩
    | succ c =>
      rw [pow_succ'] at h
      exact ih (Nat.div_lt_of_lt_mul h) _

/-- The numeral times `m`, with `e` added, where it has at most `size` digits. -/
def mulAdd (m size : ℕ) (ds : List (Fin b)) (e : Fin m) : Option (List (Fin b)) :=
  let t := mulBy m ds e.val
  carryIn (size - ds.length) t.1 t.2

theorem mulAdd_spec {size : ℕ} {ds ds' : List (Fin b)} {e : Fin m} (hcan : Canonical ds)
    (hlen : ds.length ≤ size) (h : mulAdd m size ds e = some ds') :
    Canonical ds' ∧ val ds' = val ds * m + e.val ∧ ds'.length ≤ size := by
  have hval := mulBy_val (m := m) ds e.val
  have hsize := mulBy_length (m := m) ds e.val
  have hkeep : (mulBy m ds e.val).2 = 0 → Canonical (mulBy m ds e.val).1 := by
    intro hzero
    rw [hzero, zero_mul, zero_add] at hval
    by_cases hne : ds = []
    · rw [hne]
      exact canonical_nil
    · have hpow := hcan.pow_le hne
      have hmul : val ds * 1 ≤ val ds * m := Nat.mul_le_mul_left _ (by have := e.isLt; omega)
      apply canonical_of_pow_le
      rw [hsize, hval]
      omega
  obtain ⟨hcan', hval', hlen'⟩ := carryIn_spec hkeep h
  rw [hsize] at hval' hlen'
  exact ⟨hcan', by rw [hval', hval], by omega⟩

theorem mulAdd_isSome {size : ℕ} {ds : List (Fin b)} {e : Fin m} (hlen : ds.length ≤ size)
    (h : val ds * m + e.val < b ^ size) : ∃ ds', mulAdd m size ds e = some ds' := by
  apply carryIn_isSome
  have hval := mulBy_val (m := m) ds e.val
  have hsplit : b ^ size = b ^ (size - ds.length) * b ^ ds.length := by
    rw [← pow_add, Nat.sub_add_cancel hlen]
  rw [← hval, hsplit] at h
  exact Nat.lt_of_mul_lt_mul_right (lt_of_le_of_lt (Nat.le_add_right _ _) h)

/-- Digit after digit, the numeral of the whole. -/
theorem foldlM_mulAdd {size : ℕ} {ds ds' : List (Fin b)} (es : List (Fin m)) (hb : 1 < b)
    (hcan : Canonical ds) (hlen : ds.length ≤ size) :
    es.foldlM (mulAdd m size) ds = some ds' ↔
      Canonical ds' ∧ val ds' = val ds * m ^ es.length + val es ∧ ds'.length ≤ size := by
  induction es generalizing ds with
  | nil =>
    simp only [List.foldlM_nil, List.length_nil, pow_zero, mul_one, val_nil, add_zero]
    constructor
    · intro h
      cases h
      exact ⟨hcan, rfl, hlen⟩
    · intro h
      rw [h.1.unique hcan hb h.2.1]
      rfl
  | cons e es ih =>
    have hwhole : ∀ v, v = val ds * m + e.val →
        v * m ^ es.length + val es = val ds * m ^ (e :: es).length + val (e :: es) := by
      intro v hv
      rw [hv, val_cons, List.length_cons, pow_succ']
      ring
    rw [List.foldlM_cons]
    constructor
    · intro h
      obtain ⟨ds₁, hstep, hrest⟩ := Option.bind_eq_some_iff.mp h
      obtain ⟨hcan₁, hval₁, hlen₁⟩ := mulAdd_spec hcan hlen hstep
      rw [← hwhole _ hval₁]
      exact (ih hcan₁ hlen₁).mp hrest
    · intro h
      obtain ⟨hcan', hval, hlen'⟩ := h
      have hfits : val ds * m + e.val < b ^ size := by
        have hlt := val_lt ds'
        have hpow : b ^ ds'.length ≤ b ^ size := Nat.pow_le_pow_right (by omega) hlen'
        have hm : 0 < m ^ es.length := Nat.pow_pos (by have := e.isLt; omega)
        have hmul := Nat.le_mul_of_pos_right (val ds * m + e.val) hm
        rw [← hwhole _ rfl] at hval
        omega
      obtain ⟨ds₁, hstep⟩ := mulAdd_isSome hlen hfits
      obtain ⟨hcan₁, hval₁, hlen₁⟩ := mulAdd_spec hcan hlen hstep
      rw [← hwhole _ hval₁] at hval
      exact Option.bind_eq_some_iff.mpr ⟨ds₁, hstep, (ih hcan₁ hlen₁).mpr ⟨hcan', hval, hlen'⟩⟩

end Multiplication

end NamespaceIndexer.Lib.Numeral
