import NamespaceIndexer.Daemon.Oracle
import NamespaceIndexer.Ledger.Records
import NamespaceIndexer.Lib.Rank

/-!
# The fee rate (`oracle.c`, `oracle.go`)

Both computations are the lower median of the participants' fees per byte, in exact integers.
-/

namespace NamespaceIndexer.Daemon

open Fold Lib

/-! ### The Go computation -/

/-- `bits.Mul64`: the high and the low word of a product. -/
def mul64 (a b : UInt64) : UInt64 × UInt64 :=
  (UInt64.ofNat (a.toNat * b.toNat / 2 ^ 64), a * b)

/-- One round of the loop of `oracleRate`: the value appended to `fpb`. -/
def participantFees (coinbase subsidy blockBytes : ℤ) : Option UInt64 :=
  if coinbase ≤ subsidy then none
  else
    let fees := UInt64.ofInt coinbase - UInt64.ofInt subsidy
    let b := if blockBytes ≤ 0 then 1 else blockBytes
    let v := fees / UInt64.ofInt b
    if 1 ≤ v then some v else none

/-- `oracleRate`. -/
def oracleRate (coinbase subsidy blockBytes : List ℤ) : UInt64 :=
  let n := coinbase.length
  if n = 0 ∨ subsidy.length ≠ n ∨ blockBytes.length ≠ n then dustFloor
  else
    let fpb := (coinbase.zip (subsidy.zip blockBytes)).filterMap fun r =>
      participantFees r.1 r.2.1 r.2.2
    if fpb.length < minFeeSample then dustFloor
    else
      let med := (fpb.insertionSort (· ≤ ·)).getD ((fpb.length - 1) / 2) 0
      let product := mul64 med (UInt64.ofInt refSize)
      if product.1 ≠ 0 ∨ UInt64.ofInt rateCap < product.2 then UInt64.ofInt rateCap
      else if product.2 < dustFloor then dustFloor
      else product.2

/-! ### Words -/

theorem toNat_ofInt (v : ℤ) : ((UInt64.ofInt v).toNat : ℤ) = v % 2 ^ 64 := by
  unfold UInt64.ofInt
  rw [UInt64.toNat_ofNat_of_lt' (by show _ < 2 ^ 64; omega)]
  omega

theorem toNat_ofInt_of_lt {v : ℤ} (h0 : 0 ≤ v) (h : v < 2 ^ 64) :
    ((UInt64.ofInt v).toNat : ℤ) = v := by
  rw [toNat_ofInt]
  omega

theorem i64_ofInt {v : ℤ} (h0 : 0 ≤ v) (h : v < 2 ^ 63) : i64 (UInt64.ofInt v) = v := by
  have hword := toNat_ofInt_of_lt h0 (by omega)
  rw [i64_eq_toNat (by omega), hword]

theorem mul64_eq_zero_iff {a b : UInt64} : (mul64 a b).1 = 0 ↔ a.toNat * b.toNat < 2 ^ 64 := by
  have ha := a.toNat_lt
  have hb := b.toNat_lt
  have hprod : a.toNat * b.toNat < 2 ^ 64 * 2 ^ 64 := Nat.mul_lt_mul'' ha hb
  have hdiv : a.toNat * b.toNat / 2 ^ 64 < 2 ^ 64 := by omega
  have hhi : (mul64 a b).1.toNat = a.toNat * b.toNat / 2 ^ 64 := UInt64.toNat_ofNat_of_lt' hdiv
  rw [← UInt64.toNat_inj, hhi]
  simp only [UInt64.toNat_zero]
  omega

/-! ### In exact integers -/

/-- A row of the window: coinbase total, subsidy, block bytes. -/
abbrev FeeRow := ℤ × ℤ × ℤ

/-- Every field is an `int64_t` and no subsidy is negative. -/
structure Window (rows : List FeeRow) : Prop where
  coinbase : ∀ r ∈ rows, IsInt64 r.1
  subsidy : ∀ r ∈ rows, IsInt64 r.2.1 ∧ 0 ≤ r.2.1
  bytes : ∀ r ∈ rows, IsInt64 r.2.2

/-- Whole koinu a byte above the subsidy. -/
def feeDensity (r : FeeRow) : ℤ := max (r.1 - r.2.1) 0 / max r.2.2 1

/-- The blocks that pay at least one koinu a byte. -/
def participants (rows : List FeeRow) : List FeeRow := rows.filter fun r => 1 ≤ feeDensity r

/-- The lower median of the participants. -/
def medianDensity (rows : List FeeRow) : ℤ :=
  Rank.lowerMedian ((participants rows).map feeDensity) 0

/-- The rate of a fee density. -/
def scaledRate (v : ℤ) : ℤ := min (200 * v) 100000000

theorem scaledRate_mono {v w : ℤ} (h : v ≤ w) : scaledRate v ≤ scaledRate w := by
  unfold scaledRate
  omega

theorem participants_perm {rows rows' : List FeeRow} (h : rows.Perm rows') :
    (participants rows).Perm (participants rows') := h.filter _

theorem participants_append (mine others : List FeeRow) :
    participants (mine ++ others) = participants mine ++ participants others :=
  List.filter_append ..

theorem medianDensity_perm {rows rows' : List FeeRow} (h : rows.Perm rows') :
    medianDensity rows = medianDensity rows' := by
  have hmap := (participants_perm h).map feeDensity
  unfold medianDensity Rank.lowerMedian
  rw [Rank.ofRank_perm hmap, hmap.length_eq]

/-- A nonempty sample's median is one of its densities. -/
theorem medianDensity_mem {rows : List FeeRow} (h : 0 < (participants rows).length) :
    ∃ r ∈ participants rows, feeDensity r = medianDensity rows := by
  have hmem := Rank.ofRank_mem (l := (participants rows).map feeDensity)
    (k := ((participants rows).length - 1) / 2) (by rw [List.length_map]; omega) 0
  rw [List.mem_map] at hmem
  obtain ⟨r, hr, heq⟩ := hmem
  refine ⟨r, hr, ?_⟩
  unfold medianDensity Rank.lowerMedian
  rw [heq, List.length_map]

theorem feeDensity_bounds {r : FeeRow} (hc : IsInt64 r.1) (hs : 0 ≤ r.2.1) :
    0 ≤ feeDensity r ∧ feeDensity r < 2 ^ 63 := by
  unfold IsInt64 at hc
  have hfees : max (r.1 - r.2.1) 0 < 2 ^ 63 := by omega
  have hle := Int.ediv_le_self (max r.2.2 1) (show 0 ≤ max (r.1 - r.2.1) 0 by omega)
  have hge := Int.ediv_nonneg (show 0 ≤ max (r.1 - r.2.1) 0 by omega)
    (show 0 ≤ max r.2.2 1 by omega)
  unfold feeDensity
  omega

/-! ### The loop bodies -/

theorem feesPerByte_eq {r : FeeRow} (hc : IsInt64 r.1) (hs : 0 ≤ r.2.1) :
    feesPerByte r.1 r.2.1 r.2.2 = feeDensity r := by
  have hb : (if r.2.2 > 0 then r.2.2 else 1) = max r.2.2 1 := by
    split <;> omega
  obtain ⟨hge, hlt⟩ := feeDensity_bounds hc hs
  unfold feesPerByte
  rw [hb]
  exact i64_ofInt hge hlt

theorem participantFees_eq {r : FeeRow} (hc : IsInt64 r.1) (hs : IsInt64 r.2.1 ∧ 0 ≤ r.2.1)
    (hb : IsInt64 r.2.2) :
    participantFees r.1 r.2.1 r.2.2
      = if 1 ≤ feeDensity r then some (UInt64.ofInt (feeDensity r)) else none := by
  obtain ⟨hge, hlt⟩ := feeDensity_bounds hc hs.2
  unfold IsInt64 at hc hs hb
  by_cases hle : r.1 ≤ r.2.1
  · have hzero : feeDensity r = 0 := by
      unfold feeDensity
      rw [max_eq_right (by omega), Int.zero_ediv]
    rw [participantFees, if_pos hle, hzero, if_neg (by omega)]
  · -- the difference fits a word, so the wrapping subtraction is exact
    have hfees : (UInt64.ofInt r.1 - UInt64.ofInt r.2.1).toNat = r.1 - r.2.1 := by
      have h1 := toNat_ofInt r.1
      have h2 := toNat_ofInt r.2.1
      rw [UInt64.toNat_sub]
      omega
    have hsize : (if r.2.2 ≤ 0 then 1 else r.2.2) = max r.2.2 1 := by
      split <;> omega
    have hword : UInt64.ofInt (feeDensity r)
        = (UInt64.ofInt r.1 - UInt64.ofInt r.2.1) / UInt64.ofInt (max r.2.2 1) := by
      apply UInt64.toNat_inj.mp
      have hquot := toNat_ofInt_of_lt hge (by omega)
      have hb' := toNat_ofInt_of_lt (v := max r.2.2 1) (by omega) (by omega)
      rw [UInt64.toNat_div]
      zify
      rw [hquot, hfees, hb']
      unfold feeDensity
      rw [max_eq_left (by omega)]
    have hone : 1 ≤ UInt64.ofInt (feeDensity r) ↔ 1 ≤ feeDensity r := by
      have hquot := toNat_ofInt_of_lt hge (by omega)
      rw [UInt64.le_iff_toNat_le, UInt64.toNat_one]
      omega
    rw [participantFees, if_neg hle]
    simp only [hsize, ← hword, hone]

/-- The participants' densities, as the C array holds them. -/
theorem participants_fpb {rows : List FeeRow} (h : Window rows) :
    (rows.map fun r => feesPerByte r.1 r.2.1 r.2.2).filter (fun v => 1 ≤ v)
      = (participants rows).map feeDensity := by
  have hmap : (rows.map fun r => feesPerByte r.1 r.2.1 r.2.2) = rows.map feeDensity := by
    refine List.map_congr_left fun r hr => ?_
    exact feesPerByte_eq (h.coinbase r hr) (h.subsidy r hr).2
  rw [hmap, List.filter_map]
  rfl

/-- The same densities, as the Go slice holds them. -/
theorem participants_slice {rows : List FeeRow} (h : Window rows) :
    rows.filterMap (fun r => participantFees r.1 r.2.1 r.2.2)
      = ((participants rows).map feeDensity).map UInt64.ofInt := by
  induction rows with
  | nil => rfl
  | cons r rows ih =>
    have hrow := participantFees_eq (h.coinbase r (by simp)) (h.subsidy r (by simp))
      (h.bytes r (by simp))
    have hrest := ih ⟨fun x hx => h.coinbase x (by simp [hx]),
      fun x hx => h.subsidy x (by simp [hx]), fun x hx => h.bytes x (by simp [hx])⟩
    rw [List.filterMap_cons, hrow]
    by_cases hpay : 1 ≤ feeDensity r
    · simp only [participants, if_pos hpay, List.filter_cons, decide_eq_true hpay, if_true,
        List.map_cons]
      rw [hrest]
      rfl
    · simp only [participants, if_neg hpay, List.filter_cons, decide_eq_false hpay]
      exact hrest

/-! ### The rate -/

theorem smOracleRate_small {rows : List FeeRow} (h : Window rows)
    (hk : (participants rows).length < 1000) : smOracleRate rows = 1 := by
  unfold smOracleRate
  simp only [participants_fpb h, List.length_map, minFeeSample]
  rw [if_pos hk]
  rfl

theorem medianDensity_bounds {rows : List FeeRow} (h : Window rows)
    (hk : 0 < (participants rows).length) :
    1 ≤ medianDensity rows ∧ medianDensity rows < 2 ^ 63 := by
  obtain ⟨r, hr, heq⟩ := medianDensity_mem hk
  obtain ⟨hmem, hpay⟩ := List.mem_filter.mp hr
  obtain ⟨-, hlt⟩ := feeDensity_bounds (h.coinbase r hmem) (h.subsidy r hmem).2
  rw [← heq]
  exact ⟨of_decide_eq_true hpay, hlt⟩

theorem smOracleRate_large {rows : List FeeRow} (h : Window rows)
    (hk : 1000 ≤ (participants rows).length) :
    ((smOracleRate rows).toNat : ℤ) = scaledRate (medianDensity rows) := by
  obtain ⟨hge, hlt⟩ := medianDensity_bounds h (by omega)
  have hcount : ¬ (participants rows).length < 1000 := by omega
  have hmed : (((participants rows).map feeDensity).insertionSort (· ≤ ·)).getD
      (((participants rows).length - 1) / 2) 0 = medianDensity rows := by
    unfold medianDensity Rank.lowerMedian Rank.ofRank
    rw [List.length_map]
  unfold smOracleRate
  simp only [participants_fpb h, List.length_map, minFeeSample]
  rw [if_neg hcount, hmed]
  have hcap : rateCap = 100000000 := rfl
  simp only [refSize, hcap]
  rw [toNat_ofInt_of_lt (by omega) (by omega)]
  unfold scaledRate
  omega

/-- The sorted slice of words is the slice of the sorted densities. -/
theorem medianDensity_word {rows : List FeeRow} (h : Window rows) :
    ((((participants rows).map feeDensity).map UInt64.ofInt).insertionSort (· ≤ ·)).getD
      (((participants rows).length - 1) / 2) 0 = UInt64.ofInt (medianDensity rows) := by
  have hword : ∀ v ∈ (participants rows).map feeDensity, ((UInt64.ofInt v).toNat : ℤ) = v := by
    intro v hv
    obtain ⟨r, hr, rfl⟩ := List.mem_map.mp hv
    have hmem := (List.mem_filter.mp hr).1
    obtain ⟨hge, hlt⟩ := feeDensity_bounds (h.coinbase r hmem) (h.subsidy r hmem).2
    exact toNat_ofInt_of_lt hge (by omega)
  have hmono : ∀ a ∈ (participants rows).map feeDensity,
      ∀ b ∈ (participants rows).map feeDensity,
      a ≤ b ↔ UInt64.ofInt a ≤ UInt64.ofInt b := by
    intro a ha b hb
    have ha' := hword a ha
    have hb' := hword b hb
    rw [UInt64.le_iff_toNat_le]
    omega
  unfold medianDensity Rank.lowerMedian Rank.ofRank
  rw [← List.map_insertionSort (· ≤ ·) (· ≤ ·) UInt64.ofInt _ hmono, List.length_map]
  exact List.getD_map _ (0 : ℤ) UInt64.ofInt

/-- The clamp of `oracleRate` on the two words of a 128-bit product. -/
theorem scaledRate_words {v : ℤ} {hi lo : UInt64} (hv : 1 ≤ v) (hhi : hi = 0 ↔ 200 * v < 2 ^ 64)
    (hlo : (lo.toNat : ℤ) = 200 * v % 2 ^ 64) :
    ((if hi ≠ 0 ∨ UInt64.ofInt rateCap < lo then UInt64.ofInt rateCap
      else if lo < dustFloor then dustFloor else lo).toNat : ℤ) = scaledRate v := by
  have hcap : (UInt64.ofInt rateCap).toNat = 100000000 := rfl
  have hdust : dustFloor.toNat = 1 := rfl
  unfold scaledRate
  by_cases hfit : 200 * v < 2 ^ 64
  · rw [Int.emod_eq_of_lt (by omega) hfit] at hlo
    by_cases hbig : 100000000 < 200 * v
    · have hover : UInt64.ofInt rateCap < lo := by
        rw [UInt64.lt_iff_toNat_lt, hcap]
        omega
      rw [if_pos (Or.inr hover), hcap]
      omega
    · have hunder : ¬ UInt64.ofInt rateCap < lo := by
        rw [UInt64.lt_iff_toNat_lt, hcap]
        omega
      have hdown : ¬ lo < dustFloor := by
        rw [UInt64.lt_iff_toNat_lt, hdust]
        omega
      rw [if_neg (not_or.mpr ⟨not_not.mpr (hhi.mpr hfit), hunder⟩), if_neg hdown, hlo]
      omega
  · rw [if_pos (Or.inl fun hz => hfit (hhi.mp hz)), hcap]
    omega

theorem mul64_density {v : ℤ} (hge : 1 ≤ v) (hlt : v < 2 ^ 63) :
    ((mul64 (UInt64.ofInt v) (UInt64.ofInt refSize)).1 = 0 ↔ 200 * v < 2 ^ 64) ∧
    ((mul64 (UInt64.ofInt v) (UInt64.ofInt refSize)).2.toNat : ℤ) = 200 * v % 2 ^ 64 := by
  have hword := toNat_ofInt_of_lt (v := v) (by omega) (by omega)
  have href : (UInt64.ofInt refSize).toNat = 200 := rfl
  constructor
  · rw [mul64_eq_zero_iff, href]
    omega
  · have hlo := UInt64.toNat_mul (UInt64.ofInt v) (UInt64.ofInt refSize)
    rw [href] at hlo
    unfold mul64
    rw [hlo]
    omega

theorem oracleRate_eq {rows : List FeeRow} (h : Window rows) :
    oracleRate (rows.map (·.1)) (rows.map (·.2.1)) (rows.map (·.2.2)) = smOracleRate rows := by
  have hzip : (rows.map (·.1)).zip ((rows.map (·.2.1)).zip (rows.map (·.2.2))) = rows := by
    rw [List.zip_map', List.zip_map']
    simp
  unfold oracleRate
  simp only [List.length_map, hzip, participants_slice h, minFeeSample]
  by_cases hempty : rows.length = 0
  · have hnil := List.length_eq_zero_iff.mp hempty
    rw [if_pos (Or.inl hempty), hnil]
    rfl
  rw [if_neg (by simp [hempty])]
  by_cases hk : (participants rows).length < 1000
  · rw [if_pos hk, smOracleRate_small h hk]
    rfl
  · obtain ⟨hge, hlt⟩ := medianDensity_bounds h (by omega)
    obtain ⟨hhi, hlo⟩ := mul64_density hge hlt
    have hclamp := scaledRate_words hge hhi hlo
    have hlarge := smOracleRate_large h (by omega)
    rw [if_neg hk, medianDensity_word h]
    apply UInt64.toNat_inj.mp
    zify
    exact hclamp.trans hlarge.symm

/-! ### What a minority can do -/

/-- With a sample, a strict majority of the participants holds the rate between two of its own. -/
theorem smOracleRate_majority {rows mine others : List FeeRow} (h : Window rows)
    (hsplit : rows.Perm (mine ++ others)) (hk : 1000 ≤ (participants rows).length)
    (hmost : (participants others).length < (participants mine).length) :
    ∃ a ∈ participants mine, ∃ b ∈ participants mine,
      scaledRate (feeDensity a) ≤ (smOracleRate rows).toNat ∧
      ((smOracleRate rows).toNat : ℤ) ≤ scaledRate (feeDensity b) := by
  have hdensities := (participants_perm hsplit).map feeDensity
  rw [participants_append, List.map_append] at hdensities
  obtain ⟨v, hv, w, hw, hlow, hhigh⟩ :=
    Rank.lowerMedian_majority hdensities (by simpa using hmost) 0
  obtain ⟨a, ha, rfl⟩ := List.mem_map.mp hv
  obtain ⟨b, hb, rfl⟩ := List.mem_map.mp hw
  rw [smOracleRate_large h hk]
  exact ⟨a, ha, b, hb, scaledRate_mono hlow, scaledRate_mono hhigh⟩

theorem Window.perm {rows rows' : List FeeRow} (h : Window rows) (hp : rows.Perm rows') :
    Window rows' :=
  ⟨fun r hr => h.coinbase r (hp.mem_iff.mpr hr), fun r hr => h.subsidy r (hp.mem_iff.mpr hr),
    fun r hr => h.bytes r (hp.mem_iff.mpr hr)⟩

theorem smOracleRate_perm {rows rows' : List FeeRow} (h : Window rows) (hp : rows.Perm rows') :
    smOracleRate rows = smOracleRate rows' := by
  have hcount := (participants_perm hp).length_eq
  by_cases hk : (participants rows).length < 1000
  · rw [smOracleRate_small h hk, smOracleRate_small (h.perm hp) (by omega)]
  · apply UInt64.toNat_inj.mp
    zify
    rw [smOracleRate_large h (by omega), smOracleRate_large (h.perm hp) (by omega),
      medianDensity_perm hp]

theorem smOracleRate_bounds {rows : List FeeRow} (h : Window rows) :
    1 ≤ (smOracleRate rows).toNat ∧ (smOracleRate rows).toNat ≤ 100000000 := by
  by_cases hk : (participants rows).length < 1000
  · rw [smOracleRate_small h hk]
    decide
  · have hlarge := smOracleRate_large h (by omega)
    obtain ⟨hge, -⟩ := medianDensity_bounds h (by omega)
    unfold scaledRate at hlarge
    omega

/-- The 128-bit and 64-bit values the loop computes for a block. -/
structure FitsWords (r : FeeRow) : Prop where
  fees : -2 ^ 127 ≤ r.1 - r.2.1 ∧ r.1 - r.2.1 < 2 ^ 127
  density : feesPerByte r.1 r.2.1 r.2.2 = feeDensity r ∧ IsInt64 (feeDensity r)
  product : 200 * feeDensity r < 2 ^ 127

theorem Window.fitsWords {rows : List FeeRow} (h : Window rows) {r : FeeRow} (hr : r ∈ rows) :
    FitsWords r := by
  have hc := h.coinbase r hr
  have hs := h.subsidy r hr
  have hdensity := feesPerByte_eq hc hs.2
  obtain ⟨hge, hlt⟩ := feeDensity_bounds hc hs.2
  unfold IsInt64 at hc hs
  exact ⟨by omega, ⟨hdensity, by unfold IsInt64; omega⟩, by omega⟩

/-- The rate is the clamped lower median of the participants, in every order of the blocks and in
both implementations. -/
theorem oracle_rate_median (rows : List FeeRow) (h : Window rows) :
    (1 ≤ (smOracleRate rows).toNat ∧ (smOracleRate rows).toNat ≤ 100000000) ∧
    (∀ rows', rows.Perm rows' → smOracleRate rows' = smOracleRate rows) ∧
    (∀ r ∈ rows, FitsWords r) ∧
    ((participants rows).length < 1000 → smOracleRate rows = 1) ∧
    (1000 ≤ (participants rows).length →
      ((smOracleRate rows).toNat : ℤ) = min (200 * medianDensity rows) 100000000) ∧
    oracleRate (rows.map (·.1)) (rows.map (·.2.1)) (rows.map (·.2.2)) = smOracleRate rows ∧
    (∀ mine others, rows.Perm (mine ++ others) → 1000 ≤ (participants rows).length →
      (participants others).length < (participants mine).length →
      ∃ a ∈ participants mine, ∃ b ∈ participants mine,
        scaledRate (feeDensity a) ≤ (smOracleRate rows).toNat ∧
        ((smOracleRate rows).toNat : ℤ) ≤ scaledRate (feeDensity b)) := by
  refine ⟨smOracleRate_bounds h, ?_, ?_, smOracleRate_small h, smOracleRate_large h,
    oracleRate_eq h, ?_⟩
  · intro rows' hp
    exact (smOracleRate_perm h hp).symm
  · intro r hr
    exact h.fitsWords hr
  · intro mine others hsplit hk hmost
    exact smOracleRate_majority h hsplit hk hmost

/-- A block of the samples: two koinu a byte. -/
def sampleRow : FeeRow := (300, 100, 100)

theorem window_replicate (n : ℕ) : Window (List.replicate n sampleRow) := by
  have hrow : ∀ r ∈ List.replicate n sampleRow, r = sampleRow :=
    fun r hr => List.eq_of_mem_replicate hr
  refine ⟨?_, ?_, ?_⟩ <;> intro r hr <;> rw [hrow r hr] <;> norm_num [IsInt64, sampleRow]

theorem participants_replicate (n : ℕ) :
    participants (List.replicate n sampleRow) = List.replicate n sampleRow :=
  List.filter_replicate_of_pos (by decide)

theorem oracle_rate_median_sample :
    (participants (List.replicate 999 sampleRow)).length = 999 ∧
    smOracleRate (List.replicate 999 sampleRow) = 1 ∧
    (participants (List.replicate 1000 sampleRow)).length = 1000 ∧
    ((smOracleRate (List.replicate 1000 sampleRow)).toNat : ℤ)
      = min (200 * medianDensity (List.replicate 1000 sampleRow)) 100000000 ∧
    (∃ a ∈ participants (List.replicate 600 sampleRow),
      ∃ b ∈ participants (List.replicate 600 sampleRow),
      scaledRate (feeDensity a) ≤ (smOracleRate (List.replicate 1000 sampleRow)).toNat ∧
      ((smOracleRate (List.replicate 1000 sampleRow)).toNat : ℤ) ≤ scaledRate (feeDensity b)) := by
  have hlen : ∀ n, (participants (List.replicate n sampleRow)).length = n := by
    intro n
    rw [participants_replicate, List.length_replicate]
  have hsplit : (List.replicate 1000 sampleRow).Perm
      (List.replicate 600 sampleRow ++ List.replicate 400 sampleRow) := by
    rw [List.replicate_append_replicate]
  obtain ⟨-, -, -, hsmall, -⟩ := oracle_rate_median _ (window_replicate 999)
  obtain ⟨-, -, -, -, hlarge, -, hmajority⟩ := oracle_rate_median _ (window_replicate 1000)
  refine ⟨hlen 999, hsmall (by rw [hlen]; omega), hlen 1000, hlarge (by rw [hlen]), ?_⟩
  exact hmajority _ _ hsplit (by rw [hlen]) (by rw [hlen, hlen]; omega)

/-- Neither the rate of a member's block alone nor its own scaled density bounds the rate:
below the sample size the rate is the floor, and one block is never a sample. -/
theorem member_alone_not_bound :
    (¬ ∀ rows mine others, Window rows → rows.Perm (mine ++ others) →
      (participants others).length < (participants mine).length →
      ∃ a ∈ mine, ∃ b ∈ mine,
        smOracleRate [a] ≤ smOracleRate rows ∧ smOracleRate rows ≤ smOracleRate [b]) ∧
    (¬ ∀ rows mine others, Window rows → rows.Perm (mine ++ others) →
      (participants others).length < (participants mine).length →
      ∃ a ∈ mine, ∃ b ∈ mine,
        scaledRate (feeDensity a) ≤ (smOracleRate rows).toNat ∧
        ((smOracleRate rows).toNat : ℤ) ≤ scaledRate (feeDensity b)) := by
  have hlen : ∀ n, (participants (List.replicate n sampleRow)).length = n := by
    intro n
    rw [participants_replicate, List.length_replicate]
  have hsplit : ∀ n, (List.replicate n sampleRow).Perm (List.replicate n sampleRow ++ []) := by
    intro n
    rw [List.append_nil]
  have hrate : smOracleRate (List.replicate 1 sampleRow) = 1 :=
    smOracleRate_small (window_replicate 1) (by rw [hlen]; omega)
  have hone : smOracleRate [sampleRow] = 1 := hrate
  constructor
  · intro hall
    obtain ⟨-, -, b, hb, -, hle⟩ := hall _ _ [] (window_replicate 1000) (hsplit 1000)
      (by rw [hlen]; exact Nat.zero_lt_succ 999)
    have hfull : 0 < (participants (List.replicate 1000 sampleRow)).length := by
      rw [hlen]
      omega
    obtain ⟨r, hr, hmed⟩ := medianDensity_mem hfull
    have hlarge := smOracleRate_large (window_replicate 1000) (by rw [hlen])
    rw [List.eq_of_mem_replicate hb, hone, UInt64.le_iff_toNat_le, UInt64.toNat_one] at hle
    rw [participants_replicate] at hr
    rw [← hmed, List.eq_of_mem_replicate hr] at hlarge
    have hdensity : scaledRate (feeDensity sampleRow) = 400 := by decide
    omega
  · intro hall
    obtain ⟨a, ha, -, -, hle, -⟩ := hall _ _ [] (window_replicate 1) (hsplit 1)
      (by rw [hlen]; exact Nat.zero_lt_one)
    rw [List.eq_of_mem_replicate ha, hrate] at hle
    have hdensity : scaledRate (feeDensity sampleRow) = 400 := by decide
    rw [hdensity, UInt64.toNat_one] at hle
    omega

end NamespaceIndexer.Daemon
