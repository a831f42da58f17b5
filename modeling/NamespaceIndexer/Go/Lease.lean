import NamespaceIndexer.Go.Fold

/-!
# The Go port: days of a lease

The days a burn buys, and that the level scan gives each name what the rounds of `sm_waterfill`
give.
-/

namespace NamespaceIndexer.Go

open Fold Lib Daemon

/-! ### Headroom -/

theorem headroomDays_eq (expiry now : ℤ) : headroomDays expiry now = (headroom now expiry : ℕ) := by
  unfold headroomDays headroom
  dsimp only
  rw [Int.toNat_of_nonneg]
  split <;> omega

/-! ### Days bought -/

theorem mul64_fst (a b : UInt64) : (mul64 a b).1.toNat = a.toNat * b.toNat / 2 ^ 64 := by
  have ha := a.toNat_lt
  have hb := b.toNat_lt
  have hlt : a.toNat * b.toNat / 2 ^ 64 < 2 ^ 64 := by
    rw [Nat.div_lt_iff_lt_mul (by decide)]
    exact Nat.mul_lt_mul'' ha hb
  unfold mul64
  rw [UInt64.toNat_ofNat', Nat.mod_eq_of_lt hlt]

theorem mul64_snd (a b : UInt64) : (mul64 a b).2.toNat = a.toNat * b.toNat % 2 ^ 64 :=
  UInt64.toNat_mul a b

/-- The quotient of a product of 128 bits. -/
theorem div128by64_mul64 (a b den : UInt64) :
    div128by64 (mul64 a b).1 (mul64 a b).2 den = UInt64.ofNat (a.toNat * b.toNat / den.toNat) := by
  unfold div128by64
  rw [mul64_fst, mul64_snd, Nat.div_add_mod']

section LeaseT

variable {burn rate : UInt64}

theorem den_toNat (h : rate.toNat ≤ 100000000) :
    (rate * UInt64.ofNat billingUnit).toNat = rate.toNat * billingUnit := by
  have hunit : (UInt64.ofNat billingUnit).toNat = billingUnit := by decide
  have hval : billingUnit = 86400 := rfl
  rw [UInt64.toNat_mul, hunit, Nat.mod_eq_of_lt]
  rw [hval]
  omega

/-- The two words of the burn give the days, or that they do not fit. -/
theorem leaseT_eq (hpos : 1 ≤ rate.toNat) (hcap : rate.toNat ≤ 100000000) :
    leaseT burn rate = if 2 ^ 64 ≤ rawT burn rate then (0, true)
      else (UInt64.ofNat (rawT burn rate), false) := by
  have hne : rate ≠ 0 := by
    rintro rfl
    exact absurd hpos (by decide)
  have hquantum : (UInt64.ofNat leaseQuantum).toNat = leaseQuantum := by decide
  have hden := den_toNat hcap
  have hdpos := den_pos hne
  have hden0 : rate * UInt64.ofNat billingUnit ≠ 0 := by
    intro hzero
    rw [hzero] at hden
    exact absurd hden hdpos.ne
  have hhuge : (mul64 burn (UInt64.ofNat leaseQuantum)).1 ≥ rate * UInt64.ofNat billingUnit ↔
      2 ^ 64 ≤ rawT burn rate := by
    rw [ge_iff_le, UInt64.le_iff_toNat_le, hden, mul64_fst, hquantum, rawT_of_rate hne,
      Nat.le_div_iff_mul_le (by decide), Nat.le_div_iff_mul_le hdpos, Nat.mul_comm]
  have hquot := div128by64_mul64 burn (UInt64.ofNat leaseQuantum) (rate * UInt64.ofNat billingUnit)
  rw [hden, hquantum, ← rawT_of_rate hne] at hquot
  unfold leaseT
  dsimp only
  rw [if_neg hden0, hquot]
  exact if_congr hhuge rfl rfl

/-- The gate on the days bought. -/
theorem leaseT_none (hpos : 1 ≤ rate.toNat) (hcap : rate.toNat ≤ 100000000) :
    (!(leaseT burn rate).2 && (leaseT burn rate).1 == 0) = true ↔ rawT burn rate = 0 := by
  rw [leaseT_eq hpos hcap]
  by_cases hhuge : 2 ^ 64 ≤ rawT burn rate
  · rw [if_pos hhuge]
    simp
    omega
  · have hT : (UInt64.ofNat (rawT burn rate)).toNat = rawT burn rate := by
      rw [UInt64.toNat_ofNat', Nat.mod_eq_of_lt (by omega)]
    rw [if_neg hhuge]
    dsimp only
    rw [Bool.not_false, Bool.true_and, beq_iff_eq, ← UInt64.toNat_inj, hT]
    rfl

end LeaseT

/-! ### The level scan -/

theorem toNat_ofInt_natCast {n : ℕ} (h : n < 2 ^ 64) : (UInt64.ofInt (n : ℤ)).toNat = n := by
  have hword := toNat_ofInt n
  omega

theorem total_eq (h : List ℤ) (t : UInt64) :
    h.foldl (fun t hi => t + UInt64.ofInt hi) t = t + UInt64.ofInt h.sum := by
  induction h generalizing t with
  | nil => exact (UInt64.add_zero t).symm
  | cons x h ih => rw [List.foldl_cons, ih, List.sum_cons, UInt64.ofInt_add, UInt64.add_assoc]

theorem sumMin_eq (h : List ℤ) (lam : ℤ) : sumMin h lam = UInt64.ofInt (sumAt h lam) := by
  have hstep : ∀ s : UInt64, h.foldl (fun s hi => if hi < lam then s + UInt64.ofInt hi
      else s + UInt64.ofInt lam) s = s + UInt64.ofInt (sumAt h lam) := by
    intro s
    induction h generalizing s with
    | nil => exact (UInt64.add_zero s).symm
    | cons x h ih =>
      have hcons : sumAt (x :: h) lam = min x lam + sumAt h lam := rfl
      rw [List.foldl_cons, ih, hcons, UInt64.ofInt_add, ← UInt64.add_assoc]
      by_cases hx : x < lam
      · rw [if_pos hx, min_eq_left hx.le]
      · rw [if_neg hx, min_eq_right (not_lt.mp hx)]
  exact (hstep 0).trans (UInt64.zero_add _)

section Level

variable {h : List ℕ} (hsum : h.sum < 2 ^ 64)

include hsum

theorem total_toNat :
    ((h.map (↑)).foldl (fun t hi => t + UInt64.ofInt hi) (0 : UInt64)).toNat = h.sum := by
  rw [total_eq, UInt64.zero_add, ← Nat.cast_list_sum, toNat_ofInt_natCast hsum]

theorem sumMin_toNat (L : ℕ) : (sumMin (h.map (↑)) L).toNat = WaterFill.levelSum h L := by
  have hle := WaterFill.levelSum_le_sum h L
  rw [sumMin_eq, sumAt_cast, toNat_ofInt_natCast (by omega)]

theorem sumMin_le_iff {T : UInt64} {lam : ℤ} (hlam : 0 ≤ lam) :
    sumMin (h.map (↑)) lam ≤ T ↔ sumAt (h.map (↑)) lam ≤ T.toNat := by
  obtain ⟨L, rfl⟩ := Int.eq_ofNat_of_zero_le hlam
  rw [UInt64.le_iff_toNat_le, sumMin_toNat hsum, sumAt_cast]
  exact_mod_cast Iff.rfl

theorem isLast_level {m : ℤ} (hm : 0 ≤ m) (T : UInt64) :
    IsLast (fun mid => sumAt (h.map (↑)) mid ≤ T.toNat) 0 m
      (scanUp (fun lam => sumMin (h.map (↑)) lam ≤ T) m.toNat 0) := by
  have hiff := fun x hx => @sumMin_le_iff h hsum T x hx
  have hlast := @isLast_scanUp (fun lam => sumMin (h.map (↑)) lam ≤ T) _ 0 m.toNat
    (fun x y hx hxy hy => (hiff x hx).mpr
      (sumAt_anti _ _ x y hxy ((hiff y (hx.trans hxy)).mp hy)))
    ((hiff 0 le_rfl).mpr (sumAt_zero_le h _))
  rw [Int.toNat_of_nonneg hm, zero_add] at hlast
  exact hlast.congr hiff

/-- What the scan hands out are the shares of the rounds. -/
theorem giveOut_eq {T : UInt64} {lam : ℤ}
    (hlam : lam = scanUp (fun lam => sumMin (h.map (↑)) lam ≤ T)
      ((h.map fun x : ℕ => (x : ℤ)).foldl max 0).toNat 0) :
    giveOut (0 < ·) (lam < ·) ((h.map (↑)).zip ((h.map (↑)).map (min · lam)))
        (T - sumMin (h.map (↑)) lam).toNat
      = (WaterFill.fill h T.toNat).map (↑) := by
  have hmax := le_foldl_max (h.map (fun x : ℕ => (x : ℤ))) 0
  have hlast := isLast_level hsum hmax.1 T
  rw [← hlam] at hlast
  rw [← fill_of_isLast (fun x hx => hmax.2 x (List.mem_map_of_mem hx)) hlast (0 < ·) (lam < ·)
    (fun g => by simp) fun x _ => rfl]
  obtain ⟨L, rfl⟩ := Int.eq_ofNat_of_zero_le hlast.ge
  have hpaid := hlast.passes
  have hle := (sumMin_le_iff hsum hlast.ge).mpr hpaid
  have hleft : ((T - sumMin (h.map (↑)) L).toNat : ℤ) = T.toNat - sumAt (h.map (↑)) L := by
    rw [UInt64.toNat_sub_of_le _ _ hle, sumMin_toNat hsum]
    rw [sumAt_cast] at hpaid ⊢
    omega
  rw [hleft]

end Level

/-- The shares of a burn, in one form for days that fit 64 bits and for those that do not. -/
theorem waterFill_eq {burn rate : UInt64} (hpos : 1 ≤ rate.toNat) (hcap : rate.toNat ≤ 100000000)
    (names : Dict Name NameRow) (keys : List Name) (now : ℤ) (hkeys : keys.Nodup)
    (hsum : (keys.map fun k => headroom now (leaseExpiryOf names k)).sum < 2 ^ 64) :
    (waterFill names keys (leaseT burn rate).1 (leaseT burn rate).2 now).get
      = PartialMap.modifyAll (keys.zip (WaterFill.fill
          (keys.map fun k => headroom now (leaseExpiryOf names k)) (rawT burn rate)))
          (fun days r => { r with leaseExpiry := r.leaseExpiry + (days : ℕ) * billingUnit })
          names.get := by
  set h := keys.map fun k => headroom now (leaseExpiryOf names k) with hh
  have hheads : (keys.map fun name => headroomDays (leaseExpiryOf names name) now)
      = h.map (fun x : ℕ => (x : ℤ)) := by
    rw [hh, List.map_map]
    exact List.map_congr_left fun k _ => headroomDays_eq _ _
  have hlen : (WaterFill.fill h (rawT burn rate)).length = keys.length := by
    rw [WaterFill.fill_length, hh, List.length_map]
  have hget : ∀ add : List ℤ, add = (WaterFill.fill h (rawT burn rate)).map (↑) →
      ((keys.zip add).foldl (fun names p => names.modify p.1 fun r : NameRow =>
        { r with leaseExpiry := r.leaseExpiry + p.2 * billingUnit }) names).get
        = PartialMap.modifyAll (keys.zip (WaterFill.fill h (rawT burn rate)))
          (fun days r => { r with leaseExpiry := r.leaseExpiry + (days : ℕ) * billingUnit })
          names.get := by
    rintro add rfl
    rw [Dict.get_foldl_modify (keys.zip _) (fun (days : ℤ) (r : NameRow) =>
      { r with leaseExpiry := r.leaseExpiry + days * billingUnit }) names, List.zip_map_right,
      PartialMap.modifyAll_read]
    rwa [List.map_fst_zip (by rw [List.length_map, hlen])]
  unfold waterFill
  dsimp only
  rw [hheads]
  refine hget _ ?_
  rw [leaseT_eq hpos hcap]
  by_cases hhuge : 2 ^ 64 ≤ rawT burn rate
  · have hall : h.sum ≤ rawT burn rate := by omega
    rw [if_pos hhuge, WaterFill.fill, if_pos hall]
    rfl
  · have hT : (UInt64.ofNat (rawT burn rate)).toNat = rawT burn rate := by
      rw [UInt64.toNat_ofNat', Nat.mod_eq_of_lt (by omega)]
    rw [if_neg hhuge]
    dsimp only
    rw [Bool.false_or]
    by_cases hall : h.sum ≤ rawT burn rate
    · rw [if_pos, WaterFill.fill, if_pos hall]
      rw [decide_eq_true_eq, ge_iff_le, UInt64.le_iff_toNat_le, total_toNat hsum, hT]
      exact hall
    · rw [if_neg]
      · rw [giveOut_eq hsum rfl, hT]
      · rw [decide_eq_true_eq, ge_iff_le, UInt64.le_iff_toNat_le, total_toNat hsum, hT]
        exact hall

/-- A single fresh lease. -/
theorem leaseDaysSingle_eq {burn rate : UInt64} (hpos : 1 ≤ rate.toNat)
    (hcap : rate.toNat ≤ 100000000) (now : ℤ) :
    leaseDaysSingle burn rate now now = (min 365 (rawT burn rate) : ℕ) := by
  have hhead : headroomDays now now = 365 := by
    rw [headroomDays_eq, headroom_self]
    rfl
  unfold leaseDaysSingle
  rw [leaseT_eq hpos hcap, hhead]
  by_cases hhuge : 2 ^ 64 ≤ rawT burn rate
  · rw [if_pos hhuge, min_eq_left (by omega)]
    rfl
  · have hT : (UInt64.ofNat (rawT burn rate)).toNat = rawT burn rate := by
      rw [UInt64.toNat_ofNat', Nat.mod_eq_of_lt (by omega)]
    have h365 : (UInt64.ofInt 365).toNat = 365 := by decide
    rw [if_neg hhuge]
    dsimp only
    rw [Bool.false_or, Bool.not_false, Bool.true_and]
    by_cases hzero : rawT burn rate = 0
    · have heq : (UInt64.ofNat (rawT burn rate) == 0) = true := by
        rw [hzero]
        rfl
      rw [if_pos heq, hzero]
      rfl
    · have hne : ¬ (UInt64.ofNat (rawT burn rate) == 0) = true := by
        rw [beq_iff_eq]
        intro h0
        rw [h0] at hT
        exact hzero hT.symm
      rw [if_neg hne]
      by_cases hfull : 365 ≤ rawT burn rate
      · rw [if_pos, min_eq_left hfull]
        · rfl
        · rw [decide_eq_true_eq, ge_iff_le, UInt64.le_iff_toNat_le, hT, h365]
          exact hfull
      · rw [if_neg, min_eq_right (by omega)]
        · have hword : UInt64.ofNat (rawT burn rate) = UInt64.ofInt (rawT burn rate : ℤ) := by
            rw [← UInt64.toNat_inj, hT, toNat_ofInt_natCast (by omega)]
          rw [hword, i64_ofInt (by omega) (by omega)]
        rw [decide_eq_true_eq, ge_iff_le, UInt64.le_iff_toNat_le, hT, h365]
        exact hfull

end NamespaceIndexer.Go
