import NamespaceIndexer.Ledger.Records
import NamespaceIndexer.Ledger.Waterfill
import NamespaceIndexer.Lib.Bisect

/-!
# The water-fill of the ports (`Lease.java`, `Lease.cs`, `fold.py`)

The ports search the level by bisection, each in its own way, and hand out what is left above it.
They come to the shares that the rounds of `sm_waterfill` come to.
-/

namespace NamespaceIndexer

open Fold Lib

/-! ### The ports -/

/-- The loop over what is left: one day to each cell `(h, add)` that takes one, while there is
more. -/
def giveOut (more takes : ℤ → Bool) : List (ℤ × ℤ) → ℤ → List ℤ
  | [], _ => []
  | (h, add) :: cells, give =>
    if !more give then add :: cells.map Prod.snd
    else if takes h then (add + 1) :: giveOut more takes cells (give - 1)
    else add :: giveOut more takes cells give

/-- `Σ min(h_i, λ)`. -/
def sumAt (h : List ℤ) (level : ℤ) : ℤ := (h.map (min · level)).sum

/-- `Lease.waterfill`. -/
def Java.waterfill (curExpiry : List ℤ) (mtp value rate : ℤ) : Option (List ℤ) :=
  let T := (value * leaseQuantum).tdiv (rate * billingUnit)
  if T = 0 then none
  else
    let h := curExpiry.map fun e =>
      let held := e - mtp
      let hi := (maxLease - held).tdiv billingUnit
      if hi < 0 then 0 else hi
    let maxh := h.foldl max 0
    let lambda := closeIn (fun mid => sumAt h mid ≤ T) 0 maxh 0
    let add := h.map (min · lambda)
    let give := T - add.sum
    some (giveOut (0 < ·) (lambda < ·) (h.zip add) give)

/-- `TotalNameDays`. -/
def Cs.totalNameDays (burn rate : UInt64) : ℕ :=
  let num := burn.toNat * leaseQuantum
  let den := rate.toNat * billingUnit
  if den = 0 then 0 else num / den

/-- `HeadroomDays`. -/
def Cs.headroomDays (expiry now : ℤ) : ℤ :=
  let remaining := expiry - now
  let slack := maxLease - remaining
  let slack := if slack < 0 then 0 else slack
  slack.tdiv billingUnit

/-- `lo + (hi - lo + 1) / 2`. -/
def Cs.probe : Probe where
  mid lo hi := lo + (hi - lo + 1) / 2
  above := by omega
  within := by omega

/-- `WaterFill`. The loops over `idx` are loops over the positive headrooms. -/
def Cs.waterFill (T : ℕ) (headroom : List ℤ) : List ℤ :=
  let idx := headroom.filter (0 < ·)
  let sumH := idx.sum
  let maxH := idx.foldl max 0
  if idx.length = 0 then headroom.map fun _ => 0
  else if (T : ℤ) ≥ sumH then headroom.map fun h => if 0 < h then h else 0
  else
    let lambda := Cs.probe.narrow (fun mid => sumAt idx mid ≤ T) 0 maxH
    let add := headroom.map fun h => if 0 < h then min h lambda else 0
    let remainder := T - sumAt idx lambda
    giveOut (· ≠ 0) (fun h => 0 < h ∧ lambda < h) (headroom.zip add) remainder

/-- `lease_days`. -/
def Py.leaseDays (burn rate : ℤ) : ℤ :=
  let num := burn * leaseQuantum
  let den := rate * billingUnit
  if den = 0 then 0 else num.fdiv den

/-- `(lo + hi + 1) // 2`. -/
def Py.probe : Probe where
  mid lo hi := (lo + hi + 1) / 2
  above := by omega
  within := by omega

/-- A dict from names to days. -/
abbrev Py.Alloc := Bytes → Option ℤ

/-- `for n, h in zip(..): alloc[n] = h`. -/
def Py.assign (alloc : Py.Alloc) (cells : List (Bytes × ℤ)) : Py.Alloc :=
  cells.foldl (fun alloc c => Function.update alloc c.1 (some c.2)) alloc

/-- The loop over `rem`. -/
def Py.addOne (lam : ℤ) : Py.Alloc → List (Bytes × ℤ) → ℤ → Py.Alloc
  | alloc, [], _ => alloc
  | alloc, (n, h) :: cells, rem =>
    if rem = 0 then alloc
    else if lam < h then
      Py.addOne lam (Function.update alloc n ((alloc n).map (· + 1))) cells (rem - 1)
    else Py.addOne lam alloc cells rem

/-- `water_fill`. -/
def Py.waterFill (burn rate now : ℤ) (expiries : List ℤ) (names : List Bytes) : Option Py.Alloc :=
  let T := Py.leaseDays burn rate
  if T = 0 then none
  else
    let headroom := expiries.map fun e =>
      let h := (maxLease - (e - now)).fdiv billingUnit
      if h < 0 then 0 else h
    let alloc := Py.assign (fun _ => none) (names.map (·, 0))
    if T ≥ headroom.sum then some (Py.assign alloc (names.zip headroom))
    else
      -- no headroom is negative: `max(headroom) if headroom else 0`
      let lam := Py.probe.narrow (fun mid => sumAt headroom mid ≤ T) 0 (headroom.foldl max 0)
      let rem := T - sumAt headroom lam
      let alloc := Py.assign alloc (names.zip (headroom.map (min · lam)))
      if rem > 0 then some (Py.addOne lam alloc (names.zip headroom) rem) else some alloc

/-! ### The level -/

theorem sumAt_cast (h : List ℕ) (L : ℕ) :
    sumAt (h.map (↑)) L = (WaterFill.levelSum h L : ℤ) := by
  unfold sumAt WaterFill.levelSum
  induction h with
  | nil => rfl
  | cons x h ih =>
    simp only [List.map_cons, List.sum_cons] at ih ⊢
    rw [ih]
    push_cast
    rfl

theorem sumAt_zero_le (h : List ℕ) (T : ℕ) : sumAt (h.map (↑)) 0 ≤ T := by
  have hzero := sumAt_cast h 0
  rw [WaterFill.levelSum_zero] at hzero
  exact hzero.le.trans (Int.natCast_nonneg T)

theorem sumAt_anti (h : List ℤ) (T : ℤ) (x y : ℤ) (hxy : x ≤ y) (hy : sumAt h y ≤ T) :
    sumAt h x ≤ T := by
  refine le_trans ?_ hy
  exact List.sum_le_sum fun i _ => min_le_min_left i hxy

theorem le_foldl_max (h : List ℤ) (m : ℤ) : m ≤ h.foldl max m ∧ ∀ x ∈ h, x ≤ h.foldl max m := by
  induction h generalizing m with
  | nil => simp
  | cons x h ih =>
    obtain ⟨hm, hall⟩ := ih (max m x)
    refine ⟨le_trans (le_max_left m x) hm, fun y hy => ?_⟩
    rcases List.mem_cons.mp hy with rfl | hy
    · exact le_trans (le_max_right m y) hm
    · exact hall y hy

theorem giveOut_done {more takes : ℤ → Bool} {give : ℤ} (h : more give = false)
    (cells : List (ℤ × ℤ)) : giveOut more takes cells give = cells.map Prod.snd := by
  cases cells with
  | nil => rfl
  | cons c cells => rw [giveOut, h, Bool.not_false, if_pos rfl, List.map_cons]

/-- What is handed out above a level is its top-up. -/
theorem giveOut_topUp {more takes : ℤ → Bool} (hmore : ∀ g : ℕ, more g = decide (0 < g)) {L : ℕ}
    {h : List ℕ} (htakes : ∀ x ∈ h, takes (x : ℕ) = decide (L < x)) (R : ℕ) :
    giveOut more takes (h.map fun x : ℕ => ((x : ℤ), ((min x L : ℕ) : ℤ))) R
      = (WaterFill.topUp L h R).map (↑) := by
  induction h generalizing R with
  | nil => rfl
  | cons x h ih =>
    have hx := htakes x List.mem_cons_self
    have hrest := fun y hy => htakes y (List.mem_cons_of_mem x hy)
    rw [List.map_cons, giveOut, hmore, hx, WaterFill.topUp]
    by_cases hR : 0 < R
    · by_cases hL : L < x
      · have hmin : min x L = L := Nat.min_eq_right hL.le
        have hgive : (R : ℤ) - 1 = (R - 1 : ℕ) := by omega
        rw [decide_eq_true hR, decide_eq_true hL, if_neg (by simp), if_pos rfl, if_pos ⟨hR, hL⟩,
          hgive, ih hrest, List.map_cons, hmin]
        push_cast
        rfl
      · rw [decide_eq_true hR, decide_eq_false hL, if_neg (by simp), if_neg (by simp),
          if_neg fun hc => hL hc.2, ih hrest, List.map_cons]
    · have hzero : R = 0 := by omega
      rw [decide_eq_false hR, Bool.not_false, if_pos rfl, if_neg fun hc => hR hc.1, hzero, WaterFill.topUp_zero,
        List.map_cons, List.map_map, List.map_map]
      rfl

/-- The last level that can be paid gives the shares of the rounds. -/
theorem fill_of_isLast {h : List ℕ} {T : ℕ} {m lambda : ℤ} (hm : ∀ x ∈ h, (x : ℤ) ≤ m)
    (hlast : IsLast (fun mid => sumAt (h.map (↑)) mid ≤ T) 0 m lambda) (more takes : ℤ → Bool)
    (hmore : ∀ g : ℕ, more g = decide (0 < g))
    (htakes : ∀ x ∈ h, takes (x : ℕ) = decide (lambda < x)) :
    giveOut more takes ((h.map (↑)).zip ((h.map (↑)).map (min · lambda)))
        (T - sumAt (h.map (↑)) lambda)
      = (WaterFill.fill h T).map (↑) := by
  obtain ⟨L, rfl⟩ := Int.eq_ofNat_of_zero_le hlast.ge
  obtain ⟨M, rfl⟩ := Int.eq_ofNat_of_zero_le (hlast.ge.trans hlast.le)
  have hpay : WaterFill.levelSum h L ≤ T := by
    have hok := hlast.passes
    rw [sumAt_cast] at hok
    exact_mod_cast hok
  have hfails : ∀ x, L < x → x ≤ M → T < WaterFill.levelSum h x := by
    intro x hx hxM
    have hno := hlast.fails x (by exact_mod_cast hx) (by exact_mod_cast hxM)
    rw [sumAt_cast] at hno
    exact_mod_cast not_le.mp hno
  have hcells : (h.map (↑)).zip ((h.map (↑)).map (min · (L : ℤ)))
      = h.map fun x : ℕ => ((x : ℤ), ((min x L : ℕ) : ℤ)) := by
    rw [List.map_map, List.zip_map']
    simp only [Function.comp_apply, Nat.cast_min]
  have hgive : (T : ℤ) - sumAt (h.map (↑)) L = (T - WaterFill.levelSum h L : ℕ) := by
    rw [sumAt_cast]
    omega
  rw [hcells, hgive, giveOut_topUp hmore fun x hx => by rw [htakes x hx]; simp,
    WaterFill.topUp_of_last (fun x hx => by exact_mod_cast hm x hx) (by exact_mod_cast hlast.le) hpay
      hfails]

/-! ### Days bought, and headroom -/

theorem headroomDays_of_held {now e : ℤ} (h : now ≤ e) :
    headroomDays now e = ((maxLease - (e - now)) / billingUnit).toNat := by
  rw [headroomDays, max_eq_right (by omega)]

section Ports

variable {now : ℤ} {es : List ℤ} {burn rate : UInt64}

theorem rawT_of_rate (h : rate ≠ 0) :
    rawT burn rate = burn.toNat * leaseQuantum / (rate.toNat * billingUnit) := by
  unfold rawT
  simp only [if_neg h]

theorem den_pos (h : rate ≠ 0) : 0 < rate.toNat * billingUnit := by
  have hpos : 0 < rate.toNat := by
    rw [Nat.pos_iff_ne_zero]
    intro hzero
    exact h (UInt64.toNat_inj.mp hzero)
  exact Nat.mul_pos hpos (by decide)

theorem javaT_eq (h : rate ≠ 0) :
    ((burn.toNat : ℤ) * leaseQuantum).tdiv (rate.toNat * billingUnit) = (rawT burn rate : ℤ) := by
  rw [rawT_of_rate h, Int.tdiv_eq_ediv_of_nonneg (by positivity)]
  push_cast
  rfl

theorem leaseDays_eq (h : rate ≠ 0) :
    Py.leaseDays burn.toNat rate.toNat = (rawT burn rate : ℤ) := by
  have hden : ¬ (rate.toNat : ℤ) * billingUnit = 0 := by
    have hpos := den_pos h
    exact_mod_cast hpos.ne'
  unfold Py.leaseDays
  rw [if_neg hden, rawT_of_rate h, Int.fdiv_eq_ediv_of_nonneg _ (by positivity)]
  push_cast
  rfl

theorem totalNameDays_eq (h : rate ≠ 0) : Cs.totalNameDays burn rate = rawT burn rate := by
  unfold Cs.totalNameDays
  rw [if_neg (den_pos h).ne', rawT_of_rate h]

/-- The headrooms of leases that have not run out, as each port computes them. -/
theorem headrooms_eq (hes : ∀ e ∈ es, now ≤ e) :
    (es.map fun e => if (maxLease - (e - now)).tdiv billingUnit < 0 then 0
        else (maxLease - (e - now)).tdiv billingUnit) = (es.map (headroomDays now)).map (↑) ∧
      (es.map fun e => Cs.headroomDays e now) = (es.map (headroomDays now)).map (↑) ∧
      (es.map fun e => if (maxLease - (e - now)).fdiv billingUnit < 0 then 0
        else (maxLease - (e - now)).fdiv billingUnit) = (es.map (headroomDays now)).map (↑) := by
  have hunit : (billingUnit : ℤ) = 86400 := rfl
  refine ⟨?_, ?_, ?_⟩
  · rw [List.map_map]
    refine List.map_congr_left fun e he => ?_
    rw [tdiv_unit, Function.comp_apply, headroomDays_of_held (hes e he)]
  · rw [List.map_map]
    refine List.map_congr_left fun e he => ?_
    rw [Function.comp_apply, headroomDays_of_held (hes e he), Cs.headroomDays]
    rw [hunit]
    split
    · rw [Int.zero_tdiv]
      omega
    · rw [Int.tdiv_eq_ediv_of_nonneg (by omega)]
      omega
  · rw [List.map_map]
    refine List.map_congr_left fun e he => ?_
    rw [Function.comp_apply, headroomDays_of_held (hes e he), hunit,
      Int.fdiv_eq_ediv_of_nonneg _ (by omega)]
    split <;> omega

theorem javaWaterfill_eq (hes : ∀ e ∈ es, now ≤ e) (hrate : rate ≠ 0) :
    Java.waterfill es now burn.toNat rate.toNat = if rawT burn rate = 0 then none
      else some ((WaterFill.fill (es.map (headroomDays now)) (rawT burn rate)).map (↑)) := by
  unfold Java.waterfill
  rw [javaT_eq hrate]
  dsimp only
  rw [(headrooms_eq hes).1]
  by_cases hT : rawT burn rate = 0
  · rw [if_pos hT, if_pos (by exact_mod_cast hT)]
  · rw [if_neg hT, if_neg (by exact_mod_cast hT)]
    generalize es.map (headroomDays now) = h
    have hmax := le_foldl_max (h.map (fun x : ℕ => (x : ℤ))) 0
    have hlast := @isLast_closeIn (fun mid => sumAt (h.map (↑)) mid ≤ (rawT burn rate : ℤ))
      _ 0 _ 0 (fun x y _ => sumAt_anti _ _ x y) hmax.1 (sumAt_zero_le h _)
    rw [← fill_of_isLast (fun x hx => hmax.2 x (List.mem_map_of_mem hx)) hlast
      (0 < ·) (_ < ·) (fun g => by simp) fun x _ => rfl]
    rfl

/-- The cells without headroom do not count. -/
theorem sumAt_filter (h : List ℕ) {L : ℤ} (hL : 0 ≤ L) :
    sumAt ((h.map (fun x : ℕ => (x : ℤ))).filter (0 < ·)) L = sumAt (h.map (↑)) L := by
  induction h with
  | nil => rfl
  | cons x h ih =>
    have hcons : sumAt ((x :: h).map (↑)) L = min (x : ℤ) L + sumAt (h.map (↑)) L := rfl
    rw [hcons, List.map_cons]
    by_cases hx : 0 < (x : ℤ)
    · rw [List.filter_cons_of_pos (by simpa using hx), ← ih]
      rfl
    · rw [List.filter_cons_of_neg (by simpa using hx), ih]
      omega

theorem sum_filter (h : List ℕ) :
    ((h.map (fun x : ℕ => (x : ℤ))).filter (0 < ·)).sum = (h.sum : ℤ) := by
  induction h with
  | nil => rfl
  | cons x h ih =>
    rw [List.map_cons, List.sum_cons]
    by_cases hx : 0 < (x : ℤ)
    · rw [List.filter_cons_of_pos (by simpa using hx), List.sum_cons, ih]
      push_cast
      rfl
    · rw [List.filter_cons_of_neg (by simpa using hx), ih]
      push_cast
      omega

theorem csWaterFill_eq (T : ℕ) (h : List ℕ) :
    Cs.waterFill T (h.map (↑)) = (WaterFill.fill h T).map (↑) := by
  have hmem : ∀ x ∈ h, 0 < x → (x : ℤ) ∈ (h.map (fun x : ℕ => (x : ℤ))).filter (0 < ·) := by
    intro x hx hpos
    exact List.mem_filter.mpr ⟨List.mem_map_of_mem hx, by simpa using hpos⟩
  unfold Cs.waterFill
  dsimp only
  rw [sum_filter]
  by_cases hnone : ((h.map (fun x : ℕ => (x : ℤ))).filter (0 < ·)).length = 0
  · have hzero : ∀ x ∈ h, x = 0 := by
      intro x hx
      by_contra hne
      have hin := hmem x hx (Nat.pos_of_ne_zero hne)
      rw [List.length_eq_zero_iff.mp hnone] at hin
      cases hin
    have hsum : h.sum = 0 := List.sum_eq_zero hzero
    rw [if_pos hnone, WaterFill.fill, if_pos (by omega), List.map_map]
    refine List.map_congr_left fun x hx => ?_
    rw [hzero x hx]
    rfl
  rw [if_neg hnone]
  by_cases hT : (T : ℤ) ≥ (h.sum : ℤ)
  · rw [if_pos hT, WaterFill.fill, if_pos (by omega), List.map_map]
    refine List.map_congr_left fun x hx => ?_
    rw [Function.comp_apply]
    split <;> omega
  · rw [if_neg hT]
    have hmax := le_foldl_max ((h.map (fun x : ℕ => (x : ℤ))).filter (0 < ·)) 0
    set lambda := Cs.probe.narrow
      (fun mid => sumAt ((h.map (fun x : ℕ => (x : ℤ))).filter (0 < ·)) mid ≤ (T : ℤ)) 0
      (((h.map (fun x : ℕ => (x : ℤ))).filter (0 < ·)).foldl max 0) with hlambda
    have hlast := @Probe.isLast_narrow
      (fun mid => sumAt ((h.map (fun x : ℕ => (x : ℤ))).filter (0 < ·)) mid ≤ (T : ℤ)) _ _ _ Cs.probe
      (fun x y _ => sumAt_anti _ _ x y) hmax.1
      ((sumAt_filter h le_rfl).le.trans (sumAt_zero_le h T))
    rw [← hlambda] at hlast
    have hwhole := hlast.congr fun x hx => by rw [sumAt_filter h hx]
    have hadd : ((h.map (fun x : ℕ => (x : ℤ))).map fun x => if 0 < x then min x lambda else 0)
        = (h.map (↑)).map (min · lambda) := by
      rw [List.map_map, List.map_map]
      refine List.map_congr_left fun x _ => ?_
      have hge := hlast.ge
      rw [Function.comp_apply, Function.comp_apply]
      split <;> omega
    rw [hadd, sumAt_filter h hlast.ge]
    refine fill_of_isLast (fun x hx => ?_) hwhole _ _ (fun g => ?_) fun x _ => ?_
    · by_cases hpos : 0 < x
      · exact hmax.2 x (hmem x hx hpos)
      · have hzero : x = 0 := by omega
        rw [hzero]
        exact hmax.1
    · simp [Nat.pos_iff_ne_zero]
    · have hge := hlast.ge
      rw [decide_eq_decide]
      omega

end Ports

/-! ### The dict of the Python port -/

section Alloc

variable {alloc : Py.Alloc} {cells : List (Bytes × ℤ)} {lam : ℤ}

theorem assign_of_notMem {n : Bytes} (h : n ∉ cells.map Prod.fst) :
    Py.assign alloc cells n = alloc n := by
  induction cells generalizing alloc with
  | nil => rfl
  | cons c cells ih =>
    rw [List.map_cons, List.mem_cons, not_or] at h
    exact (ih h.2).trans (Function.update_of_ne h.1 _ _)

theorem map_assign (hn : (cells.map Prod.fst).Nodup) :
    (cells.map Prod.fst).map (Py.assign alloc cells) = cells.map fun c => some c.2 := by
  induction cells generalizing alloc with
  | nil => rfl
  | cons c cells ih =>
    rw [List.map_cons, List.nodup_cons] at hn
    have hfirst : Py.assign alloc (c :: cells) c.1 = some c.2 :=
      (assign_of_notMem hn.1).trans (Function.update_self ..)
    rw [List.map_cons, List.map_cons, hfirst, List.map_cons]
    exact congrArg _ (ih hn.2)

theorem addOne_of_notMem {n : Bytes} (h : n ∉ cells.map Prod.fst) (rem : ℤ) :
    Py.addOne lam alloc cells rem n = alloc n := by
  induction cells generalizing alloc rem with
  | nil => rfl
  | cons c cells ih =>
    rw [List.map_cons, List.mem_cons, not_or] at h
    rw [Py.addOne]
    split
    · rfl
    split
    · rw [ih h.2, Function.update_of_ne h.1]
    · exact ih h.2 rem

theorem map_addOne (hn : (cells.map Prod.fst).Nodup)
    (halloc : ∀ c ∈ cells, alloc c.1 = some (min c.2 lam)) (rem : ℤ) :
    (cells.map Prod.fst).map (Py.addOne lam alloc cells rem)
      = (giveOut (· ≠ 0) (lam < ·) (cells.map fun c => (c.2, min c.2 lam)) rem).map some := by
  induction cells generalizing alloc rem with
  | nil => rfl
  | cons c cells ih =>
    rw [List.map_cons, List.nodup_cons] at hn
    have hc := halloc c List.mem_cons_self
    have hrest := fun c hc => halloc c (List.mem_cons_of_mem _ hc)
    rw [List.map_cons, List.map_cons, List.map_cons, Py.addOne, giveOut]
    by_cases hrem : rem = 0
    · rw [if_pos hrem, if_pos (by simp [hrem]), hc, List.map_cons, List.map_map, List.map_map,
        List.map_map]
      refine congrArg _ (List.map_congr_left fun c hc => ?_)
      exact hrest c hc
    have hmore : ¬ (!decide (rem ≠ 0)) = true := by simp [hrem]
    rw [if_neg hrem, if_neg hmore]
    by_cases htake : lam < c.2
    · rw [if_pos htake, if_pos (by simpa using htake), addOne_of_notMem hn.1, Function.update_self,
        hc, List.map_cons]
      refine congrArg _ (ih hn.2 (fun d hd => ?_) _)
      have hne : d.1 ≠ c.1 := by
        intro heq
        exact hn.1 (heq ▸ List.mem_map_of_mem hd)
      rw [Function.update_of_ne hne]
      exact hrest d hd
    · rw [if_neg htake, if_neg (by simpa using htake), addOne_of_notMem hn.1, hc, List.map_cons]
      exact congrArg _ (ih hn.2 hrest rem)

end Alloc

/-- What is handed out from the headrooms on, with any way to probe and whatever the dict held. -/
def Py.allocate (p : Probe) (alloc : Py.Alloc) (names : List Bytes) (headroom : List ℤ) (T : ℤ) :
    Py.Alloc :=
  if T ≥ headroom.sum then Py.assign alloc (names.zip headroom)
  else
    let lam := p.narrow (fun mid => sumAt headroom mid ≤ T) 0 (headroom.foldl max 0)
    let rem := T - sumAt headroom lam
    let alloc := Py.assign alloc (names.zip (headroom.map (min · lam)))
    if rem > 0 then Py.addOne lam alloc (names.zip headroom) rem else alloc

theorem allocate_eq (p : Probe) (zeroed : Py.Alloc) {names : List Bytes} {h : List ℕ}
    (hn : names.Nodup) (hlen' : names.length = h.length) (T : ℕ) :
    names.map (Py.allocate p zeroed names (h.map (↑)) T)
      = (WaterFill.fill h T).map fun x : ℕ => some (x : ℤ) := by
  have hfst : ∀ days : List ℤ, days.length = names.length →
      (names.zip days).map Prod.fst = names ∧ (names.zip days).map Prod.snd = days :=
    fun days hdays => ⟨List.map_fst_zip hdays.ge, List.map_snd_zip hdays.le⟩
  have hassign : ∀ days : List ℤ, days.length = names.length → ∀ alloc,
      names.map (Py.assign alloc (names.zip days)) = days.map some := by
    intro days hdays alloc
    obtain ⟨hnames, hdays⟩ := hfst days hdays
    have hmap := @map_assign alloc (names.zip days) (by rwa [hnames])
    rw [hnames] at hmap
    conv_rhs => rw [← hdays, List.map_map]
    exact hmap
  unfold Py.allocate
  by_cases hall : (T : ℤ) ≥ (h.map (fun x : ℕ => (x : ℤ))).sum
  · have hsum : h.sum ≤ T := by
      rw [← Nat.cast_list_sum] at hall
      exact_mod_cast hall
    rw [if_pos hall, hassign _ (by rw [List.length_map, hlen']), WaterFill.fill, if_pos hsum,
      List.map_map]
    rfl
  · rw [if_neg hall]
    have hmax := le_foldl_max (h.map (fun x : ℕ => (x : ℤ))) 0
    set lam := p.narrow (fun mid => sumAt (h.map (fun x : ℕ => (x : ℤ))) mid ≤ (T : ℤ)) 0
      ((h.map (fun x : ℕ => (x : ℤ))).foldl max 0) with hlam
    have hlast := @Probe.isLast_narrow
      (fun mid => sumAt (h.map (↑)) mid ≤ (T : ℤ)) _ _ _ p
      (fun x y _ => sumAt_anti _ _ x y) hmax.1 (sumAt_zero_le h _)
    rw [← hlam] at hlast
    have hfill := fill_of_isLast (fun x hx => hmax.2 x (List.mem_map_of_mem hx)) hlast
      (· ≠ 0) (_ < ·) (fun g => by simp [Nat.pos_iff_ne_zero]) fun x _ => rfl
    have hadds := hassign ((h.map (fun x : ℕ => (x : ℤ))).map (min · lam))
      (by rw [List.length_map, List.length_map, hlen']) zeroed
    dsimp only
    by_cases hrem : (T : ℤ) - sumAt (h.map (↑)) lam > 0
    · obtain ⟨hnames, hheads⟩ := hfst (h.map (fun x : ℕ => (x : ℤ))) (by rw [List.length_map, hlen'])
      have hcells : (names.zip (h.map (fun x : ℕ => (x : ℤ)))).map (fun c => (c.2, min c.2 lam))
          = (h.map (↑)).zip ((h.map (↑)).map (min · lam)) := by
        conv_rhs => rw [← hheads]
        rw [List.map_map, List.zip_map', Function.comp_def]
      have hpoint : (names.zip (h.map (fun x : ℕ => (x : ℤ)))).map
          (fun c => Py.assign zeroed (names.zip ((h.map (↑)).map (min · lam))) c.1)
            = (names.zip (h.map (↑))).map fun c => some (min c.2 lam) := by
        have hleft := List.map_map (l := names.zip (h.map (fun x : ℕ => (x : ℤ)))) (f := Prod.fst)
          (g := Py.assign zeroed (names.zip ((h.map (↑)).map (min · lam))))
        have hright := List.map_map (l := names.zip (h.map (fun x : ℕ => (x : ℤ)))) (f := Prod.snd)
          (g := fun x => some (min x lam))
        rw [hnames, hadds] at hleft
        rw [hheads] at hright
        rw [List.map_map] at hleft
        exact hleft.symm.trans hright
      have hadd := @map_addOne (Py.assign zeroed (names.zip ((h.map (↑)).map (min · lam))))
        (names.zip (h.map (fun x : ℕ => (x : ℤ)))) lam (by rwa [hnames])
        (List.map_inj_left.mp hpoint) ((T : ℤ) - sumAt (h.map (↑)) lam)
      rw [hnames, hcells, hfill] at hadd
      rw [if_pos hrem, hadd, List.map_map]
      rfl
    · have hpaid := hlast.passes
      have hzero : (T : ℤ) - sumAt (h.map (↑)) lam = 0 := by omega
      rw [hzero, giveOut_done (by decide), List.map_snd_zip (by simp)] at hfill
      rw [if_neg hrem, hadds, hfill, List.map_map]
      rfl

theorem pyWaterFill_eq {now : ℤ} {es : List ℤ} {burn rate : UInt64} (hes : ∀ e ∈ es, now ≤ e)
    (hrate : rate ≠ 0) {names : List Bytes} (hn : names.Nodup) (hlen : names.length = es.length) :
    (Py.waterFill burn.toNat rate.toNat now es names).map (fun alloc => names.map alloc)
      = if rawT burn rate = 0 then none
        else some ((WaterFill.fill (es.map (headroomDays now)) (rawT burn rate)).map
          fun x : ℕ => some (x : ℤ)) := by
  unfold Py.waterFill
  rw [leaseDays_eq hrate]
  dsimp only
  rw [(headrooms_eq hes).2.2]
  by_cases hT : rawT burn rate = 0
  · rw [if_pos hT, if_pos (by exact_mod_cast hT)]
    rfl
  have hlen' : names.length = (es.map (headroomDays now)).length := by rw [hlen, List.length_map]
  rw [if_neg hT, if_neg (by exact_mod_cast hT),
    ← allocate_eq Py.probe (Py.assign (fun _ => none) (names.map (·, 0))) hn hlen']
  unfold Py.allocate
  dsimp only
  split
  · rfl
  · split <;> rfl

/-! ### All of them -/

theorem headroomDays_le (now e : ℤ) : headroomDays now e ≤ 365 := by
  have hunit : (billingUnit : ℤ) = 86400 := rfl
  have hmax : (maxLease : ℤ) = 31536000 := rfl
  rw [headroomDays, hunit, hmax]
  omega

theorem sum_headroomDays_le (now : ℤ) (es : List ℤ) :
    (es.map (headroomDays now)).sum ≤ 365 * es.length := by
  induction es with
  | nil => exact le_rfl
  | cons e es ih =>
    have he := headroomDays_le now e
    rw [List.map_cons, List.sum_cons, List.length_cons]
    omega

/-- Over leases in ascending name order, none run out, the three ports give each name the days that
`sm_waterfill` adds to its row. -/
theorem ports_fill_alike (s : SmState) (now : ℤ) (rate burn : UInt64) (rows : List ℕ)
    (hr : ∀ r ∈ rows, r < s.names.length)
    (hs : rows.Pairwise fun a b => (s.row a).name < (s.row b).name) (hnow : 0 ≤ now)
    (hheld : ∀ r ∈ rows, now ≤ (s.row r).leaseExpiry ∧ (s.row r).leaseExpiry < 2 ^ 62)
    (hrate : 1 ≤ rate.toNat ∧ rate.toNat ≤ 100000000) :
    let es := rows.map fun r => (s.row r).leaseExpiry
    let names := rows.map fun r => (s.row r).name
    ∃ days : List ℕ,
      List.Forall₂ (fun r (d : ℕ) => ((smWaterfill s now rate burn rows).row r).leaseExpiry
        = (s.row r).leaseExpiry + d * billingUnit) rows days ∧
      (Java.waterfill es now burn.toNat rate.toNat).getD (es.map fun _ => 0)
        = (days.map fun d : ℕ => (d : ℤ)) ∧
      Cs.waterFill (Cs.totalNameDays burn rate) (es.map fun e => Cs.headroomDays e now)
        = (days.map fun d : ℕ => (d : ℤ)) ∧
      ((Py.waterFill burn.toNat rate.toNat now es names).map fun alloc => names.map alloc).getD
        (names.map fun _ => some 0) = (days.map fun d : ℕ => some (d : ℤ)) ∧
      (∀ e ∈ es, IsInt64 (e - now) ∧ IsInt64 (maxLease - (e - now))) ∧
      (es.length < 2 ^ 31 → IsInt64 ((es.map (headroomDays now)).sum : ℕ)) := by
  dsimp only
  have hne : rate ≠ 0 := by
    rintro rfl
    exact absurd hrate.1 (by decide)
  have hnodup : (rows.map fun r => (s.row r).name).Nodup := by
    rw [List.nodup_iff_pairwise_ne, List.pairwise_map]
    exact hs.imp fun h => h.ne
  have hes : ∀ e ∈ rows.map fun r => (s.row r).leaseExpiry, now ≤ e := by
    intro e he
    obtain ⟨r, hr, rfl⟩ := List.mem_map.mp he
    exact (hheld r hr).1
  have hfill : WaterFill.fill ((rows.map fun r => (s.row r).leaseExpiry).map (headroomDays now))
      (rawT burn rate) = rows.map (daysOf s now rate burn rows) := by
    rw [List.map_map]
    exact WaterFill.fill_map hs (rawT burn rate)
  have hzero : rawT burn rate = 0 → rows.map (daysOf s now rate burn rows) = rows.map fun _ => 0 := by
    intro hT
    rw [← hfill, hT, WaterFill.fill_zero, List.map_map, List.map_map]
    rfl
  refine ⟨rows.map (daysOf s now rate burn rows), ?_, ?_, ?_, ?_, ?_, ?_⟩
  · rw [List.forall₂_map_right_iff, List.forall₂_same]
    intro r hmem
    rw [row_smWaterfill s now rate burn rows hr hnodup, if_pos hmem]
  · rw [javaWaterfill_eq hes hne, hfill]
    split
    · rename_i hT
      rw [hzero hT, Option.getD_none, List.map_map, List.map_map]
      rfl
    · rfl
  · rw [totalNameDays_eq hne, (headrooms_eq hes).2.1, csWaterFill_eq, hfill]
  · rw [pyWaterFill_eq hes hne hnodup (by rw [List.length_map, List.length_map]), hfill]
    split
    · rename_i hT
      rw [hzero hT, Option.getD_none, List.map_map, List.map_map]
      rfl
    · rfl
  · intro e he
    obtain ⟨r, hr, rfl⟩ := List.mem_map.mp he
    have hlt := (hheld r hr).2
    have hge := (hheld r hr).1
    have hmax : (maxLease : ℤ) = 31536000 := rfl
    unfold IsInt64
    rw [hmax]
    omega
  · intro hlen
    have hsum := sum_headroomDays_le now (rows.map fun r => (s.row r).leaseExpiry)
    unfold IsInt64
    omega

/-- Three leases, the first a day short of the ceiling. -/
def heldLeases : SmState :=
  { activationHeight := 0
    names := [{ name := [97], leaseExpiry := 1000 + 364 * 86400 },
      { name := [98], leaseExpiry := 1000 }, { name := [99], leaseExpiry := 2000 }] }

theorem ports_fill_alike_held :
    ∃ days : List ℕ,
      (Java.waterfill [1000 + 364 * 86400, 1000, 2000] 1000 6 28).getD [0, 0, 0]
        = (days.map fun d : ℕ => (d : ℤ)) ∧
      Cs.waterFill (Cs.totalNameDays 6 28) [1, 365, 364] = (days.map fun d : ℕ => (d : ℤ)) := by
  obtain ⟨days, -, hjava, hcs, -⟩ := ports_fill_alike heldLeases 1000 28 6 [0, 1, 2] (by decide)
    (by decide) (by decide) (by decide) (by decide)
  exact ⟨days, hjava, hcs⟩

end NamespaceIndexer
