import NamespaceIndexer.Ts.Fold

/-!
# The TypeScript port: days of a lease

What `waterfill` gives each name is what the rounds of `sm_waterfill` give it.
-/

namespace NamespaceIndexer.Ts

open Fold Lib Daemon

/-! ### The loops over the items -/

section Items

variable {items : List (Name × ℤ)}

theorem total_eq (t : ℤ) : items.foldl (fun t it => t + it.2) t = t + (items.map Prod.snd).sum := by
  induction items generalizing t with
  | nil => exact (add_zero t).symm
  | cons it items ih => rw [List.foldl_cons, ih, List.map_cons, List.sum_cons, add_assoc]

theorem highest_eq (m : ℤ) :
    items.foldl (fun m it => if it.2 > m then it.2 else m) m = (items.map Prod.snd).foldl max m := by
  induction items generalizing m with
  | nil => rfl
  | cons it items ih =>
    rw [List.foldl_cons, ih, List.map_cons, List.foldl_cons]
    refine congrArg (fun m => List.foldl max m _) ?_
    split <;> omega

theorem sumTo_eq (mid t : ℤ) :
    items.foldl (fun t it => t + if it.2 < mid then it.2 else mid) t
      = t + sumAt (items.map Prod.snd) mid := by
  induction items generalizing t with
  | nil => exact (add_zero t).symm
  | cons it items ih =>
    have hcons : sumAt (it.2 :: items.map Prod.snd) mid
        = min it.2 mid + sumAt (items.map Prod.snd) mid := rfl
    rw [List.foldl_cons, ih, List.map_cons, hcons]
    split <;> omega

theorem setAll_get (f : ℤ → ℤ) (out : Dict Name ℤ) :
    (items.foldl (fun out it => out.insert it.1 (f it.2)) out).get
      = Py.assign out.get (items.map (Prod.map id f)) := by
  induction items generalizing out with
  | nil => rfl
  | cons it items ih =>
    rw [List.foldl_cons, ih, Dict.get_insert]
    rfl

/-- The days handed out above the level, cell by cell. -/
theorem addOnes_get {lam : ℤ} {out : Dict Name ℤ} (hout : ∀ it ∈ items, ∃ v, out.get it.1 = some v)
    {r : ℤ} (hr : 0 ≤ r) :
    (addOnes out (items.filter (lam < ·.2)) r).get = Py.addOne lam out.get items r := by
  induction items generalizing out r with
  | nil => rfl
  | cons it items ih =>
    have hrest : ∀ c ∈ items, ∃ v, out.get c.1 = some v :=
      fun c hc => hout c (List.mem_cons_of_mem _ hc)
    rw [Py.addOne]
    by_cases hzero : r = 0
    · have hdone : ∀ l, addOnes out l r = out := by
        intro l
        cases l with
        | nil => rfl
        | cons it l =>
          rw [addOnes, if_pos]
          omega
      rw [if_pos hzero, hdone]
    rw [if_neg hzero]
    by_cases htake : lam < it.2
    · obtain ⟨v, hv⟩ := hout it List.mem_cons_self
      have hgiven : ∀ c ∈ items, ∃ w, (out.insert it.1 (v + 1)).get c.1 = some w := by
        intro c hc
        rw [Dict.get_insert, Function.update_apply]
        split
        · exact ⟨_, rfl⟩
        · exact hrest c hc
      rw [if_pos htake, List.filter_cons_of_pos (by simpa using htake), addOnes,
        if_neg (by omega), hv, Option.getD_some, ih hgiven (by omega), Dict.get_insert]
      rfl
    · rw [if_neg htake, List.filter_cons_of_neg (by simpa using htake)]
      exact ih hrest hr

end Items

/-! ### The water-fill -/

theorem assign_isSome {alloc : Py.Alloc} {cells : List (Name × ℤ)} {n : Name}
    (h : n ∈ cells.map Prod.fst) : ∃ v, Py.assign alloc cells n = some v := by
  induction cells generalizing alloc with
  | nil => cases h
  | cons c cells ih =>
    by_cases hn : n ∈ cells.map Prod.fst
    · exact ih hn
    · have hc : n = c.1 := by
        rw [List.map_cons, List.mem_cons] at h
        exact h.resolve_right hn
      refine ⟨c.2, ?_⟩
      rw [hc] at hn ⊢
      exact (assign_of_notMem hn).trans (Function.update_self ..)

namespace FoldState

/-- The headrooms that `waterfill` lists. -/
def headroomsOf (s : FoldState) (rows : List Name) : List ℤ :=
  rows.map fun key =>
    if (maxLease - (s.leaseExpiryOf key - s.curMTP)).tdiv billingUnit < 0 then 0
    else (maxLease - (s.leaseExpiryOf key - s.curMTP)).tdiv billingUnit

theorem waterfill_get (s : FoldState) {rows : List Name} (hsorted : rows.Pairwise (· ≤ ·)) (T : ℤ) :
    (s.waterfill rows T).get
      = Py.allocate probe (fun _ => none) rows (s.headroomsOf rows) T := by
  set items := rows.zip (s.headroomsOf rows) with hitems
  have hlen : rows.length = (s.headroomsOf rows).length := (List.length_map _).symm
  have hmap : (rows.map fun key =>
      let remaining := s.leaseExpiryOf key - s.curMTP
      let h := (maxLease - remaining).tdiv billingUnit
      (key, if h < 0 then 0 else h)) = items := by
    exact List.map_prod_left_eq_zip
  have hfst : items.map Prod.fst = rows := List.map_fst_zip hlen.le
  have hsnd : items.map Prod.snd = s.headroomsOf rows := List.map_snd_zip hlen.ge
  have hasc : items.Pairwise fun a b => a.1 ≤ b.1 := by
    rw [← hfst, List.pairwise_map] at hsorted
    exact hsorted
  have hset : ∀ f : ℤ → ℤ, items.map (Prod.map id f) = rows.zip ((s.headroomsOf rows).map f) := by
    intro f
    rw [hitems, List.zip_map_right]
  unfold waterfill Py.allocate
  dsimp only
  rw [hmap]
  simp only [total_eq, highest_eq, sumTo_eq, zero_add, hsnd]
  split
  · rw [show (fun (out : Dict Name ℤ) (it : Name × ℤ) => out.insert it.1 it.2)
      = fun out it => out.insert it.1 (id it.2) from rfl, setAll_get id, hset, List.map_id]
    rfl
  set lam := probe.narrow (fun mid => sumAt (s.headroomsOf rows) mid ≤ T) 0
    ((s.headroomsOf rows).foldl max 0)
  have hlevel : (items.foldl (fun out it => out.insert it.1 (if it.2 < lam then it.2 else lam))
      (∅ : Dict Name ℤ)).get
        = Py.assign (fun _ => none) (rows.zip ((s.headroomsOf rows).map (min · lam))) := by
    rw [setAll_get fun x => if x < lam then x else lam, hset]
    refine congrArg (fun cells => Py.assign _ (rows.zip cells)) (List.map_congr_left fun x _ => ?_)
    split <;> omega
  split
  · rename_i hmore
    rw [List.Pairwise.insertionSort_eq (hasc.filter _), addOnes_get, hlevel]
    · intro it hit
      rw [hlevel]
      refine assign_isSome ?_
      rw [List.map_fst_zip (by rw [List.length_map]; exact hlen.le), ← hfst]
      exact List.mem_map_of_mem hit
    · omega
  · exact hlevel

/-- The shares of rows in ascending order whose leases have not run out. -/
theorem waterfill_eq (s : FoldState) {rows : List Name} (hsorted : rows.Pairwise (· ≤ ·))
    (hn : rows.Nodup) (hheld : ∀ key ∈ rows, s.curMTP ≤ s.leaseExpiryOf key) (T : ℕ) :
    rows.map (s.waterfill rows T).get
      = (WaterFill.fill (rows.map fun key => headroom s.curMTP (s.leaseExpiryOf key)) T).map
          fun x : ℕ => some (x : ℤ) := by
  have hheads := (headrooms_eq (List.forall_mem_map.mpr hheld)).1
  have hdays : (rows.map s.leaseExpiryOf).map (headroomDays s.curMTP)
      = rows.map fun key => headroom s.curMTP (s.leaseExpiryOf key) := by
    rw [List.map_map]
    exact List.map_congr_left fun key _ => (headroom_eq s.curMTP (s.leaseExpiryOf key)).symm
  rw [List.map_map, hdays] at hheads
  have hof : s.headroomsOf rows
      = (rows.map fun key => headroom s.curMTP (s.leaseExpiryOf key)).map (↑) := hheads
  rw [s.waterfill_get hsorted, hof]
  exact allocate_eq probe _ hn (List.length_map _).symm T

/-! ### The rows extended -/

variable {rows : List Name}

theorem foldl_setRow (s : FoldState) (f : Name → NameRow → NameRow) :
    rows.foldl (fun s key => s.setRow key (f key)) s
      = { s with names := rows.foldl (fun names key => names.modify key (f key)) s.names } := by
  induction rows generalizing s with
  | nil => rfl
  | cons key rows ih =>
    rw [List.foldl_cons, List.foldl_cons, ih]
    rfl

theorem extend_names (s : FoldState) (hsorted : rows.Pairwise (· ≤ ·)) (hn : rows.Nodup)
    (hheld : ∀ key ∈ rows, s.curMTP ≤ s.leaseExpiryOf key) (T : ℕ) :
    ∃ names : Dict Name NameRow, s.extend rows T = { s with names } ∧ names.get
      = PartialMap.modifyAll (rows.zip (WaterFill.fill
          (rows.map fun key => headroom s.curMTP (s.leaseExpiryOf key)) T))
          (fun days r => { r with leaseExpiry := r.leaseExpiry + (days : ℕ) * billingUnit })
          s.names.get := by
  refine ⟨_, s.foldl_setRow fun key r =>
    { r with leaseExpiry := r.leaseExpiry + ((s.waterfill rows T).get key).getD 0 * billingUnit }, ?_⟩
  have hlen : (WaterFill.fill (rows.map fun key => headroom s.curMTP (s.leaseExpiryOf key)) T).length
      = rows.length := by
    rw [WaterFill.fill_length, List.length_map]
  have hdays : (rows.map fun key => (key, ((s.waterfill rows T).get key).getD 0))
      = (rows.zip (WaterFill.fill (rows.map fun key => headroom s.curMTP (s.leaseExpiryOf key))
          T)).map (Prod.map id fun x : ℕ => (x : ℤ)) := by
    have hget := congrArg (List.map fun o : Option ℤ => o.getD 0) (s.waterfill_eq hsorted hn hheld T)
    rw [List.map_map, List.map_map] at hget
    rw [← List.zip_map_right]
    exact (List.map_prod_left_eq_zip).trans (congrArg (List.zip rows) hget)
  have hfold := Dict.get_foldl_modify (rows.map fun key => (key, ((s.waterfill rows T).get key).getD 0))
    (fun (days : ℤ) (r : NameRow) => { r with leaseExpiry := r.leaseExpiry + days * billingUnit })
    s.names (by
      rw [List.map_map]
      exact (List.map_id' rows).symm ▸ hn)
  rw [List.foldl_map] at hfold
  rw [hfold, hdays, PartialMap.modifyAll_read]

end FoldState

/-! ### Days bought -/

theorem leaseDaysTotal_eq {s : FoldState} {burn rate : UInt64} (hs : s.curRate = rate.toNat)
    (hrate : rate ≠ 0) : s.leaseDaysTotal burn.toNat = (rawT burn rate : ℤ) := by
  have hpos : 0 < rate.toNat := by
    rcases Nat.eq_zero_or_pos rate.toNat with h | h
    · exact absurd (UInt64.toNat_inj.mp (h.trans (by decide))) hrate
    · exact h
  unfold FoldState.leaseDaysTotal
  rw [if_neg (by omega), hs]
  exact javaT_eq hrate

end NamespaceIndexer.Ts
