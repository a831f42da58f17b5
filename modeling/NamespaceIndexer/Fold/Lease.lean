import NamespaceIndexer.Fold.State

/-!
# Pay-for-duration leases (`lease.c`)

A burn buys whole name·days, spread over the targeted rows by the water-fill:
rounds of an even share, capped rows handing their part back, then one day each
to the first rows that still have headroom.
-/

namespace NamespaceIndexer.Fold

/-- `raw_T`, on 128-bit products. -/
def rawT (burn rate : UInt64) : ℕ :=
  let rate := if rate = 0 then 1 else rate
  burn.toNat * leaseQuantum / (rate.toNat * billingUnit)

/-- `sm_lease_covers_day`. -/
def smLeaseCoversDay (burn rate : UInt64) : Bool :=
  let rate := if rate = 0 then 1 else rate
  burn.toNat * leaseQuantum ≥ rate.toNat * billingUnit

/-- Days a lease can still grow before it reaches `now + MAX_LEASE`. -/
def headroom (nowMtp leaseExpiry : ℤ) : ℕ :=
  let remaining := leaseExpiry - nowMtp
  let remaining := if remaining < 0 then 0 else remaining
  let hd := (maxLease - remaining).tdiv billingUnit
  (if hd < 0 then 0 else hd).toNat

/-- `h[i]` and `add[i]` side by side. -/
abbrev Cell := ℕ × ℕ

/-- `add[i] < h[i]`. -/
def Cell.active (x : Cell) : Bool := x.2 < x.1

/-- What a round gives to one cell. -/
def Cell.give (share : ℕ) (x : Cell) : ℕ := if x.active then min (x.1 - x.2) share else 0

/-- One round: every active cell takes its share. -/
def fillRound (share : ℕ) (c : List Cell) : List Cell := c.map fun x => (x.1, x.2 + x.give share)

/-- The `for (;;)` of the even fill. Every round gives out at least one day, so `pool`
bounds the number of rounds. -/
def fillLoop : ℕ → List Cell → ℕ → List Cell × ℕ
  | 0, c, pool => (c, pool)
  | fuel + 1, c, pool =>
    let active := c.countP Cell.active
    if active = 0 ∨ pool = 0 then (c, pool)
    else
      let share := pool / active
      if share = 0 then (c, pool)
      else fillLoop fuel (fillRound share c) (pool - (c.map (Cell.give share)).sum)

/-- The remainder step: one day to each active cell while `pool` lasts. -/
def fillRemainder : List Cell → ℕ → List Cell
  | [], _ => []
  | x :: c, pool =>
    if pool > 0 ∧ x.active then (x.1, x.2 + 1) :: fillRemainder c (pool - 1)
    else x :: fillRemainder c pool

/-- The array `add[]` for headrooms `h` and `T` bought days. -/
def waterfillDays (h : List ℕ) (T : ℕ) : List ℕ :=
  if T ≥ h.sum then h
  else
    let (c, pool) := fillLoop T (h.map fun hd => (hd, 0)) T
    (fillRemainder c pool).map Prod.snd

/-- `rows[i]->lease_expiry += add[i] * SM_BILLING_UNIT`, with its coverage event. -/
def awardRow (s : SmState) (p : ℕ × Cell) : SmState :=
  let s := if p.2.1 > 0 ∧ p.2.2 = p.2.1 then s.bumpEv .WATERFILL_CAP else s
  s.setRow p.1 { s.row p.1 with leaseExpiry := (s.row p.1).leaseExpiry + p.2.2 * billingUnit }

/-- `qsort` with `cmp_rowptr_name`. -/
def sortByName (s : SmState) (rows : List ℕ) : List ℕ :=
  rows.insertionSort fun a b => (s.row a).name ≤ (s.row b).name

/-- `sm_waterfill`. -/
def smWaterfill (s : SmState) (nowMtp : ℤ) (rate burn : UInt64) (rows : List ℕ) : SmState :=
  if rows.length = 0 then s
  else
    let rows := sortByName s rows
    let h := rows.map fun r => headroom nowMtp (s.row r).leaseExpiry
    let T := rawT burn rate
    let s := if T > h.sum ∧ h.sum > 0 then s.bumpEv .WATERFILL_FORFEIT else s
    (rows.zip (h.zip (waterfillDays h T))).foldl awardRow s

end NamespaceIndexer.Fold
