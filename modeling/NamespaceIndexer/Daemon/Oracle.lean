import NamespaceIndexer.Fold.Types
import NamespaceIndexer.Lib.OrderedTable

/-!
# Fee rate and median time (`oracle.c`, `oracle_feed.c`)
-/

namespace NamespaceIndexer.Daemon

open Fold Lib

def feeWindow : ℤ := 10081
def minFeeSample : ℕ := 1000
def refSize : ℤ := 200
def rateCap : ℤ := koinuPerDoge

/-- `sm_mtp`: the median of the last eleven timestamps. -/
def smMtp (timestamps : List ℤ) : ℤ :=
  let tmp := timestamps.drop (timestamps.length - 11)
  (tmp.insertionSort (· ≤ ·)).getD (tmp.length / 2) 0

/-- Fees per byte of a block: what the coinbase claims above the subsidy, never negative. -/
def feesPerByte (coinbase subsidy blockBytes : ℤ) : ℤ :=
  let fees := max (coinbase - subsidy) 0
  let b := if blockBytes > 0 then blockBytes else 1
  i64 (UInt64.ofInt (fees / b))

/-- `sm_oracle_rate` on rows `(coinbase, subsidy, bytes)`. -/
def smOracleRate (rows : List (ℤ × ℤ × ℤ)) : UInt64 :=
  let fpb := (rows.map fun r => feesPerByte r.1 r.2.1 r.2.2).filter fun v => 1 ≤ v
  if fpb.length < minFeeSample then dustFloor
  else
    let med := (fpb.insertionSort (· ≤ ·)).getD ((fpb.length - 1) / 2) 0
    let r := max (med * refSize) 1
    UInt64.ofInt (min r rateCap)

/-- `Blk`: what the oracle reads of one block. -/
structure Blk where
  height : ℤ
  time : ℤ
  coinbase : ℤ
  bytes : ℤ
  deriving DecidableEq

structure OracleFeed where
  v : List Blk := []
  subsidy : ℤ

/-- `oracle_rollback`: rows are dropped off the end. -/
def oracleRollback (o : OracleFeed) (height : ℤ) : OracleFeed :=
  { o with v := o.v.rdropWhile fun b => decide (height ≤ b.height) }

/-- `oracle_record`. -/
def oracleRecord (o : OracleFeed) (b : Blk) : OracleFeed :=
  let o := oracleRollback o b.height
  { o with v := o.v ++ [b] }

/-- `oracle_for_height`: the median time and the rate for a block at `height`. -/
def oracleForHeight (o : OracleFeed) (height : ℤ) : ℤ × UInt64 :=
  let ts := ((o.v.reverse.filter fun b => b.height < height).take 11).reverse
  let lo := height - feeWindow
  let rows := (o.v.filter fun b => lo ≤ b.height ∧ b.height < height).take feeWindow.toNat
  (smMtp (ts.map Blk.time),
    smOracleRate (rows.map fun b => (b.coinbase, o.subsidy, b.bytes)))

/-! ### The feed is a table in height order -/

/-- The rows of the feed below a height, with its subsidy. -/
def OracleFeed.below (o : OracleFeed) (height : ℤ) : OracleFeed :=
  { o with v := OrderedTable.below Blk.height height o.v }

/-- What the feed says of a height depends on the rows below it. -/
theorem oracleForHeight_below {o : OracleFeed} {height height' : ℤ} (h : height ≤ height') :
    oracleForHeight (o.below height') height = oracleForHeight o height := by
  have hts : (o.below height').v.reverse.filter (fun b => b.height < height)
      = o.v.reverse.filter fun b => b.height < height := by
    rw [List.filter_reverse, List.filter_reverse]
    exact congrArg List.reverse (OrderedTable.below_below Blk.height h)
  have hrows : (o.below height').v.filter
        (fun b => height - feeWindow ≤ b.height ∧ b.height < height)
      = o.v.filter fun b => height - feeWindow ≤ b.height ∧ b.height < height := by
    change (o.v.filter fun b => b.height < height').filter _ = _
    rw [List.filter_filter]
    refine List.filter_congr fun b _ => ?_
    rw [Bool.and_eq_left_iff_imp]
    simp only [decide_eq_true_eq]
    omega
  simp only [oracleForHeight, hts, hrows]
  rfl

theorem oracleRollback_eq {o : OracleFeed} (h : OrderedTable.Ordered Blk.height o.v) (height : ℤ) :
    oracleRollback o height = o.below height := by
  unfold oracleRollback OracleFeed.below
  rw [h.rdropWhile_eq]

theorem oracleRecord_eq {o : OracleFeed} (h : OrderedTable.Ordered Blk.height o.v) (b : Blk) :
    oracleRecord o b = { o with v := OrderedTable.below Blk.height b.height o.v ++ [b] } := by
  unfold oracleRecord
  rw [oracleRollback_eq h]
  rfl

theorem ordered_oracleRecord {o : OracleFeed} (h : OrderedTable.Ordered Blk.height o.v) (b : Blk) :
    OrderedTable.Ordered Blk.height (oracleRecord o b).v := by
  rw [oracleRecord_eq h]
  refine List.pairwise_append.mpr ⟨h.below Blk.height b.height, List.pairwise_singleton _ _, ?_⟩
  intro x hx y hy
  rw [List.mem_singleton.mp hy]
  exact ((OrderedTable.mem_below Blk.height).mp hx).2

end NamespaceIndexer.Daemon
