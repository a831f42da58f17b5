import NamespaceIndexer.Daemon.Chain
import NamespaceIndexer.Daemon.Db

/-!
# The fold driver of the daemon (`sync.c`)

Whether a block touched a watched wallet output is an input: the watch list and
the `utxos` table are not modelled, and decide nothing else.
-/

namespace NamespaceIndexer.Daemon

open Fold Lib

variable (sha256 : Bytes → Hash256) (idxAttribute : Bytes → ℕ → Option (H160 × Byte))

/-- The transactions of a block that reach the fold. -/
def blockTxs (raw : Bytes) : List SmTx := adaptTxs idxAttribute (idxParseBlock sha256 raw).1

/-- The block at `height`, as the fold sees it with this feed. -/
def blockAt (oracle : OracleFeed) (height : ℤ) (raw : Bytes) : FoldBlock :=
  let (mtp, rate) := oracleForHeight oracle height
  { height, mtp, rate, txs := blockTxs sha256 idxAttribute raw }

/-- What a call returns, leaves in memory, and commits. -/
structure StepOut where
  ok : Bool
  s : SmState
  oracle : OracleFeed
  writes : List Write

/-- The statements of `connect_block`; `kept` says that the block folded a carrier or touched the
wallet. -/
def connectWrites (height : ℤ) (raw : Bytes) (kept : Bool) (m : IdxBlockMeta) : List Write :=
  [.blockPut ⟨height, m.blockHash, m.time, m.coinbaseOutTotal, m.blockBytes, m.bits⟩] ++
    (if kept then [.rawblockPut ⟨height, raw⟩] else []) ++ idxDbSaveSync height m.blockHash

/-- `connect_block`. A malformed block has already gone through the fold when it is refused. -/
def connectBlock (s : SmState) (oracle : OracleFeed) (height : ℤ) (raw : Bytes)
    (walletTouched : Bool) : StepOut :=
  let b := blockAt sha256 idxAttribute oracle height raw
  let s := foldBlock sha256 s b
  match (idxParseBlock sha256 raw).2 with
  | none => ⟨false, s, oracle, []⟩
  | some m =>
    ⟨true, s, oracleRecord oracle ⟨height, m.time, m.coinbaseOutTotal, m.blockBytes⟩,
      connectWrites height raw (!b.txs.isEmpty || walletTouched) m⟩

/-- The iteration with `rollback_replay_cb`; it stops at a row that does not parse. -/
def rollbackReplay (oracle : OracleFeed) : List RawRow → SmState → Bool × SmState
  | [], s => (true, s)
  | r :: rs, s =>
    let s := foldBlock sha256 s (blockAt sha256 idxAttribute oracle r.height r.raw)
    match (idxParseBlock sha256 r.raw).2 with
    | none => (false, s)
    | some _ => rollbackReplay oracle rs s

/-- `idx_sync_rollback`. -/
def idxSyncRollback (db : Db) (oracle : OracleFeed) (activation : UInt64) (toHeight : ℤ) :
    StepOut :=
  let prune := idxDbBlockPruneAbove toHeight
  let db := db.writes prune
  let oracle := oracleRollback oracle (toHeight + 1)
  match rollbackReplay sha256 idxAttribute oracle (idxDbRawblockIter db toHeight)
      (smNew activation) with
  | (false, s) => ⟨false, s, oracle, prune⟩
  | (true, s) =>
    let s := { s with curHeight := toHeight }
    ⟨true, s, oracle, prune ++ [.project s]⟩

/-- The profile of a coin: where the chain starts, and what stands in for the headers below. The
heights of the profiles are not negative. -/
structure Coin where
  start : ℕ
  startHash : Hash256
  subsidy : ℤ
  startTime : ℤ := 0
  startBits : ℕ := 0
  startPrevTime : ℤ := 0
  powlimit : ℕ := 0
  auxChainId : ℕ := 0

/-- A running pass of `cmd_sync`. -/
structure Node where
  s : SmState
  oracle : OracleFeed
  db : Db
  height : ℤ
  tip : Option Hash256

variable (coin : Coin) (activation : UInt64)

/-- The hash a pass stands on after it lowered its height. -/
def tipAt (db : Db) (height : ℤ) : Hash256 :=
  if height ≤ coin.start then coin.startHash else (idxDbBlockGet db height).getD coin.startHash

/-- The start of `cmd_sync`: state, feed, height and tip are restored, and a height ahead of the
projection is taken back to it. -/
def startup (db : Db) : Node :=
  let s := idxDbLoadState db (smNew activation)
  let oracle := idxDbOracleWarm db { subsidy := coin.subsidy }
  let (height, tip) := match db.height with
    | none => ((coin.start : ℤ), some coin.startHash)
    | some height => (height, db.tip)
  match db.projHeight with
  | some projH =>
    if 0 ≤ projH ∧ projH < height then
      let height : ℤ := if projH ≤ coin.start then coin.start else projH
      let tip := tipAt coin db projH
      { s := { s with curHeight := height }, oracle, db := db.writes (idxDbSaveSync height tip),
        height, tip := some tip }
    else { s := { s with curHeight := height }, oracle, db, height, tip }
  | none => { s := { s with curHeight := height }, oracle, db, height, tip }

/-! ### One pass at work -/

namespace Node

/-- `connect_block` at `tip + 1`. -/
def connect (n : Node) (raw : Bytes) (walletTouched : Bool) : Node :=
  let o := connectBlock sha256 idxAttribute n.s n.oracle (n.height + 1) raw walletTouched
  let db := n.db.writes o.writes
  if o.ok then { s := o.s, oracle := o.oracle, db, height := n.height + 1, tip := db.tip }
  else { n with s := o.s, oracle := o.oracle, db }

/-- `idx_sync_rollback`, then `idx_db_save_sync`; a failed replay ends the pass. -/
def rollback (n : Node) (toHeight : ℤ) : Node :=
  let o := idxSyncRollback sha256 idxAttribute n.db n.oracle activation toHeight
  let db := n.db.writes o.writes
  if o.ok then
    let tip := (idxDbBlockGet db toHeight).getD coin.startHash
    { s := o.s, oracle := o.oracle, db := db.writes (idxDbSaveSync toHeight tip),
      height := toHeight, tip := some tip }
  else { n with s := o.s, oracle := o.oracle, db }

/-- `idx_db_project`. -/
def project (n : Node) : Node := { n with db := n.db.write (.project n.s) }

end Node

/-- What a pass does. -/
inductive Op where
  | connect (raw : Bytes) (walletTouched : Bool)
  | rollback (toHeight : ℤ)
  | project

def Node.op (n : Node) : Op → Node
  | .connect raw walletTouched => n.connect sha256 idxAttribute raw walletTouched
  | .rollback toHeight => n.rollback sha256 idxAttribute coin activation toHeight
  | .project => n.project

/-- A rollback goes to a height of the chain. -/
def Op.Legal (n : Node) : Op → Prop
  | .rollback toHeight => coin.start ≤ toHeight ∧ toHeight ≤ n.height
  | _ => True

end NamespaceIndexer.Daemon
