import NamespaceIndexer.Daemon.Sync
import NamespaceIndexer.Daemon.Utxos
import NamespaceIndexer.Daemon.Epochs

/-!
# The driver with the wallet and the history (`sync.c`)

`connect_block`, `rollback_replay_cb` and `idx_sync_rollback` on every table they write. Each is the
fold driver beside what it does to `utxos` and `epochs`. A pass reads the watched addresses once, when
it starts (`fold_load_watch`); its calls of `connect_block` are given that list.
-/

namespace NamespaceIndexer.Daemon

open Fold Lib

variable (sha256 : Bytes → Hash256) (idxAttribute : Bytes → ℕ → Option (H160 × Byte))

/-- The fold database with the wallet and the history. -/
structure Tables where
  db : Db := {}
  watch : List H160 := []
  utxos : List Utxo := []
  epochs : List Epoch := []
  epochsFrom : Option ℤ := none

/-- What a call returns, and leaves in memory and in the tables. -/
structure Outcome where
  ok : Bool
  s : SmState
  oracle : OracleFeed
  tables : Tables

/-- Did the block fold a carrier or fire a lapse? -/
def movesNames (s s' : SmState) (b : FoldBlock) : Bool :=
  !b.txs.isEmpty || decide (s'.ev .LAPSE ≠ s.ev .LAPSE)

/-- The call of `idx_db_epochs_update` after a block. -/
def recordEpochs (t : Tables) (s s' : SmState) (b : FoldBlock) : Tables :=
  if movesNames s s' b then
    { t with epochs := idxDbEpochsUpdate t.epochs s' b.height,
             epochsFrom := idxDbEpochsMark t.epochsFrom b.height }
  else t

/-- `connect_block`; `watch` is `fc->watch`. -/
def connectTables (watch : List H160) (s : SmState) (oracle : OracleFeed) (t : Tables) (height : ℤ)
    (raw : Bytes) : Outcome :=
  let (utxos, touched) := watchBlock watch height t.utxos (idxParseBlock sha256 raw).1
  let o := connectBlock sha256 idxAttribute s oracle height raw touched
  let t := { t with utxos }
  if o.ok then
    let t := recordEpochs t s o.s (blockAt sha256 idxAttribute oracle height raw)
    ⟨true, o.s, o.oracle, { t with db := t.db.writes o.writes }⟩
  else ⟨false, o.s, o.oracle, { t with db := t.db.writes o.writes }⟩

/-- The iteration with `rollback_replay_cb`, on the state and the tables. -/
def replayTables (oracle : OracleFeed) (watch : List H160) :
    List RawRow → SmState → Tables → Bool × SmState × Tables
  | [], s, t => (true, s, t)
  | r :: rs, s, t =>
    let b := blockAt sha256 idxAttribute oracle r.height r.raw
    let s' := foldBlock sha256 s b
    let utxos := (watchBlock watch r.height t.utxos (idxParseBlock sha256 r.raw).1).1
    let t := { t with utxos }
    match (idxParseBlock sha256 r.raw).2 with
    | none => (false, s', t)
    | some _ => replayTables oracle watch rs s' (recordEpochs t s s' b)

/-- `idx_db_block_prune_above`, on every table. -/
def pruneTables (t : Tables) (height : ℤ) : Tables :=
  { t with
    db := t.db.writes (idxDbBlockPruneAbove height)
    epochs := t.epochs.filter fun e => e.startHeight ≤ height
    utxos := pruneUtxos height t.utxos }

/-- `idx_sync_rollback`. -/
def rollbackTables (oracle : OracleFeed) (t : Tables) (activation : UInt64) (toHeight : ℤ) :
    Outcome :=
  let t := pruneTables t toHeight
  let oracle := oracleRollback oracle (toHeight + 1)
  match replayTables sha256 idxAttribute oracle (idxDbWatchList t.watch)
      (idxDbRawblockIter t.db toHeight) (smNew activation) t with
  | (false, s, t) => ⟨false, s, oracle, t⟩
  | (true, s, t) =>
    let s := { s with curHeight := toHeight }
    ⟨true, s, oracle, { t with db := t.db.write (.project s) }⟩

section Simulation

variable {sha256 idxAttribute}

/-- What the driver does to the state, the feed and the fold database is `connect_block` of the fold
driver, told whether the wallet was touched. -/
theorem connectTables_fold (watch : List H160) (s : SmState) (oracle : OracleFeed) (t : Tables)
    (height : ℤ) (raw : Bytes) :
    let touched := (watchBlock watch height t.utxos (idxParseBlock sha256 raw).1).2
    let o := connectBlock sha256 idxAttribute s oracle height raw touched
    let o' := connectTables sha256 idxAttribute watch s oracle t height raw
    o'.ok = o.ok ∧ o'.s = o.s ∧ o'.oracle = o.oracle ∧ o'.tables.db = t.db.writes o.writes := by
  intro touched o o'
  have ho' : o' = connectTables sha256 idxAttribute watch s oracle t height raw := rfl
  unfold connectTables at ho'
  cases hok : o.ok with
  | true =>
    have hok' := hok
    unfold o touched at hok'
    simp only [hok', if_true] at ho'
    rw [ho']
    refine ⟨rfl, rfl, rfl, ?_⟩
    unfold recordEpochs
    split <;> rfl
  | false =>
    have hok' := hok
    unfold o touched at hok'
    simp only [hok', Bool.false_eq_true, if_false] at ho'
    rw [ho']
    exact ⟨rfl, rfl, rfl, rfl⟩

end Simulation

end NamespaceIndexer.Daemon
