import NamespaceIndexer.Daemon.Oracle
import NamespaceIndexer.Fold.State

/-!
# The fold database (`db.c`)

The tables that the fold is restored from, in key order where they have a
primary key of heights. Every write is one committed statement; the transaction
of `idx_db_project` is one write.
-/

namespace NamespaceIndexer.Daemon

open Fold Lib

/-- A row of `blocks`. -/
structure BlockRow where
  height : ℤ
  hash : Hash256
  time : ℤ
  coinbase : ℤ
  bytes : ℤ
  bits : ℕ
  deriving DecidableEq

/-- A row of `raw_blocks`. -/
structure RawRow where
  height : ℤ
  raw : Bytes
  deriving DecidableEq

/-- The tables, and the keys of `meta` that a start reads. -/
structure Db where
  blocks : List BlockRow := []
  rawBlocks : List RawRow := []
  names : List SmNameRow := []
  commits : List SmCommit := []
  muts : List SmMut := []
  height : Option ℤ := none
  tip : Option Hash256 := none
  projHeight : Option ℤ := none

/-- A committed statement. -/
inductive Write where
  | blockPut (r : BlockRow)
  | rawblockPut (r : RawRow)
  | setHeight (height : ℤ)
  | setTip (hash : Hash256)
  | pruneBlocks (height : ℤ)
  | pruneRaw (height : ℤ)
  | project (s : SmState)

/-- `idx_db_project` commits when no primary key is violated. -/
def projectDb (db : Db) (s : SmState) : Db :=
  if (s.names.map SmNameRow.name).Nodup ∧ (s.muts.map SmMut.owner).Nodup then
    { db with names := s.names, commits := s.commits, muts := s.muts,
              projHeight := some s.curHeight }
  else db

def Db.write (db : Db) : Write → Db
  | .blockPut r => { db with blocks := OrderedTable.put BlockRow.height r db.blocks }
  | .rawblockPut r => { db with rawBlocks := OrderedTable.put RawRow.height r db.rawBlocks }
  | .setHeight height => { db with height := some height }
  | .setTip hash => { db with tip := some hash }
  | .pruneBlocks height => { db with blocks := OrderedTable.upTo BlockRow.height height db.blocks }
  | .pruneRaw height =>
    { db with rawBlocks := OrderedTable.upTo RawRow.height height db.rawBlocks }
  | .project s => projectDb db s

def Db.writes (db : Db) (ws : List Write) : Db := ws.foldl Db.write db

/-- `idx_db_save_sync`. -/
def idxDbSaveSync (height : ℤ) (tip : Hash256) : List Write := [.setHeight height, .setTip tip]

/-- `idx_db_block_prune_above`. -/
def idxDbBlockPruneAbove (height : ℤ) : List Write := [.pruneBlocks height, .pruneRaw height]

/-- `idx_db_block_get`. -/
def idxDbBlockGet (db : Db) (height : ℤ) : Option Hash256 :=
  (OrderedTable.find? BlockRow.height db.blocks height).map BlockRow.hash

/-- `idx_db_rawblock_iter`: the rows its callback sees. -/
def idxDbRawblockIter (db : Db) (maxHeight : ℤ) : List RawRow :=
  OrderedTable.upTo RawRow.height maxHeight db.rawBlocks

/-- `idx_db_oracle_warm`. -/
def idxDbOracleWarm (db : Db) (o : OracleFeed) : OracleFeed :=
  (db.blocks.map fun r => ⟨r.height, r.time, r.coinbase, r.bytes⟩).foldl oracleRecord o

/-- `idx_db_load_state`. -/
def idxDbLoadState (db : Db) (s : SmState) : SmState :=
  let s := { s with names := s.names ++ db.names }
  let s := db.commits.foldl
    (fun s c => smCommitAdd s c.commitment c.commitHeight c.txIndex c.commitTime) s
  db.muts.foldl (fun s m => smBumpMutation s m.owner m.height) s

/-! ### Writes -/

theorem Db.writes_append (db : Db) (ws ws' : List Write) :
    db.writes (ws ++ ws') = (db.writes ws).writes ws' := List.foldl_append

@[simp] theorem Db.writes_nil (db : Db) : db.writes [] = db := rfl

@[simp] theorem Db.writes_cons (db : Db) (w : Write) (ws : List Write) :
    db.writes (w :: ws) = (db.write w).writes ws := rfl

@[simp] theorem projectDb_blocks (db : Db) (s : SmState) : (projectDb db s).blocks = db.blocks := by
  unfold projectDb
  split <;> rfl

@[simp] theorem projectDb_rawBlocks (db : Db) (s : SmState) :
    (projectDb db s).rawBlocks = db.rawBlocks := by
  unfold projectDb
  split <;> rfl

@[simp] theorem projectDb_height (db : Db) (s : SmState) : (projectDb db s).height = db.height := by
  unfold projectDb
  split <;> rfl

@[simp] theorem projectDb_tip (db : Db) (s : SmState) : (projectDb db s).tip = db.tip := by
  unfold projectDb
  split <;> rfl

end NamespaceIndexer.Daemon
