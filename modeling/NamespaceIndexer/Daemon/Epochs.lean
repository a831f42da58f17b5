import NamespaceIndexer.Daemon.Db

/-!
# Ownership history (`db.c`)

One row for each change of owner that a block left behind, with no owner for a lapse.
-/

namespace NamespaceIndexer.Daemon

open Fold Lib

/-- A row of `epochs`, whose primary key is the name and the start height. -/
structure Epoch where
  name : Name
  startHeight : ℤ
  owner : Option H160
  ownerType : Byte
  deriving DecidableEq

/-- `INSERT OR REPLACE INTO epochs`. -/
def epochPut (epochs : List Epoch) (e : Epoch) : List Epoch :=
  epochs.filter (fun e' => e'.name ≠ e.name ∨ e'.startHeight ≠ e.startHeight) ++ [e]

/-- The row of a name with the greatest start height up to `height`. -/
def lastEpoch (epochs : List Epoch) (name : Name) (height : ℤ) : Option Epoch :=
  let rows := epochs.filter fun e => e.name = name ∧ e.startHeight ≤ height
  match (rows.map Epoch.startHeight).max? with
  | none => none
  | some start => rows.find? fun e => e.startHeight = start

/-- The row for a name of the state, where its last owner is another one. -/
def recordOwner (height : ℤ) (epochs : List Epoch) (r : SmNameRow) : List Epoch :=
  if ((lastEpoch epochs r.name height).bind Epoch.owner) = some r.owner then epochs
  else epochPut epochs ⟨r.name, height, some r.owner, r.ownerType⟩

/-- The last row of its name up to `height`, with an owner. -/
def openEpoch (epochs : List Epoch) (height : ℤ) (e : Epoch) : Bool :=
  e.owner.isSome && decide (e.startHeight ≤ height) &&
    decide ((lastEpoch epochs e.name height).map Epoch.startHeight = some e.startHeight)

/-- The row for a name that has left the state. -/
def recordLapse (s : SmState) (height : ℤ) (epochs : List Epoch) (e : Epoch) : List Epoch :=
  if (smFindName s e.name).isSome then epochs else epochPut epochs ⟨e.name, height, none, 0⟩

/-- `idx_db_epochs_update`, on the table. -/
def idxDbEpochsUpdate (epochs : List Epoch) (s : SmState) (height : ℤ) : List Epoch :=
  let epochs := s.names.foldl (recordOwner height) epochs
  (epochs.filter (openEpoch epochs height)).foldl (recordLapse s height) epochs

/-- `idx_db_epochs_mark`: `epochs_from` is set once. -/
def idxDbEpochsMark (epochsFrom : Option ℤ) (height : ℤ) : Option ℤ :=
  match epochsFrom with
  | some h => some h
  | none => some height

/-- What `idx_db_owner_at` returns: -1, 0, or 1 with the owner. -/
inductive OwnerAt where
  | unknown
  | unowned
  | owned (owner : H160) (ownerType : Byte)
  deriving DecidableEq

/-- No row up to the height: what the marker, the later rows and the projected names say. -/
def beforeEpochs (epochs : List Epoch) (epochsFrom : Option ℤ) (names : List SmNameRow)
    (name : Name) (height : ℤ) : OwnerAt :=
  match epochsFrom with
  | none => .unknown
  | some efrom =>
    if efrom ≤ height then
      match ((epochs.filter fun e => e.name = name).map Epoch.startHeight).min? with
      | some start => if start = efrom then .unknown else .unowned
      | none => if (RowTable.lookup SmNameRow.name names name).isSome then .unknown else .unowned
    else .unknown

/-- `idx_db_owner_at`. -/
def idxDbOwnerAt (epochs : List Epoch) (epochsFrom : Option ℤ) (names : List SmNameRow)
    (name : Name) (height : ℤ) : OwnerAt :=
  match lastEpoch epochs name height with
  | some e =>
    match e.owner with
    | some owner => .owned owner e.ownerType
    | none => .unowned
  | none => beforeEpochs epochs epochsFrom names name height

end NamespaceIndexer.Daemon
