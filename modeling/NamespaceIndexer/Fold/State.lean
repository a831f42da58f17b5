import NamespaceIndexer.Fold.Types
import NamespaceIndexer.Lib.RowTable

/-!
# State container and shared helpers (`state.c`)

A row pointer `SmNameRow *` is the row's index in `names`.
-/

namespace NamespaceIndexer.Fold

open Lib

/-- `sm_new`. -/
def smNew (activationHeight : UInt64) : SmState := { activationHeight }

/-- `sm_clear`: the tables and the clock, not the activation height or the counters. -/
def smClear (s : SmState) : SmState :=
  { s with names := [], commits := [], muts := [], claimsc := [],
           curHeight := 0, curMtp := 0, curRate := 0 }

/-- The charset `[a-z0-9-]`. -/
def nameByteOk (c : Byte) : Bool :=
  (97 ≤ c && c ≤ 122) || (48 ≤ c && c ≤ 57) || c == 45

/-- `sm_name_valid`. -/
def smNameValid (name : Name) : Bool :=
  if name.length < 1 || name.length > nameMax then false
  else if !name.all nameByteOk then false
  else if name[0]? == some 45 || name.getLast? == some 45 then false
  else if name.length ≥ 4 && name[2]? == some 45 && name[3]? == some 45 then false
  else true

namespace SmState

/-- `s->ev[e]++`. -/
def bumpEv (s : SmState) (e : SmEv) : SmState :=
  { s with ev := fun e' => if e' = e then s.ev e' + 1 else s.ev e' }

/-- `*r`. -/
def row (s : SmState) (r : ℕ) : SmNameRow := s.names.getD r default

/-- `*r = v`. -/
def setRow (s : SmState) (r : ℕ) (v : SmNameRow) : SmState := { s with names := s.names.set r v }

end SmState

/-- `sm_find_name`. -/
def smFindName (s : SmState) (name : Name) : Option ℕ := RowTable.indexOf? SmNameRow.name s.names name

/-- `sm_add_name`: the zeroed row, returned as the index of the new last slot. -/
def smAddName (s : SmState) (name : Name) : SmState × ℕ :=
  ({ s with names := s.names ++ [{ name }] }, s.names.length)

/-- `sm_remove_name`: the last row moves into the freed slot. -/
def smRemoveName (s : SmState) (r : ℕ) : SmState := { s with names := RowTable.swapRemove s.names r }

/-- `sm_commit_add`. -/
def smCommitAdd (s : SmState) (commitment : Hash256) (height : ℤ) (txidx : UInt32) (time : ℤ) :
    SmState :=
  { s with commits := s.commits ++ [⟨commitment, height, txidx, time⟩] }

/-- `sm_last_mutation`. -/
def smLastMutation (s : SmState) (owner : H160) : ℤ :=
  match RowTable.lookup SmMut.owner s.muts owner with
  | some m => m.height
  | none => 0

/-- `sm_bump_mutation`: an existing stamp only grows. -/
def smBumpMutation (s : SmState) (owner : H160) (height : ℤ) : SmState :=
  match RowTable.indexOf? SmMut.owner s.muts owner with
  | some i =>
    if height > (s.muts.getD i ⟨owner, 0⟩).height then
      { s with muts := s.muts.set i ⟨owner, height⟩ }
    else s
  | none => { s with muts := s.muts ++ [⟨owner, height⟩] }

end NamespaceIndexer.Fold
