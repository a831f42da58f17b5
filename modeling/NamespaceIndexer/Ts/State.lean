import NamespaceIndexer.Fold.Types
import NamespaceIndexer.Lib.ReverseIndex

/-!
# The TypeScript port: state (`fold.ts`)

The state of the class `Fold`. A `bigint` is an integer. The key `nk(name)` or `ik(id)`, bytes in
hexadecimal, is the bytes; a reference to a row is its key in `names`, and its name is that key.
-/

namespace NamespaceIndexer.Ts

open Fold Lib

/-! ### Rows -/

structure NameRow where
  owner : H160
  st : SmNameState
  leaseExpiry : ℤ
  seller : H160 := zeros 20
  sellerType : Byte := 0
  price : ℤ := 0
  offerExpiry : ℤ := 0
  buyer : H160 := zeros 20
  burnLeg : ℤ := 0
  payLeg : ℤ := 0
  reserveExpiry : ℤ := 0
  deriving DecidableEq

/-- `zeroMarket`. -/
def NameRow.zeroMarket (r : NameRow) : NameRow :=
  { r with seller := zeros 20, sellerType := 0, price := 0, offerExpiry := 0, buyer := zeros 20,
           burnLeg := 0, payLeg := 0, reserveExpiry := 0 }

structure Commit where
  commitment : Hash256
  commitHeight : ℤ
  txIndex : UInt32
  commitTime : ℤ
  deriving DecidableEq

structure ClaimScratch where
  ch : ℤ
  ti : UInt32
  owner : H160

/-! ### State -/

structure FoldState where
  names : Dict Name NameRow := ∅
  ownerNames : ReverseIndex H160 Name := ∅
  commits : List Commit := []
  muts : Dict H160 ℤ := ∅
  activationHeight : ℤ
  curHeight : ℤ := 0
  curMTP : ℤ := 0
  curRate : ℤ := 1
  claimScratch : Dict Name ClaimScratch := ∅

namespace FoldState

variable (s : FoldState)

/-- An assignment to fields of the row `r`. -/
def setRow (key : Name) (f : NameRow → NameRow) : FoldState :=
  { s with names := s.names.modify key f }

/-- `_add`. -/
def add (name : Name) (row : NameRow) : FoldState :=
  { s with names := s.names.insert name row, ownerNames := s.ownerNames.add row.owner name }

/-- `_remove`. -/
def remove (key : Name) : FoldState :=
  match s.names.get key with
  | none => s
  | some row =>
    { s with ownerNames := s.ownerNames.drop row.owner key, names := s.names.erase key }

/-- `_chown`. -/
def chown (key : Name) (newOwner : H160) : FoldState :=
  match s.names.get key with
  | none => s
  | some row =>
    { s with names := s.names.insert key { row with owner := newOwner },
             ownerNames := (s.ownerNames.drop row.owner key).add newOwner key }

/-- `_bump`. -/
def bump (id : H160) : FoldState := { s with muts := s.muts.insert id s.curHeight }

/-- `_ownedListSorted`. -/
def ownedListSorted (id : H160) : List Name :=
  ((s.ownerNames.under id).filter fun key => (s.names.get key).isSome).insertionSort (· ≤ ·)

/-- `claimScratch.set(key, { ch, ti, owner })`. -/
def setScratch (key : Name) (sc : ClaimScratch) : FoldState :=
  { s with claimScratch := s.claimScratch.insert key sc }

end FoldState

end NamespaceIndexer.Ts
