import NamespaceIndexer.Fold.Types
import NamespaceIndexer.Lib.Dict

/-!
# The Go port: state (`state.go`)

The state of the Go fold, its rows in maps. A Go `int` or `int64` is an integer.
-/

namespace NamespaceIndexer.Go

open Fold Lib

/-! ### State -/

/-- A name; the market fields are zero when the state does not use them. -/
structure NameRow where
  owner : H160
  st : SmNameState
  leaseExpiry : ℤ
  seller : H160 := zeros 20
  sellerType : Byte := 0
  price : UInt64 := 0
  offerExpiry : ℤ := 0
  buyer : H160 := zeros 20
  burnLeg : UInt64 := 0
  payLeg : UInt64 := 0
  reserveExpiry : ℤ := 0
  deriving DecidableEq

/-- `resetMarket`. -/
def NameRow.resetMarket (r : NameRow) : NameRow :=
  { r with seller := zeros 20, sellerType := 0, price := 0, offerExpiry := 0, buyer := zeros 20,
           burnLeg := 0, payLeg := 0, reserveExpiry := 0 }

structure CommitRow where
  commitment : Hash256
  height : ℤ
  txIndex : UInt32
  commitTime : ℤ
  deriving DecidableEq

structure ClaimScratch where
  ch : ℤ
  ti : UInt32
  owner : H160

structure FoldState where
  names : Dict Name NameRow := ∅
  commits : List CommitRow := []
  muts : Dict H160 ℤ := ∅
  curHeight : ℤ := 0
  scratch : Dict Name ClaimScratch := ∅

/-- `newState`. -/
def newState : FoldState := {}

namespace FoldState

/-- `s.names[name] = r`. -/
def setName (s : FoldState) (name : Name) (r : NameRow) : FoldState :=
  { s with names := s.names.insert name r }

/-- `delete(s.names, name)`. -/
def deleteName (s : FoldState) (name : Name) : FoldState := { s with names := s.names.erase name }

/-- `bumpMut`. -/
def bumpMut (s : FoldState) (owner : H160) (h : ℤ) : FoldState :=
  match s.muts.get owner with
  | some cur => if h > cur then { s with muts := s.muts.insert owner h } else s
  | none => { s with muts := s.muts.insert owner h }

/-- `s.scratch[name] = claimScratch{..}`. -/
def setScratch (s : FoldState) (name : Name) (sc : ClaimScratch) : FoldState :=
  { s with scratch := s.scratch.insert name sc }

end FoldState

end NamespaceIndexer.Go
