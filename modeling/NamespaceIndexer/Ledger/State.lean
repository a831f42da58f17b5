import NamespaceIndexer.Fold.Bitmap
import NamespaceIndexer.Lib.PartialMap
import NamespaceIndexer.Lib.WaterFill

/-!
# The ledger: what the fold maintains

The state of the fold without row order and event counters. Names and stamps
are partial maps, commits a multiset.
-/

namespace NamespaceIndexer

open Fold Lib

/-- What the ledger knows of one name. -/
structure Deed where
  owner : H160
  ownerType : Byte
  leaseExpiry : ℤ
  st : SmNameState
  seller : H160
  sellerType : Byte
  price : UInt64
  offerExpiry : ℤ
  buyer : H160
  burnLeg : UInt64
  payLeg : UInt64
  reserveExpiry : ℤ
  deriving DecidableEq

namespace Deed

/-- The holder of a name: its owner, or its seller while a sale locks it. -/
def holder (d : Deed) : H160 := if d.st = .OWNED then d.owner else d.seller

/-- A name that nobody is selling. -/
def plain (owner : H160) (ownerType : Byte) (leaseExpiry : ℤ) : Deed :=
  { owner, ownerType, leaseExpiry, st := .OWNED, seller := zeros 20, sellerType := 0, price := 0,
    offerExpiry := 0, buyer := zeros 20, burnLeg := 0, payLeg := 0, reserveExpiry := 0 }

/-- The name passes to `who`, off the market, with its lease. -/
def conveyTo (d : Deed) (who : H160) (type : Byte) : Deed := plain who type d.leaseExpiry

/-- An unlocked name changes owner; a locked one stays. A gift carries no script type. -/
def give (addr : H160) (d : Deed) : Deed :=
  if d.st = .OWNED then { d with owner := addr, ownerType := 0 } else d

def award (d : Deed) (days : ℕ) : Deed :=
  { d with leaseExpiry := d.leaseExpiry + days * billingUnit }

/-- A reserve that ended: back to the open listing, or to the seller if that ended too. -/
def closeReserve (mtp : ℤ) (d : Deed) : Deed :=
  if d.st = .RESERVED ∧ mtp ≥ d.reserveExpiry then
    if d.reserveExpiry < d.offerExpiry then
      { d with st := .LISTED, reserveExpiry := 0, burnLeg := 0, payLeg := 0, buyer := zeros 20 }
    else d.conveyTo d.seller d.sellerType
  else d

/-- A listing or offer that ended: back to the seller. -/
def closeOffer (mtp : ℤ) (d : Deed) : Deed :=
  if (d.st = .LISTED ∨ d.st = .OFFERED) ∧ mtp ≥ d.offerExpiry then
    d.conveyTo d.seller d.sellerType
  else d

/-- Every sale window that is over at time `mtp` is closed. -/
def close (mtp : ℤ) (d : Deed) : Deed := closeOffer mtp (closeReserve mtp d)

/-- The deed at time `mtp`; `none` once the lease is over. -/
def due (mtp : ℤ) (d : Deed) : Option Deed :=
  if mtp ≥ d.leaseExpiry then none else some (d.close mtp)

end Deed

/-- The claim that minted a name in the current block. -/
structure Win where
  commitHeight : ℤ
  commitTxIndex : UInt32
  owner : H160

@[ext] structure Ledger where
  activationHeight : UInt64
  height : ℤ
  mtp : ℤ
  rate : UInt64
  names : Name → Option Deed
  commits : Multiset SmCommit
  muts : H160 → Option ℤ
  scratch : Name → Option Win

namespace Ledger

def withNames (L : Ledger) (f : Name → Option Deed) : Ledger := { L with names := f }

/-- Write the deed of one name. -/
def put (L : Ledger) (n : Name) (d : Deed) : Ledger :=
  { L with names := Function.update L.names n (some d) }

def erase (L : Ledger) (n : Name) : Ledger := { L with names := Function.update L.names n none }

/-- A stamp only grows. -/
def raise : Option ℤ → ℤ → ℤ
  | some h0, h => max h0 h
  | none, h => h

def bump (L : Ledger) (who : H160) (h : ℤ) : Ledger :=
  { L with muts := Function.update L.muts who (some (raise (L.muts who) h)) }

def setWin (L : Ledger) (n : Name) (w : Win) : Ledger :=
  { L with scratch := Function.update L.scratch n (some w) }

def lastMutation (L : Ledger) (who : H160) : ℤ := (L.muts who).getD 0

/-- The owned set of `who`. -/
def owned (L : Ledger) (who : H160) : Set Name := {n | ∃ d, L.names n = some d ∧ d.holder = who}

/-- The owned set in ascending order: the bitmap ordering. -/
noncomputable def ownedList (L : Ledger) (who : H160) : List Name :=
  PartialMap.listing (L.owned who)

def anchorOk (L : Ledger) (who : H160) (anchor : UInt64) (confirm : ℤ) : Bool :=
  L.lastMutation who ≤ i64 anchor && i64 anchor ≤ confirm && confirm - i64 anchor ≤ maxAnchorAge

/-- Headroom of a name, in days. -/
def headroomOf (L : Ledger) (now : ℤ) (n : Name) : ℕ :=
  match L.names n with
  | some d => headroom now d.leaseExpiry
  | none => 0

/-- Water-fill the leases of the names `ns` with what the burn buys. -/
noncomputable def extend (L : Ledger) (now : ℤ) (rate burn : UInt64) (ns : List Name) : Ledger :=
  let days := WaterFill.fill (ns.map (L.headroomOf now)) (rawT burn rate)
  L.withNames (PartialMap.modifyAll (ns.zip days) (fun k d => d.award k) L.names)

@[simp] theorem put_names (L : Ledger) (n : Name) (d : Deed) :
    (L.put n d).names = Function.update L.names n (some d) := rfl
@[simp] theorem put_muts (L : Ledger) (n : Name) (d : Deed) : (L.put n d).muts = L.muts := rfl
@[simp] theorem put_scratch (L : Ledger) (n : Name) (d : Deed) :
    (L.put n d).scratch = L.scratch := rfl
@[simp] theorem put_commits (L : Ledger) (n : Name) (d : Deed) :
    (L.put n d).commits = L.commits := rfl
@[simp] theorem erase_names (L : Ledger) (n : Name) :
    (L.erase n).names = Function.update L.names n none := rfl
@[simp] theorem erase_muts (L : Ledger) (n : Name) : (L.erase n).muts = L.muts := rfl
@[simp] theorem erase_scratch (L : Ledger) (n : Name) : (L.erase n).scratch = L.scratch := rfl
@[simp] theorem erase_commits (L : Ledger) (n : Name) : (L.erase n).commits = L.commits := rfl
@[simp] theorem bump_names (L : Ledger) (who : H160) (h : ℤ) : (L.bump who h).names = L.names := rfl
@[simp] theorem bump_scratch (L : Ledger) (who : H160) (h : ℤ) :
    (L.bump who h).scratch = L.scratch := rfl
@[simp] theorem bump_commits (L : Ledger) (who : H160) (h : ℤ) :
    (L.bump who h).commits = L.commits := rfl
@[simp] theorem setWin_names (L : Ledger) (n : Name) (w : Win) : (L.setWin n w).names = L.names :=
  rfl
@[simp] theorem setWin_muts (L : Ledger) (n : Name) (w : Win) : (L.setWin n w).muts = L.muts := rfl
@[simp] theorem setWin_commits (L : Ledger) (n : Name) (w : Win) :
    (L.setWin n w).commits = L.commits := rfl
@[simp] theorem extend_muts (L : Ledger) (now : ℤ) (rate burn : UInt64) (ns : List Name) :
    (L.extend now rate burn ns).muts = L.muts := rfl
@[simp] theorem extend_scratch (L : Ledger) (now : ℤ) (rate burn : UInt64) (ns : List Name) :
    (L.extend now rate burn ns).scratch = L.scratch := rfl
@[simp] theorem extend_commits (L : Ledger) (now : ℤ) (rate burn : UInt64) (ns : List Name) :
    (L.extend now rate burn ns).commits = L.commits := rfl

end Ledger

end NamespaceIndexer
