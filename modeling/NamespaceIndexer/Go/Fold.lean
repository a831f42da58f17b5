import NamespaceIndexer.Daemon.FeeRate
import NamespaceIndexer.Go.Wire
import NamespaceIndexer.Ledger.LeasePorts

/-!
# The Go port: the fold (`fold.go`, `dispatch.go`, `waterfill.go`, `u128.go`)

A row pointer `*NameRow` is the row's name in the map.
-/

namespace NamespaceIndexer.Go

open Fold Lib Daemon

/-! ### Blocks -/

structure Identity where
  h160 : H160 := zeros 20
  styp : Byte := 0
  ok : Bool := false
  deriving DecidableEq

structure FoldOutput where
  h160 : H160
  styp : Byte
  value : UInt64

/-- An `OP_RETURN` output; `none` is a carrier that is no action. -/
structure FoldCarrier where
  c : Option Carrier
  value : UInt64

structure FoldTx where
  txIndex : UInt32
  inputs : List Identity
  carriers : List FoldCarrier
  spend : List FoldOutput

structure FoldBlock where
  height : ℤ
  mtp : ℤ
  rate : UInt64
  txs : List FoldTx

/-- `ACTIVATION_HEIGHT`. -/
def activationHeight : ℤ := 0

/-! ### Leases -/

/-- `div128by64`, for `hi < den`. -/
def div128by64 (hi lo den : UInt64) : UInt64 :=
  UInt64.ofNat ((hi.toNat * 2 ^ 64 + lo.toNat) / den.toNat)

/-- `headroomDays`. -/
def headroomDays (expiry now : ℤ) : ℤ :=
  let rem := expiry - now
  let rem := if rem < 0 then 0 else rem
  let h := (maxLease - rem).tdiv billingUnit
  if h < 0 then 0 else h

/-- `leaseT`: the days a burn buys, and whether they are `2^64` or more. -/
def leaseT (burn rate : UInt64) : UInt64 × Bool :=
  let (hi, lo) := mul64 burn (UInt64.ofNat leaseQuantum)
  let den := rate * UInt64.ofNat billingUnit
  if den = 0 then (0, false)
  else if hi ≥ den then (0, true)
  else (div128by64 hi lo den, false)

/-- `leaseDaysSingle`. -/
def leaseDaysSingle (burn rate : UInt64) (expiry now : ℤ) : ℤ :=
  let (T, huge) := leaseT burn rate
  if !huge && T == 0 then 0
  else
    let h := headroomDays expiry now
    if huge || T ≥ UInt64.ofInt h then h else i64 T

/-- `sumMin`. -/
def sumMin (h : List ℤ) (lam : ℤ) : UInt64 :=
  h.foldl (fun s hi => if hi < lam then s + UInt64.ofInt hi else s + UInt64.ofInt lam) 0

/-- `r.leaseExpiry` of the row called `name`. -/
def leaseExpiryOf (names : Dict Name NameRow) (name : Name) : ℤ :=
  match names.get name with
  | some r => r.leaseExpiry
  | none => 0

/-- `waterFill`, over the rows called `keys`. -/
def waterFill (names : Dict Name NameRow) (keys : List Name) (T : UInt64) (huge : Bool) (now : ℤ) :
    Dict Name NameRow :=
  let h := keys.map fun name => headroomDays (leaseExpiryOf names name) now
  let totalH := h.foldl (fun t hi => t + UInt64.ofInt hi) 0
  let maxH := h.foldl max 0
  let add :=
    if huge || T ≥ totalH then h
    else
      let lam := scanUp (fun lam => sumMin h lam ≤ T) maxH.toNat 0
      let R := T - sumMin h lam
      giveOut (0 < ·) (lam < ·) (h.zip (h.map (min · lam))) R.toNat
  (keys.zip add).foldl (fun names p => names.modify p.1 fun r =>
    { r with leaseExpiry := r.leaseExpiry + p.2 * billingUnit }) names

/-! ### The owned set -/

namespace FoldState

/-- `ownedSorted`. -/
def ownedSorted (s : FoldState) (owner : H160) : List Name :=
  ((s.names.entries.filter fun e => e.2.owner = owner).map Sigma.fst).insertionSort (· ≤ ·)

/-- `anchorOK`. -/
def anchorOK (s : FoldState) (owner : H160) (anchor confirm : ℤ) : Bool :=
  if anchor < 0 ∨ anchor > confirm then false
  else if confirm - anchor > maxAnchorAge then false
  else (s.muts.get owner).getD 0 ≤ anchor

/-- `findMine`. -/
def findMine (s : FoldState) (c : Carrier) (actor : Identity) : Option NameRow :=
  match s.names.get c.name with
  | none => none
  | some r => if r.owner ≠ actor.h160 then none else some r

end FoldState

/-- `selectBitmap`. -/
def selectBitmap (owned : List Name) : Option Bytes → List Name
  | none => owned
  | some flags => Fold.selectBitmap flags owned

/-! ### Bitmap actions and their by-name forms -/

/-- The loop body of TRANSFER and RELEASE: a locked row is skipped. With the rows, whether one
was not. -/
def unlockedStep (act : Dict Name NameRow → Name → NameRow → Dict Name NameRow)
    (m : Dict Name NameRow × Bool) (name : Name) : Dict Name NameRow × Bool :=
  match m.1.get name with
  | none => m
  | some r => if r.st ≠ .OWNED then m else (act m.1 name r, true)

/-- The loop over the selected names. -/
def forUnlocked (act : Dict Name NameRow → Name → NameRow → Dict Name NameRow)
    (names : Dict Name NameRow) (sel : List Name) : Dict Name NameRow × Bool :=
  sel.foldl (unlockedStep act) (names, false)

section Actions

variable (s : FoldState) (b : FoldBlock)

/-- The end of `applyRenew` and `applyRenewName`: a burn that buys no day does nothing. -/
def fillLeases (value : UInt64) (sel : List Name) : FoldState :=
  let (T, huge) := leaseT value b.rate
  if !huge && T == 0 then s else { s with names := waterFill s.names sel T huge b.mtp }

/-- `applyRenew`. -/
def applyRenew (fc : FoldCarrier) (c : Carrier) (actor : Identity) : FoldState :=
  let owned := s.ownedSorted actor.h160
  if c.hasAnchor && !s.anchorOK actor.h160 c.anchor b.height then s
  else
    let sel := selectBitmap owned c.flags
    if sel.length = 0 then s else fillLeases s b fc.value sel

/-- `applyTransfer`. -/
def applyTransfer (c : Carrier) (actor : Identity) : FoldState :=
  let owned := s.ownedSorted actor.h160
  if c.hasAnchor && !s.anchorOK actor.h160 c.anchor b.height then s
  else
    let sel := selectBitmap owned c.flags
    let (names, moved) := forUnlocked (fun names name r =>
      names.insert name { r with owner := c.target }) s.names sel
    let s := { s with names }
    if moved then (s.bumpMut actor.h160 b.height).bumpMut c.target b.height else s

/-- `applyRelease`. -/
def applyRelease (c : Carrier) (actor : Identity) : FoldState :=
  let owned := s.ownedSorted actor.h160
  if !s.anchorOK actor.h160 c.anchor b.height then s
  else
    let sel := selectBitmap owned c.flags
    let (names, removed) := forUnlocked (fun names name _ => names.erase name) s.names sel
    let s := { s with names }
    if removed then s.bumpMut actor.h160 b.height else s

/-- `applyRenewName`. -/
def applyRenewName (fc : FoldCarrier) (c : Carrier) (actor : Identity) : FoldState :=
  match s.findMine c actor with
  | none => s
  | some _ => fillLeases s b fc.value [c.name]

/-- `applyTransferName`. -/
def applyTransferName (c : Carrier) (actor : Identity) : FoldState :=
  match s.findMine c actor with
  | none => s
  | some r =>
    if r.st ≠ .OWNED then s
    else
      ((s.setName c.name { r with owner := c.target }).bumpMut actor.h160 b.height).bumpMut c.target
        b.height

/-- `applyReleaseName`. -/
def applyReleaseName (c : Carrier) (actor : Identity) : FoldState :=
  match s.findMine c actor with
  | none => s
  | some r => if r.st ≠ .OWNED then s else (s.deleteName c.name).bumpMut actor.h160 b.height

/-! ### The market -/

/-- `depositLeg`. -/
def depositLeg (price bps : UInt64) : UInt64 :=
  let (hi, lo) := mul64 price bps
  let q := div128by64 hi lo 10000
  if q < dustFloor then dustFloor else q

/-- `matchOutput`; `none` is -1. -/
def matchOutput (tx : FoldTx) (consumed : List Bool) (seller : H160) (styp : Byte) (owed : UInt64) :
    Option ℕ :=
  (List.range tx.spend.length).find? fun i =>
    match tx.spend[i]? with
    | none => false
    | some o => !consumed.getD i false && o.h160 == seller && o.styp == styp && o.value == owed

/-- `applySell`. -/
def applySell (c : Carrier) (actor : Identity) : FoldState :=
  match s.names.get c.name with
  | none => s
  | some r =>
    if r.owner ≠ actor.h160 ∨ r.st ≠ .OWNED then s
    else if c.price < 3 * dustFloor then s
    else
      let window : ℤ := c.window.toNat
      if window ≠ 0 ∧ window < reserveWindow then s
      else
        let window := if window = 0 then reserveWindow else window
        if b.mtp + window + reorgBuffer > r.leaseExpiry then s
        else s.setName c.name { r with
          st := .LISTED, seller := actor.h160, sellerType := actor.styp, price := c.price,
          offerExpiry := b.mtp + window }

/-- `applySellTo`. -/
def applySellTo (c : Carrier) (actor : Identity) : FoldState :=
  match s.names.get c.name with
  | none => s
  | some r =>
    if r.owner ≠ actor.h160 ∨ r.st ≠ .OWNED then s
    else if c.price < dustFloor then s
    else if b.mtp + directWindow + reorgBuffer > r.leaseExpiry then s
    else s.setName c.name { r with
      st := .OFFERED, seller := actor.h160, sellerType := actor.styp, price := c.price,
      buyer := c.buyer, offerExpiry := b.mtp + directWindow }

variable (tx : FoldTx)

/-- `applyReserve`. -/
def applyReserve (carrierValue : UInt64) (c : Carrier) (actor : Identity) (consumed : List Bool) :
    FoldState × List Bool :=
  match s.names.get c.name with
  | none => (s, consumed)
  | some r =>
    if r.st ≠ .LISTED then (s, consumed)
    else
      let burnLeg := depositLeg r.price 50
      let payLeg := depositLeg r.price 50
      if carrierValue < burnLeg then (s, consumed)
      else
        match matchOutput tx consumed r.seller r.sellerType payLeg with
        | none => (s, consumed)
        | some idx =>
          let re := b.mtp + reserveWindow
          let re := if re > r.offerExpiry then r.offerExpiry else re
          (s.setName c.name { r with
            st := .RESERVED, buyer := actor.h160, burnLeg, payLeg, reserveExpiry := re },
            consumed.set idx true)

/-- The end of SETTLE and PAY. -/
def conveyTo (name : Name) (r : NameRow) (actor : Identity) : FoldState :=
  let r' := { r with owner := actor.h160, st := .OWNED }.resetMarket
  ((s.setName name r').bumpMut actor.h160 b.height).bumpMut r.seller b.height

/-- `applySettle`. -/
def applySettle (c : Carrier) (actor : Identity) (consumed : List Bool) : FoldState × List Bool :=
  match s.names.get c.name with
  | none => (s, consumed)
  | some r =>
    if r.st ≠ .RESERVED then (s, consumed)
    else if r.buyer ≠ actor.h160 then (s, consumed)
    else if b.mtp ≥ r.reserveExpiry then (s, consumed)
    else
      let remainder := r.price - r.burnLeg - r.payLeg
      match matchOutput tx consumed r.seller r.sellerType remainder with
      | none => (s, consumed)
      | some idx => (conveyTo s b c.name r actor, consumed.set idx true)

/-- `applyPay`. -/
def applyPay (c : Carrier) (actor : Identity) (consumed : List Bool) : FoldState × List Bool :=
  match s.names.get c.name with
  | none => (s, consumed)
  | some r =>
    if r.st ≠ .OFFERED then (s, consumed)
    else if r.buyer ≠ actor.h160 then (s, consumed)
    else if b.mtp ≥ r.offerExpiry then (s, consumed)
    else
      match matchOutput tx consumed r.seller r.sellerType r.price with
      | none => (s, consumed)
      | some idx => (conveyTo s b c.name r actor, consumed.set idx true)

/-! ### CLAIM and TRADE -/

/-- One step of the scan for the backing commit: `bestCH`, `bestTI` once one is found. -/
def bestBacking (want : Hash256) (height : ℤ) (best : Option (ℤ × UInt32)) (cm : CommitRow) :
    Option (ℤ × UInt32) :=
  if cm.commitment ≠ want then best
  else if cm.height ≥ height then best
  else
    match best with
    | none => some (cm.height, cm.txIndex)
    | some (bestCH, bestTI) =>
      if cm.height < bestCH ∨ (cm.height = bestCH ∧ cm.txIndex < bestTI) then
        some (cm.height, cm.txIndex)
      else some (bestCH, bestTI)

/-- `applyClaim`. -/
def applyClaim (sha256 : Bytes → Hash256) (fc : FoldCarrier) (c : Carrier) (actor : Identity) :
    FoldState :=
  let want := sha256 (c.salt.val ++ c.name ++ actor.h160.val)
  match s.commits.foldl (bestBacking want b.height) none with
  | none => s
  | some (bestCH, bestTI) =>
    let add := leaseDaysSingle fc.value b.rate b.mtp b.mtp
    match s.names.get c.name with
    | some r =>
      match s.scratch.get c.name with
      | none => s
      | some sc =>
        if r.st ≠ .OWNED ∨ r.owner ≠ sc.owner then s
        else if bestCH < sc.ch ∨ (bestCH = sc.ch ∧ bestTI < sc.ti) then
          if add = 0 then s
          else
            ((s.setName c.name { r with
              owner := actor.h160, leaseExpiry := b.mtp + add * billingUnit }).setScratch c.name
                ⟨bestCH, bestTI, actor.h160⟩).bumpMut actor.h160 b.height
        else s
    | none =>
      if add = 0 then s
      else
        ((s.setName c.name
          { owner := actor.h160, st := .OWNED, leaseExpiry := b.mtp + add * billingUnit }).setScratch
            c.name ⟨bestCH, bestTI, actor.h160⟩).bumpMut actor.h160 b.height

/-- `tx.inputs[k]`, for an index in range. -/
def FoldTx.input? (tx : FoldTx) (k : ℤ) : Option Identity :=
  if k < 0 then none else tx.inputs[k.toNat]?

/-- `dispatchTrade`. -/
def dispatchTrade (c : Carrier) : FoldState :=
  match tx.input? c.idxA, tx.input? c.idxB with
  | some pa, some pb =>
    if c.idxA = c.idxB then s
    else if !pa.ok || !pb.ok then s
    else if c.nameA = c.nameB then s
    else
      match s.names.get c.nameA, s.names.get c.nameB with
      | some ra, some rb =>
        if ra.owner ≠ pa.h160 ∨ rb.owner ≠ pb.h160 then s
        else if ra.st ≠ .OWNED ∨ rb.st ≠ .OWNED then s
        else
          (((s.setName c.nameA { ra with owner := pb.h160 }).setName c.nameB
            { rb with owner := pa.h160 }).bumpMut pa.h160 b.height).bumpMut pb.h160 b.height
      | _, _ => s
  | _, _ => s

/-! ### Transactions -/

variable (sha256 : Bytes → Hash256)

/-- `dispatchAction`, on the action of `fc`. -/
def dispatchAction (fc : FoldCarrier) (c : Carrier) (actor : Identity) (consumed : List Bool) :
    SmOp → FoldState × List Bool
  | .COMMIT =>
    ({ s with commits := s.commits ++ [⟨c.commit, b.height, tx.txIndex, b.mtp⟩] }, consumed)
  | .CLAIM => (applyClaim s b sha256 fc c actor, consumed)
  | .RENEW => (applyRenew s b fc c actor, consumed)
  | .TRANSFER => (applyTransfer s b c actor, consumed)
  | .RELEASE => (applyRelease s b c actor, consumed)
  | .RENEW_NAME => (applyRenewName s b fc c actor, consumed)
  | .TRANSFER_NAME => (applyTransferName s b c actor, consumed)
  | .RELEASE_NAME => (applyReleaseName s b c actor, consumed)
  | .SELL => (applySell s b c actor, consumed)
  | .RESERVE => applyReserve s b tx fc.value c actor consumed
  | .SETTLE => applySettle s b tx c actor consumed
  | .SELL_TO => (applySellTo s b c actor, consumed)
  | .PAY => applyPay s b tx c actor consumed
  | .AS | .TRADE => (s, consumed)

end Actions

/-- What the carrier loop of `applyTx` carries. -/
structure Walk where
  s : FoldState
  actor : Identity
  consumed : List Bool

variable (sha256 : Bytes → Hash256)

/-- One iteration of the carrier loop. -/
def applyCarrier (b : FoldBlock) (tx : FoldTx) (w : Walk) (fc : FoldCarrier) : Walk :=
  match fc.c with
  | none => w
  | some c =>
    if b.height < activationHeight then w
    else
      match SmOp.ofByte? c.opcode with
      | some .AS =>
        match tx.input? c.asIndex with
        | some i => { w with actor := if i.ok then i else {} }
        | none => { w with actor := {} }
      | some .TRADE => { w with s := dispatchTrade w.s b tx c }
      | some op =>
        if !w.actor.ok then w
        else
          let (s, consumed) := dispatchAction w.s b tx sha256 fc c w.actor w.consumed op
          { w with s, consumed }
      | none => w

/-- `applyTx`. -/
def applyTx (b : FoldBlock) (s : FoldState) (tx : FoldTx) : FoldState :=
  let actor := tx.inputs.headD {}
  let consumed := List.replicate tx.spend.length false
  (tx.carriers.foldl (applyCarrier sha256 b tx) ⟨s, actor, consumed⟩).s

/-! ### Blocks -/

/-- The reserve and offer transitions of `preBlock` on one row. -/
def closeRow (mtp : ℤ) (r : NameRow) : NameRow :=
  let r := if r.st = .RESERVED ∧ mtp ≥ r.reserveExpiry then
      { r with st := .LISTED, buyer := zeros 20, burnLeg := 0, payLeg := 0, reserveExpiry := 0 }
    else r
  if (r.st = .LISTED ∨ r.st = .OFFERED) ∧ mtp ≥ r.offerExpiry then
    { r with st := .OWNED }.resetMarket
  else r

/-- The body of the name loop of `preBlock`. -/
def preBlockName (height mtp : ℤ) (s : FoldState) (name : Name) : FoldState :=
  match s.names.get name with
  | none => s
  | some r =>
    let r := closeRow mtp r
    let s := s.setName name r
    if mtp ≥ r.leaseExpiry then (s.deleteName name).bumpMut r.owner height else s

/-- `sortedNameKeys`. -/
def FoldState.sortedNameKeys (s : FoldState) : List Name := s.names.keys.insertionSort (· ≤ ·)

/-- `preBlock`. -/
def preBlock (s : FoldState) (height mtp : ℤ) : FoldState :=
  let s := s.sortedNameKeys.foldl (preBlockName height mtp) s
  { s with commits := s.commits.filter fun c => ¬ mtp > c.commitTime + commitExpiry }

/-- `applyBlock`. -/
def applyBlock (s : FoldState) (b : FoldBlock) : FoldState :=
  let s := { s with curHeight := b.height, scratch := ∅ }
  b.txs.foldl (applyTx sha256 b) (preBlock s b.height b.mtp)

end NamespaceIndexer.Go
