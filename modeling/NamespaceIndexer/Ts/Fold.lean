import NamespaceIndexer.Daemon.Ports
import NamespaceIndexer.Ledger.LeasePorts
import NamespaceIndexer.Ts.State

/-!
# The TypeScript port: the fold (`fold.ts`)

The methods of the class `Fold`, under their names without the underscore.
-/

namespace NamespaceIndexer.Ts

open Fold Lib Daemon

/-! ### Transactions -/

/-- `id` is `none` where no identity can be attributed. -/
structure FoldInput where
  id : Option H160
  type : Byte
  sighashAll : Bool

structure FoldCarrier where
  payload : Bytes
  value : ℤ
  vout : ℕ

structure FoldOutput where
  type : Byte
  hash : H160
  value : ℤ

structure FoldTx where
  inputs : List FoldInput
  carriers : List FoldCarrier
  outputs : List FoldOutput

structure Actor where
  id : H160
  type : Byte

/-- `resolve`. -/
def resolve : Option FoldInput → Option Actor
  | none => none
  | some input =>
    match input.id with
    | none => none
    | some id => if !input.sighashAll then none else some ⟨id, input.type⟩

namespace FoldState

/-! ### Block boundaries -/

/-- The body of the reserve loop of `preBlock`. -/
def revertReserve (mtp : ℤ) (r : NameRow) : NameRow :=
  if r.st = .RESERVED ∧ mtp ≥ r.reserveExpiry then
    { r with st := .LISTED, buyer := zeros 20, burnLeg := 0, payLeg := 0, reserveExpiry := 0 }
  else r

/-- The body of the offer loop of `preBlock`. -/
def closeOffer (mtp : ℤ) (r : NameRow) : NameRow :=
  if (r.st = .LISTED ∨ r.st = .OFFERED) ∧ mtp ≥ r.offerExpiry then
    { r with st := .OWNED }.zeroMarket
  else r

/-- The body of the lease loop of `preBlock`. -/
def lapse (mtp : ℤ) (s : FoldState) (key : Name) : FoldState :=
  match s.names.get key with
  | none => s
  | some r => if mtp ≥ r.leaseExpiry then (s.remove key).bump r.owner else s

/-- `preBlock`. -/
def preBlock (s : FoldState) : FoldState :=
  let mtp := s.curMTP
  let s := { s with names := s.names.modifyEach (revertReserve mtp) }
  let s := { s with names := s.names.modifyEach (closeOffer mtp) }
  let s := s.names.keys.foldl (lapse mtp) s
  { s with commits := s.commits.filter fun c => ¬ mtp > c.commitTime + commitExpiry }

/-- `beginBlock`. -/
def beginBlock (s : FoldState) (height mtp rate : ℤ) : FoldState :=
  preBlock { s with curHeight := height, curMTP := mtp, curRate := rate, claimScratch := ∅ }

variable (s : FoldState)

/-! ### Leases -/

/-- `leaseDaysTotal`. -/
def leaseDaysTotal (burn : ℤ) : ℤ :=
  if s.curRate ≤ 0 then 0 else (burn * leaseQuantum).tdiv (s.curRate * billingUnit)

/-- `r.leaseExpiry` of a row. -/
def leaseExpiryOf (key : Name) : ℤ :=
  match s.names.get key with
  | some r => r.leaseExpiry
  | none => 0

end FoldState

theorem lt_half {lo hi : ℤ} (h : lo < hi) : lo < (lo + hi + 1).tdiv 2 := by
  have hsign : Int.sign 2 = 1 := rfl
  rw [Int.tdiv_eq_ediv]
  split <;> omega

theorem half_le {lo hi : ℤ} (h : lo < hi) : (lo + hi + 1).tdiv 2 ≤ hi := by
  have hsign : Int.sign 2 = 1 := rfl
  rw [Int.tdiv_eq_ediv]
  split <;> omega

/-- `(lo + hi + 1n) / 2n`. -/
def probe : Probe where
  mid lo hi := (lo + hi + 1).tdiv 2
  above := lt_half
  within := half_le

/-- The loop that hands out `r`. -/
def addOnes : Dict Name ℤ → List (Name × ℤ) → ℤ → Dict Name ℤ
  | out, [], _ => out
  | out, it :: items, r =>
    if r ≤ 0 then out
    else addOnes (out.insert it.1 ((out.get it.1).getD 0 + 1)) items (r - 1)

namespace FoldState

variable (s : FoldState)

/-- `waterfill`. -/
def waterfill (rows : List Name) (T : ℤ) : Dict Name ℤ :=
  let now := s.curMTP
  let items := rows.map fun key =>
    let remaining := s.leaseExpiryOf key - now
    let h := (maxLease - remaining).tdiv billingUnit
    (key, if h < 0 then 0 else h)
  let totalH := items.foldl (fun t it => t + it.2) 0
  if T ≥ totalH then items.foldl (fun out it => out.insert it.1 it.2) ∅
  else
    let maxH := items.foldl (fun m it => if it.2 > m then it.2 else m) 0
    let sum mid := items.foldl (fun t it => t + if it.2 < mid then it.2 else mid) 0
    let lambda := probe.narrow (fun mid => sum mid ≤ T) 0 maxH
    let out := items.foldl (fun out it => out.insert it.1 (if it.2 < lambda then it.2 else lambda)) ∅
    let used := sum lambda
    let r := T - used
    if r > 0 then
      let headroom := (items.filter (lambda < ·.2)).insertionSort fun a b => a.1 ≤ b.1
      addOnes out headroom r
    else out

/-- The loop that adds what `waterfill` gives. -/
def extend (rows : List Name) (T : ℤ) : FoldState :=
  let adds := s.waterfill rows T
  rows.foldl (fun s key => s.setRow key fun r =>
    { r with leaseExpiry := r.leaseExpiry + (adds.get key).getD 0 * billingUnit }) s

/-! ### The owned set -/

/-- `anchorOk`. -/
def anchorOk (actor : H160) (H : ℤ) : Bool :=
  if H > s.curHeight then false
  else if s.curHeight - H > maxAnchorAge then false
  else
    let lastMut := (s.muts.get actor).getD 0
    if lastMut > H then false else true

end FoldState

/-- `bitmapSelect`; past the end of the flags the bit is 0. -/
def bitmapSelect (owned : List Name) (flags : Bytes) : List Name :=
  (owned.zipIdx.filter fun p => ((flags[p.2 / 8]?.map Fin.val).getD 0).testBit (p.2 % 8)).map Prod.fst

namespace FoldState

variable (s : FoldState)

/-- The end of `doRenew` and `doRenewName`. -/
def fillLeases (targeted : List Name) (o : FoldCarrier) : FoldState :=
  let T := s.leaseDaysTotal o.value
  if T < 1 then s else s.extend targeted T

/-- `doRenew`. -/
def doRenew (mode : Mode) (anchor : ℤ) (flags : Bytes) (actor : Actor) (o : FoldCarrier) :
    FoldState :=
  let owned := s.ownedListSorted actor.id
  let renew targeted := if targeted.length = 0 then s else s.fillLeases targeted o
  match mode with
  | .all => renew owned
  | .allSafe => if !s.anchorOk actor.id anchor then s else renew owned
  | .selective => if !s.anchorOk actor.id anchor then s else renew (bitmapSelect owned flags)

/-- `_findMine`. -/
def findMine (name : Name) (actorId : H160) : Option NameRow :=
  match s.names.get name with
  | none => none
  | some r => if r.owner ≠ actorId then none else some r

/-- `doRenewName`. -/
def doRenewName (name : Name) (actor : Actor) (o : FoldCarrier) : FoldState :=
  match s.findMine name actor.id with
  | none => s
  | some _ => s.fillLeases [name] o

/-- `doTransferName`. -/
def doTransferName (target : H160) (name : Name) (actor : Actor) : FoldState :=
  match s.findMine name actor.id with
  | none => s
  | some r =>
    if r.st ≠ .OWNED then s else ((s.chown name target).bump actor.id).bump target

/-- `doReleaseName`. -/
def doReleaseName (name : Name) (actor : Actor) : FoldState :=
  match s.findMine name actor.id with
  | none => s
  | some r => if r.st ≠ .OWNED then s else (s.remove name).bump actor.id

/-- The loop body of `doTransfer` and `doRelease`, with whether some row was not locked. -/
def unlockedStep (act : FoldState → Name → FoldState) (m : FoldState × Bool) (key : Name) :
    FoldState × Bool :=
  match m.1.names.get key with
  | none => m
  | some r => if r.st ≠ .OWNED then m else (act m.1 key, true)

/-- `doTransfer`. -/
def doTransfer (mode : Mode) (target : H160) (anchor : ℤ) (flags : Bytes) (actor : Actor) :
    FoldState :=
  let owned := s.ownedListSorted actor.id
  let transfer targeted :=
    let (s, moved) := targeted.foldl (unlockedStep fun s key => s.chown key target) (s, false)
    if moved then (s.bump actor.id).bump target else s
  if mode = .all then transfer owned
  else if !s.anchorOk actor.id anchor then s
  else transfer (bitmapSelect owned flags)

/-- `doRelease`. -/
def doRelease (anchor : ℤ) (flags : Bytes) (actor : Actor) : FoldState :=
  if !s.anchorOk actor.id anchor then s
  else
    let owned := s.ownedListSorted actor.id
    let targeted := bitmapSelect owned flags
    let (s, released) := targeted.foldl (unlockedStep fun s key => s.remove key) (s, false)
    if released then s.bump actor.id else s

/-! ### CLAIM -/

/-- One step of the scan of `findBackingCommit`. -/
def backingStep (target : Hash256) (curHeight : ℤ) (best : Option (ℤ × UInt32)) (c : Commit) :
    Option (ℤ × UInt32) :=
  if c.commitment ≠ target then best
  else if c.commitHeight ≥ curHeight then best
  else
    match best with
    | none => some (c.commitHeight, c.txIndex)
    | some (ch, ti) =>
      if c.commitHeight < ch ∨ (c.commitHeight = ch ∧ c.txIndex < ti) then
        some (c.commitHeight, c.txIndex)
      else some (ch, ti)

/-- `findBackingCommit`. -/
def findBackingCommit (sha256 : Bytes → Hash256) (salt name : Bytes) (author : H160) :
    Option (ℤ × UInt32) :=
  s.commits.foldl (backingStep (sha256 (salt ++ name ++ author.val)) s.curHeight) none

/-- `doClaim`. -/
def doClaim (sha256 : Bytes → Hash256) (salt : Bytes) (name : Name) (actor : Actor)
    (o : FoldCarrier) : FoldState :=
  match s.findBackingCommit sha256 salt name actor.id with
  | none => s
  | some (ch, ti) =>
    let T := s.leaseDaysTotal o.value
    if T < 1 then s
    else
      let add := if T < 365 then T else 365
      let newExpiry := s.curMTP + add * billingUnit
      match s.names.get name with
      | some existing =>
        match s.claimScratch.get name with
        | some sc =>
          if existing.st = .OWNED ∧ existing.owner = sc.owner ∧
              (ch < sc.ch ∨ (ch = sc.ch ∧ ti < sc.ti)) then
            (((s.chown name actor.id).setRow name fun r =>
              { r with leaseExpiry := newExpiry }.zeroMarket).setScratch name
                ⟨ch, ti, actor.id⟩).bump actor.id
          else s
        | none => s
      | none =>
        ((s.add name { owner := actor.id, st := .OWNED, leaseExpiry := newExpiry }).setScratch name
          ⟨ch, ti, actor.id⟩).bump actor.id

/-! ### The market -/

/-- `doSell`. -/
def doSell (price window : ℤ) (name : Name) (actor : Actor) : FoldState :=
  match s.names.get name with
  | none => s
  | some row =>
    if row.owner ≠ actor.id ∨ row.st ≠ .OWNED then s
    else if price < sellPriceFloor.toNat then s
    else
      let window := if window = 0 then reserveWindow else window
      if window < reserveWindow then s
      else if s.curMTP + window + reorgBuffer > row.leaseExpiry then s
      else s.setRow name fun row => { row with
        st := .LISTED, seller := actor.id, sellerType := actor.type, price,
        offerExpiry := s.curMTP + window }

/-- `doSellTo`. -/
def doSellTo (price : ℤ) (buyer : H160) (name : Name) (actor : Actor) : FoldState :=
  match s.names.get name with
  | none => s
  | some row =>
    if row.owner ≠ actor.id ∨ row.st ≠ .OWNED then s
    else if price < dustFloor.toNat then s
    else if s.curMTP + directWindow + reorgBuffer > row.leaseExpiry then s
    else s.setRow name fun row => { row with
      st := .OFFERED, seller := actor.id, sellerType := actor.type, price,
      offerExpiry := s.curMTP + directWindow, buyer }

/-- One leg of `depositLegs`. -/
def depositLeg (price bps : ℤ) : ℤ :=
  let leg := (price * bps).tdiv 10000
  if leg > dustFloor.toNat then leg else dustFloor.toNat

end FoldState

/-- `matchOutput`: the index it consumes, if any. -/
def matchOutput (tx : FoldTx) (consumed : List ℕ) (sType : Byte) (sHash : H160) (owed : ℤ) : Option ℕ :=
  (List.range tx.outputs.length).find? fun i =>
    match tx.outputs[i]? with
    | none => false
    | some out => i ∉ consumed && (out.type == sType && out.value == owed && out.hash == sHash)

namespace FoldState

variable (s : FoldState) (tx : FoldTx)

/-- `doReserve`. -/
def doReserve (name : Name) (actor : Actor) (o : FoldCarrier) (consumed : List ℕ) :
    FoldState × List ℕ :=
  match s.names.get name with
  | none => (s, consumed)
  | some row =>
    if row.st ≠ .LISTED then (s, consumed)
    else if s.curMTP ≥ row.offerExpiry then (s, consumed)
    else
      let burnLeg := depositLeg row.price reserveBurnBps
      let payLeg := depositLeg row.price reservePayBps
      if o.value < burnLeg then (s, consumed)
      else
        match matchOutput tx consumed row.sellerType row.seller payLeg with
        | none => (s, consumed)
        | some i =>
          let window := s.curMTP + reserveWindow
          (s.setRow name fun row => { row with
            st := .RESERVED, buyer := actor.id, burnLeg, payLeg,
            reserveExpiry := if window < row.offerExpiry then window else row.offerExpiry },
            i :: consumed)

/-- The end of `doSettle` and `doPay`. -/
def conveyTo (name : Name) (row : NameRow) (actor : Actor) : FoldState :=
  (((s.chown name actor.id).setRow name fun row => { row with st := .OWNED }.zeroMarket).bump
    actor.id).bump row.seller

/-- `doSettle`. -/
def doSettle (name : Name) (actor : Actor) (consumed : List ℕ) : FoldState × List ℕ :=
  match s.names.get name with
  | none => (s, consumed)
  | some row =>
    if row.st ≠ .RESERVED then (s, consumed)
    else if actor.id ≠ row.buyer then (s, consumed)
    else if s.curMTP ≥ row.reserveExpiry then (s, consumed)
    else
      let remainder := row.price - row.burnLeg - row.payLeg
      match matchOutput tx consumed row.sellerType row.seller remainder with
      | none => (s, consumed)
      | some i => (s.conveyTo name row actor, i :: consumed)

/-- `doPay`. -/
def doPay (name : Name) (actor : Actor) (consumed : List ℕ) : FoldState × List ℕ :=
  match s.names.get name with
  | none => (s, consumed)
  | some row =>
    if row.st ≠ .OFFERED then (s, consumed)
    else if actor.id ≠ row.buyer then (s, consumed)
    else if s.curMTP ≥ row.offerExpiry then (s, consumed)
    else
      match matchOutput tx consumed row.sellerType row.seller row.price with
      | none => (s, consumed)
      | some i => (s.conveyTo name row actor, i :: consumed)

/-- `doTrade`. -/
def doTrade (idxA idxB : Byte) (nameA nameB : Name) : FoldState :=
  if idxA = idxB then s
  else if nameA = nameB then s
  else
    match resolve tx.inputs[idxA.val]?, resolve tx.inputs[idxB.val]? with
    | some A, some B =>
      match s.names.get nameA, s.names.get nameB with
      | some ra, some rb =>
        if ra.st ≠ .OWNED ∨ ra.owner ≠ A.id then s
        else if rb.st ≠ .OWNED ∨ rb.owner ≠ B.id then s
        else (((s.chown nameA B.id).chown nameB A.id).bump A.id).bump B.id
      | _, _ => s
    | _, _ => s

/-! ### Carriers and transactions -/

/-- The by-name actions of one payload shape. -/
def dispatchByName (op : Byte) (name : Name) (actor : Actor) (o : FoldCarrier)
    (consumed : List ℕ) : FoldState × List ℕ :=
  match SmOp.ofByte? op with
  | some .RENEW_NAME => (s.doRenewName name actor o, consumed)
  | some .RELEASE_NAME => (s.doReleaseName name actor, consumed)
  | some .RESERVE => s.doReserve tx name actor o consumed
  | some .SETTLE => s.doSettle tx name actor consumed
  | some .PAY => s.doPay tx name actor consumed
  | _ => (s, consumed)

/-- `dispatch`. The fixed-length fields of an action are slices of their length. -/
def dispatch (sha256 : Bytes → Hash256) (act : Ts.Action) (actor : Actor) (o : FoldCarrier)
    (txIndex : UInt32) (consumed : List ℕ) : FoldState × List ℕ :=
  match act with
  | .COMMIT commitment =>
    ({ s with commits := s.commits ++ [⟨copyFrom 32 commitment, s.curHeight, txIndex, s.curMTP⟩] },
      consumed)
  | .CLAIM salt name => (s.doClaim sha256 salt name actor o, consumed)
  | .RENEW mode anchor flags => (s.doRenew mode anchor flags actor o, consumed)
  | .TRANSFER mode target anchor flags =>
    (s.doTransfer mode (copyFrom 20 target) anchor flags actor, consumed)
  | .RELEASE anchor flags => (s.doRelease anchor flags actor, consumed)
  | .TRANSFER_NAME target name => (s.doTransferName (copyFrom 20 target) name actor, consumed)
  | .SELL price window name => (s.doSell price window name actor, consumed)
  | .SELL_TO price buyer name => (s.doSellTo price (copyFrom 20 buyer) name actor, consumed)
  | .BY_NAME op name => s.dispatchByName tx op name actor o consumed
  | .AS _ | .TRADE _ _ _ _ => (s, consumed)

end FoldState

/-- What the carrier loop of `applyTx` carries. -/
structure Walk where
  s : FoldState
  actor : Option Actor
  consumed : List ℕ

/-- One iteration of the carrier loop. -/
def applyCarrier (sha256 : Bytes → Hash256) (tx : FoldTx) (txIndex : UInt32) (w : Walk)
    (o : FoldCarrier) : Walk :=
  match Ts.decodePayload o.payload with
  | none => w
  | some act =>
    if w.s.curHeight < w.s.activationHeight then w
    else
      match act with
      | .AS index => { w with actor := resolve tx.inputs[index.val]? }
      | .TRADE idxA idxB nameA nameB => { w with s := w.s.doTrade tx idxA idxB nameA nameB }
      | _ =>
        match w.actor with
        | none => w
        | some actor =>
          let (s, consumed) := w.s.dispatch tx sha256 act actor o txIndex w.consumed
          { w with s, consumed }

/-- `applyTx`. -/
def applyTx (sha256 : Bytes → Hash256) (s : FoldState) (tx : FoldTx) (txIndex : UInt32) : FoldState :=
  (tx.carriers.foldl (applyCarrier sha256 tx txIndex) ⟨s, resolve tx.inputs[0]?, []⟩).s

end NamespaceIndexer.Ts
