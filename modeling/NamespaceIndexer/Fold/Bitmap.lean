import NamespaceIndexer.Fold.Lease

/-!
# RENEW / TRANSFER / RELEASE and their by-name forms (`bitmap.c`)

Bit `i` of a bitmap selects the `i`-th name of the actor's owned set in
ascending order. The anchor guard rejects an action whose view of that set may
be stale.
-/

namespace NamespaceIndexer.Fold

/-- The holder of a row: its owner, or its seller while a sale locks it. -/
def SmNameRow.holder (r : SmNameRow) : H160 := if r.st = .OWNED then r.owner else r.seller

/-- `sm_collect_owned`. -/
def smCollectOwned (s : SmState) (who : H160) : List ℕ :=
  sortByName s ((List.range s.names.length).filter fun i => (s.row i).holder = who)

/-- `bit_set`: LSB-first, false past the end of the flags. -/
def bitSet (flags : Bytes) (i : ℕ) : Bool :=
  match flags[i / 8]? with
  | some b => b.val.testBit (i % 8)
  | none => false

/-- The elements at set bit positions, in order. -/
def selectBitmap {α : Type} (flags : Bytes) (l : List α) : List α :=
  (l.zipIdx.filter fun p => bitSet flags p.2).map Prod.fst

/-- `anchor_ok`. -/
def anchorOk (s : SmState) (who : H160) (anchor : UInt64) (confirm : ℤ) : Bool :=
  let lm := smLastMutation s who
  let H := i64 anchor
  lm ≤ H && H ≤ confirm && confirm - H ≤ maxAnchorAge

/-- `sm_op_renew`. -/
def smOpRenew (s : SmState) (cx : SmTxCtx) (a : SmAction) : SmState :=
  let buf := smCollectOwned s cx.actor
  if !a.hasAnchor && a.flags.length == 0 then smWaterfill s cx.mtp cx.rate cx.carValue buf
  else if a.hasAnchor && anchorOk s cx.actor a.anchor cx.height then
    if a.flags.length == 0 then smWaterfill s cx.mtp cx.rate cx.carValue buf
    else smWaterfill s cx.mtp cx.rate cx.carValue (selectBitmap a.flags buf)
  else s

/-- The loop body of `sm_op_transfer` and the move of `sm_op_transfer_name`: a locked row
stays. A gift carries no script type (`SM_P2PKH`). -/
def giveRow (addr : H160) (s : SmState) (r : ℕ) : SmState :=
  if (s.row r).st ≠ .OWNED then s
  else s.setRow r { s.row r with owner := addr, ownerType := 0 }

/-- `sm_op_transfer`. -/
def smOpTransfer (s : SmState) (cx : SmTxCtx) (a : SmAction) : SmState :=
  let selAll := !a.hasAnchor
  if a.hasAnchor && !anchorOk s cx.actor a.anchor cx.height then s
  else
    let buf := smCollectOwned s cx.actor
    let sel := if selAll then buf else selectBitmap a.flags buf
    let moved := sel.countP fun r => (s.row r).st = .OWNED
    let s := sel.foldl (giveRow a.addr) s
    if moved > 0 then smBumpMutation (smBumpMutation s cx.actor cx.height) a.addr cx.height
    else s

/-- `find_mine`. -/
def findMine (s : SmState) (who : H160) (a : SmAction) : Option ℕ :=
  if a.name.length < 1 then none
  else
    match smFindName s a.name with
    | none => none
    | some r => if (s.row r).holder = who then some r else none

/-- `sm_op_renew_name`. -/
def smOpRenewName (s : SmState) (cx : SmTxCtx) (a : SmAction) : SmState :=
  match findMine s cx.actor a with
  | none => s
  | some r => smWaterfill s cx.mtp cx.rate cx.carValue [r]

/-- `sm_op_transfer_name`. -/
def smOpTransferName (s : SmState) (cx : SmTxCtx) (a : SmAction) : SmState :=
  match findMine s cx.actor a with
  | none => s
  | some r =>
    if (s.row r).st ≠ .OWNED then s
    else
      let s := s.setRow r { s.row r with owner := a.addr, ownerType := 0 }
      smBumpMutation (smBumpMutation s cx.actor cx.height) a.addr cx.height

/-- `sm_op_release_name`. -/
def smOpReleaseName (s : SmState) (cx : SmTxCtx) (a : SmAction) : SmState :=
  match findMine s cx.actor a with
  | none => s
  | some r =>
    if (s.row r).st ≠ .OWNED then s
    else
      let s := (smRemoveName s r).bumpEv .RELEASE_NAME
      smBumpMutation s cx.actor cx.height

/-- The second loop of `sm_op_release`: a removal moves rows, so each name is looked up
again. -/
def releaseOne (s : SmState) (name : Name) : SmState :=
  match smFindName s name with
  | none => s
  | some r => (smRemoveName s r).bumpEv .RELEASE_NAME

/-- `sm_op_release`. -/
def smOpRelease (s : SmState) (cx : SmTxCtx) (a : SmAction) : SmState :=
  if !a.hasAnchor then s
  else if !anchorOk s cx.actor a.anchor cx.height then s
  else
    let buf := smCollectOwned s cx.actor
    let rel := ((selectBitmap a.flags buf).filter fun r => (s.row r).st = .OWNED).map
      fun r => (s.row r).name
    let s := rel.foldl releaseOne s
    if rel.length > 0 then smBumpMutation s cx.actor cx.height else s

end NamespaceIndexer.Fold
