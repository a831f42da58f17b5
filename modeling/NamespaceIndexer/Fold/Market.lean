import NamespaceIndexer.Fold.State

/-!
# The names market (`market.c`)

Open sales (SELL, RESERVE, SETTLE) and directed ones (SELL_TO, PAY). A payment
is one output of exactly the owed value, consumed once.
-/

namespace NamespaceIndexer.Fold

/-- An output that pays exactly `(dest, type, amount)` and is not consumed yet. -/
def payable (tx : SmTx) (consumed : List Bool) (dest : H160) (type : Byte) (amount : UInt64)
    (i : ℕ) : Bool :=
  match tx.outs[i]? with
  | none => false
  | some o => !consumed.getD i false && o.value == amount && o.type == type && o.h160 == dest

/-- One step of the scan for the lowest `vout` (`best`). -/
def bestOutput (tx : SmTx) (best : Option ℕ) (i : ℕ) : Option ℕ :=
  match best with
  | none => some i
  | some b =>
    match tx.outs[i]?, tx.outs[b]? with
    | some o, some o' => if o.vout < o'.vout then some i else some b
    | _, _ => some b

/-- The scan of `sm_consume_output`. -/
def findOutput (tx : SmTx) (consumed : List Bool) (dest : H160) (type : Byte) (amount : UInt64) :
    Option ℕ :=
  ((List.range tx.outs.length).filter (payable tx consumed dest type amount)).foldl
    (bestOutput tx) none

/-- `sm_consume_output`: `none` is a return of 0. -/
def smConsumeOutput (tx : SmTx) (cx : SmTxCtx) (dest : H160) (type : Byte) (amount : UInt64) :
    Option SmTxCtx :=
  match findOutput tx cx.outConsumed dest type amount with
  | none => none
  | some best => some { cx with outConsumed := cx.outConsumed.set best true }

/-- `deposit_leg`, on a 128-bit product. -/
def depositLeg (price : UInt64) (bps : ℕ) : UInt64 :=
  let v := price.toNat * bps / 10000
  let leg := UInt64.ofNat v
  if leg < dustFloor then dustFloor else leg

/-- `to_owned`: every market field cleared. -/
def toOwned (r : SmNameRow) : SmNameRow :=
  { r with st := .OWNED, price := 0, offerExpiry := 0, reserveExpiry := 0, burnLeg := 0,
           payLeg := 0, seller := zeros 20, sellerType := 0, buyer := zeros 20 }

/-- `sm_op_sell`. -/
def smOpSell (s : SmState) (cx : SmTxCtx) (a : SmAction) : SmState :=
  if !smNameValid a.name then s
  else if a.price < sellPriceFloor then s
  else
    match smFindName s a.name with
    | none => s
    | some r =>
      if (s.row r).st ≠ .OWNED ∨ (s.row r).owner ≠ cx.actor then s
      else
        let w : ℤ := if a.window ≠ 0 then (a.window.toNat : ℤ) else reserveWindow
        if w < reserveWindow then s
        else if cx.mtp + w + reorgBuffer > (s.row r).leaseExpiry then s
        else
          (s.setRow r { s.row r with
            st := .LISTED, seller := cx.actor, sellerType := cx.actorType, price := a.price,
            offerExpiry := cx.mtp + w, buyer := zeros 20, burnLeg := 0, payLeg := 0,
            reserveExpiry := 0 }).bumpEv .SELL_OK

/-- `sm_op_reserve`. -/
def smOpReserve (tx : SmTx) (s : SmState) (cx : SmTxCtx) (a : SmAction) : SmState × SmTxCtx :=
  if !smNameValid a.name then (s, cx)
  else
    match smFindName s a.name with
    | none => (s, cx)
    | some r =>
      if (s.row r).st ≠ .LISTED then (s, cx)
      else
        let burnLeg := depositLeg (s.row r).price reserveBurnBps
        let payLeg := depositLeg (s.row r).price reservePayBps
        if cx.carValue < burnLeg then (s, cx)
        else
          match smConsumeOutput tx cx (s.row r).seller (s.row r).sellerType payLeg with
          | none => (s, cx)
          | some cx =>
            let rexp := cx.mtp + reserveWindow
            let clamp : Bool := rexp ≥ (s.row r).offerExpiry
            let s' := s.setRow r { s.row r with
              st := .RESERVED, buyer := cx.actor, burnLeg, payLeg,
              reserveExpiry := if clamp then (s.row r).offerExpiry else rexp }
            let s' := if clamp then s'.bumpEv .RESERVE_CLAMP else s'
            (s'.bumpEv .RESERVE_WIN, cx)

/-- `sm_op_settle`. -/
def smOpSettle (tx : SmTx) (s : SmState) (cx : SmTxCtx) (a : SmAction) : SmState × SmTxCtx :=
  if !smNameValid a.name then (s, cx)
  else
    match smFindName s a.name with
    | none => (s, cx)
    | some r =>
      if (s.row r).st ≠ .RESERVED then (s, cx)
      else if (s.row r).buyer ≠ cx.actor then (s, cx)
      else if cx.mtp ≥ (s.row r).reserveExpiry then (s, cx)
      else
        let remainder := (s.row r).price - (s.row r).burnLeg - (s.row r).payLeg
        match smConsumeOutput tx cx (s.row r).seller (s.row r).sellerType remainder with
        | none => (s, cx)
        | some cx =>
          let seller := (s.row r).seller
          let s := s.setRow r
            (toOwned { s.row r with owner := cx.actor, ownerType := cx.actorType })
          let s := smBumpMutation (smBumpMutation s cx.actor cx.height) seller cx.height
          (s.bumpEv .SETTLE_OK, cx)

/-- `sm_op_sell_to`. -/
def smOpSellTo (s : SmState) (cx : SmTxCtx) (a : SmAction) : SmState :=
  if !smNameValid a.name then s
  else if a.price < dustFloor then s
  else
    match smFindName s a.name with
    | none => s
    | some r =>
      if (s.row r).st ≠ .OWNED ∨ (s.row r).owner ≠ cx.actor then s
      else if cx.mtp + directWindow + reorgBuffer > (s.row r).leaseExpiry then s
      else
        (s.setRow r { s.row r with
          st := .OFFERED, seller := cx.actor, sellerType := cx.actorType, buyer := a.addr,
          price := a.price, offerExpiry := cx.mtp + directWindow, burnLeg := 0, payLeg := 0,
          reserveExpiry := 0 }).bumpEv .SELLTO_OK

/-- `sm_op_pay`. -/
def smOpPay (tx : SmTx) (s : SmState) (cx : SmTxCtx) (a : SmAction) : SmState × SmTxCtx :=
  if !smNameValid a.name then (s, cx)
  else
    match smFindName s a.name with
    | none => (s, cx)
    | some r =>
      if (s.row r).st ≠ .OFFERED then (s, cx)
      else if (s.row r).buyer ≠ cx.actor then (s, cx)
      else if cx.mtp ≥ (s.row r).offerExpiry then (s, cx)
      else
        match smConsumeOutput tx cx (s.row r).seller (s.row r).sellerType (s.row r).price with
        | none => (s, cx)
        | some cx =>
          let seller := (s.row r).seller
          let s := s.setRow r
            (toOwned { s.row r with owner := cx.actor, ownerType := cx.actorType })
          let s := smBumpMutation (smBumpMutation s cx.actor cx.height) seller cx.height
          (s.bumpEv .PAY_OK, cx)

end NamespaceIndexer.Fold
