import NamespaceIndexer.Fold.Bitmap
import NamespaceIndexer.Fold.Market
import NamespaceIndexer.Fold.Claim

/-!
# Pre-block transitions (`preblock.c`) and the fold driver (`fold.c`)
-/

namespace NamespaceIndexer.Fold

open Lib

/-! ### Time-triggered transitions -/

/-- `return_to_seller`. -/
def returnToSeller (r : SmNameRow) : SmNameRow :=
  { r with owner := r.seller, ownerType := r.sellerType, st := .OWNED, price := 0,
           offerExpiry := 0, reserveExpiry := 0, burnLeg := 0, payLeg := 0,
           seller := zeros 20, sellerType := 0, buyer := zeros 20 }

/-- Step 1: the reserve window closed. -/
def closeReserve (mtp : ℤ) (r : SmNameRow) : SmNameRow :=
  if r.st = .RESERVED ∧ mtp ≥ r.reserveExpiry then
    if r.reserveExpiry < r.offerExpiry then
      { r with st := .LISTED, reserveExpiry := 0, burnLeg := 0, payLeg := 0, buyer := zeros 20 }
    else returnToSeller r
  else r

/-- Step 2: the listing or offer closed. -/
def closeOffer (mtp : ℤ) (r : SmNameRow) : SmNameRow :=
  if (r.st = .LISTED ∨ r.st = .OFFERED) ∧ mtp ≥ r.offerExpiry then returnToSeller r else r

/-- Steps 1 and 2 on one row. -/
def closeRow (mtp : ℤ) (r : SmNameRow) : SmNameRow := closeOffer mtp (closeReserve mtp r)

/-- The body of the name loop at index `i`, with the next index: a lapsed row is removed and
`i` stays, because the last row moved into its slot. -/
def preblockStep (height mtp : ℤ) (s : SmState) (i : ℕ) : SmState × ℕ :=
  let r := closeRow mtp (s.row i)
  let s := s.setRow i r
  if mtp ≥ r.leaseExpiry then
    ((smRemoveName (smBumpMutation s r.owner height) i).bumpEv .LAPSE, i)
  else (s, i + 1)

/-- The name loop; every step advances `i` or shortens the table. -/
def preblockLoop (height mtp : ℤ) : ℕ → SmState → ℕ → SmState
  | 0, s, _ => s
  | fuel + 1, s, i =>
    if i < s.names.length then
      let (s, i) := preblockStep height mtp s i
      preblockLoop height mtp fuel s i
    else s

/-- The commit loop, with the same swap removal. -/
def pruneCommits (mtp : ℤ) : ℕ → List SmCommit → ℕ → List SmCommit
  | 0, commits, _ => commits
  | fuel + 1, commits, i =>
    match commits[i]? with
    | none => commits
    | some c =>
      if mtp > c.commitTime + commitExpiry then
        pruneCommits mtp fuel (RowTable.swapRemove commits i) i
      else pruneCommits mtp fuel commits (i + 1)

/-- `sm_preblock`. -/
def smPreblock (s : SmState) (height mtp : ℤ) : SmState :=
  let s := preblockLoop height mtp s.names.length s 0
  { s with commits := pruneCommits mtp s.commits.length s.commits 0 }

/-- `sm_begin_block`. -/
def smBeginBlock (s : SmState) (height mtp : ℤ) (rate : UInt64) : SmState :=
  { smPreblock s height mtp with curHeight := height, curMtp := mtp, curRate := rate, claimsc := [] }

/-! ### The carrier walk -/

variable (sha256 : Bytes → Hash256)

/-- The acting identity read from input `k`, if that input signs everything. -/
def signer (tx : SmTx) (k : ℕ) : Option SmInput :=
  match tx.inputs[k]? with
  | some i => if i.sighashAll then some i else none
  | none => none

/-- The context a transaction starts with: `vin[0]` acts if it signs everything. -/
def initCtx (s : SmState) (tx : SmTx) : SmTxCtx :=
  let cx : SmTxCtx :=
    { height := s.curHeight, mtp := s.curMtp, rate := s.curRate, txindex := tx.txindex,
      outConsumed := List.replicate tx.outs.length false }
  match signer tx 0 with
  | some i => { cx with actor := i.h160, actorType := i.type, actorValid := true }
  | none => cx

/-- The `switch` over the opcodes that act as the acting identity. -/
def dispatch (tx : SmTx) (s : SmState) (cx : SmTxCtx) (a : SmAction) : SmOp → SmState × SmTxCtx
  | .COMMIT => (smCommitAdd s a.commitment s.curHeight tx.txindex s.curMtp, cx)
  | .CLAIM => (smOpClaim sha256 s cx a, cx)
  | .RENEW => (smOpRenew s cx a, cx)
  | .TRANSFER => (smOpTransfer s cx a, cx)
  | .RENEW_NAME => (smOpRenewName s cx a, cx)
  | .TRANSFER_NAME => (smOpTransferName s cx a, cx)
  | .RELEASE_NAME => (smOpReleaseName s cx a, cx)
  | .SELL => (smOpSell s cx a, cx)
  | .RESERVE => smOpReserve tx s cx a
  | .SETTLE => smOpSettle tx s cx a
  | .RELEASE => (smOpRelease s cx a, cx)
  | .SELL_TO => (smOpSellTo s cx a, cx)
  | .PAY => smOpPay tx s cx a
  | .AS => (s, cx)
  | .TRADE => (s, cx)

/-- One iteration of the carrier loop of `sm_apply_tx`. -/
def applyCarrier (tx : SmTx) (sc : SmState × SmTxCtx) (car : SmCarrier) : SmState × SmTxCtx :=
  let (s, cx) := sc
  let cx := { cx with carValue := car.value, carVout := car.vout }
  if car.kind ≠ .ACTION then (s, cx)
  else if s.curHeight < i64 s.activationHeight then (s, cx)
  else
    match SmOp.ofByte? car.act.op with
    | some .AS =>
      match signer tx car.act.asIndex.val with
      | some i => (s, { cx with actor := i.h160, actorType := i.type, actorValid := true })
      | none => (s.bumpEv .AS_DROP, { cx with actorValid := false })
    | some .TRADE => (smOpTrade tx s cx car.act, cx)
    | some op => if !cx.actorValid then (s, cx) else dispatch sha256 tx s cx car.act op
    | none => (s, cx)

/-- `sm_apply_tx`. -/
def smApplyTx (s : SmState) (tx : SmTx) : SmState :=
  (tx.carriers.foldl (applyCarrier sha256 tx) (s, initCtx s tx)).1

/-- A block as the fold sees it. -/
structure FoldBlock where
  height : ℤ
  mtp : ℤ
  rate : UInt64
  txs : List SmTx

/-- `sm_begin_block`, then `sm_apply_tx` on each transaction in order. -/
def foldBlock (s : SmState) (b : FoldBlock) : SmState :=
  b.txs.foldl (smApplyTx sha256) (smBeginBlock s b.height b.mtp b.rate)

/-- A run over consecutive blocks. -/
def foldBlocks (s : SmState) (bs : List FoldBlock) : SmState := bs.foldl (foldBlock sha256) s

end NamespaceIndexer.Fold
