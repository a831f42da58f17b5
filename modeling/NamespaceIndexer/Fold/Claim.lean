import NamespaceIndexer.Fold.Lease

/-!
# CLAIM (`claim.c`) and TRADE (`trade.c`)

A claim is backed by a live commit of a strictly earlier block. Within one
block a claim with a smaller backing commit displaces a fresh mint; the scratch
table remembers the mints of the block.
-/

namespace NamespaceIndexer.Fold

open Lib

/-- `find_scratch`. -/
def findScratch (s : SmState) (name : Name) : Option ℕ :=
  RowTable.indexOf? SmClaimWin.name s.claimsc name

/-- `set_scratch`: overwrite if present, else append. -/
def setScratch (s : SmState) (name : Name) (ch : ℤ) (ti : UInt32) (owner : H160) : SmState :=
  match findScratch s name with
  | some w => { s with claimsc := s.claimsc.set w ⟨name, ch, ti, owner⟩ }
  | none => { s with claimsc := s.claimsc ++ [⟨name, ch, ti, owner⟩] }

/-- One step of the scan for the earliest live commit. -/
def bestCommit (want : Hash256) (height : ℤ) (best : Option (ℤ × UInt32)) (c : SmCommit) :
    Option (ℤ × UInt32) :=
  if c.commitHeight < height ∧ c.commitment = want then
    match best with
    | none => some (c.commitHeight, c.txIndex)
    | some (ch, ti) =>
      if c.commitHeight < ch ∨ (c.commitHeight = ch ∧ c.txIndex < ti) then
        some (c.commitHeight, c.txIndex)
      else some (ch, ti)
  else best

/-- `SHA-256(salt ‖ name ‖ author_hash160)`. -/
def claimCommitment (sha256 : Bytes → Hash256) (salt : Fixed 32) (name : Name) (actor : H160) :
    Hash256 := sha256 (salt.val ++ name ++ actor.val)

/-- `sm_op_claim`. -/
def smOpClaim (sha256 : Bytes → Hash256) (s : SmState) (cx : SmTxCtx) (a : SmAction) : SmState :=
  if !smNameValid a.name then s
  else
    let want := claimCommitment sha256 a.salt a.name cx.actor
    match s.commits.foldl (bestCommit want cx.height) none with
    | none => s
    | some (bestCh, bestTi) =>
      if !smLeaseCoversDay cx.carValue cx.rate then s
      else
        match smFindName s a.name with
        | some row =>
          match findScratch s a.name with
          | none => s
          | some w =>
            let scr := s.claimsc.getD w ⟨a.name, 0, 0, zeros 20⟩
            if (s.row row).st ≠ .OWNED ∨ (s.row row).owner ≠ scr.owner then s
            else if !(bestCh < scr.commitHeight ∨
                (bestCh = scr.commitHeight ∧ bestTi < scr.commitTxIndex)) then s
            else
              let s := s.setRow row { s.row row with
                owner := cx.actor, ownerType := cx.actorType, leaseExpiry := cx.mtp }
              let s := smWaterfill s cx.mtp cx.rate cx.carValue [row]
              let s := smBumpMutation s cx.actor cx.height
              (setScratch s a.name bestCh bestTi cx.actor).bumpEv .CLAIM_DISPLACE
        | none =>
          let (s, r) := smAddName s a.name
          let s := s.setRow r { s.row r with
            owner := cx.actor, ownerType := cx.actorType, st := .OWNED, leaseExpiry := cx.mtp }
          let s := smWaterfill s cx.mtp cx.rate cx.carValue [r]
          let s := smBumpMutation s cx.actor cx.height
          (setScratch s a.name bestCh bestTi cx.actor).bumpEv .CLAIM_MINT

/-- `sm_op_trade`: attributed to its own two inputs, all or nothing. -/
def smOpTrade (tx : SmTx) (s : SmState) (cx : SmTxCtx) (a : SmAction) : SmState :=
  match tx.inputs[a.idxA.val]?, tx.inputs[a.idxB.val]? with
  | some inA, some inB =>
    if a.idxA = a.idxB then s
    else if !inA.sighashAll || !inB.sighashAll then s
    else if !smNameValid a.name || !smNameValid a.nameB then s
    else if a.name = a.nameB then s
    else
      match smFindName s a.name, smFindName s a.nameB with
      | some rA, some rB =>
        if (s.row rA).st ≠ .OWNED ∨ (s.row rA).owner ≠ inA.h160 then s
        else if (s.row rB).st ≠ .OWNED ∨ (s.row rB).owner ≠ inB.h160 then s
        else
          let s := s.setRow rA { s.row rA with owner := inB.h160, ownerType := inB.type }
          let s := s.setRow rB { s.row rB with owner := inA.h160, ownerType := inA.type }
          let s := smBumpMutation (smBumpMutation s inA.h160 cx.height) inB.h160 cx.height
          s.bumpEv .TRADE_OK
      | _, _ => s
  | _, _ => s

end NamespaceIndexer.Fold
