import NamespaceIndexer.Daemon.Grown
import NamespaceIndexer.Daemon.Relay

/-!
# The socket loop of `cmd_sync`

The peer is at the other end of it: what `net_recv` brings may be anything, in any order. What the
loop sends is left out, since an answer is only what arrives.
-/

namespace NamespaceIndexer.Daemon

open Fold Lib

/-- The commands the loop tells apart; `ping` is answered and `addr` harvested by the way. -/
inductive SyncCmd where
  | inv
  | block
  | headers
  | other
  deriving DecidableEq

/-- What a `net_recv` comes to: 1, -1, or 0; or the pass is told to stop. -/
inductive Recv where
  | msg (cmd : SyncCmd) (pl : Bytes)
  | skipped
  | silence
  | stop

/-- A block off the tip whose branch is weighed (`branch_outweighs`): the context, and how often was
asked and received. -/
structure Weighing where
  pl : Bytes
  forkH : ℤ
  ours : ℕ
  bc : BranchCtx
  page : ℕ := 0
  tries : ℕ := 0

/-- Where the loop waits. -/
inductive SyncPhase where
  | inv
  | blocks (gotAny : Bool) (left : ℕ)
  | headers (gotAny : Bool) (left : ℕ) (w : Weighing)
  | done (ok : Bool)

structure SyncPass where
  n : ServeNode
  idle : ℕ := 0
  phase : SyncPhase := .inv

/-- `idx_db_block_height_by_hash`. -/
def idxDbBlockHeightByHash (db : Db) (hash : Hash256) : ℤ :=
  ((db.blocks.find? fun r => r.hash = hash).map BlockRow.height).getD (-1)

/-- `nwant`: the blocks among the items, none where the count is refused. -/
def invWanted (pl : Bytes) : Option ℕ :=
  (netPolicyReadCount pl).map fun c => min 600 ((readItems c.1 c.2).countP fun it => it.1 = 2)

namespace SyncPass

/-- The end of the pass, with its projection. -/
def finish (p : SyncPass) (ok : Bool) : SyncPass :=
  { p with n := { p.n with node := p.n.node.project }, phase := .done ok }

/-- A round without a block; the third in a row ends the pass. -/
def idleOn (p : SyncPass) : SyncPass :=
  let p := { p with idle := p.idle + 1 }
  if p.idle < 3 then { p with phase := .inv } else p.finish true

/-- After the blocks of a round, or where no more of them come. -/
def endBatch (p : SyncPass) (gotAny : Bool) : SyncPass :=
  let p := { p with n := { p.n with node := p.n.node.project } }
  if gotAny then { p with idle := 0, phase := .inv } else p.idleOn

/-- One of the blocks that were asked for is done with. -/
def blockDone (p : SyncPass) (gotAny : Bool) (left : ℕ) : SyncPass :=
  if left ≤ 1 then p.endBatch gotAny else { p with phase := .blocks gotAny (left - 1) }

variable (sha256 idxPowHash : Bytes → Hash256)
variable (idxAttribute : Bytes → ℕ → Option (H160 × Byte))
variable (coin : Coin) (activation : UInt64) (touched : Bytes → Bool)

/-- A block on top of the tip. -/
def connectTip (p : SyncPass) (gotAny : Bool) (left : ℕ) (pl : Bytes) : SyncPass :=
  if blockValidate sha256 idxPowHash coin p.n.node.db (p.n.node.height + 1) pl then
    let ok := (connectBlock sha256 idxAttribute p.n.node.s p.n.node.oracle (p.n.node.height + 1) pl
      (touched pl)).ok
    { p with n := p.n.connect sha256 idxAttribute pl (touched pl) }.blockDone (gotAny || ok) left
  else p.finish false

/-- A `block` message while blocks are awaited. -/
def takeBlock (p : SyncPass) (gotAny : Bool) (left : ℕ) (pl : Bytes) : SyncPass :=
  if pl.length < 80 then p.blockDone gotAny left
  else
    let prev : Hash256 := copyFrom 32 (pl.drop 4)
    if p.n.node.tip = some prev then
      p.connectTip sha256 idxPowHash idxAttribute coin touched gotAny left pl
    else
      let forkH := idxDbBlockHeightByHash p.n.node.db prev
      if forkH < 0 ∨ p.n.node.height ≤ forkH then p.blockDone gotAny left
      else if idxDbBlockGet p.n.node.db (forkH + 1) = some (rawHash sha256 pl) then
        p.blockDone gotAny left
      else if blockValidate sha256 idxPowHash coin p.n.node.db (forkH + 1) pl then
        match oursAbove p.n.node.db forkH (p.n.node.height - forkH).toNat with
        | none => p.blockDone gotAny left
        | some ours =>
          { p with phase :=
              .headers gotAny left { pl, forkH, ours, bc := branchSeed coin p.n.node.db forkH prev } }
      else p.finish false

/-- The chain is cut at the fork, and the block is the first of what follows; a replay that fails ends
the pass as it is. -/
def reorgTo (p : SyncPass) (gotAny : Bool) (left : ℕ) (w : Weighing) : SyncPass :=
  let p' := { p with n := p.n.reorg sha256 idxAttribute coin activation w.forkH }
  if (idxSyncRollback sha256 idxAttribute p.n.node.db p.n.node.oracle activation w.forkH).ok then
    p'.connectTip sha256 idxPowHash idxAttribute coin touched gotAny left w.pl
  else { p' with phase := .done false }

/-- The `headers` message that a weighing waits for. -/
def takeHeaders (p : SyncPass) (gotAny : Bool) (left : ℕ) (w : Weighing) (pl : Bytes) : SyncPass :=
  match branchWeigh sha256 idxPowHash coin w.bc pl with
  | none => p.finish false
  | some (bc, n) =>
    if w.ours < bc.work then
      p.reorgTo sha256 idxPowHash idxAttribute coin activation touched gotAny left w
    else if n < 2000 ∨ 64 ≤ w.page + 1 then p.blockDone gotAny left
    else { p with phase := .headers gotAny left { w with bc, page := w.page + 1, tries := 0 } }

/-- Another message while a weighing waits. -/
def passOver (p : SyncPass) (gotAny : Bool) (left : ℕ) (w : Weighing) : SyncPass :=
  if w.tries + 1 < 4096 then
    { p with phase := .headers gotAny left { w with tries := w.tries + 1 } }
  else p.blockDone gotAny left

/-- An `inv` message at the head of a round. -/
def takeInv (p : SyncPass) (pl : Bytes) : SyncPass :=
  match invWanted pl with
  | none => p
  | some 0 => p.idleOn
  | some nwant => { p with phase := .blocks false nwant }

/-- One `net_recv`. -/
def recv (p : SyncPass) (r : Recv) : SyncPass :=
  match p.phase, r with
  | .done _, _ => p
  | _, .stop => p.finish true
  | .inv, .msg .inv pl => p.takeInv pl
  | .inv, .silence => p.idleOn
  | .inv, _ => p
  | .blocks gotAny left, .msg .block pl =>
    p.takeBlock sha256 idxPowHash idxAttribute coin touched gotAny left pl
  | .blocks gotAny _, .silence => p.endBatch gotAny
  | .blocks _ _, _ => p
  | .headers gotAny left w, .msg .headers pl =>
    p.takeHeaders sha256 idxPowHash idxAttribute coin activation touched gotAny left w pl
  | .headers gotAny left _, .silence => p.blockDone gotAny left
  | .headers gotAny left w, _ => p.passOver gotAny left w

end SyncPass

end NamespaceIndexer.Daemon
