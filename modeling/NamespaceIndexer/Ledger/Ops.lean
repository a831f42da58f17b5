import NamespaceIndexer.Ledger.State
import NamespaceIndexer.Fold.Apply

/-!
# The rules of the ledger

One definition per action, then the transitions of a block boundary, then
transactions and blocks.
-/

namespace NamespaceIndexer.Ledger

open Fold Lib

variable (sha256 : Bytes → Hash256)

/-! ### Bitmap actions and their by-name forms -/

noncomputable def renew (L : Ledger) (cx : SmTxCtx) (a : SmAction) : Ledger :=
  let all := L.ownedList cx.actor
  if !a.hasAnchor && a.flags.length == 0 then L.extend cx.mtp cx.rate cx.carValue all
  else if a.hasAnchor && L.anchorOk cx.actor a.anchor cx.height then
    if a.flags.length == 0 then L.extend cx.mtp cx.rate cx.carValue all
    else L.extend cx.mtp cx.rate cx.carValue (selectBitmap a.flags all)
  else L

/-- Some name of the list is unlocked. -/
def SomeUnlocked (L : Ledger) (sel : List Name) : Prop :=
  ∃ n ∈ sel, ∃ d, L.names n = some d ∧ d.st = .OWNED

/-- Unlocked names of the list change owner. -/
def giveAll (L : Ledger) (addr : H160) (sel : List Name) : Ledger :=
  L.withNames fun n => if n ∈ sel then (L.names n).map (Deed.give addr) else L.names n

open Classical in
noncomputable def transfer (L : Ledger) (cx : SmTxCtx) (a : SmAction) : Ledger :=
  if a.hasAnchor && !L.anchorOk cx.actor a.anchor cx.height then L
  else
    let all := L.ownedList cx.actor
    let sel := if !a.hasAnchor then all else selectBitmap a.flags all
    if L.SomeUnlocked sel then
      ((L.giveAll a.addr sel).bump cx.actor cx.height).bump a.addr cx.height
    else L

/-- Unlocked names of the list leave the ledger. -/
def drop (L : Ledger) (sel : List Name) : Ledger :=
  L.withNames fun n => if n ∈ sel then (L.names n).filter (fun d => d.st ≠ .OWNED) else L.names n

open Classical in
noncomputable def release (L : Ledger) (cx : SmTxCtx) (a : SmAction) : Ledger :=
  if !a.hasAnchor then L
  else if !L.anchorOk cx.actor a.anchor cx.height then L
  else
    let sel := selectBitmap a.flags (L.ownedList cx.actor)
    if L.SomeUnlocked sel then (L.drop sel).bump cx.actor cx.height else L

/-- The deed of the name an action spells out, if the actor holds it. -/
def mine (L : Ledger) (who : H160) (a : SmAction) : Option Deed :=
  if a.name.length < 1 then none else (L.names a.name).filter fun d => d.holder = who

noncomputable def renewName (L : Ledger) (cx : SmTxCtx) (a : SmAction) : Ledger :=
  match L.mine cx.actor a with
  | none => L
  | some _ => L.extend cx.mtp cx.rate cx.carValue [a.name]

def transferName (L : Ledger) (cx : SmTxCtx) (a : SmAction) : Ledger :=
  match L.mine cx.actor a with
  | none => L
  | some d =>
    if d.st ≠ .OWNED then L
    else
      ((L.put a.name { d with owner := a.addr, ownerType := 0 }).bump cx.actor cx.height).bump a.addr
        cx.height

def releaseName (L : Ledger) (cx : SmTxCtx) (a : SmAction) : Ledger :=
  match L.mine cx.actor a with
  | none => L
  | some d => if d.st ≠ .OWNED then L else (L.erase a.name).bump cx.actor cx.height

/-! ### The market -/

/-- The deed of a valid name. -/
def deedOf (L : Ledger) (n : Name) : Option Deed := if smNameValid n then L.names n else none

def sell (L : Ledger) (cx : SmTxCtx) (a : SmAction) : Ledger :=
  match L.deedOf a.name with
  | none => L
  | some d =>
    let w : ℤ := if a.window ≠ 0 then (a.window.toNat : ℤ) else reserveWindow
    if a.price < sellPriceFloor ∨ d.st ≠ .OWNED ∨ d.owner ≠ cx.actor ∨ w < reserveWindow ∨
        cx.mtp + w + reorgBuffer > d.leaseExpiry then L
    else L.put a.name { d with
      st := .LISTED, seller := cx.actor, sellerType := cx.actorType, price := a.price,
      offerExpiry := cx.mtp + w, buyer := zeros 20, burnLeg := 0, payLeg := 0, reserveExpiry := 0 }

def sellTo (L : Ledger) (cx : SmTxCtx) (a : SmAction) : Ledger :=
  match L.deedOf a.name with
  | none => L
  | some d =>
    if a.price < dustFloor ∨ d.st ≠ .OWNED ∨ d.owner ≠ cx.actor ∨
        cx.mtp + directWindow + reorgBuffer > d.leaseExpiry then L
    else L.put a.name { d with
      st := .OFFERED, seller := cx.actor, sellerType := cx.actorType, buyer := a.addr,
      price := a.price, offerExpiry := cx.mtp + directWindow, burnLeg := 0, payLeg := 0,
      reserveExpiry := 0 }

def reserve (tx : SmTx) (L : Ledger) (cx : SmTxCtx) (a : SmAction) : Ledger × SmTxCtx :=
  match L.deedOf a.name with
  | none => (L, cx)
  | some d =>
    let burnLeg := depositLeg d.price reserveBurnBps
    let payLeg := depositLeg d.price reservePayBps
    if d.st ≠ .LISTED ∨ cx.carValue < burnLeg then (L, cx)
    else
      match smConsumeOutput tx cx d.seller d.sellerType payLeg with
      | none => (L, cx)
      | some cx =>
        (L.put a.name { d with
          st := .RESERVED, buyer := cx.actor, burnLeg, payLeg,
          reserveExpiry := min (cx.mtp + reserveWindow) d.offerExpiry }, cx)

/-- The name passes from its seller to the acting buyer; both owned sets change. -/
def convey (L : Ledger) (cx : SmTxCtx) (n : Name) (d : Deed) : Ledger :=
  ((L.put n (d.conveyTo cx.actor cx.actorType)).bump cx.actor cx.height).bump d.seller cx.height

/-- SETTLE and PAY: the recorded buyer pays what is `owed` before the option ends. -/
def buy (tx : SmTx) (st : SmNameState) (expiry : Deed → ℤ) (owed : Deed → UInt64)
    (L : Ledger) (cx : SmTxCtx) (a : SmAction) : Ledger × SmTxCtx :=
  match L.deedOf a.name with
  | none => (L, cx)
  | some d =>
    if d.st ≠ st ∨ d.buyer ≠ cx.actor ∨ cx.mtp ≥ expiry d then (L, cx)
    else
      match smConsumeOutput tx cx d.seller d.sellerType (owed d) with
      | none => (L, cx)
      | some cx => (L.convey cx a.name d, cx)

/-- What the reserver of a sale still owes. -/
def remainder (d : Deed) : UInt64 := d.price - d.burnLeg - d.payLeg

def settle (tx : SmTx) : Ledger → SmTxCtx → SmAction → Ledger × SmTxCtx :=
  buy tx .RESERVED Deed.reserveExpiry remainder

def pay (tx : SmTx) : Ledger → SmTxCtx → SmAction → Ledger × SmTxCtx :=
  buy tx .OFFERED Deed.offerExpiry Deed.price

/-! ### CLAIM and TRADE -/

/-- Priority of a commit: smaller is earlier. -/
def priority (c : SmCommit) : ℤ ×ₗ ℕ := toLex (c.commitHeight, c.txIndex.toNat)

/-- The live commits of strictly earlier blocks that back `want`. -/
def backing (L : Ledger) (want : Hash256) (height : ℤ) : Multiset SmCommit :=
  L.commits.filter fun c => c.commitHeight < height ∧ c.commitment = want

/-- `p` is the best priority among the backing commits. -/
def IsBest (L : Ledger) (want : Hash256) (height : ℤ) (p : ℤ × UInt32) : Prop :=
  (∃ c ∈ L.backing want height, p = (c.commitHeight, c.txIndex)) ∧
    ∀ c ∈ L.backing want height, toLex (p.1, p.2.toNat) ≤ priority c

open Classical in
noncomputable def best (L : Ledger) (want : Hash256) (height : ℤ) : Option (ℤ × UInt32) :=
  if h : ∃ p, L.IsBest want height p then some h.choose else none

theorem isBest_unique {L : Ledger} {want : Hash256} {height : ℤ} {p q : ℤ × UInt32}
    (hp : L.IsBest want height p) (hq : L.IsBest want height q) : p = q := by
  obtain ⟨⟨c, hc, rfl⟩, hpmin⟩ := hp
  obtain ⟨⟨c', hc', rfl⟩, hqmin⟩ := hq
  have he := le_antisymm (hpmin c' hc') (hqmin c hc)
  rw [priority, toLex_inj, Prod.mk.injEq] at he
  rw [Prod.mk.injEq]
  exact ⟨he.1, UInt32.toNat_inj.mp he.2⟩

theorem best_eq_some {L : Ledger} {want : Hash256} {height : ℤ} {p : ℤ × UInt32} :
    L.best want height = some p ↔ L.IsBest want height p := by
  unfold best
  constructor
  · intro h
    split at h
    · rename_i hex
      rw [← Option.some.inj h]
      exact hex.choose_spec
    · cases h
  · intro h
    have hex : ∃ p, L.IsBest want height p := ⟨p, h⟩
    rw [dif_pos hex, isBest_unique hex.choose_spec h]

theorem mem_backing {L : Ledger} {want : Hash256} {height : ℤ} {c : SmCommit} :
    c ∈ L.backing want height ↔ c ∈ L.commits ∧ c.commitHeight < height ∧ c.commitment = want := by
  unfold backing
  rw [Multiset.mem_filter]

/-- `who` becomes the owner of `n` for what the burn buys from now on. -/
noncomputable def mint (L : Ledger) (cx : SmTxCtx) (n : Name) (p : ℤ × UInt32) (d : Deed) : Ledger :=
  let L := L.put n { d with owner := cx.actor, ownerType := cx.actorType, leaseExpiry := cx.mtp }
  let L := L.extend cx.mtp cx.rate cx.carValue [n]
  (L.bump cx.actor cx.height).setWin n ⟨p.1, p.2, cx.actor⟩

noncomputable def claim (L : Ledger) (cx : SmTxCtx) (a : SmAction) : Ledger :=
  if !smNameValid a.name then L
  else
    match L.best (claimCommitment sha256 a.salt a.name cx.actor) cx.height with
    | none => L
    | some p =>
      if !smLeaseCoversDay cx.carValue cx.rate then L
      else
        match L.names a.name with
        | none => L.mint cx a.name p (Deed.plain cx.actor cx.actorType cx.mtp)
        | some d =>
          match L.scratch a.name with
          | none => L
          | some w =>
            if d.st ≠ .OWNED ∨ d.owner ≠ w.owner ∨
                ¬ (p.1 < w.commitHeight ∨ (p.1 = w.commitHeight ∧ p.2 < w.commitTxIndex)) then L
            else L.mint cx a.name p d

def trade (tx : SmTx) (L : Ledger) (cx : SmTxCtx) (a : SmAction) : Ledger :=
  match tx.inputs[a.idxA.val]?, tx.inputs[a.idxB.val]? with
  | some inA, some inB =>
    if a.idxA = a.idxB ∨ !inA.sighashAll ∨ !inB.sighashAll ∨ a.name = a.nameB then L
    else
      match L.deedOf a.name, L.deedOf a.nameB with
      | some dA, some dB =>
        if dA.st ≠ .OWNED ∨ dA.owner ≠ inA.h160 ∨ dB.st ≠ .OWNED ∨ dB.owner ≠ inB.h160 then L
        else
          let L := (L.put a.name { dA with owner := inB.h160, ownerType := inB.type }).put a.nameB
            { dB with owner := inA.h160, ownerType := inA.type }
          (L.bump inA.h160 cx.height).bump inB.h160 cx.height
      | _, _ => L
  | _, _ => L

def commit (tx : SmTx) (L : Ledger) (a : SmAction) : Ledger :=
  { L with commits := ⟨a.commitment, L.height, tx.txindex, L.mtp⟩ ::ₘ L.commits }

/-! ### Transactions -/

noncomputable def dispatch (tx : SmTx) (L : Ledger) (cx : SmTxCtx) (a : SmAction) :
    SmOp → Ledger × SmTxCtx
  | .COMMIT => (L.commit tx a, cx)
  | .CLAIM => (L.claim sha256 cx a, cx)
  | .RENEW => (L.renew cx a, cx)
  | .TRANSFER => (L.transfer cx a, cx)
  | .RENEW_NAME => (L.renewName cx a, cx)
  | .TRANSFER_NAME => (L.transferName cx a, cx)
  | .RELEASE_NAME => (L.releaseName cx a, cx)
  | .SELL => (L.sell cx a, cx)
  | .RESERVE => L.reserve tx cx a
  | .SETTLE => L.settle tx cx a
  | .RELEASE => (L.release cx a, cx)
  | .SELL_TO => (L.sellTo cx a, cx)
  | .PAY => L.pay tx cx a
  | .AS => (L, cx)
  | .TRADE => (L, cx)

noncomputable def applyCarrier (tx : SmTx) (Lc : Ledger × SmTxCtx) (car : SmCarrier) :
    Ledger × SmTxCtx :=
  let (L, cx) := Lc
  let cx := { cx with carValue := car.value, carVout := car.vout }
  if car.kind ≠ .ACTION then (L, cx)
  else if L.height < i64 L.activationHeight then (L, cx)
  else
    match SmOp.ofByte? car.act.op with
    | some .AS =>
      match signer tx car.act.asIndex.val with
      | some i => (L, { cx with actor := i.h160, actorType := i.type, actorValid := true })
      | none => (L, { cx with actorValid := false })
    | some .TRADE => (L.trade tx cx car.act, cx)
    | some op => if !cx.actorValid then (L, cx) else L.dispatch sha256 tx cx car.act op
    | none => (L, cx)

def initCtx (L : Ledger) (tx : SmTx) : SmTxCtx :=
  let cx : SmTxCtx :=
    { height := L.height, mtp := L.mtp, rate := L.rate, txindex := tx.txindex,
      outConsumed := List.replicate tx.outs.length false }
  match signer tx 0 with
  | some i => { cx with actor := i.h160, actorType := i.type, actorValid := true }
  | none => cx

noncomputable def applyTx (L : Ledger) (tx : SmTx) : Ledger :=
  (tx.carriers.foldl (applyCarrier sha256 tx) (L, L.initCtx tx)).1

/-! ### Block boundaries -/

/-- A name in `S` that `who` ends up with lapses at time `mtp`. -/
def Lapses (L : Ledger) (S : Set Name) (mtp : ℤ) (who : H160) : Prop :=
  ∃ n ∈ S, ∃ d, L.names n = some d ∧ mtp ≥ d.leaseExpiry ∧ (d.close mtp).owner = who

open Classical in
/-- The due transitions of the names in `S`. -/
noncomputable def settleDue (L : Ledger) (S : Set Name) (height mtp : ℤ) : Ledger :=
  { L with
    names := fun n => if n ∈ S then (L.names n).bind (Deed.due mtp) else L.names n
    muts := fun who => if L.Lapses S mtp who then some (raise (L.muts who) height)
      else L.muts who }

section SettleDue

variable {L : Ledger} {S : Set Name} {height mtp : ℤ}

theorem settleDue_mem {n : Name} (h : n ∈ S) :
    (L.settleDue S height mtp).names n = (L.names n).bind (Deed.due mtp) := if_pos h

theorem settleDue_notMem {n : Name} (h : n ∉ S) :
    (L.settleDue S height mtp).names n = L.names n := if_neg h

theorem settleDue_lapse {who : H160} (h : L.Lapses S mtp who) :
    (L.settleDue S height mtp).muts who = some (raise (L.muts who) height) := if_pos h

theorem settleDue_noLapse {who : H160} (h : ¬ L.Lapses S mtp who) :
    (L.settleDue S height mtp).muts who = L.muts who := if_neg h

end SettleDue

noncomputable def preblock (L : Ledger) (height mtp : ℤ) : Ledger :=
  { L.settleDue Set.univ height mtp with
    commits := L.commits.filter fun c => ¬ mtp > c.commitTime + commitExpiry }

noncomputable def beginBlock (L : Ledger) (height mtp : ℤ) (rate : UInt64) : Ledger :=
  { L.preblock height mtp with height, mtp, rate, scratch := fun _ => none }

noncomputable def foldBlock (L : Ledger) (b : FoldBlock) : Ledger :=
  b.txs.foldl (applyTx sha256) (L.beginBlock b.height b.mtp b.rate)

noncomputable def foldBlocks (L : Ledger) (bs : List FoldBlock) : Ledger :=
  bs.foldl (foldBlock sha256) L

end NamespaceIndexer.Ledger
