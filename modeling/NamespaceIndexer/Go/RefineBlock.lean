import NamespaceIndexer.Fold.Registry
import NamespaceIndexer.Go.RefineMarket

/-!
# Blocks of the Go port

The opcodes together, the carrier walk and the block boundary: a block of the port keeps the
ledger that the port shows.
-/

namespace NamespaceIndexer

open Fold Lib Daemon

namespace Ledger

section Domain

variable {sha256 : Bytes → Hash256} {tx : SmTx} {cx : SmTxCtx} {a : SmAction} {L L' : Ledger}
  {op : SmOp} {out : List Bool}

/-- An action brings at most its own name into the ledger. -/
theorem Act.absent (h : Act sha256 tx cx a L op L' out) {n : Name} (hne : n ≠ a.name)
    (hn : L.names n = none) : L'.names n = none := by
  cases h with
  | commit => exact hn
  | mint => rw [mint_names, Function.update_of_ne hne, hn]
  | displace => rw [mint_names, Function.update_of_ne hne, hn]
  | @extend _ ns _ _ _ =>
    rcases L.extend_names cx.mtp cx.rate cx.carValue ns n with he | ⟨-, k, -, he⟩
    · rw [he, hn]
    · rw [he, hn]
      rfl
  | @gift _ sel _ _ _ =>
    change (if n ∈ sel then (L.names n).map (Deed.give a.addr) else L.names n) = none
    rw [hn]
    split <;> rfl
  | @release _ sel _ _ _ =>
    change (if n ∈ sel then (L.names n).filter _ else L.names n) = none
    rw [hn]
    split <;> rfl
  | sell => exact (Function.update_of_ne hne _ _).trans hn
  | sellTo => exact (Function.update_of_ne hne _ _).trans hn
  | reserve => exact (Function.update_of_ne hne _ _).trans hn
  | settle => exact (Function.update_of_ne hne _ _).trans hn
  | pay => exact (Function.update_of_ne hne _ _).trans hn
  | trade _ _ _ _ _ _ presentB =>
    have hneB : n ≠ a.nameB := by
      rintro rfl
      rw [hn] at presentB
      cases presentB
    exact (Function.update_of_ne hneB _ _).trans ((Function.update_of_ne hne _ _).trans hn)

end Domain

theorem Within.mono {L : Ledger} {j k : ℕ} (h : L.Within j) (hjk : j ≤ k) : L.Within k := by
  obtain ⟨ks, hlen, hall⟩ := h
  exact ⟨ks, hlen.trans hjk, hall⟩

/-- A carrier brings at most one name into the ledger. -/
theorem Within.applyCarrier {sha256 : Bytes → Hash256} {tx : SmTx} {Lc : Ledger × SmTxCtx} {k : ℕ}
    (h : Lc.1.Within k) (car : SmCarrier) :
    (Ledger.applyCarrier sha256 tx Lc car).1.Within (k + 1) := by
  rcases applyCarrier_cases sha256 tx Lc.1 Lc.2 car with ⟨he, -⟩ | ⟨op, -, -, -, hact⟩
  · rw [Prod.mk.eta] at he
    rw [he]
    exact h.mono (Nat.le_succ k)
  · obtain ⟨ks, hlen, hall⟩ := h
    refine ⟨car.act.name :: ks, Nat.succ_le_succ hlen, fun n d hd => ?_⟩
    by_cases hn : n = car.act.name
    · rw [hn]
      exact List.mem_cons_self
    · cases hold : Lc.1.names n with
      | none =>
        rw [Prod.mk.eta] at hact
        rw [hact.absent hn hold] at hd
        cases hd
      | some e => exact List.mem_cons_of_mem _ (hall n e hold)

theorem Within.beginBlock {L : Ledger} {k : ℕ} (h : L.Within k) (height mtp : ℤ) (rate : UInt64) :
    (L.beginBlock height mtp rate).Within k := by
  obtain ⟨ks, hlen, hall⟩ := h
  refine ⟨ks, hlen, fun n d hd => ?_⟩
  rw [beginBlock_names, Option.bind_eq_some_iff] at hd
  obtain ⟨e, he, -⟩ := hd
  exact hall n e he

end Ledger

namespace Go

namespace Tracks

/-! ### Opcodes -/

section Opcodes

variable {s : FoldState} {L : Ledger} {b : FoldBlock} {actor : Identity} {fc : FoldCarrier}
  {cx : SmTxCtx} {a : SmAction} {k : ℕ} {tx : SmTx} {gtx : FoldTx}

theorem commit (t : Tracks s L) (hheight : L.height = b.height) (hmtp : L.mtp = b.mtp)
    (hindex : gtx.txIndex = tx.txindex) (commitment : Hash256) (ha : a.commitment = commitment) :
    Tracks { s with commits := s.commits ++ [⟨commitment, b.height, gtx.txIndex, b.mtp⟩] }
      (L.commit tx a) where
  names := t.names
  commits := by
    unfold Ledger.commit
    rw [← t.commits, List.map_append, Multiset.cons_coe, Multiset.coe_eq_coe, hheight, hmtp, ha,
      hindex]
    exact List.perm_append_singleton _ _
  muts := t.muts
  scratch := t.scratch

/-- Every opcode of the acting identity keeps the ledger that the port shows. -/
theorem dispatchAction (t : Tracks s L) (sha256 : Bytes → Hash256)
    (hs : ∀ n d, L.names n = some d → d.Sound L.mtp) (hk : L.Within k) (hcap : 365 * k < 2 ^ 64)
    (hrate : 1 ≤ b.rate.toNat ∧ b.rate.toNat ≤ 100000000) (h : Acts b actor fc.value cx)
    (hheight : L.height = b.height) (hmtp : L.mtp = b.mtp) (hindex : gtx.txIndex = tx.txindex)
    (hspend : gtx.spend = tx.outs.map ofOut)
    (hasc : tx.outs.Pairwise fun o o' => o.vout ≤ o'.vout) (hwell : WellFormed a) {op : SmOp}
    (hop : SmOp.ofByte? a.op = some op) :
    Paid (dispatchAction s b gtx sha256 fc (carrierOf op a) actor cx.outConsumed op)
      (L.dispatch sha256 tx cx a op) := by
  unfold WellFormed at hwell
  rw [hop] at hwell
  cases op with
  | COMMIT => exact ⟨t.commit hheight hmtp hindex a.commitment rfl, rfl⟩
  | CLAIM => exact ⟨t.applyClaim sha256 hrate h hwell.1, rfl⟩
  | RENEW =>
    exact ⟨t.applyRenew hs hk hcap hrate h hwell.1 fun hnone => (hwell.2.2.1 hnone).2, rfl⟩
  | TRANSFER => exact ⟨t.applyTransfer hs h hwell.1 hwell.2.2.1, rfl⟩
  | RELEASE =>
    have hkind : a.hasAnchor = true := congrArg SmAction.hasAnchor hwell.2.2.2
    exact ⟨t.applyRelease hs h hwell.1 hkind hwell.2.1, rfl⟩
  | RENEW_NAME => exact ⟨t.applyRenewName hs hrate h hwell.1, rfl⟩
  | TRANSFER_NAME => exact ⟨t.applyTransferName hs h hwell.1, rfl⟩
  | RELEASE_NAME => exact ⟨t.applyReleaseName hs h hwell.1, rfl⟩
  | SELL => exact ⟨t.applySell hs h hwell.1, rfl⟩
  | RESERVE => exact t.applyReserve hspend hasc h hwell.1
  | SETTLE => exact t.applySettle hspend hasc h hwell.1
  | SELL_TO => exact ⟨t.applySellTo hs h hwell.1, rfl⟩
  | PAY => exact t.applyPay hspend hasc h hwell.1
  | AS => exact ⟨t, rfl⟩
  | TRADE => exact ⟨t, rfl⟩

end Opcodes

end Tracks

/-! ### The carrier walk -/

/-- The two readings of one `OP_RETURN` output. -/
def Reads (car : SmCarrier) (fc : FoldCarrier) : Prop :=
  fc.value = car.value ∧
    ((car.kind ≠ .ACTION ∧ fc.c = none) ∨
      (car.kind = .ACTION ∧ WellFormed car.act ∧ fc.c = goCarrier car.act))

/-- The two readings of one transaction, its outputs in ascending order. -/
structure SameTx (tx : SmTx) (gtx : FoldTx) : Prop where
  index : gtx.txIndex = tx.txindex
  inputs : gtx.inputs = tx.inputs.map ofInput
  spend : gtx.spend = tx.outs.map ofOut
  carriers : List.Forall₂ Reads tx.carriers gtx.carriers
  ascending : tx.outs.Pairwise fun o o' => o.vout ≤ o'.vout

/-- The ledger within block `b`, of a fold that activates at `active`. -/
structure Steady (active : UInt64) (b : FoldBlock) (k : ℕ) (L : Ledger) : Prop where
  sound : L.Sound
  within : L.Within k
  height : L.height = b.height
  mtp : L.mtp = b.mtp
  rate : L.rate = b.rate
  activation : L.activationHeight = active

/-- The walk of the port over the carriers beside the walk over the ledger. -/
structure Walks (b : FoldBlock) (Lc : Ledger × SmTxCtx) (w : Walk) : Prop where
  tracks : Tracks w.s Lc.1
  height : Lc.2.height = b.height
  mtp : Lc.2.mtp = b.mtp
  rate : Lc.2.rate = b.rate
  valid : Lc.2.actorValid = w.actor.ok
  actor : w.actor.ok = true → Lc.2.actor = w.actor.h160 ∧ Lc.2.actorType = w.actor.styp
  consumed : w.consumed = Lc.2.outConsumed

section Walk

variable (sha256 : Bytes → Hash256) {tx : SmTx} {gtx : FoldTx} {active : UInt64} {b : FoldBlock}
  {k : ℕ} {Lc : Ledger × SmTxCtx} {w : Walk} {car : SmCarrier} {fc : FoldCarrier}

theorem Steady.applyCarrier (h : Steady active b k Lc.1) (ha : Ledger.Aligned Lc) (car : SmCarrier) :
    Steady active b (k + 1) (Ledger.applyCarrier sha256 tx Lc car).1 := by
  have hsound := Ledger.applyCarrier_induct sha256 tx (P := Ledger.Sound)
    (fun hh hm hact hs => hact.sound hh hm hs) ha h.sound car
  have hclock := Ledger.applyCarrier_induct sha256 tx
    (P := fun M => M.height = Lc.1.height ∧ M.mtp = Lc.1.mtp ∧ M.rate = Lc.1.rate ∧
      M.activationHeight = Lc.1.activationHeight)
    (fun _ _ hact hs => ⟨hact.clock.1.trans hs.1, hact.clock.2.1.trans hs.2.1,
      hact.clock.2.2.1.trans hs.2.2.1, hact.clock.2.2.2.trans hs.2.2.2⟩) ha ⟨rfl, rfl, rfl, rfl⟩ car
  obtain ⟨hheight, hmtp, hrate, hact⟩ := hclock
  exact {
    sound := hsound
    within := h.within.applyCarrier car
    height := hheight.trans h.height
    mtp := hmtp.trans h.mtp
    rate := hrate.trans h.rate
    activation := hact.trans h.activation }

theorem carrierOf_opcode (op : SmOp) (a : SmAction) : (carrierOf op a).opcode = a.op := by
  cases op <;> rfl

/-- AS moves both walks to the same identity. -/
theorem Walks.takeInput {L : Ledger} {cx : SmTxCtx} (h : Walks b (L, cx) w)
    (hin : gtx.inputs = tx.inputs.map ofInput) (idx : Byte) :
    Walks b
      (match signer tx idx.val with
        | some i => (L, { cx with actor := i.h160, actorType := i.type, actorValid := true })
        | none => (L, { cx with actorValid := false }))
      (match gtx.input? (idx.val : ℤ) with
        | some i => { w with actor := if i.ok then i else {} }
        | none => { w with actor := {} }) := by
  have hdrop : Walks b (L, { cx with actorValid := false }) { w with actor := {} } :=
    { h with valid := rfl, actor := fun hok => by cases hok }
  rw [Tracks.input?_eq hin]
  unfold signer
  cases tx.inputs[idx.val]? with
  | none => exact hdrop
  | some i =>
    dsimp only [Option.map_some]
    cases hok : i.sighashAll with
    | false =>
      have hoff : ¬ (ofInput i).ok = true := by
        unfold ofInput
        simp [hok]
      rw [if_neg hoff]
      exact hdrop
    | true =>
      have hon : (ofInput i).ok = true := hok
      rw [if_pos hon]
      exact { h with valid := hon.symm, actor := fun _ => ⟨rfl, rfl⟩ }

/-- An opcode of the acting identity, where there is one. -/
theorem Walks.act {L : Ledger} {cx : SmTxCtx} (h : Walks b (L, cx) w) (hst : Steady active b k L)
    (hcap : 365 * k < 2 ^ 64) (hrate : 1 ≤ b.rate.toNat ∧ b.rate.toNat ≤ 100000000)
    (htx : SameTx tx gtx) {a : SmAction} (hvalue : cx.carValue = fc.value) (hwell : WellFormed a)
    {op : SmOp} (hop : SmOp.ofByte? a.op = some op) :
    Walks b (if !cx.actorValid then (L, cx) else L.dispatch sha256 tx cx a op)
      (if !w.actor.ok then w
        else
          let (s, consumed) := dispatchAction w.s b gtx sha256 fc (carrierOf op a) w.actor w.consumed op
          { w with s, consumed }) := by
  have hvalid : (!cx.actorValid) = true ↔ (!w.actor.ok) = true := by
    rw [show cx.actorValid = w.actor.ok from h.valid]
  refine related_ite_of (R := Walks b) hvalid (fun _ => h) fun hok => ?_
  have hactor : w.actor.ok = true := by
    rw [hvalid] at hok
    simpa using hok
  obtain ⟨hwho, htype⟩ := h.actor hactor
  have hacts : Acts b w.actor fc.value cx :=
    ⟨h.height, h.mtp, h.rate, hwho, htype, hvalue⟩
  obtain ⟨ht, hconsumed⟩ := h.tracks.dispatchAction sha256 hst.sound.deeds hst.within hcap hrate
    hacts hst.height hst.mtp htx.index htx.spend htx.ascending hwell hop
  obtain ⟨out, hout⟩ := L.dispatch_ctx sha256 tx cx a op
  rw [show cx.outConsumed = w.consumed from h.consumed.symm] at ht hconsumed
  exact {
    tracks := ht
    height := by
      rw [hout]
      exact h.height
    mtp := by
      rw [hout]
      exact h.mtp
    rate := by
      rw [hout]
      exact h.rate
    valid := by
      rw [hout]
      exact h.valid
    actor := by
      rw [hout]
      exact h.actor
    consumed := hconsumed }

/-- One carrier of the port does to its state what the ledger does. -/
theorem Walks.applyCarrier (h : Walks b Lc w) (hst : Steady active b k Lc.1)
    (hgate : b.height < i64 active ↔ b.height < activationHeight) (hcap : 365 * k < 2 ^ 64)
    (hrate : 1 ≤ b.rate.toNat ∧ b.rate.toNat ≤ 100000000) (htx : SameTx tx gtx)
    (hread : Reads car fc) :
    Walks b (Ledger.applyCarrier sha256 tx Lc car) (Go.applyCarrier sha256 b gtx w fc) := by
  obtain ⟨L, cx⟩ := Lc
  obtain ⟨hvalue, hread⟩ := hread
  have hskip : Walks b (L, { cx with carValue := car.value, carVout := car.vout }) w := { h with }
  unfold Ledger.applyCarrier Go.applyCarrier
  dsimp only
  rcases hread with ⟨hkind, hc⟩ | ⟨hkind, hwell, hc⟩
  · rw [hc, if_pos hkind]
    exact hskip
  cases hop : SmOp.ofByte? car.act.op with
  | none =>
    unfold WellFormed at hwell
    rw [hop] at hwell
    exact hwell.elim
  | some op =>
    rw [hc, goCarrier_of hop, if_neg (not_not.mpr hkind)]
    dsimp only
    rw [carrierOf_opcode, hop]
    rw [show L.height = b.height from hst.height, show L.activationHeight = active from hst.activation]
    refine related_ite_of hgate (fun _ => hskip) fun _ => ?_
    have hact := hskip.act sha256 hst hcap hrate htx hvalue.symm hwell hop
    cases op with
    | AS => exact hskip.takeInput htx.inputs car.act.asIndex
    | TRADE =>
      unfold WellFormed at hwell
      rw [hop] at hwell
      exact { hskip with
        tracks := hskip.tracks.dispatchTrade htx.inputs hskip.height hwell.1 hwell.2.1 }
    | _ => exact hact

/-- Both walks over all carriers of a transaction. -/
theorem Walks.foldl_applyCarrier (htx : SameTx tx gtx)
    (hgate : b.height < i64 active ↔ b.height < activationHeight) (hcap : ∀ {j : ℕ}, j ≤ k → 365 * j < 2 ^ 64)
    (hrate : 1 ≤ b.rate.toNat ∧ b.rate.toNat ≤ 100000000) {cars : List SmCarrier}
    {fcs : List FoldCarrier} (hreads : List.Forall₂ Reads cars fcs) {j : ℕ}
    (hjk : j + cars.length ≤ k) (h : Walks b Lc w) (hst : Steady active b j Lc.1)
    (ha : Ledger.Aligned Lc) :
    Walks b (cars.foldl (Ledger.applyCarrier sha256 tx) Lc)
        (fcs.foldl (Go.applyCarrier sha256 b gtx) w) ∧
      Steady active b (j + cars.length) (cars.foldl (Ledger.applyCarrier sha256 tx) Lc).1 := by
  induction hreads generalizing Lc w j with
  | nil => exact ⟨h, hst⟩
  | @cons car fc cars fcs hread _ ih =>
    rw [List.length_cons] at hjk
    have hstep := h.applyCarrier sha256 hst hgate (hcap (by omega)) hrate htx hread
    have hrest := ih (by omega) hstep (hst.applyCarrier sha256 ha car) (ha.applyCarrier sha256 tx car)
    rw [List.foldl_cons, List.foldl_cons, List.length_cons, ← Nat.add_assoc, Nat.add_right_comm]
    exact hrest

theorem Walks.start {s : FoldState} {L : Ledger} (t : Tracks s L) (hst : Steady active b k L)
    (htx : SameTx tx gtx) :
    Walks b (L, L.initCtx tx)
      ⟨s, gtx.inputs.headD {}, List.replicate gtx.spend.length false⟩ := by
  have hlen : gtx.spend.length = tx.outs.length := by rw [htx.spend, List.length_map]
  have hhead : gtx.inputs.headD {} = match tx.inputs[0]? with
      | some i => ofInput i
      | none => {} := by
    rw [htx.inputs]
    cases tx.inputs <;> rfl
  rw [hlen, hhead]
  unfold Ledger.initCtx signer
  cases tx.inputs[0]? with
  | none =>
    exact {
      tracks := t
      height := hst.height
      mtp := hst.mtp
      rate := hst.rate
      valid := rfl
      actor := fun hok => by cases hok
      consumed := rfl }
  | some i =>
    dsimp only
    cases hok : i.sighashAll with
    | false =>
      exact {
        tracks := t
        height := hst.height
        mtp := hst.mtp
        rate := hst.rate
        valid := hok.symm
        actor := fun hon => by
          have hon' : i.sighashAll = true := hon
          rw [hok] at hon'
          cases hon'
        consumed := rfl }
    | true =>
      exact {
        tracks := t
        height := hst.height
        mtp := hst.mtp
        rate := hst.rate
        valid := hok.symm
        actor := fun _ => ⟨rfl, rfl⟩
        consumed := rfl }

/-- A transaction of the port keeps the ledger that the port shows. -/
theorem Tracks.applyTx {s : FoldState} {L : Ledger} (t : Tracks s L) {j : ℕ} (hst : Steady active b j L)
    (htx : SameTx tx gtx) (hgate : b.height < i64 active ↔ b.height < activationHeight)
    (hcap : ∀ {j : ℕ}, j ≤ k → 365 * j < 2 ^ 64)
    (hrate : 1 ≤ b.rate.toNat ∧ b.rate.toNat ≤ 100000000) (hjk : j + tx.carriers.length ≤ k) :
    Tracks (Go.applyTx sha256 b s gtx) (L.applyTx sha256 tx) ∧
      Steady active b (j + tx.carriers.length) (L.applyTx sha256 tx) := by
  obtain ⟨hwalk, hsteady⟩ := Walks.foldl_applyCarrier sha256 htx hgate hcap hrate htx.carriers hjk
    (Walks.start t hst htx) hst (L.initCtx_clock tx)
  exact ⟨hwalk.tracks, hsteady⟩

end Walk

/-! ### The block boundary -/

/-- The reserve and offer transitions of a sound row. -/
theorem closeRow_bareRow {d : Deed} {mtp : ℤ} (h : d.Sound mtp) (now : ℤ) :
    closeRow now (bareRow d) = bareRow (d.close now) := by
  rw [h.close_eq]
  unfold closeRow Deed.revert
  by_cases hr : d.st = .RESERVED ∧ now ≥ d.reserveExpiry
  · rw [if_pos hr, if_pos hr]
    exact related_ite_of (R := fun r e => r = bareRow e) Iff.rfl (fun _ => rfl) fun _ => rfl
  · rw [if_neg hr, if_neg hr]
    exact related_ite_of (R := fun r e => r = bareRow e) Iff.rfl (fun _ => rfl) fun _ => rfl

namespace Tracks

variable {s : FoldState} {L : Ledger} {b : FoldBlock} {k : ℕ}

/-- The body of the name loop settles one name. -/
theorem preBlockName (t : Tracks s L) (height now : ℤ) {mtp : ℤ} {n : Name} {d : Deed}
    (hd : L.names n = some d) (hsound : d.Sound mtp) :
    Tracks (preBlockName height now s n)
      (if now ≥ d.leaseExpiry then (L.bump (d.close now).owner height).erase n
        else L.put n (d.close now)) := by
  have hset := t.setName n (d.close now)
  have hlapse : ((L.put n (d.close now)).erase n).bump (d.close now).owner height
      = (L.bump (d.close now).owner height).erase n := by
    refine Ledger.ext rfl rfl rfl rfl ?_ rfl rfl rfl
    simp only [Ledger.erase_names, Ledger.bump_names, Ledger.put_names, Function.update_idem]
  unfold Go.preBlockName
  rw [t.get, hd]
  dsimp only [Option.map_some]
  rw [closeRow_bareRow hsound]
  have hlapsed : now ≥ (bareRow (d.close now)).leaseExpiry ↔ now ≥ d.leaseExpiry :=
    Iff.of_eq (congrArg (now ≥ ·) (hsound.close_leaseExpiry now))
  refine related_ite_of hlapsed (fun _ => ?_) fun _ => hset
  rw [← hlapse]
  exact (hset.deleteName n).bumpMut _ _

/-- The name loop settles the names of its keys. -/
theorem foldl_preBlockName (t : Tracks s L) (height now : ℤ) {mtp : ℤ} {keys : List Name}
    (hn : keys.Nodup) (hkeys : ∀ n ∈ keys, ∃ d, L.names n = some d ∧ d.Sound mtp) :
    Tracks (keys.foldl (Go.preBlockName height now) s)
      (L.settleDue {n | n ∈ keys} height now) := by
  induction keys generalizing s L with
  | nil =>
    rw [L.settleDue_empty (by simp)]
    exact t
  | cons n keys ih =>
    obtain ⟨hfresh, hn⟩ := List.nodup_cons.mp hn
    obtain ⟨d, hd, hsound⟩ := hkeys n List.mem_cons_self
    have hset : {m | m ∈ n :: keys} = insert n {m | m ∈ keys} := by
      ext m
      simp
    have hstep := t.preBlockName height now hd hsound
    have hrest : ∀ m ∈ keys, ∃ e, L.names m = some e ∧ e.Sound mtp :=
      fun m hm => hkeys m (List.mem_cons_of_mem _ hm)
    have hother : ∀ m ∈ keys, m ≠ n := by
      rintro m hm rfl
      exact hfresh hm
    rw [List.foldl_cons, hset]
    by_cases hl : now ≥ d.leaseExpiry
    · rw [if_pos hl] at hstep
      rw [Ledger.settleDue_insert_lapse (n := n) hfresh hd hl]
      refine ih hstep hn fun m hm => ?_
      rw [Ledger.erase_names, Function.update_of_ne (hother m hm)]
      exact hrest m hm
    · rw [if_neg hl] at hstep
      rw [Ledger.settleDue_insert_keep (n := n) hfresh hd hl]
      refine ih hstep hn fun m hm => ?_
      rw [Ledger.put_names, Function.update_of_ne (hother m hm)]
      exact hrest m hm

theorem preBlock (t : Tracks s L) (hs : ∀ n d, L.names n = some d → d.Sound L.mtp)
    (height mtp : ℤ) : Tracks (preBlock s height mtp) (L.preblock height mtp) := by
  have hperm := List.perm_insertionSort (· ≤ ·) s.names.keys
  have hmem : ∀ n, n ∈ s.sortedNameKeys ↔ ∃ d, L.names n = some d := by
    intro n
    rw [show n ∈ s.sortedNameKeys ↔ n ∈ s.names.keys from hperm.mem_iff, Dict.mem_keys, t.get]
    cases L.names n <;> simp
  have hkeys : ∀ n ∈ s.sortedNameKeys, ∃ d, L.names n = some d ∧ d.Sound L.mtp := by
    intro n hn
    obtain ⟨d, hd⟩ := (hmem n).mp hn
    exact ⟨d, hd, hs n d hd⟩
  have hloop := t.foldl_preBlockName height mtp (hperm.nodup_iff.mpr s.names.keys_nodup) hkeys
  have huniv : L.settleDue {n | n ∈ s.sortedNameKeys} height mtp
      = L.settleDue Set.univ height mtp := by
    refine (Ledger.settleDue_univ (fun n hn => ?_) height mtp).symm
    cases hd : L.names n with
    | none => rfl
    | some d => exact absurd ((hmem n).mpr ⟨d, hd⟩) hn
  change Tracks _ (L.settleDue {n | n ∈ s.sortedNameKeys} height mtp) at hloop
  rw [huniv] at hloop
  refine ⟨hloop.names, ?_, hloop.muts, hloop.scratch⟩
  unfold Go.preBlock Ledger.preblock
  dsimp only
  rw [← show _ = L.commits from hloop.commits, Multiset.filter_coe, Multiset.coe_eq_coe,
    List.filter_map]
  rfl

theorem beginBlock (t : Tracks s L) (hs : ∀ n d, L.names n = some d → d.Sound L.mtp)
    (height mtp : ℤ) (rate : UInt64) :
    Tracks (Go.preBlock { s with curHeight := height, scratch := ∅ } height mtp)
      (L.beginBlock height mtp rate) := by
  have hreset : Tracks { s with curHeight := height, scratch := ∅ }
      { L with scratch := fun _ => none } := ⟨t.names, t.commits, t.muts, rfl⟩
  have hpre := hreset.preBlock hs height mtp
  exact ⟨hpre.names, hpre.commits, hpre.muts, hpre.scratch⟩

end Tracks

/-! ### Blocks -/

/-- The two readings of one block. -/
structure SameBlock (b : Fold.FoldBlock) (gb : FoldBlock) : Prop where
  height : gb.height = b.height
  mtp : gb.mtp = b.mtp
  rate : gb.rate = b.rate
  txs : List.Forall₂ SameTx b.txs gb.txs

/-- The number of `OP_RETURN` outputs of a block. -/
def carriersOf (b : Fold.FoldBlock) : ℕ := (b.txs.map fun tx => tx.carriers.length).sum

section Blocks

variable (sha256 : Bytes → Hash256) {s : FoldState} {L : Ledger} {active : UInt64} {k : ℕ}

theorem Tracks.foldl_applyTx {b : FoldBlock}
    (hgate : b.height < i64 active ↔ b.height < activationHeight) (hcap : ∀ {j : ℕ}, j ≤ k → 365 * j < 2 ^ 64)
    (hrate : 1 ≤ b.rate.toNat ∧ b.rate.toNat ≤ 100000000) {txs : List SmTx} {gtxs : List FoldTx}
    (htxs : List.Forall₂ SameTx txs gtxs) {j : ℕ}
    (hjk : j + (txs.map fun tx => tx.carriers.length).sum ≤ k) (t : Tracks s L)
    (hst : Steady active b j L) :
    Tracks (gtxs.foldl (Go.applyTx sha256 b) s) (txs.foldl (Ledger.applyTx sha256) L) ∧
      Steady active b (j + (txs.map fun tx => tx.carriers.length).sum)
        (txs.foldl (Ledger.applyTx sha256) L) := by
  induction htxs generalizing s L j with
  | nil => exact ⟨t, hst⟩
  | @cons tx gtx txs gtxs htx _ ih =>
    rw [List.map_cons, List.sum_cons] at hjk ⊢
    obtain ⟨ht, hsteady⟩ := t.applyTx sha256 hst htx hgate hcap hrate (by omega)
    rw [List.foldl_cons, List.foldl_cons, ← Nat.add_assoc]
    exact ih (by omega) ht hsteady

/-- A block of the port does to its state what the ledger does. -/
theorem Tracks.applyBlock (t : Tracks s L) (hs : ∀ n d, L.names n = some d → d.Sound L.mtp)
    {j : ℕ} (hw : L.Within j) {b : Fold.FoldBlock} {gb : FoldBlock} (hb : SameBlock b gb)
    (hstamps : ∀ who h, L.muts who = some h → h ≤ b.height) (hm : L.mtp ≤ b.mtp)
    (hrate : 1 ≤ b.rate.toNat ∧ b.rate.toNat ≤ 100000000)
    (hact : L.activationHeight = active) (hgate : b.height < i64 active ↔ b.height < activationHeight)
    (hcap : ∀ {j : ℕ}, j ≤ k → 365 * j < 2 ^ 64) (hjk : j + carriersOf b ≤ k) :
    Tracks (Go.applyBlock sha256 s gb) (L.foldBlock sha256 b) ∧
      Steady active gb (j + carriersOf b) (L.foldBlock sha256 b) := by
  have hstart : Steady active gb j (L.beginBlock b.height b.mtp b.rate) := {
    sound := Ledger.Sound.beginBlock hs hstamps hm
    within := hw.beginBlock b.height b.mtp b.rate
    height := hb.height.symm
    mtp := hb.mtp.symm
    rate := hb.rate.symm
    activation := hact }
  have ht := t.beginBlock hs b.height b.mtp b.rate
  rw [← hb.rate] at hrate
  rw [← hb.height] at hgate
  unfold Go.applyBlock
  dsimp only
  rw [hb.height, hb.mtp]
  exact Tracks.foldl_applyTx sha256 hgate hcap hrate hb.txs hjk ht hstart

/-- A run of the port does to its state what the ledger does. -/
theorem Tracks.applyBlocks {bs : List Fold.FoldBlock} {gbs : List FoldBlock}
    (hbs : List.Forall₂ SameBlock bs gbs) (hup : bs.Pairwise fun b b' => b.height < b'.height)
    (htime : bs.Pairwise fun b b' => b.mtp ≤ b'.mtp)
    (hrate : ∀ b ∈ bs, 1 ≤ b.rate.toNat ∧ b.rate.toNat ≤ 100000000)
    (hact : L.activationHeight = active)
    (hgate : ∀ b ∈ bs, b.height < i64 active ↔ b.height < activationHeight)
    (hcap : ∀ {j : ℕ}, j ≤ k → 365 * j < 2 ^ 64) {j : ℕ} (hjk : j + (bs.map carriersOf).sum ≤ k)
    (t : Tracks s L) (hs : ∀ n d, L.names n = some d → d.Sound L.mtp) (hw : L.Within j)
    (hstamps : ∀ b ∈ bs, ∀ who h, L.muts who = some h → h ≤ b.height)
    (hm : ∀ b ∈ bs, L.mtp ≤ b.mtp) :
    Tracks (gbs.foldl (Go.applyBlock sha256) s) (L.foldBlocks sha256 bs) := by
  induction hbs generalizing s L j with
  | nil => exact t
  | @cons b gb bs gbs hb _ ih =>
    rw [List.map_cons, List.sum_cons] at hjk
    obtain ⟨hfirst, hup⟩ := List.pairwise_cons.mp hup
    obtain ⟨hlater, htime⟩ := List.pairwise_cons.mp htime
    obtain ⟨ht, hst⟩ := t.applyBlock sha256 hs hw hb (hstamps b List.mem_cons_self)
      (hm b List.mem_cons_self) (hrate b List.mem_cons_self) hact
      (hgate b List.mem_cons_self) hcap (show j + carriersOf b ≤ k by omega)
    refine ih hup htime (fun b' hb' => hrate b' (List.mem_cons_of_mem _ hb'))
      hst.activation (fun b' hb' => hgate b' (List.mem_cons_of_mem _ hb'))
      (show j + carriersOf b + (bs.map carriersOf).sum ≤ k by omega) ht hst.sound.deeds hst.within
      (fun b' hb' who h hh => ?_) fun b' hb' => ?_
    · have hle := hst.sound.stamps who h hh
      rw [hst.height, hb.height] at hle
      exact hle.trans (hfirst b' hb').le
    · rw [hst.mtp, hb.mtp]
      exact hlater b' hb'

end Blocks

end Go

end NamespaceIndexer
