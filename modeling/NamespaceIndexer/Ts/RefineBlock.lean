import NamespaceIndexer.Fold.Registry
import NamespaceIndexer.Ledger.RefineBlock
import NamespaceIndexer.Ts.RefineMarket

/-!
# Blocks of the TypeScript port

The opcodes together, the carrier walk and the block boundary, where the port settles the rows type
by type: a block of the port keeps the ledger that the port shows.
-/

namespace NamespaceIndexer

open Fold Lib Daemon

theorem copyFrom_fixed {n : ℕ} (x : Fixed n) : copyFrom n x.val = x :=
  Subtype.ext ((copyFrom_val x.2.ge).trans (List.take_of_length_le x.2.le))

namespace Ledger

/-- Sales that are over can be closed before the leases are looked at. -/
theorem settleDue_closed {L : Ledger} {mtp : ℤ} (hs : ∀ n d, L.names n = some d → d.Sound mtp)
    (height now : ℤ) :
    (L.withNames fun n => (L.names n).map (Deed.close now)).settleDue Set.univ height now
      = L.settleDue Set.univ height now := by
  have hnames : ∀ n, (L.withNames fun n => (L.names n).map (Deed.close now)).names n
      = (L.names n).map (Deed.close now) := fun n => rfl
  have hlap : ∀ who, (L.withNames fun n => (L.names n).map (Deed.close now)).Lapses Set.univ now who ↔
      L.Lapses Set.univ now who := by
    intro who
    refine exists_congr fun n => and_congr_right fun _ => ?_
    rw [hnames]
    constructor
    · rintro ⟨e, he, hl, ho⟩
      obtain ⟨d, hd, rfl⟩ := Option.map_eq_some_iff.mp he
      rw [(hs n d hd).close_leaseExpiry] at hl
      rw [(hs n d hd).close_close] at ho
      exact ⟨d, hd, hl, ho⟩
    · rintro ⟨d, hd, hl, ho⟩
      refine ⟨d.close now, by rw [hd, Option.map_some], ?_, ?_⟩
      · rw [(hs n d hd).close_leaseExpiry]
        exact hl
      · rw [(hs n d hd).close_close]
        exact ho
  refine Ledger.ext rfl rfl rfl rfl ?_ rfl ?_ rfl
  · funext n
    rw [settleDue_mem (Set.mem_univ n), settleDue_mem (Set.mem_univ n), hnames]
    cases hd : L.names n with
    | none => rfl
    | some d =>
      rw [Option.map_some, Option.bind_some, Option.bind_some]
      unfold Deed.due
      rw [(hs n d hd).close_leaseExpiry, (hs n d hd).close_close]
  · funext who
    by_cases hwho : L.Lapses Set.univ now who
    · rw [settleDue_lapse hwho, settleDue_lapse ((hlap who).mpr hwho)]
      rfl
    · rw [settleDue_noLapse hwho, settleDue_noLapse fun hc => hwho ((hlap who).mp hc)]
      rfl

end Ledger

namespace Ts

namespace Tracks

/-! ### The block boundary -/

variable {s : FoldState} {L : Ledger}

/-- The reserve and offer transitions of a sound row. -/
theorem closeOffer_bareRow {d : Deed} {mtp : ℤ} (h : d.Sound mtp) (now : ℤ) :
    FoldState.closeOffer now (FoldState.revertReserve now (bareRow d)) = bareRow (d.close now) := by
  have hrevert : FoldState.revertReserve now (bareRow d) = bareRow (d.revert now) :=
    related_ite_of (R := fun r e => r = bareRow e) Iff.rfl (fun _ => rfl) fun _ => rfl
  rw [h.close_eq, hrevert]
  exact related_ite_of (R := fun r e => r = bareRow e) Iff.rfl (fun _ => rfl) fun _ => rfl

/-- The reserve loop and the offer loop close every sale that is over. -/
theorem closeSales (t : Tracks s L) {m : ℤ} (hs : ∀ n d, L.names n = some d → d.Sound m) (now : ℤ) :
    Tracks { s with names :=
        (s.names.modifyEach (FoldState.revertReserve now)).modifyEach (FoldState.closeOffer now) }
      (L.withNames fun n => (L.names n).map (Deed.close now)) := by
  refine t.setNames ?_ fun n => ?_
  · rw [Dict.get_modifyEach, Dict.get_modifyEach, t.names]
    funext n
    dsimp only
    cases hd : L.names n with
    | none => rfl
    | some d => exact congrArg some (closeOffer_bareRow (hs n d hd) now)
  · cases hd : L.names n with
    | none => rfl
    | some d => exact congrArg some ((hs n d hd).close_owner now)

/-- The loop over the leases, on rows whose sales are closed. -/
theorem foldl_lapse (t : Tracks s L) (now : ℤ)
    (hclosed : ∀ n d, L.names n = some d → d.close now = d) {keys : List Name} (hn : keys.Nodup)
    (hkeys : ∀ n ∈ keys, ∃ d, L.names n = some d) :
    Tracks (keys.foldl (FoldState.lapse now) s) (L.settleDue {n | n ∈ keys} L.height now) := by
  induction keys generalizing s L with
  | nil =>
    rw [L.settleDue_empty (by simp)]
    exact t
  | cons n keys ih =>
    obtain ⟨hfresh, hn⟩ := List.nodup_cons.mp hn
    obtain ⟨d, hd⟩ := hkeys n List.mem_cons_self
    have hset : {m | m ∈ n :: keys} = insert n {m | m ∈ keys} := by
      ext m
      simp
    have hother : ∀ m ∈ keys, m ≠ n := by
      rintro m hm rfl
      exact hfresh hm
    rw [List.foldl_cons, hset]
    unfold FoldState.lapse
    rw [t.get, hd]
    dsimp only [Option.map_some]
    by_cases hl : now ≥ d.leaseExpiry
    · rw [if_pos hl, Ledger.settleDue_insert_lapse (n := n) hfresh hd hl, hclosed n d hd]
      refine ih ((t.remove hd).bump d.owner) (fun m e he => ?_) hn fun m hm => ?_
      · rw [Ledger.erase_names, Ledger.bump_names, Function.update_apply] at he
        split at he
        · cases he
        · exact hclosed m e he
      · rw [Ledger.erase_names, Ledger.bump_names, Function.update_of_ne (hother m hm)]
        exact hkeys m (List.mem_cons_of_mem _ hm)
    · have hsame : L.put n (d.close now) = L := by
        rw [hclosed n d hd]
        unfold Ledger.put
        rw [← hd, Function.update_eq_self]
      rw [if_neg hl, Ledger.settleDue_insert_keep (n := n) hfresh hd hl, hsame]
      exact ih t hclosed hn fun m hm => hkeys m (List.mem_cons_of_mem _ hm)

theorem lapseAll (t : Tracks s L) (now : ℤ) (hclosed : ∀ n d, L.names n = some d → d.close now = d) :
    Tracks (s.names.keys.foldl (FoldState.lapse now) s) (L.settleDue Set.univ L.height now) := by
  have hmem : ∀ n, n ∈ s.names.keys ↔ ∃ d, L.names n = some d := by
    intro n
    rw [Dict.mem_keys, t.get]
    cases L.names n <;> simp
  rw [Ledger.settleDue_univ (S := {n | n ∈ s.names.keys}) (fun n hn => ?_) L.height now]
  · exact t.foldl_lapse now hclosed s.names.keys_nodup fun n hn => (hmem n).mp hn
  · cases hd : L.names n with
    | none => rfl
    | some d => exact absurd ((hmem n).mpr ⟨d, hd⟩) hn

theorem preBlock (t : Tracks s L) {m : ℤ} (hs : ∀ n d, L.names n = some d → d.Sound m) :
    Tracks s.preBlock (L.preblock L.height L.mtp) := by
  have hclosed : ∀ n e, (L.names n).map (Deed.close s.curMTP) = some e → e.close s.curMTP = e := by
    intro n e he
    obtain ⟨d, hd, rfl⟩ := Option.map_eq_some_iff.mp he
    exact (hs n d hd).close_close s.curMTP
  have hloop := (t.closeSales hs s.curMTP).lapseAll s.curMTP hclosed
  change Tracks _ ((L.withNames fun n => (L.names n).map (Deed.close s.curMTP)).settleDue Set.univ
    L.height s.curMTP) at hloop
  rw [Ledger.settleDue_closed hs] at hloop
  rw [← t.mtp]
  exact { hloop with
    commits := by
      have hcommits := congrArg
        (Multiset.filter fun c : SmCommit => ¬ s.curMTP > c.commitTime + commitExpiry) hloop.commits
      rw [Multiset.filter_coe, List.filter_map] at hcommits
      exact hcommits }

theorem beginBlock (t : Tracks s L) (hs : ∀ n d, L.names n = some d → d.Sound L.mtp) {height : ℤ}
    (hstamps : ∀ who h, L.muts who = some h → h ≤ height) (mtp : ℤ) (rate : UInt64) :
    Tracks (s.beginBlock height mtp rate.toNat) (L.beginBlock height mtp rate) := by
  have hreset : Tracks
      { s with curHeight := height, curMTP := mtp, curRate := rate.toNat, claimScratch := ∅ }
      { L with height, mtp, rate, scratch := fun _ => none } := { t with
    scratch := rfl
    height := rfl
    mtp := rfl
    rate := rfl
    stamps := hstamps }
  exact hreset.preBlock hs

/-! ### Opcodes -/

section Opcodes

variable {actor : Actor} {o : FoldCarrier} {cx : SmTxCtx} {a : SmAction} {tx : SmTx} {gtx : FoldTx}
  {consumed : List ℕ}

theorem commit (t : Tracks s L) {commitment : Hash256} (ha : a.commitment = commitment) :
    Tracks { s with commits := s.commits ++ [⟨commitment, s.curHeight, tx.txindex, s.curMTP⟩] }
      (L.commit tx a) := { t with
  commits := by
    unfold Ledger.commit
    rw [← t.commits, List.map_append, Multiset.cons_coe, Multiset.coe_eq_coe, t.height, t.mtp, ha]
    exact List.perm_append_singleton _ _ }

/-- Every opcode of the acting identity keeps the ledger that the port shows. -/
theorem dispatch (t : Tracks s L) (sha256 : Bytes → Hash256)
    (hs : ∀ n d, L.names n = some d → d.Sound L.mtp) (hrate : L.rate ≠ 0) (h : Acts L actor o cx)
    (houts : gtx.outputs = tx.outs.map ofOut) (hasc : tx.outs.Pairwise fun o o' => o.vout ≤ o'.vout)
    (hc : Consumes tx consumed cx.outConsumed) (hwell : WellFormed a) {op : SmOp}
    (hop : SmOp.ofByte? a.op = some op) {act : Ts.Action} (hact : tsAction a = some act) :
    Paid tx (s.dispatch gtx sha256 act actor o tx.txindex consumed) (L.dispatch sha256 tx cx a op) := by
  unfold WellFormed at hwell
  unfold tsAction at hact
  rw [hop] at hwell hact
  cases op with
  | COMMIT =>
    obtain rfl := Option.some.inj hact
    exact ⟨t.commit (copyFrom_fixed _).symm, hc⟩
  | CLAIM =>
    obtain rfl := Option.some.inj hact
    exact ⟨t.doClaim hs sha256 hrate h hwell.1, hc⟩
  | RENEW =>
    obtain rfl := Option.some.inj hact
    exact ⟨t.doRenew hs hrate h hwell.1 fun hnone => (hwell.2.2.1 hnone).2, hc⟩
  | TRANSFER =>
    obtain rfl := Option.some.inj hact
    have hmove := t.doTransfer hs h hwell.1
    rw [← copyFrom_fixed a.addr] at hmove
    exact ⟨hmove, hc⟩
  | RELEASE =>
    obtain rfl := Option.some.inj hact
    have hkind : a.hasAnchor = true := congrArg SmAction.hasAnchor hwell.2.2.2
    exact ⟨t.doRelease hs h hwell.1 hkind, hc⟩
  | RENEW_NAME =>
    obtain rfl := Option.some.inj hact
    simp only [FoldState.dispatch, FoldState.dispatchByName, hop]
    exact ⟨t.doRenewName hs hrate h hwell.1, hc⟩
  | TRANSFER_NAME =>
    obtain rfl := Option.some.inj hact
    have hmove := t.doTransferName hs h hwell.1
    rw [← copyFrom_fixed a.addr] at hmove
    exact ⟨hmove, hc⟩
  | RELEASE_NAME =>
    obtain rfl := Option.some.inj hact
    simp only [FoldState.dispatch, FoldState.dispatchByName, hop]
    exact ⟨t.doReleaseName hs h hwell.1, hc⟩
  | SELL =>
    obtain rfl := Option.some.inj hact
    exact ⟨t.doSell hs h hwell.1, hc⟩
  | RESERVE =>
    obtain rfl := Option.some.inj hact
    simp only [FoldState.dispatch, FoldState.dispatchByName, hop]
    exact t.doReserve houts hasc hc hs h hwell.1
  | SETTLE =>
    obtain rfl := Option.some.inj hact
    simp only [FoldState.dispatch, FoldState.dispatchByName, hop]
    exact t.doSettle houts hasc hc hs h hwell.1
  | SELL_TO =>
    obtain rfl := Option.some.inj hact
    have hsell := t.doSellTo hs h hwell.1
    rw [← copyFrom_fixed a.addr] at hsell
    exact ⟨hsell, hc⟩
  | PAY =>
    obtain rfl := Option.some.inj hact
    simp only [FoldState.dispatch, FoldState.dispatchByName, hop]
    exact t.doPay houts hasc hc h hwell.1
  | AS =>
    obtain rfl := Option.some.inj hact
    exact ⟨t, hc⟩
  | TRADE =>
    obtain rfl := Option.some.inj hact
    exact ⟨t, hc⟩

end Opcodes

end Tracks

/-! ### The carrier walk -/

/-- The two readings of one `OP_RETURN` output. -/
def Reads (car : SmCarrier) (o : FoldCarrier) : Prop :=
  o.value = car.value.toNat ∧
    ((car.kind ≠ .ACTION ∧ Ts.decodePayload o.payload = none) ∨
      (car.kind = .ACTION ∧ WellFormed car.act ∧ Ts.decodePayload o.payload = tsAction car.act))

/-- The two readings of one transaction, its outputs in ascending order. -/
structure SameTx (tx : SmTx) (gtx : FoldTx) : Prop where
  inputs : tx.inputs = gtx.inputs.map FoldInput.toSm
  outputs : gtx.outputs = tx.outs.map ofOut
  carriers : List.Forall₂ Reads tx.carriers gtx.carriers
  ascending : tx.outs.Pairwise fun o o' => o.vout ≤ o'.vout

/-- The ledger and the context within a block. -/
structure Steady (Lc : Ledger × SmTxCtx) : Prop where
  sound : Lc.1.Sound
  charged : Lc.1.rate ≠ 0
  aligned : Ledger.Aligned Lc
  rate : Lc.2.rate = Lc.1.rate

/-- The walk of the port over the carriers beside the walk over the ledger. -/
structure Walks (tx : SmTx) (Lc : Ledger × SmTxCtx) (w : Walk) : Prop where
  tracks : Tracks w.s Lc.1
  valid : Lc.2.actorValid = w.actor.isSome
  actor : ∀ actor, w.actor = some actor → Lc.2.actor = actor.id ∧ Lc.2.actorType = actor.type
  consumed : Consumes tx w.consumed Lc.2.outConsumed

section Walk

variable (sha256 : Bytes → Hash256) {tx : SmTx} {gtx : FoldTx} {Lc : Ledger × SmTxCtx} {w : Walk}
  {car : SmCarrier} {o : FoldCarrier}

theorem Steady.applyCarrier (h : Steady Lc) (car : SmCarrier) :
    Steady (Ledger.applyCarrier sha256 tx Lc car) := by
  have hrate : (Ledger.applyCarrier sha256 tx Lc car).1.rate = Lc.1.rate :=
    Ledger.applyCarrier_induct sha256 tx (P := fun M => M.rate = Lc.1.rate)
      (fun _ _ hact hs => hact.clock.2.2.1.trans hs) h.aligned rfl car
  obtain ⟨-, -, hctx⟩ := Ledger.applyCarrier_ctx sha256 tx Lc.1 Lc.2 car
  exact {
    sound := Ledger.applyCarrier_induct sha256 tx (P := Ledger.Sound)
      (fun hh hm hact hs => hact.sound hh hm hs) h.aligned h.sound car
    charged := by
      rw [hrate]
      exact h.charged
    aligned := h.aligned.applyCarrier sha256 tx car
    rate := hctx.trans (h.rate.trans hrate.symm) }

/-- The signer of an input, as the port resolves it. -/
theorem resolve_signer (hin : tx.inputs = gtx.inputs.map FoldInput.toSm) (k : ℕ) :
    resolve gtx.inputs[k]? = (signer tx k).map fun i => ⟨i.h160, i.type⟩ := by
  rw [Tracks.resolve_eq]
  unfold signer
  rw [hin, List.getElem?_map]
  cases gtx.inputs[k]? with
  | none => rfl
  | some i =>
    dsimp only [Option.map_some, Option.bind_some]
    split <;> rfl

/-- An opcode of the acting identity, where there is one. -/
theorem Walks.act {L : Ledger} {cx : SmTxCtx} (h : Walks tx (L, cx) w) (hst : Steady (L, cx))
    (htx : SameTx tx gtx) {a : SmAction} (hvalue : o.value = cx.carValue.toNat) (hwell : WellFormed a)
    {op : SmOp} (hop : SmOp.ofByte? a.op = some op) {act : Ts.Action} (hact : tsAction a = some act) :
    Walks tx (if !cx.actorValid then (L, cx) else L.dispatch sha256 tx cx a op)
      (match w.actor with
        | none => w
        | some actor =>
          let (s, consumed) := w.s.dispatch gtx sha256 act actor o tx.txindex w.consumed
          { w with s, consumed }) := by
  have hvalid : cx.actorValid = w.actor.isSome := h.valid
  rw [hvalid]
  cases hw : w.actor with
  | none => exact h
  | some actor =>
    obtain ⟨hwho, htype⟩ := h.actor actor hw
    have hacts : Acts L actor o cx := ⟨hst.aligned.1, hst.aligned.2, hst.rate, hwho, htype, hvalue⟩
    obtain ⟨ht, hconsumed⟩ := h.tracks.dispatch sha256 hst.sound.deeds hst.charged hacts htx.outputs
      htx.ascending h.consumed hwell hop hact
    obtain ⟨out, hout⟩ := L.dispatch_ctx sha256 tx cx a op
    rw [if_neg (by simp)]
    exact {
      tracks := ht
      valid := by
        rw [hout]
        exact hvalid.trans (congrArg Option.isSome hw)
      actor := by
        rw [hout]
        exact fun who hwho => h.actor who (hw.trans hwho)
      consumed := hconsumed }

/-- AS moves both walks to the same identity. -/
theorem Walks.takeInput {L : Ledger} {cx : SmTxCtx} (h : Walks tx (L, cx) w) (htx : SameTx tx gtx)
    (k : ℕ) :
    Walks tx
      (match signer tx k with
        | some i => (L, { cx with actor := i.h160, actorType := i.type, actorValid := true })
        | none => (L, { cx with actorValid := false }))
      { w with actor := resolve gtx.inputs[k]? } := by
  rw [resolve_signer htx.inputs]
  cases signer tx k with
  | none => exact { h with valid := rfl, actor := fun _ hnone => by cases hnone }
  | some i =>
    exact { h with
      valid := rfl
      actor := fun actor hsome => by
        obtain rfl := Option.some.inj hsome
        exact ⟨rfl, rfl⟩ }

/-- One carrier of the port does to its state what the ledger does. -/
theorem Walks.applyCarrier (h : Walks tx Lc w) (hst : Steady Lc) (htx : SameTx tx gtx)
    (hread : Reads car o) :
    Walks tx (Ledger.applyCarrier sha256 tx Lc car) (Ts.applyCarrier sha256 gtx tx.txindex w o) := by
  obtain ⟨L, cx⟩ := Lc
  obtain ⟨hvalue, hread⟩ := hread
  have hskip : Walks tx (L, { cx with carValue := car.value, carVout := car.vout }) w := { h with }
  have hsteady : Steady (L, { cx with carValue := car.value, carVout := car.vout }) := { hst with }
  have hgate : L.height < i64 L.activationHeight ↔ w.s.curHeight < w.s.activationHeight := by
    rw [h.tracks.height, h.tracks.activation]
  unfold Ledger.applyCarrier Ts.applyCarrier
  dsimp only
  rcases hread with ⟨hkind, hdec⟩ | ⟨hkind, hwell, hdec⟩
  · rw [hdec, if_pos hkind]
    exact hskip
  cases hop : SmOp.ofByte? car.act.op with
  | none =>
    unfold WellFormed at hwell
    rw [hop] at hwell
    exact hwell.elim
  | some op =>
    rw [hdec, if_neg (not_not.mpr hkind)]
    cases op with
    | AS =>
      have hact : tsAction car.act = some (.AS car.act.asIndex) := by
        unfold tsAction
        rw [hop]
      rw [hact]
      exact related_ite_of hgate (fun _ => hskip) fun _ => hskip.takeInput htx _
    | TRADE =>
      have hact : tsAction car.act
          = some (.TRADE car.act.idxA car.act.idxB car.act.name car.act.nameB) := by
        unfold tsAction
        rw [hop]
      unfold WellFormed at hwell
      rw [hop] at hwell
      rw [hact]
      refine related_ite_of hgate (fun _ => hskip) fun _ => ?_
      exact { hskip with
        tracks := hskip.tracks.doTrade htx.inputs hst.aligned.1 hwell.1 hwell.2.1 }
    | _ =>
      obtain ⟨act, hact⟩ : ∃ act, tsAction car.act = some act := by
        unfold tsAction
        rw [hop]
        exact ⟨_, rfl⟩
      have hwalk := hskip.act sha256 hsteady htx hvalue hwell hop hact
      rw [hact]
      unfold tsAction at hact
      rw [hop] at hact
      obtain rfl := Option.some.inj hact
      exact related_ite_of hgate (fun _ => hskip) fun _ => hwalk

/-- Both walks over all carriers of a transaction. -/
theorem Walks.foldl_applyCarrier (htx : SameTx tx gtx) {cars : List SmCarrier} {os : List FoldCarrier}
    (hreads : List.Forall₂ Reads cars os) (h : Walks tx Lc w) (hst : Steady Lc) :
    Walks tx (cars.foldl (Ledger.applyCarrier sha256 tx) Lc)
        (os.foldl (Ts.applyCarrier sha256 gtx tx.txindex) w) ∧
      Steady (cars.foldl (Ledger.applyCarrier sha256 tx) Lc) := by
  induction hreads generalizing Lc w with
  | nil => exact ⟨h, hst⟩
  | @cons car o cars os hread _ ih =>
    exact ih (h.applyCarrier sha256 hst htx hread) (hst.applyCarrier sha256 car)

theorem Walks.start {s : FoldState} {L : Ledger} (t : Tracks s L) (htx : SameTx tx gtx) :
    Walks tx (L, L.initCtx tx) ⟨s, resolve gtx.inputs[0]?, []⟩ := by
  rw [resolve_signer htx.inputs]
  unfold Ledger.initCtx
  cases signer tx 0 with
  | none => exact ⟨t, rfl, fun _ hnone => (by cases hnone), Consumes.start tx⟩
  | some i =>
    refine ⟨t, rfl, fun actor hsome => ?_, Consumes.start tx⟩
    obtain rfl := Option.some.inj hsome
    exact ⟨rfl, rfl⟩

theorem Steady.start {L : Ledger} (hs : L.Sound) (hrate : L.rate ≠ 0) (tx : SmTx) :
    Steady (L, L.initCtx tx) where
  sound := hs
  charged := hrate
  aligned := L.initCtx_clock tx
  rate := by
    unfold Ledger.initCtx
    cases signer tx 0 <;> rfl


/-- A transaction of the port keeps the ledger that the port shows. -/
theorem Tracks.applyTx {s : FoldState} {L : Ledger} (t : Tracks s L) (hs : L.Sound) (hrate : L.rate ≠ 0)
    (htx : SameTx tx gtx) :
    Tracks (Ts.applyTx sha256 s gtx tx.txindex) (L.applyTx sha256 tx) ∧ (L.applyTx sha256 tx).Sound ∧
      (L.applyTx sha256 tx).rate ≠ 0 := by
  obtain ⟨hwalk, hst⟩ := Walks.foldl_applyCarrier sha256 htx htx.carriers (Walks.start t htx)
    (Steady.start hs hrate tx)
  exact ⟨hwalk.tracks, hst.sound, hst.charged⟩

/-- Between two carriers of a transaction the reverse index stands. -/
theorem Walks.scanl_indexed (htx : SameTx tx gtx) {cars : List SmCarrier} {os : List FoldCarrier}
    (hreads : List.Forall₂ Reads cars os) (h : Walks tx Lc w) (hst : Steady Lc) :
    ∀ v ∈ os.scanl (Ts.applyCarrier sha256 gtx tx.txindex) w, v.s.Indexed := by
  induction hreads generalizing Lc w with
  | nil =>
    intro v hv
    rw [List.scanl_nil, List.mem_singleton] at hv
    rw [hv]
    exact h.tracks.index
  | @cons car o cars os hread _ ih =>
    intro v hv
    rw [List.scanl_cons, List.mem_cons] at hv
    rcases hv with rfl | hv
    · exact h.tracks.index
    · exact ih (h.applyCarrier sha256 hst htx hread) (hst.applyCarrier sha256 car) v hv

end Walk

end Ts

end NamespaceIndexer
