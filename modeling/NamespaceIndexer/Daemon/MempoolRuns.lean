import NamespaceIndexer.Daemon.Mempool

/-!
# The mempool over any sequence of calls

Every call keeps both tables and both counters in step, and a confirmed
transaction leaves nothing in the pool that it conflicts with.
-/

namespace NamespaceIndexer.Daemon

open Fold Lib

namespace Mempool

variable {sha256 : Bytes → Hash256} {p : Mempool}

theorem idxTxParse_txid {raw : Bytes} {tx : IdxTx} (h : idxTxParse sha256 raw = some tx) :
    tx.txid = idxSha256d sha256 raw := by
  unfold idxTxParse parseTx at h
  cases hc : curTx raw with
  | none =>
    simp only [hc] at h
    cases h
  | some v =>
    obtain ⟨⟨ins, outs⟩, r⟩ := v
    simp only [hc] at h
    cases r with
    | nil =>
      simp only [List.length_nil, Nat.sub_zero, List.take_length, Option.some.injEq] at h
      rw [← h]
    | cons b r => cases h

/-! ### Insertion -/

theorem foldl_push {e : MpEntry} (pos : List Bytes) {t : ChainTable mpBuckets MpPrev}
    (ht : t.Placed fun r => pvH r.prevout) :
    (pos.foldl (fun t po => t.push (fun r => pvH r.prevout) ⟨po, e⟩) t).Placed
        (fun r => pvH r.prevout) ∧
      (pos.foldl (fun t po => t.push (fun r => pvH r.prevout) ⟨po, e⟩) t).rows.Perm
        (pos.map (fun po => ⟨po, e⟩) ++ t.rows) := by
  induction pos generalizing t with
  | nil =>
    rw [List.foldl_nil, List.map_nil, List.nil_append]
    exact ⟨ht, List.Perm.refl _⟩
  | cons po pos ih =>
    obtain ⟨hplaced, hrows⟩ := ih (ht.push ⟨po, e⟩)
    refine ⟨hplaced, hrows.trans ?_⟩
    rw [List.map_cons, List.cons_append]
    exact ((ChainTable.rows_push_perm _).append_left _).trans List.perm_middle

/-- A transaction that conflicts with nothing goes in where there is room. -/
theorem Ok.insert (h : Ok sha256 p) {raw : Bytes} {tx : IdxTx} (now : ℤ)
    (hparse : idxTxParse sha256 raw = some tx) (hnodup : (tx.ins.map IdxIn.prevout).Nodup)
    (hnew : ∀ e ∈ p.entries, e.txid ≠ tx.txid) (hfree : ∀ i ∈ tx.ins, i.prevout ∉ p.spent)
    (hcount : p.gCount < mempoolMaxTxs) (hbytes : p.gBytes + raw.length ≤ mempoolMaxBytes) :
    Ok sha256 (p.insert tx raw now) := by
  obtain ⟨e, he⟩ : ∃ e : MpEntry, e = ⟨p.heap, tx.txid, raw, now, tx.ins.map IdxIn.prevout⟩ :=
    ⟨_, rfl⟩
  have hprev : e.prev = tx.ins.map IdxIn.prevout := by rw [he]
  have hraw : e.raw = raw := by rw [he]
  have hperm : (p.insert tx raw now).entries.Perm (e :: p.entries) := by
    rw [he]
    show (p.gTbucket.push (fun x => txH x.txid) _).rows.Perm _
    exact ChainTable.rows_push_perm _
  have hmem : ∀ x ∈ (p.insert tx raw now).entries, x = e ∨ x ∈ p.entries := fun x hx =>
    List.mem_cons.mp (hperm.mem_iff.mp hx)
  obtain ⟨hplaced, hrows⟩ := foldl_push (e := e) e.prev h.pplaced
  have hpb : (p.insert tx raw now).gPbucket
      = e.prev.foldl (fun t po => t.push (fun r => pvH r.prevout) ⟨po, e⟩) p.gPbucket := by
    rw [he]
    rfl
  have hlen := hperm.length_eq
  rw [List.length_cons] at hlen
  have hsum := (hperm.map fun e => (e.raw.length : ℤ)).sum_eq
  rw [List.map_cons, List.sum_cons, hraw] at hsum
  have hgc : (p.insert tx raw now).gCount = p.gCount + 1 := rfl
  have hgb : (p.insert tx raw now).gBytes = p.gBytes + raw.length := rfl
  have hc := h.count
  have hb := h.bytes
  exact
    { tplaced := h.tplaced.push _
      pplaced := by
        rw [hpb]
        exact hplaced
      entry := fun x hx => by
        rcases hmem x hx with rfl | hx
        · rw [he]
          exact ⟨idxTxParse_txid hparse, tx, hparse, rfl⟩
        · exact h.entry x hx
      ptrs := by
        rw [(hperm.map MpEntry.ptr).nodup_iff, List.map_cons, List.nodup_cons]
        refine ⟨fun hin => ?_, h.ptrs⟩
        obtain ⟨x, hx, hxe⟩ := List.mem_map.mp hin
        have hlt := h.heap x hx
        rw [hxe, he] at hlt
        exact lt_irrefl _ hlt
      heap := fun x hx => by
        have hheap : (p.insert tx raw now).heap = p.heap + 1 := rfl
        rcases hmem x hx with rfl | hx
        · rw [he]
          exact Nat.lt_succ_self _
        · have hlt := h.heap x hx
          omega
      txids := by
        rw [(hperm.map MpEntry.txid).nodup_iff, List.map_cons, List.nodup_cons]
        refine ⟨fun hin => ?_, h.txids⟩
        obtain ⟨x, hx, hxe⟩ := List.mem_map.mp hin
        rw [he] at hxe
        exact hnew x hx hxe
      outpoints := by
        unfold spent
        rw [(hperm.flatMap_right MpEntry.prev).nodup_iff, List.flatMap_cons, List.nodup_append]
        refine ⟨hprev ▸ hnodup, h.outpoints, fun a ha b hb hab => ?_⟩
        rw [hprev] at ha
        obtain ⟨i, hi, rfl⟩ := List.mem_map.mp ha
        exact hfree i hi (hab ▸ hb)
      index := by
        rw [hpb]
        refine hrows.trans ?_
        refine (h.index.append_left _).trans ?_
        exact (nodes_perm hperm).symm
      count := by omega
      bytes := by omega
      maxTxs := by omega
      maxBytes := by omega }

/-! ### Acceptance -/

theorem Ok.noteSeen (h : Ok sha256 p) (txid : Hash256) :
    Ok sha256 (p.noteSeen txid) ∧ (p.noteSeen txid).entries = p.entries := by
  unfold Mempool.noteSeen
  split
  · exact ⟨h, rfl⟩
  · exact ⟨⟨h.tplaced, h.pplaced, h.entry, h.ptrs, h.heap, h.txids, h.outpoints, h.index, h.count,
      h.bytes, h.maxTxs, h.maxBytes⟩, rfl⟩

theorem findEntry_none (h : Ok sha256 p) {txid : Hash256} (hf : p.findEntry txid = none) :
    ∀ e ∈ p.entries, e.txid ≠ txid := by
  have hslot : ∀ e : MpEntry, decide (e.txid = txid) = true → txH e.txid = txH txid := fun e he => by
    rw [of_decide_eq_true he]
  intro e he heq
  exact (h.tplaced.find?_eq_none hslot).mp hf e he (decide_eq_true heq)

theorem findEntry_some {txid : Hash256} {e : MpEntry} (hf : p.findEntry txid = some e) :
    e ∈ p.entries ∧ e.txid = txid := by
  obtain ⟨hm, he⟩ := ChainTable.mem_rows_of_find? hf
  exact ⟨hm, of_decide_eq_true he⟩

theorem prevoutOwner_none (h : Ok sha256 p) {po : Bytes} (hf : p.prevoutOwner po = none) :
    po ∉ p.spent := by
  have hslot : ∀ r : MpPrev, decide (r.prevout = po) = true → pvH r.prevout = pvH po := fun r hr => by
    rw [of_decide_eq_true hr]
  intro hin
  obtain ⟨e, he, hpo⟩ := mem_spent.mp hin
  have hrow : (⟨po, e⟩ : MpPrev) ∈ p.gPbucket.rows := h.index.mem_iff.mpr (mem_nodes.mpr ⟨he, hpo⟩)
  exact (h.pplaced.find?_eq_none hslot).mp (Option.map_eq_none_iff.mp hf) _ hrow
    (decide_eq_true rfl)

theorem prevoutOwner_some (h : Ok sha256 p) {po : Bytes} {e : MpEntry}
    (hf : p.prevoutOwner po = some e) : e ∈ p.entries ∧ po ∈ e.prev := by
  obtain ⟨r, hr, rfl⟩ := Option.map_eq_some_iff.mp hf
  obtain ⟨hm, hpo⟩ := ChainTable.mem_rows_of_find? hr
  have hnode := mem_nodes.mp (h.index.mem_iff.mp hm)
  rw [of_decide_eq_true hpo] at hnode
  exact hnode

theorem spent_subset {q : Mempool} (h : q.entries ⊆ p.entries) : q.spent ⊆ p.spent := by
  intro po hpo
  obtain ⟨e, he, hin⟩ := mem_spent.mp hpo
  exact mem_spent.mpr ⟨e, h he, hin⟩

theorem Ok.accept (h : Ok sha256 p) (raw : Bytes) (now : ℤ) :
    Ok sha256 (p.accept sha256 raw now).pool := by
  unfold Mempool.accept
  cases hcheck : txcheckStateless sha256 raw with
  | error reason =>
    cases hparse : idxTxParse sha256 raw with
    | none => exact h
    | some bad => exact (h.noteSeen bad.txid).1
  | ok checked =>
    obtain ⟨hparse, hsize, hnodup⟩ := txcheckStateless_ok hcheck
    obtain ⟨hseen, hsame⟩ := h.noteSeen checked.txid
    simp only [hparse]
    split
    · exact hseen
    split
    · exact hseen
    rename_i hfind howner
    have hnew := findEntry_none hseen (by simpa using hfind)
    have hfree : ∀ i ∈ checked.ins, i.prevout ∉ (p.noteSeen checked.txid).spent := fun i hi =>
      prevoutOwner_none hseen (by simpa using fun hx => howner (List.any_eq_true.mpr ⟨i, hi, hx⟩))
    have hfuel : (p.noteSeen checked.txid).gCount
        = ((p.noteSeen checked.txid).gCount.toNat : ℤ) := by
      have hcount := hseen.count
      omega
    obtain ⟨hroom, hsub, hend⟩ := hseen.makeRoom raw.length _ hfuel
    have hspace : ((p.noteSeen checked.txid).makeRoom raw.length
          (p.noteSeen checked.txid).gCount.toNat).gCount < mempoolMaxTxs ∧
        ((p.noteSeen checked.txid).makeRoom raw.length
          (p.noteSeen checked.txid).gCount.toNat).gBytes + raw.length ≤ mempoolMaxBytes := by
      rcases hend with hfull | hempty
      · unfold full at hfull
        simp only [Bool.or_eq_false_iff, decide_eq_false_iff_not, not_le, not_lt] at hfull
        exact hfull
      · -- an empty pool has room for every transaction that passed the size check
        have hcount := hroom.count
        have hbytes := hroom.bytes
        rw [hempty] at hcount
        have hnil := List.length_eq_zero_iff.mp (Int.natCast_eq_zero.mp hcount.symm)
        rw [hnil] at hbytes
        unfold txMaxSize at hsize
        unfold mempoolMaxTxs mempoolMaxBytes
        rw [hempty, hbytes]
        simp only [List.map_nil, List.sum_nil]
        omega
    exact hroom.insert now hparse hnodup (fun e he => hnew e (hsub he))
      (fun i hi hin => hfree i hi (spent_subset hsub hin)) hspace.1 hspace.2

/-! ### Confirmation -/

/-- No pooled transaction has this txid, and none spends an outpoint that `tx` spends. -/
structure Clear (p : Mempool) (txid : Hash256) (tx : Option IdxTx) : Prop where
  txid : ∀ e ∈ p.entries, e.txid ≠ txid
  outpoints : ∀ t, tx = some t → ∀ i ∈ t.ins, i.prevout ∉ p.spent

/-- The spender of an outpoint leaves. -/
theorem Ok.dropSpender (h : Ok sha256 p) (po : Bytes) :
    let q := p.removeFound (p.prevoutOwner po)
    Ok sha256 q ∧ q.entries ⊆ p.entries ∧ po ∉ q.spent := by
  cases hf : p.prevoutOwner po with
  | none => exact ⟨h, fun _ hx => hx, prevoutOwner_none h hf⟩
  | some e =>
    obtain ⟨he, hpo⟩ := prevoutOwner_some h hf
    refine ⟨h.removeEntry he, removeEntry_subset h he, fun hin => ?_⟩
    have houts := ((removeEntry_entries h he).flatMap_right MpEntry.prev).nodup_iff.mp h.outpoints
    rw [List.flatMap_cons, List.nodup_append] at houts
    exact houts.2.2 po hpo po hin rfl

theorem Ok.dropSpenders (ins : List IdxIn) (h : Ok sha256 p) :
    let q := ins.foldl (fun p i => p.removeFound (p.prevoutOwner i.prevout)) p
    Ok sha256 q ∧ q.entries ⊆ p.entries ∧ ∀ i ∈ ins, i.prevout ∉ q.spent := by
  induction ins generalizing p with
  | nil => exact ⟨h, fun _ hx => hx, fun _ hi => absurd hi List.not_mem_nil⟩
  | cons i ins ih =>
    obtain ⟨hok, hsub, hpo⟩ := h.dropSpender i.prevout
    obtain ⟨hok', hsub', hrest⟩ := ih hok
    refine ⟨hok', List.Subset.trans hsub' hsub, fun x hx => ?_⟩
    rcases List.mem_cons.mp hx with rfl | hx
    · exact fun hin => hpo (spent_subset hsub' hin)
    · exact hrest x hx

theorem Ok.onConfirmedTx (h : Ok sha256 p) (txid : Hash256) (tx : Option IdxTx) :
    Ok sha256 (p.onConfirmedTx txid tx) ∧ Clear (p.onConfirmedTx txid tx) txid tx := by
  unfold Mempool.onConfirmedTx
  split
  · rename_i hempty
    have hcount := h.count
    rw [hempty] at hcount
    have hnil := List.length_eq_zero_iff.mp (Int.natCast_eq_zero.mp hcount.symm)
    refine ⟨h, fun e he => ?_, fun t _ i _ hin => ?_⟩
    · rw [hnil] at he
      exact absurd he List.not_mem_nil
    · obtain ⟨e, he, -⟩ := mem_spent.mp hin
      rw [hnil] at he
      exact absurd he List.not_mem_nil
  · have hfirst : Ok sha256 (p.removeFound (p.findEntry txid)) ∧
        ∀ e ∈ (p.removeFound (p.findEntry txid)).entries, e.txid ≠ txid := by
      cases hf : p.findEntry txid with
      | none => exact ⟨h, findEntry_none h hf⟩
      | some e =>
        obtain ⟨he, heq⟩ := findEntry_some hf
        refine ⟨h.removeEntry he, fun x hx hxt => ?_⟩
        have htxids := ((removeEntry_entries h he).map MpEntry.txid).nodup_iff.mp h.txids
        rw [List.map_cons, List.nodup_cons] at htxids
        exact htxids.1 (heq.trans hxt.symm ▸ List.mem_map_of_mem hx)
    obtain ⟨hok, hgone⟩ := hfirst
    cases tx with
    | none => exact ⟨hok, hgone, fun t ht => by cases ht⟩
    | some t =>
      obtain ⟨hok', hsub, hclear⟩ := hok.dropSpenders t.ins
      refine ⟨hok', fun e he => hgone e (hsub he), fun t' ht => ?_⟩
      cases ht
      exact hclear

/-! ### The sweep -/

/-- A chain is walked as it stood, while its entries leave. -/
theorem Ok.sweepChain (cutoff : ℤ) (es : List MpEntry) (hes : es.Nodup) (h : Ok sha256 p)
    (hsub : ∀ e ∈ es, e ∈ p.entries) :
    Ok sha256 (es.foldl (fun p e => if e.added < cutoff then p.removeEntry e else p) p) := by
  induction es generalizing p with
  | nil => exact h
  | cons e es ih =>
    obtain ⟨hnot, hes'⟩ := List.nodup_cons.mp hes
    have he := hsub e (by simp)
    rw [List.foldl_cons]
    split
    · refine ih hes' (h.removeEntry he) fun x hx => ?_
      have hin := (removeEntry_entries h he).mem_iff.mp (hsub x (by simp [hx]))
      rcases List.mem_cons.mp hin with rfl | hin
      · exact absurd hx hnot
      · exact hin
    · exact ih hes' h fun x hx => hsub x (by simp [hx])

theorem Ok.sweep (h : Ok sha256 p) (now : ℤ) : Ok sha256 (p.sweep now) := by
  have hchains : ∀ (bs : List (Fin mpBuckets)) (q : Mempool), Ok sha256 q →
      Ok sha256 (bs.foldl (fun p b => (p.gTbucket b).foldl (fun p e =>
        if e.added < now - mempoolExpirySec then p.removeEntry e else p) p) q) := by
    intro bs
    induction bs with
    | nil => exact fun q hq => hq
    | cons b bs ih =>
      intro q hq
      have hnodup : q.entries.Nodup := List.Nodup.of_map _ hq.ptrs
      have hchain := ChainTable.chain_nodup hnodup b
      exact ih _ (hq.sweepChain _ _ hchain fun e he => ChainTable.mem_rows.mpr ⟨b, he⟩)
  unfold Mempool.sweep
  split
  · exact h
  · exact hchains _ p h

/-! ### Runs -/

theorem ok_empty : Ok sha256 {} where
  tplaced := ChainTable.placed_empty
  pplaced := ChainTable.placed_empty
  entry := fun e he => by
    rw [show ({} : Mempool).entries = [] from ChainTable.rows_empty] at he
    exact absurd he List.not_mem_nil
  ptrs := by
    rw [show ({} : Mempool).entries = [] from ChainTable.rows_empty]
    exact List.nodup_nil
  heap := fun e he => by
    rw [show ({} : Mempool).entries = [] from ChainTable.rows_empty] at he
    exact absurd he List.not_mem_nil
  txids := by
    rw [show ({} : Mempool).entries = [] from ChainTable.rows_empty]
    exact List.nodup_nil
  outpoints := by
    unfold spent
    rw [show ({} : Mempool).entries = [] from ChainTable.rows_empty]
    exact List.nodup_nil
  index := by
    rw [show ({} : Mempool).entries = [] from ChainTable.rows_empty,
      show ({} : Mempool).gPbucket.rows = [] from ChainTable.rows_empty]
    exact List.Perm.refl _
  count := by
    rw [show ({} : Mempool).entries = [] from ChainTable.rows_empty]
    rfl
  bytes := by
    rw [show ({} : Mempool).entries = [] from ChainTable.rows_empty]
    rfl
  maxTxs := by decide
  maxBytes := by decide

theorem Ok.op (h : Ok sha256 p) (o : MempoolOp) : Ok sha256 (p.op sha256 o) := by
  cases o with
  | accept raw now => exact h.accept raw now
  | onConfirmedTx txid tx => exact (h.onConfirmedTx txid tx).1
  | sweep now => exact h.sweep now
  | evictOldest => exact h.evictOldest.1
  | noteSeen txid => exact (h.noteSeen txid).1

end Mempool

/-- After any sequence of calls the pool is in step, and a confirmed transaction clears it of its
txid and of its outpoints. -/
theorem mempool_invariant (sha256 : Bytes → Hash256) (ops : List MempoolOp) :
    let p := ops.foldl (Mempool.op sha256) {}
    Mempool.Ok sha256 p ∧ ∀ txid tx, Mempool.Clear (p.onConfirmedTx txid tx) txid tx := by
  intro p
  have hok : Mempool.Ok sha256 p := by
    have hrun : ∀ (ops : List MempoolOp) (q : Mempool), Mempool.Ok sha256 q →
        Mempool.Ok sha256 (ops.foldl (Mempool.op sha256) q) := by
      intro ops
      induction ops with
      | nil => exact fun q hq => hq
      | cons o ops ih => exact fun q hq => ih _ (hq.op o)
    exact hrun ops {} Mempool.ok_empty
  exact ⟨hok, fun txid tx => (hok.onConfirmedTx txid tx).2⟩

end NamespaceIndexer.Daemon
