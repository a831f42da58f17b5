import NamespaceIndexer.Daemon.TxCheck
import NamespaceIndexer.Lib.ChainTable
import NamespaceIndexer.Lib.Run

/-!
# The relay mempool (`mempool.c`)

Two chained hash tables share the entries: one by txid, one by prevout. An
entry is identified by its address, which is never given out twice. Allocations
succeed, and the clock is an input.
-/

namespace NamespaceIndexer.Daemon

open Fold Lib

def mempoolMaxTxs : ℤ := 5000
def mempoolMaxBytes : ℤ := 64 * 1024 * 1024
def mempoolExpirySec : ℤ := 72 * 3600
def mpBuckets : ℕ := 8192
def mpSeenRing : ℕ := 4096

instance neZeroMpBuckets : NeZero mpBuckets := ⟨by decide⟩

structure MpEntry where
  ptr : ℕ
  txid : Hash256
  raw : Bytes
  added : ℤ
  prev : List Bytes

/-- A node of the prevout table, with the entry it points to. -/
structure MpPrev where
  prevout : Bytes
  e : MpEntry

/-- The static state. The first `g_seen_n` slots of the ring are a list. -/
structure Mempool where
  gTbucket : ChainTable mpBuckets MpEntry := ChainTable.empty
  gPbucket : ChainTable mpBuckets MpPrev := ChainTable.empty
  gCount : ℤ := 0
  gBytes : ℤ := 0
  gSeen : List Hash256 := []
  gSeenHead : ℕ := 0
  heap : ℕ := 0

/-- `tx_h`. -/
def txH (txid : Hash256) : Fin mpBuckets := Fin.ofNat mpBuckets (leVal (txid.val.take 2))

/-- `pv_h`: FNV-1a. -/
def pvH (prevout : Bytes) : Fin mpBuckets :=
  Fin.ofNat mpBuckets (prevout.foldl
    (fun (h : UInt32) b => (h ^^^ UInt32.ofNat b.val) * 16777619) 2166136261).toNat

namespace Mempool

/-- `find_entry`. -/
def findEntry (p : Mempool) (txid : Hash256) : Option MpEntry :=
  (p.gTbucket (txH txid)).find? fun e => e.txid = txid

/-- `prevout_owner`. -/
def prevoutOwner (p : Mempool) (prevout : Bytes) : Option MpEntry :=
  ((p.gPbucket (pvH prevout)).find? fun r => r.prevout = prevout).map MpPrev.e

/-- The node of one outpoint of an entry is unlinked. -/
def unlinkPrev (e : MpEntry) (t : ChainTable mpBuckets MpPrev) (prevout : Bytes) :
    ChainTable mpBuckets MpPrev :=
  t.unlink (pvH prevout) fun r => r.e.ptr = e.ptr ∧ r.prevout = prevout

/-- `remove_entry`. -/
def removeEntry (p : Mempool) (e : MpEntry) : Mempool :=
  { p with
    gTbucket := p.gTbucket.unlink (txH e.txid) fun x => x.ptr = e.ptr
    gPbucket := e.prev.foldl (unlinkPrev e) p.gPbucket
    gCount := p.gCount - 1
    gBytes := p.gBytes - e.raw.length }

/-- `if (e) remove_entry(e)`. -/
def removeFound (p : Mempool) : Option MpEntry → Mempool
  | some e => p.removeEntry e
  | none => p

/-- The first entry in table order that no other is older than. -/
def oldest (p : Mempool) : Option MpEntry :=
  p.gTbucket.rows.foldl (fun old e =>
    match old with
    | none => some e
    | some o => if e.added < o.added then some e else some o) none

/-- `evict_oldest`. -/
def evictOldest (p : Mempool) : Mempool := p.removeFound p.oldest

/-- `note_seen_locked`. -/
def noteSeen (p : Mempool) (txid : Hash256) : Mempool :=
  if txid ∈ p.gSeen then p
  else
    { p with
      gSeen := if p.gSeenHead < p.gSeen.length then p.gSeen.set p.gSeenHead txid
        else p.gSeen ++ [txid]
      gSeenHead := (p.gSeenHead + 1) % mpSeenRing }

/-- Is there no room for `len` more bytes? -/
def full (p : Mempool) (len : ℕ) : Bool :=
  mempoolMaxTxs ≤ p.gCount || mempoolMaxBytes < p.gBytes + len

/-- The eviction loop of `mempool_accept`; every round takes one entry off the count. -/
def makeRoom (len : ℕ) : ℕ → Mempool → Mempool
  | 0, p => p
  | fuel + 1, p =>
    if p.full len then
      if p.gCount = 0 then p else makeRoom len fuel p.evictOldest
    else p

/-- A new entry in front of its chains. -/
def insert (p : Mempool) (tx : IdxTx) (raw : Bytes) (now : ℤ) : Mempool :=
  let e : MpEntry := ⟨p.heap, tx.txid, raw, now, tx.ins.map IdxIn.prevout⟩
  { p with
    gTbucket := p.gTbucket.push (fun x => txH x.txid) e
    gPbucket := e.prev.foldl (fun t po => t.push (fun r => pvH r.prevout) ⟨po, e⟩) p.gPbucket
    gCount := p.gCount + 1
    gBytes := p.gBytes + raw.length
    heap := p.heap + 1 }

end Mempool

/-- What `mempool_accept` returns: the pool, the result, `txid_out` and the reason. -/
structure AcceptOut where
  pool : Mempool
  ok : Bool
  txid : Hash256
  reason : String

variable (sha256 : Bytes → Hash256)

namespace Mempool

/-- `mempool_accept`. -/
def accept (p : Mempool) (raw : Bytes) (now : ℤ) : AcceptOut :=
  match txcheckStateless sha256 raw with
  | .error reason =>
    match idxTxParse sha256 raw with
    | some bad => ⟨p.noteSeen bad.txid, false, zeros 32, reason⟩
    | none => ⟨p, false, zeros 32, reason⟩
  | .ok _ =>
    match idxTxParse sha256 raw with
    | none => ⟨p, false, zeros 32, "malformed tx"⟩
    | some tx =>
      let p := p.noteSeen tx.txid
      if (p.findEntry tx.txid).isSome then ⟨p, false, tx.txid, "already in pool"⟩
      else if tx.ins.any fun i => (p.prevoutOwner i.prevout).isSome then
        ⟨p, false, tx.txid, "conflicting input (double-spend)"⟩
      else
        let p := p.makeRoom raw.length p.gCount.toNat
        ⟨p.insert tx raw now, true, tx.txid, ""⟩

/-- `mempool_on_confirmed_tx`. -/
def onConfirmedTx (p : Mempool) (txid : Hash256) (tx : Option IdxTx) : Mempool :=
  if p.gCount = 0 then p
  else
    let p := p.removeFound (p.findEntry txid)
    match tx with
    | none => p
    | some tx => tx.ins.foldl (fun p i => p.removeFound (p.prevoutOwner i.prevout)) p

/-- `mempool_sweep`: chain after chain, each walked as it stood when it was reached. -/
def sweep (p : Mempool) (now : ℤ) : Mempool :=
  if p.gCount = 0 then p
  else
    (List.finRange mpBuckets).foldl (fun p b =>
      (p.gTbucket b).foldl (fun p e =>
        if e.added < now - mempoolExpirySec then p.removeEntry e else p) p) p

end Mempool

/-- The calls that change the pool. -/
inductive MempoolOp where
  | accept (raw : Bytes) (now : ℤ)
  | onConfirmedTx (txid : Hash256) (tx : Option IdxTx)
  | sweep (now : ℤ)
  | evictOldest
  | noteSeen (txid : Hash256)

def Mempool.op (p : Mempool) : MempoolOp → Mempool
  | .accept raw now => (p.accept sha256 raw now).pool
  | .onConfirmedTx txid tx => p.onConfirmedTx txid tx
  | .sweep now => p.sweep now
  | .evictOldest => p.evictOldest
  | .noteSeen txid => p.noteSeen txid

/-! ### The invariant -/

namespace Mempool

/-- The pooled entries, in table order. -/
def entries (p : Mempool) : List MpEntry := p.gTbucket.rows

/-- The outpoints that pooled transactions spend. -/
def spent (p : Mempool) : List Bytes := p.entries.flatMap MpEntry.prev

/-- The nodes that the prevout table should have. -/
def nodes (es : List MpEntry) : List MpPrev := es.flatMap fun e => e.prev.map fun po => ⟨po, e⟩

variable (p : Mempool)

/-- The entry is filed under the hash of its bytes, with the outpoints these spend. -/
structure EntryOk (e : MpEntry) : Prop where
  txid : e.txid = idxSha256d sha256 e.raw
  spends : ∃ tx, idxTxParse sha256 e.raw = some tx ∧ e.prev = tx.ins.map IdxIn.prevout

/-- Both tables and both counters are in step. -/
structure Ok : Prop where
  tplaced : p.gTbucket.Placed fun e => txH e.txid
  pplaced : p.gPbucket.Placed fun r => pvH r.prevout
  entry : ∀ e ∈ p.entries, EntryOk sha256 e
  ptrs : (p.entries.map MpEntry.ptr).Nodup
  heap : ∀ e ∈ p.entries, e.ptr < p.heap
  txids : (p.entries.map MpEntry.txid).Nodup
  outpoints : p.spent.Nodup
  index : p.gPbucket.rows.Perm (nodes p.entries)
  count : p.gCount = p.entries.length
  bytes : p.gBytes = (p.entries.map fun e => (e.raw.length : ℤ)).sum
  maxTxs : p.gCount ≤ mempoolMaxTxs
  maxBytes : p.gBytes ≤ mempoolMaxBytes

variable {sha256} {p : Mempool}

/-! ### Removal -/

theorem nodes_perm {es es' : List MpEntry} (h : es.Perm es') : (nodes es).Perm (nodes es') :=
  h.flatMap_right _

theorem mem_nodes {es : List MpEntry} {r : MpPrev} :
    r ∈ nodes es ↔ r.e ∈ es ∧ r.prevout ∈ r.e.prev := by
  unfold nodes
  rw [List.mem_flatMap]
  constructor
  · rintro ⟨e, he, hr⟩
    obtain ⟨po, hpo, rfl⟩ := List.mem_map.mp hr
    exact ⟨he, hpo⟩
  · rintro ⟨he, hr⟩
    exact ⟨r.e, he, List.mem_map.mpr ⟨r.prevout, hr, rfl⟩⟩

theorem mem_spent {po : Bytes} : po ∈ p.spent ↔ ∃ e ∈ p.entries, po ∈ e.prev := List.mem_flatMap

theorem Ok.eq_of_ptr (h : Ok sha256 p) {e e' : MpEntry} (he : e ∈ p.entries) (he' : e' ∈ p.entries)
    (hptr : e.ptr = e'.ptr) : e = e' := List.inj_on_of_nodup_map h.ptrs he he' hptr

theorem removeEntry_entries (h : Ok sha256 p) {e : MpEntry} (he : e ∈ p.entries) :
    p.entries.Perm (e :: (p.removeEntry e).entries) := by
  have hchain : e ∈ p.gTbucket (txH e.txid) := h.tplaced.mem_rows.mp he
  refine ChainTable.rows_unlink_perm hchain (by simp) fun x hx hp => ?_
  exact h.eq_of_ptr (ChainTable.mem_rows.mpr ⟨_, hx⟩) he (by simpa using hp)

theorem removeEntry_subset (h : Ok sha256 p) {e : MpEntry} (he : e ∈ p.entries) :
    (p.removeEntry e).entries ⊆ p.entries := fun _ hx =>
  (removeEntry_entries h he).mem_iff.mpr (List.mem_cons_of_mem _ hx)

/-- Unlinking the nodes of an entry leaves those of the others. -/
theorem foldl_unlinkPrev {e : MpEntry} {others : List MpPrev}
    (hothers : ∀ r ∈ others, r.e.ptr ≠ e.ptr) (pos : List Bytes) {t : ChainTable mpBuckets MpPrev}
    (ht : t.Placed fun r => pvH r.prevout)
    (hrows : t.rows.Perm (pos.map (fun po => ⟨po, e⟩) ++ others)) :
    (pos.foldl (unlinkPrev e) t).Placed (fun r => pvH r.prevout) ∧
      (pos.foldl (unlinkPrev e) t).rows.Perm others := by
  induction pos generalizing t with
  | nil => exact ⟨ht, hrows⟩
  | cons po pos ih =>
    have hmem : (⟨po, e⟩ : MpPrev) ∈ t.rows := hrows.mem_iff.mpr (by simp)
    have hchain : (⟨po, e⟩ : MpPrev) ∈ t (pvH po) := ht.mem_rows.mp hmem
    have hone : t.rows.Perm (⟨po, e⟩ :: (unlinkPrev e t po).rows) := by
      refine ChainTable.rows_unlink_perm hchain (by simp) fun x hx hp => ?_
      have hptr : x.e.ptr = e.ptr ∧ x.prevout = po := by simpa using hp
      have hxm := hrows.mem_iff.mp (ChainTable.mem_rows.mpr ⟨_, hx⟩)
      rcases List.mem_append.mp hxm with hxm | hxm
      · obtain ⟨po', -, rfl⟩ := List.mem_map.mp hxm
        rw [show po' = po from hptr.2]
      · exact absurd hptr.1 (hothers x hxm)
    rw [List.foldl_cons]
    refine ih (ht.unlink _ _) ?_
    have hboth := hone.symm.trans hrows
    rw [List.map_cons, List.cons_append] at hboth
    exact List.Perm.cons_inv hboth

theorem Ok.removeEntry (h : Ok sha256 p) {e : MpEntry} (he : e ∈ p.entries) :
    Ok sha256 (p.removeEntry e) := by
  have hperm := removeEntry_entries h he
  have hsub := removeEntry_subset h he
  have hptrs := (hperm.map MpEntry.ptr).nodup_iff.mp h.ptrs
  have htxids := (hperm.map MpEntry.txid).nodup_iff.mp h.txids
  have houts := (hperm.flatMap_right MpEntry.prev).nodup_iff.mp h.outpoints
  rw [List.map_cons, List.nodup_cons] at hptrs htxids
  rw [List.flatMap_cons, List.nodup_append] at houts
  have hindex : p.gPbucket.rows.Perm
      (e.prev.map (fun po => ⟨po, e⟩) ++ nodes (p.removeEntry e).entries) :=
    h.index.trans (nodes_perm hperm)
  have hothers : ∀ r ∈ nodes (p.removeEntry e).entries, r.e.ptr ≠ e.ptr := fun r hr hptr =>
    hptrs.1 (hptr ▸ List.mem_map_of_mem (mem_nodes.mp hr).1)
  obtain ⟨hplaced, hrows⟩ := foldl_unlinkPrev hothers e.prev h.pplaced hindex
  have hlen := hperm.length_eq
  rw [List.length_cons] at hlen
  have hbytes := (hperm.map fun e => (e.raw.length : ℤ)).sum_eq
  rw [List.map_cons, List.sum_cons] at hbytes
  have hcount := h.count
  have htotal := h.bytes
  have hmax := h.maxTxs
  have hmaxb := h.maxBytes
  have hgc : (p.removeEntry e).gCount = p.gCount - 1 := rfl
  have hgb : (p.removeEntry e).gBytes = p.gBytes - e.raw.length := rfl
  exact
    { tplaced := h.tplaced.unlink _ _
      pplaced := hplaced
      entry := fun x hx => h.entry x (hsub hx)
      ptrs := hptrs.2
      heap := fun x hx => h.heap x (hsub hx)
      txids := htxids.2
      outpoints := houts.2.1
      index := hrows
      count := by omega
      bytes := by omega
      maxTxs := by omega
      maxBytes := by omega }

/-! ### Eviction -/

theorem oldest_foldl (es : List MpEntry) (o : Option MpEntry) :
    (es.foldl (fun old e => match old with
      | none => some e
      | some o => if e.added < o.added then some e else some o) o = none ↔ es = [] ∧ o = none) ∧
    ∀ r, es.foldl (fun old e => match old with
      | none => some e
      | some o => if e.added < o.added then some e else some o) o = some r → r ∈ es ∨ o = some r := by
  induction es generalizing o with
  | nil => exact ⟨by simp, fun r hr => Or.inr hr⟩
  | cons e es ih =>
    obtain ⟨hnone, hsome⟩ := ih (match o with
      | none => some e
      | some o => if e.added < o.added then some e else some o)
    refine ⟨?_, fun r hr => ?_⟩
    · rw [List.foldl_cons, hnone]
      cases o with
      | none => simp
      | some o =>
        by_cases hlt : e.added < o.added <;> simp [hlt]
    · rw [List.foldl_cons] at hr
      rcases hsome r hr with hr | hr
      · exact Or.inl (List.mem_cons_of_mem _ hr)
      · cases o with
        | none =>
          simp only [Option.some.injEq] at hr
          exact Or.inl (by simp [hr])
        | some o =>
          by_cases hlt : e.added < o.added
          · simp only [hlt, if_true, Option.some.injEq] at hr
            exact Or.inl (by simp [hr])
          · simp only [hlt, if_false] at hr
            exact Or.inr hr

theorem oldest_mem {e : MpEntry} (h : p.oldest = some e) : e ∈ p.entries := by
  rcases (oldest_foldl p.gTbucket.rows none).2 e h with h | h
  · exact h
  · cases h

theorem oldest_none (h : p.oldest = none) : p.entries = [] :=
  ((oldest_foldl p.gTbucket.rows none).1.mp h).1

theorem Ok.evictOldest (h : Ok sha256 p) :
    Ok sha256 p.evictOldest ∧ p.evictOldest.entries ⊆ p.entries ∧
      (p.gCount ≠ 0 → p.evictOldest.gCount = p.gCount - 1) := by
  unfold Mempool.evictOldest
  cases hold : p.oldest with
  | none =>
    have hempty := oldest_none hold
    have hcount := h.count
    rw [hempty] at hcount
    exact ⟨h, fun _ hx => hx, fun hne => absurd hcount hne⟩
  | some e =>
    have he := oldest_mem hold
    exact ⟨h.removeEntry he, removeEntry_subset h he, fun _ => rfl⟩

/-- The eviction loop ends with room, or with nothing left. -/
theorem Ok.makeRoom (len : ℕ) (fuel : ℕ) (h : Ok sha256 p) (hfuel : p.gCount = fuel) :
    Ok sha256 (p.makeRoom len fuel) ∧ (p.makeRoom len fuel).entries ⊆ p.entries ∧
      ((p.makeRoom len fuel).full len = false ∨ (p.makeRoom len fuel).gCount = 0) := by
  induction fuel generalizing p with
  | zero => exact ⟨h, fun _ hx => hx, Or.inr hfuel⟩
  | succ fuel ih =>
    unfold Mempool.makeRoom
    by_cases hfull : p.full len
    · have hne : p.gCount ≠ 0 := by omega
      obtain ⟨hok, hsub, hcount⟩ := h.evictOldest
      obtain ⟨hok', hsub', hend⟩ := ih hok (by rw [hcount hne]; omega)
      rw [if_pos hfull, if_neg hne]
      exact ⟨hok', List.Subset.trans hsub' hsub, hend⟩
    · rw [if_neg hfull]
      exact ⟨h, fun _ hx => hx, Or.inl (by simpa using hfull)⟩

end Mempool

end NamespaceIndexer.Daemon
