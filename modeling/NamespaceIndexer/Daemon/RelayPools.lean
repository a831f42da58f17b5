import NamespaceIndexer.Daemon.Relay
import NamespaceIndexer.Lib.Flood

/-!
# Pools that the relay fills

What is handed to the nodes from outside is bytes of any kind. A pool that is given only such bytes
keeps each valid transaction from the first time on, and answers for it.
-/

namespace NamespaceIndexer.Daemon

open Fold Lib

variable (sha256 : Bytes → Hash256)

/-- Does `txcheck_stateless` accept the bytes? -/
def relayable (raw : Bytes) : Bool := (txcheckStateless sha256 raw).isOk

/-- What is handed to the nodes: valid transactions that fit a pool and the budget of a connection and
spend no outpoint twice, and any other bytes, no two with one txid. -/
structure Handed (submitted : List Bytes) : Prop where
  count : ((submitted.filter (relayable sha256)).length : ℤ) ≤ mempoolMaxTxs
  bytes : ((submitted.filter (relayable sha256)).map List.length).sum ≤ idxGetdataBytes
  ids : ∀ raw ∈ submitted, ∀ raw' ∈ submitted,
    idxSha256d sha256 raw = idxSha256d sha256 raw' → raw = raw'
  apart : ∀ raw ∈ submitted, ∀ raw' ∈ submitted, raw ≠ raw' → ∀ tx tx',
    txcheckStateless sha256 raw = .ok tx → txcheckStateless sha256 raw' = .ok tx' →
      ∀ i ∈ tx.ins, ∀ i' ∈ tx'.ins, i.prevout ≠ i'.prevout

/-! ### Pools of what was handed in -/

/-- The pooled transactions. -/
def Mempool.raws (p : Mempool) : List Bytes := p.entries.map MpEntry.raw

/-- A pool of valid transactions that were handed in; it has those that it remembers. -/
structure PoolOk (submitted : List Bytes) (p : Mempool) : Prop where
  ok : p.Ok sha256
  handed : p.raws ⊆ submitted.filter (relayable sha256)
  seen : ∀ raw ∈ submitted.filter (relayable sha256), idxSha256d sha256 raw ∈ p.gSeen → raw ∈ p.raws

variable {sha256} {submitted : List Bytes} {p : Mempool}

theorem relayable_iff {raw : Bytes} :
    relayable sha256 raw = true ↔ ∃ tx, txcheckStateless sha256 raw = .ok tx := by
  unfold relayable
  cases txcheckStateless sha256 raw with
  | error e => simp [Except.isOk, Except.toBool]
  | ok tx => simp [Except.isOk, Except.toBool]

theorem sum_length_le {l l' : List Bytes} (hnodup : l.Nodup) (hsub : l ⊆ l') :
    (l.map List.length).sum ≤ (l'.map List.length).sum := by
  obtain ⟨m, hperm, hm⟩ := List.subperm_of_subset hnodup hsub
  rw [← (hperm.map List.length).sum_eq]
  exact (hm.map List.length).sum_le_sum fun _ _ => Nat.zero_le _

theorem poolOk_empty : PoolOk sha256 submitted {} where
  ok := Mempool.ok_empty
  handed := by
    have hnil : Mempool.raws {} = [] := by
      unfold Mempool.raws Mempool.entries
      rw [ChainTable.rows_empty]
      rfl
    rw [hnil]
    exact List.nil_subset _
  seen _ _ h := absurd h List.not_mem_nil

theorem mem_gSeen_noteSeen {txid t : Hash256} (h : t ∈ (p.noteSeen txid).gSeen) :
    t ∈ p.gSeen ∨ t = txid := by
  unfold Mempool.noteSeen at h
  split at h
  · exact Or.inl h
  · dsimp only at h
    split at h
    · exact (List.mem_or_eq_of_mem_set h)
    · simpa using h

namespace PoolOk

variable (h : PoolOk sha256 submitted p) (hsub : Handed sha256 submitted)
include h

theorem nodup : p.raws.Nodup := by
  refine List.Nodup.of_map (idxSha256d sha256) ?_
  have htxids := h.ok.txids
  have hsame : p.raws.map (idxSha256d sha256) = p.entries.map MpEntry.txid := by
    rw [Mempool.raws, List.map_map]
    exact List.map_congr_left fun e he => (h.ok.entry e he).txid.symm
  rwa [hsame]

include hsub

/-- A transaction that was handed in is found by its txid. -/
theorem findEntry {raw : Bytes} (hraw : raw ∈ submitted) :
    (∀ e, p.findEntry (idxSha256d sha256 raw) = some e → e.raw = raw) ∧
      ((p.findEntry (idxSha256d sha256 raw)).isSome ↔ raw ∈ p.raws) := by
  have hfound : ∀ e, p.findEntry (idxSha256d sha256 raw) = some e → e ∈ p.entries ∧ e.raw = raw :=
    fun e he => by
      obtain ⟨hmem, htxid⟩ := Mempool.findEntry_some he
      have hin := h.handed (List.mem_map_of_mem hmem)
      rw [(h.ok.entry e hmem).txid] at htxid
      exact ⟨hmem, hsub.ids _ (List.mem_of_mem_filter hin) _ hraw htxid⟩
  refine ⟨fun e he => (hfound e he).2, fun hsome => ?_, fun hin => ?_⟩
  · obtain ⟨e, he⟩ := Option.isSome_iff_exists.mp hsome
    obtain ⟨hmem, rfl⟩ := hfound e he
    exact List.mem_map_of_mem hmem
  · obtain ⟨e, he, rfl⟩ := List.mem_map.mp hin
    by_contra hnone
    rw [Option.not_isSome_iff_eq_none] at hnone
    exact Mempool.findEntry_none h.ok hnone e he (h.ok.entry e he).txid

/-- What is remembered or pooled is pooled. -/
theorem known {raw : Bytes} (hraw : raw ∈ submitted.filter (relayable sha256)) :
    (p.has (idxSha256d sha256 raw) || p.seen (idxSha256d sha256 raw)) = decide (raw ∈ p.raws) := by
  have hfind := (h.findEntry hsub (List.mem_of_mem_filter hraw)).2
  unfold Mempool.has Mempool.seen
  by_cases hin : raw ∈ p.raws
  · simp [hin, hfind.mpr hin]
  · have hnot : idxSha256d sha256 raw ∉ p.gSeen := fun hs => hin (h.seen raw hraw hs)
    have hnone : p.findEntry (idxSha256d sha256 raw) = none := by
      rw [← Option.not_isSome_iff_eq_none, hfind]
      exact hin
    have hany : (p.gSeen.any fun t => t = idxSha256d sha256 raw) = false :=
      List.any_eq_false.mpr fun t ht heq => hnot (of_decide_eq_true heq ▸ ht)
    simp only [hnone, hin, hany]
    rfl

theorem getCopy {raw : Bytes} (hraw : raw ∈ p.raws) :
    p.getCopy (idxSha256d sha256 raw) = some raw := by
  have hfind := h.findEntry hsub (List.mem_of_mem_filter (h.handed hraw))
  obtain ⟨e, he⟩ := Option.isSome_iff_exists.mp (hfind.2.mpr hraw)
  rw [Mempool.getCopy, he, Option.map_some, hfind.1 e he]

/-- A pool that lacks one of the valid transactions has room for it. -/
theorem room {raw : Bytes} (hraw : raw ∈ submitted.filter (relayable sha256)) (hnew : raw ∉ p.raws) :
    p.gCount < mempoolMaxTxs ∧ p.gBytes + raw.length ≤ mempoolMaxBytes := by
  have hnodup : (raw :: p.raws).Nodup := List.nodup_cons.mpr ⟨hnew, h.nodup⟩
  have hin : raw :: p.raws ⊆ submitted.filter (relayable sha256) := List.cons_subset.mpr ⟨hraw, h.handed⟩
  have hlen := (List.subperm_of_subset hnodup hin).length_le
  have hbytes := sum_length_le hnodup hin
  have hcount := hsub.count
  have htotal := hsub.bytes
  have hp := h.ok.count
  have hb := h.ok.bytes
  have hmap : (p.entries.map fun e => (e.raw.length : ℤ)).sum = ((p.raws.map List.length).sum : ℕ) := by
    rw [Mempool.raws, List.map_map, Nat.cast_list_sum, List.map_map]
    rfl
  rw [List.length_cons, Mempool.raws, List.length_map] at hlen
  rw [List.map_cons, List.sum_cons] at hbytes
  unfold mempoolMaxBytes
  unfold idxGetdataBytes at htotal
  constructor <;> omega

/-- A valid transaction that was handed in and is not pooled conflicts with nothing in the pool. -/
theorem free {raw : Bytes} (hraw : raw ∈ submitted) (hnew : raw ∉ p.raws) {tx : IdxTx}
    (htx : txcheckStateless sha256 raw = .ok tx) : ∀ i ∈ tx.ins, i.prevout ∉ p.spent := by
  intro i hi hin
  obtain ⟨e, he, hpo⟩ := Mempool.mem_spent.mp hin
  have hhanded := List.mem_filter.mp (h.handed (List.mem_map_of_mem he))
  obtain ⟨tx', htx'⟩ := relayable_iff.mp hhanded.2
  obtain ⟨parsed, hparse, hprev⟩ := (h.ok.entry e he).spends
  rw [(txcheckStateless_ok htx').1, Option.some.injEq] at hparse
  rw [hprev, ← hparse] at hpo
  obtain ⟨i', hi', hsame⟩ := List.mem_map.mp hpo
  have hne : raw ≠ e.raw := fun heq => hnew (heq ▸ List.mem_map_of_mem he)
  exact hsub.apart raw hraw e.raw hhanded.1 hne tx tx' htx htx' i hi i' hi' hsame.symm

theorem noteSeen {raw : Bytes} (hraw : raw ∈ submitted)
    (hin : relayable sha256 raw = true → raw ∈ p.raws) :
    PoolOk sha256 submitted (p.noteSeen (idxSha256d sha256 raw)) ∧
      (p.noteSeen (idxSha256d sha256 raw)).raws = p.raws := by
  obtain ⟨hok, hentries⟩ := h.ok.noteSeen (idxSha256d sha256 raw)
  have hsame : (p.noteSeen (idxSha256d sha256 raw)).raws = p.raws := by
    rw [Mempool.raws, hentries, ← Mempool.raws]
  refine ⟨⟨hok, hsame ▸ h.handed, fun x hx hs => ?_⟩, hsame⟩
  rw [hsame]
  rcases mem_gSeen_noteSeen hs with hs | hs
  · exact h.seen x hx hs
  · have hx' := List.mem_filter.mp hx
    have heq := hsub.ids x hx'.1 raw hraw hs
    rw [heq] at hx' ⊢
    exact hin hx'.2

/-- A transaction that is refused was in the pool, or is not valid. -/
theorem accept_old {raw : Bytes} (hraw : raw ∈ submitted)
    (hin : relayable sha256 raw = true → raw ∈ p.raws) (now : ℤ) :
    PoolOk sha256 submitted (p.accept sha256 raw now).pool ∧
      (p.accept sha256 raw now).pool.raws = p.raws ∧ (p.accept sha256 raw now).ok = false := by
  unfold Mempool.accept
  cases hcheck : txcheckStateless sha256 raw with
  | error reason =>
    cases hparse : idxTxParse sha256 raw with
    | none => exact ⟨h, rfl, rfl⟩
    | some bad =>
      have hnote := h.noteSeen hsub hraw hin
      rw [← Mempool.idxTxParse_txid hparse] at hnote
      exact ⟨hnote.1, hnote.2, rfl⟩
  | ok tx =>
    have hparse := (txcheckStateless_ok hcheck).1
    have hnote := h.noteSeen hsub hraw hin
    have hpooled := hin (relayable_iff.mpr ⟨tx, hcheck⟩)
    have hfind := (hnote.1.findEntry hsub hraw).2
    rw [hnote.2] at hfind
    rw [← Mempool.idxTxParse_txid hparse] at hnote hfind
    simp only [hparse]
    rw [if_pos (hfind.mpr hpooled)]
    exact ⟨hnote.1, hnote.2, rfl⟩

end PoolOk

theorem makeRoom_of_room {len : ℕ} (h : p.full len = false) (fuel : ℕ) : p.makeRoom len fuel = p := by
  cases fuel with
  | zero => rfl
  | succ fuel => rw [Mempool.makeRoom, h, if_neg Bool.false_ne_true]

theorem raws_insert (p : Mempool) (tx : IdxTx) (raw : Bytes) (now : ℤ) :
    (p.insert tx raw now).raws.Perm (raw :: p.raws) := by
  have hperm : (p.insert tx raw now).entries.Perm
      (⟨p.heap, tx.txid, raw, now, tx.ins.map IdxIn.prevout⟩ :: p.entries) := by
    show (p.gTbucket.push (fun x => txH x.txid) _).rows.Perm _
    exact ChainTable.rows_push_perm _
  exact hperm.map MpEntry.raw

/-- The first time a pool is given a valid transaction it takes it. -/
theorem PoolOk.accept_new (h : PoolOk sha256 submitted p) (hsub : Handed sha256 submitted)
    {raw : Bytes} (hraw : raw ∈ submitted.filter (relayable sha256)) (hnew : raw ∉ p.raws) (now : ℤ) :
    PoolOk sha256 submitted (p.accept sha256 raw now).pool ∧
      (p.accept sha256 raw now).pool.raws.Perm (raw :: p.raws) ∧
      (p.accept sha256 raw now).ok = true ∧
      (p.accept sha256 raw now).txid = idxSha256d sha256 raw := by
  obtain ⟨hin, hvalid⟩ := List.mem_filter.mp hraw
  obtain ⟨tx, htx⟩ := relayable_iff.mp hvalid
  obtain ⟨hparse, -, hnodup⟩ := txcheckStateless_ok htx
  have htxid := Mempool.idxTxParse_txid hparse
  obtain ⟨hok, hentries⟩ := h.ok.noteSeen tx.txid
  have hraws : (p.noteSeen tx.txid).raws = p.raws := by rw [Mempool.raws, hentries, ← Mempool.raws]
  have hfree := h.free hsub hin hnew htx
  have hroom := h.room hsub hraw hnew
  have hseen : (p.noteSeen tx.txid).gCount = p.gCount ∧ (p.noteSeen tx.txid).gBytes = p.gBytes := by
    unfold Mempool.noteSeen
    split <;> exact ⟨rfl, rfl⟩
  rw [← hseen.1, ← hseen.2] at hroom
  have hfull : (p.noteSeen tx.txid).full raw.length = false := by
    unfold Mempool.full
    simp only [Bool.or_eq_false_iff, decide_eq_false_iff_not, not_le, not_lt]
    exact hroom
  have hnone : ∀ e ∈ (p.noteSeen tx.txid).entries, e.txid ≠ tx.txid := fun e he heq => by
    rw [hentries] at he
    rw [(h.ok.entry e he).txid, htxid] at heq
    have hmem := List.mem_map_of_mem (f := MpEntry.raw) he
    have hsame := hsub.ids _ (List.mem_of_mem_filter (h.handed hmem)) raw hin heq
    exact hnew (hsame ▸ hmem)
  have hfind : ¬ ((p.noteSeen tx.txid).findEntry tx.txid).isSome = true := fun hs => by
    obtain ⟨e, he⟩ := Option.isSome_iff_exists.mp hs
    obtain ⟨hmem, heq⟩ := Mempool.findEntry_some he
    exact hnone e hmem heq
  have howner : ¬ (tx.ins.any fun i => ((p.noteSeen tx.txid).prevoutOwner i.prevout).isSome) = true :=
    fun hany => by
      obtain ⟨i, hi, hs⟩ := List.any_eq_true.mp hany
      obtain ⟨e, he⟩ := Option.isSome_iff_exists.mp hs
      obtain ⟨hmem, hpo⟩ := Mempool.prevoutOwner_some hok he
      rw [hentries] at hmem
      exact hfree i hi (Mempool.mem_spent.mpr ⟨e, hmem, hpo⟩)
  have hspent : (p.noteSeen tx.txid).spent = p.spent := by rw [Mempool.spent, hentries, ← Mempool.spent]
  have hout : p.accept sha256 raw now =
      ⟨(p.noteSeen tx.txid).insert tx raw now, true, tx.txid, ""⟩ := by
    unfold Mempool.accept
    simp only [htx, hparse]
    rw [if_neg hfind, if_neg howner, makeRoom_of_room hfull]
  have hperm := raws_insert (p.noteSeen tx.txid) tx raw now
  rw [hraws] at hperm
  rw [hout]
  refine ⟨⟨hok.insert now hparse hnodup hnone (fun i hi => hspent ▸ hfree i hi) hroom.1 hroom.2,
    fun x hx => ?_, fun x hx hs => ?_⟩, hperm, rfl, htxid⟩
  · rcases List.mem_cons.mp (hperm.mem_iff.mp hx) with rfl | hx
    · exact hraw
    · exact h.handed hx
  · refine hperm.mem_iff.mpr (List.mem_cons.mpr ?_)
    rcases mem_gSeen_noteSeen (show idxSha256d sha256 x ∈ (p.noteSeen tx.txid).gSeen from hs) with
      hs | hs
    · exact Or.inr (h.seen x hx hs)
    · exact Or.inl (hsub.ids x (List.mem_of_mem_filter hx) raw hin (hs.trans htxid))

/-- A valid transaction that was given to a pool is in it. -/
theorem PoolOk.mem_accept (h : PoolOk sha256 submitted p) (hsub : Handed sha256 submitted)
    {raw : Bytes} (hraw : raw ∈ submitted.filter (relayable sha256)) (now : ℤ) :
    raw ∈ (p.accept sha256 raw now).pool.raws := by
  by_cases hin : raw ∈ p.raws
  · rw [(h.accept_old hsub (List.mem_of_mem_filter hraw) (fun _ => hin) now).2.1]
    exact hin
  · exact (h.accept_new hsub hraw hin now).2.1.mem_iff.mpr List.mem_cons_self

/-! ### Messages about a transaction -/

variable (sha256) in
/-- What the nodes say about a transaction. -/
def encode : Flood.Msg Bytes → RelayMsg
  | .announce raw => ⟨.inv, inventory [(1, idxSha256d sha256 raw)]⟩
  | .request raw => ⟨.getdata, inventory [(1, idxSha256d sha256 raw)]⟩
  | .deliver raw => ⟨.tx, raw⟩

theorem inventory_singleton_inj {t t' : Hash256} (h : inventory [(1, t)] = inventory [(1, t')]) :
    t = t' := by
  unfold inventory at h
  have hitems := List.append_cancel_left h
  rw [List.flatMap_singleton, List.flatMap_singleton] at hitems
  exact Subtype.ext (List.append_cancel_left hitems)

theorem encode_inj (hsub : Handed sha256 submitted) {m m' : Flood.Msg Bytes} {raw raw' : Bytes}
    (hraw : raw ∈ submitted) (hraw' : raw' ∈ submitted)
    (hm : m = .announce raw ∨ m = .request raw ∨ m = .deliver raw)
    (hm' : m' = .announce raw' ∨ m' = .request raw' ∨ m' = .deliver raw')
    (heq : encode sha256 m = encode sha256 m') : m = m' := by
  rcases hm with rfl | rfl | rfl <;> rcases hm' with rfl | rfl | rfl <;>
    simp only [encode, RelayMsg.mk.injEq, reduceCtorEq, false_and, true_and] at heq
  · rw [hsub.ids raw hraw raw' hraw' (inventory_singleton_inj heq)]
  · rw [hsub.ids raw hraw raw' hraw' (inventory_singleton_inj heq)]
  · rw [heq]

/-- The reader's view of an inventory of one transaction. -/
theorem read_singleton (t : Hash256) :
    ∃ rest, netPolicyReadCount (inventory [(1, t)]) = some (1, rest) ∧ readItems 1 rest = [(1, t)] :=
  inventory_read (by simp) (by simp)

/-- Nothing that the nodes say is held against them. -/
theorem misbehave_encode (p : Mempool) (g : GdBudget) (ss : RelayStore) (now : ℤ) (m : Flood.Msg Bytes) :
    (serveDispatch sha256 p g ss now (encode sha256 m)).misbehave = none := by
  cases m with
  | announce raw | request raw =>
    obtain ⟨rest, hcount, -⟩ := read_singleton (idxSha256d sha256 raw)
    unfold serveDispatch encode
    dsimp only
    rw [hcount]
    dsimp only
    rw [if_neg (by decide)]
  | deliver raw => rfl

theorem invReply_singleton (ss : RelayStore) (t : Hash256) :
    invReply sha256 p ss [(1, t)] =
      if p.has t || p.seen t then [] else [⟨.getdata, inventory [(1, t)]⟩] := by
  have hitem : wantItem sha256 p ss {} (1, t) = if p.has t || p.seen t then {} else { want := [t] } := by
    rw [wantItem, if_pos ⟨rfl, by simp⟩]
    rfl
  unfold invReply
  rw [List.foldl_cons, List.foldl_nil, hitem]
  cases p.has t || p.seen t <;> rfl

namespace PoolOk

variable (h : PoolOk sha256 submitted p) (hsub : Handed sha256 submitted) (g : GdBudget)
  (ss : RelayStore) (now : ℤ) {raw : Bytes}
include h hsub

/-- An announced transaction is asked for, unless it is pooled. -/
theorem dispatch_announce (hraw : raw ∈ submitted.filter (relayable sha256)) :
    serveDispatch sha256 p g ss now (encode sha256 (.announce raw)) =
      ⟨p, g, if raw ∈ p.raws then [] else [encode sha256 (.request raw)], none, none⟩ := by
  obtain ⟨rest, hcount, hitems⟩ := read_singleton (idxSha256d sha256 raw)
  have hknown := h.known hsub hraw
  unfold serveDispatch encode
  dsimp only
  rw [hcount]
  dsimp only
  rw [if_neg (by decide), hitems]
  rw [invReply_singleton, hknown]
  simp only [decide_eq_true_eq]

/-- A transaction that is asked for is sent where the budget allows it. -/
theorem dispatch_request (hraw : raw ∈ p.raws) (hfit : g.gdBytes + raw.length ≤ idxGetdataBytes) :
    ∃ g' : GdBudget, g'.gdBytes ≤ g.gdBytes + raw.length ∧
      serveDispatch sha256 p g ss now (encode sha256 (.request raw)) =
        ⟨p, g', [encode sha256 (.deliver raw)], none, none⟩ := by
  obtain ⟨rest, hcount, hitems⟩ := read_singleton (idxSha256d sha256 raw)
  have hcopy := h.getCopy hsub hraw
  obtain ⟨hok, hle⟩ := netPolicyGetdataOk_of_le now hfit
  refine ⟨_, hle, ?_⟩
  have hpair : netPolicyGetdataOk g now 0 raw.length =
      ((netPolicyGetdataOk g now 0 raw.length).1, true) := by rw [← hok]
  unfold serveDispatch encode
  dsimp only
  rw [hcount]
  dsimp only
  rw [if_neg (by decide), hitems]
  rw [serveGetdata, if_pos (by decide), itemBody, if_neg (by simp), if_pos rfl, hcopy]
  dsimp only [Option.map_some]
  rw [hpair]
  rfl

end PoolOk

end NamespaceIndexer.Daemon
