import NamespaceIndexer.Daemon.Replay
import NamespaceIndexer.Lib.Merkle

/-!
# What a header says about its block (`merkle_root`, `idx_parse_block`)

The level loop of `merkle_root` is the tree of `Lib.Merkle`. An id is the hash of
a whole transaction, an inner node the hash of 64 bytes.
-/

namespace NamespaceIndexer.Daemon

open Fold Lib

variable (sha256 : Bytes → Hash256)

/-- The hash of an inner node. -/
def node (a b : Hash256) : Hash256 := idxSha256d sha256 (a.val ++ b.val)

theorem merkleLevel_eq (ids : List Hash256) :
    merkleLevel sha256 ids = (Merkle.level (node sha256) ids, Merkle.mutated ids) := by
  induction ids using Merkle.pairs.induct with
  | case1 => rfl
  | case2 a => rfl
  | case3 a b rest ih =>
    have hbeq : (a == b) = decide (a = b) := by
      rw [Bool.eq_iff_iff, beq_iff_eq, decide_eq_true_iff]
    simp only [merkleLevel, ih, hbeq, Merkle.mutated, beq_eq_decide]
    rfl

theorem length_level (ids : List Hash256) :
    (Merkle.level (node sha256) ids).length = (ids.length + 1) / 2 := by
  induction ids using Merkle.pairs.induct with
  | case1 => rfl
  | case2 a => simp [Merkle.level, Merkle.pairs]
  | case3 a b rest ih =>
    show (Merkle.level (node sha256) rest).length + 1 = (rest.length + 1 + 1 + 1) / 2
    omega

/-- As many rounds as there are ids are enough. -/
theorem merkleRoot_isSome (fuel : ℕ) : ∀ ids : List Hash256, ids ≠ [] → ids.length ≤ fuel + 1 →
    (merkleRoot sha256 fuel ids).1.isSome := by
  induction fuel with
  | zero =>
    intro ids hne hlen
    match ids with
    | [] => exact (hne rfl).elim
    | [a] => rfl
    | a :: b :: rest => simp at hlen
  | succ fuel ih =>
    intro ids hne hlen
    match ids with
    | [] => exact (hne rfl).elim
    | [a] => rfl
    | a :: b :: rest =>
      have hl := length_level sha256 (a :: b :: rest)
      simp only [List.length_cons] at hl hlen
      have hup : (Merkle.level (node sha256) (a :: b :: rest)) ≠ [] := by
        intro h0
        rw [h0, List.length_nil] at hl
        omega
      simp only [merkleRoot, merkleLevel_eq]
      exact ih _ hup (by omega)

/-- The strings that are hashed on the way to the root. -/
def nodeStrings : ℕ → List Hash256 → List Bytes
  | 0, _ => []
  | _, [] => []
  | _, [_] => []
  | fuel + 1, ids =>
    (Merkle.pairs ids).map (fun p => p.1.val ++ p.2.val) ++
      nodeStrings fuel (merkleLevel sha256 ids).1

/-- A root computed without the flag is the top of a tree without equal pairs. -/
theorem clean_of_merkleRoot {r : Hash256} (fuel : ℕ) : ∀ ids : List Hash256,
    merkleRoot sha256 fuel ids = (some r, false) →
    ∃ p, (Merkle.level (node sha256))^[p] ids = [r] ∧ Merkle.Clean (node sha256) ids p ∧
      Merkle.Within (node sha256) {x | x.1.val ++ x.2.val ∈ nodeStrings sha256 fuel ids} ids p := by
  induction fuel with
  | zero =>
    intro ids h
    match ids with
    | [] => cases h
    | [a] =>
      cases h
      exact ⟨0, rfl, fun j hj => by omega, fun j hj => by omega⟩
    | a :: b :: rest => cases h
  | succ fuel ih =>
    intro ids h
    match ids with
    | [] => cases h
    | [a] =>
      cases h
      exact ⟨0, rfl, fun j hj => by omega, fun j hj => by omega⟩
    | a :: b :: rest =>
      simp only [merkleRoot, merkleLevel_eq, Prod.mk.injEq, Bool.or_eq_false_iff] at h
      obtain ⟨hr, hm, hm'⟩ := h
      obtain ⟨p, htop, hclean, hwithin⟩ :=
        ih (Merkle.level (node sha256) (a :: b :: rest)) (Prod.ext hr hm')
      refine ⟨p + 1, htop, ?_, ?_⟩
      · intro j hj
        cases j with
        | zero => exact hm
        | succ j => exact hclean j (by omega)
      · intro j hj x hx
        simp only [Set.mem_ofPred_eq, nodeStrings, merkleLevel_eq, List.mem_append]
        cases j with
        | zero => exact Or.inl (List.mem_map.mpr ⟨x, hx, rfl⟩)
        | succ j => exact Or.inr (hwithin j (by omega) x hx)

/-! ### Parsed transactions -/

theorem parseTx_txid {s r : Bytes} {tx : IdxTx} (h : parseTx sha256 s = some (tx, r)) :
    tx.txid = idxSha256d sha256 tx.raw := by
  unfold parseTx at h
  split at h
  · cases h
  · cases h
    rfl

theorem parseTxs_txid (n : ℕ) : ∀ (s : Bytes), ∀ tx ∈ (parseTxs sha256 n s).1,
    tx.txid = idxSha256d sha256 tx.raw := by
  induction n with
  | zero =>
    intro s tx htx
    cases htx
  | succ n ih =>
    intro s tx htx
    simp only [parseTxs] at htx
    split at htx
    · cases htx
    · rename_i t r ht
      rcases List.mem_cons.mp htx with rfl | htx
      · exact parseTx_txid sha256 ht
      · exact ih r tx htx

/-- The transactions handed to the callback come from one run of the transaction loop. -/
theorem idxParseBlock_txs (raw : Bytes) : (idxParseBlock sha256 raw).1 = [] ∨
    ∃ n s, (idxParseBlock sha256 raw).1 = (parseTxs sha256 n s).1 := by
  simp only [idxParseBlock]
  split
  · exact Or.inl rfl
  · cases hc : curCount (le32At (raw.take 80) 0) (raw.drop 80) with
    | none => exact Or.inl rfl
    | some p =>
      obtain ⟨n, s⟩ := p
      dsimp only
      split
      · exact Or.inl rfl
      · refine Or.inr ⟨n, s, ?_⟩
        cases ht : parseTxs sha256 n s with
        | mk txs e => cases e <;> rfl

/-- The ids that go into the root are the hashes of the transactions. -/
theorem idxParseBlock_txid (raw : Bytes) : ∀ tx ∈ (idxParseBlock sha256 raw).1,
    tx.txid = idxSha256d sha256 tx.raw := by
  intro tx htx
  rcases idxParseBlock_txs sha256 raw with h | ⟨n, s, h⟩
  · rw [h] at htx
    cases htx
  · rw [h] at htx
    exact parseTxs_txid sha256 n s tx htx

/-- What `merkle_ok` says: the root of the ids, computed without the flag, is in the header. -/
theorem merkleRoot_of_merkleOk {raw : Bytes} {m : IdxBlockMeta}
    (h : (idxParseBlock sha256 raw).2 = some m) (hok : m.merkleOk = true) :
    ∃ r, r.val = ((raw.take 80).drop 36).take 32 ∧
      merkleRoot sha256 (idxParseBlock sha256 raw).1.length
        ((idxParseBlock sha256 raw).1.map IdxTx.txid) = (some r, false) := by
  by_cases hlen : raw.length < 80
  · simp only [idxParseBlock, if_pos hlen] at h
    cases h
  cases hc : curCount (le32At (raw.take 80) 0) (raw.drop 80) with
  | none =>
    simp only [idxParseBlock, if_neg hlen, hc] at h
    cases h
  | some p =>
    obtain ⟨n, s⟩ := p
    by_cases hn : (decide (n > 1000000) || decide (n > raw.length / 60 + 1)) = true
    · simp only [idxParseBlock, if_neg hlen, hc, if_pos hn] at h
      cases h
    cases ht : parseTxs sha256 n s with
    | mk txs e =>
      simp only [idxParseBlock, if_neg hlen, hc, if_neg hn, ht] at h ⊢
      cases e with
      | none => cases h
      | some e =>
        cases h
        simp only [Bool.and_eq_true, Bool.not_eq_true', beq_iff_eq, Option.map_eq_some_iff] at hok
        obtain ⟨hm, r, hr, hv⟩ := hok
        exact ⟨r, hv, Prod.ext hr hm⟩

/-! ### Binding -/

/-- The strings `idx_parse_block` hashes below the header: the transactions and the inner nodes. -/
def bodyStrings (raw : Bytes) : List Bytes :=
  let txs := (idxParseBlock sha256 raw).1
  txs.map IdxTx.raw ++ nodeStrings sha256 txs.length (txs.map IdxTx.txid)

theorem append_inj_of_hash {a b c d : Hash256} (h : a.val ++ b.val = c.val ++ d.val) :
    a = c ∧ b = d := by
  have hlen : a.val.length = c.val.length := by rw [a.property, c.property]
  obtain ⟨hac, hbd⟩ := List.append_inj h hlen
  exact ⟨Subtype.ext hac, Subtype.ext hbd⟩

/-- No id of one list is an inner node over the other. -/
def NoNode (ids : List Hash256) (fuel : ℕ) (ids' : List Hash256) : Prop :=
  ∀ id ∈ ids, ∀ a b : Hash256, a.val ++ b.val ∈ nodeStrings sha256 fuel ids' → id ≠ node sha256 a b

/-- Two id lists with one root, computed without the flag, are equal. -/
theorem ids_eq_of_merkleRoot {ids ids' : List Hash256} {fuel fuel' : ℕ} {r : Hash256} {S : Set Bytes}
    (hinj : Set.InjOn (idxSha256d sha256) S)
    (hS : ∀ x ∈ nodeStrings sha256 fuel ids, x ∈ S) (hS' : ∀ x ∈ nodeStrings sha256 fuel' ids', x ∈ S)
    (h : merkleRoot sha256 fuel ids = (some r, false))
    (h' : merkleRoot sha256 fuel' ids' = (some r, false))
    (hleaf : NoNode sha256 ids fuel' ids') (hleaf' : NoNode sha256 ids' fuel ids) :
    ids = ids' := by
  obtain ⟨p, htop, hclean, hwithin⟩ := clean_of_merkleRoot sha256 fuel ids h
  obtain ⟨q, htop', hclean', hwithin'⟩ := clean_of_merkleRoot sha256 fuel' ids' h'
  have hnode : Set.InjOn (fun x : Hash256 × Hash256 => node sha256 x.1 x.2)
      {x | x.1.val ++ x.2.val ∈ S} := by
    intro x hx y hy hxy
    obtain ⟨h1, h2⟩ := append_inj_of_hash (hinj hx hy hxy)
    exact Prod.ext h1 h2
  have hw : Merkle.Within (node sha256) {x | x.1.val ++ x.2.val ∈ S} ids p :=
    fun j hj x hx => hS _ (hwithin j hj x hx)
  have hw' : Merkle.Within (node sha256) {x | x.1.val ++ x.2.val ∈ S} ids' q :=
    fun j hj x hx => hS' _ (hwithin' j hj x hx)
  have hne : ids ≠ [] := by
    rintro rfl
    cases fuel <;> cases h
  have hne' : ids' ≠ [] := by
    rintro rfl
    cases fuel' <;> cases h'
  exact Merkle.eq_of_top hnode hclean hclean' hw hw' hne hne'
    (fun id hid j hj y hy => hleaf id hid y.1 y.2 (hwithin' j hj y hy))
    (fun id hid j hj y hy => hleaf' id hid y.1 y.2 (hwithin j hj y hy))
    (htop.trans htop'.symm)

theorem map_txid (raw : Bytes) : (idxParseBlock sha256 raw).1.map IdxTx.txid =
    ((idxParseBlock sha256 raw).1.map IdxTx.raw).map (idxSha256d sha256) := by
  rw [List.map_map]
  exact List.map_congr_left fun tx htx => idxParseBlock_txid sha256 raw tx htx

/-- An accepted header has one body, and an unflagged root one list of leaves. -/
theorem header_binds :
    (∀ (raw raw' : Bytes) (m m' : IdxBlockMeta),
      (idxParseBlock sha256 raw).2 = some m → m.merkleOk = true →
      (idxParseBlock sha256 raw').2 = some m' → m'.merkleOk = true →
      raw.take 80 = raw'.take 80 →
      (∀ tx ∈ (idxParseBlock sha256 raw).1, tx.raw.length ≠ 64) →
      (∀ tx ∈ (idxParseBlock sha256 raw').1, tx.raw.length ≠ 64) →
      Set.InjOn (idxSha256d sha256)
        {x | x ∈ bodyStrings sha256 raw ∨ x ∈ bodyStrings sha256 raw'} →
      (idxParseBlock sha256 raw).1.map IdxTx.raw = (idxParseBlock sha256 raw').1.map IdxTx.raw) ∧
    ∀ (ids ids' : List Hash256) (r : Hash256),
      merkleRoot sha256 ids.length ids = (some r, false) →
      merkleRoot sha256 ids'.length ids' = (some r, false) →
      Set.InjOn (idxSha256d sha256)
        {x | x ∈ nodeStrings sha256 ids.length ids ∨ x ∈ nodeStrings sha256 ids'.length ids'} →
      NoNode sha256 ids ids'.length ids' → NoNode sha256 ids' ids.length ids →
      ids = ids' := by
  refine ⟨?_, ?_⟩
  · intro raw raw' m m' h hok h' hok' hhdr h64 h64' hinj
    obtain ⟨r, hr, hroot⟩ := merkleRoot_of_merkleOk sha256 h hok
    obtain ⟨r', hr', hroot'⟩ := merkleRoot_of_merkleOk sha256 h' hok'
    have hrr : r' = r := by
      apply Subtype.ext
      rw [hr, hr', hhdr]
    subst hrr
    -- a transaction is not 64 bytes long, what an inner node hashes is
    have hleaf : ∀ b c : Bytes, (∀ tx ∈ (idxParseBlock sha256 b).1, tx.raw.length ≠ 64) →
        (∀ x ∈ bodyStrings sha256 b, x ∈ bodyStrings sha256 raw ∨ x ∈ bodyStrings sha256 raw') →
        (∀ x ∈ bodyStrings sha256 c, x ∈ bodyStrings sha256 raw ∨ x ∈ bodyStrings sha256 raw') →
        NoNode sha256 ((idxParseBlock sha256 b).1.map IdxTx.txid) (idxParseBlock sha256 c).1.length
          ((idxParseBlock sha256 c).1.map IdxTx.txid) := by
      intro b c hb hsubb hsubc id hid x y hxy heq
      obtain ⟨tx, htx, rfl⟩ := List.mem_map.mp hid
      have hmem : tx.raw ∈ bodyStrings sha256 b :=
        List.mem_append_left _ (List.mem_map_of_mem htx)
      rw [idxParseBlock_txid sha256 b tx htx] at heq
      have hraw : tx.raw = x.val ++ y.val :=
        hinj (hsubb _ hmem) (hsubc _ (List.mem_append_right _ hxy)) heq
      apply hb tx htx
      rw [hraw, List.length_append, x.property, y.property]
    have hids : (idxParseBlock sha256 raw).1.map IdxTx.txid =
        (idxParseBlock sha256 raw').1.map IdxTx.txid :=
      ids_eq_of_merkleRoot sha256 hinj (fun x hx => Or.inl (List.mem_append_right _ hx))
        (fun x hx => Or.inr (List.mem_append_right _ hx)) hroot hroot'
        (hleaf raw raw' h64 (fun x hx => Or.inl hx) fun x hx => Or.inr hx)
        (hleaf raw' raw h64' (fun x hx => Or.inr hx) fun x hx => Or.inl hx)
    rw [map_txid, map_txid] at hids
    exact Merkle.eq_of_map_eq hinj _ _ (fun x hx => Or.inl (List.mem_append_left _ hx))
      (fun x hx => Or.inr (List.mem_append_left _ hx)) hids
  · intro ids ids' r h h' hinj hleaf hleaf'
    exact ids_eq_of_merkleRoot sha256 hinj (fun x hx => Or.inl hx) (fun x hx => Or.inr hx) h h'
      hleaf hleaf'

/-- The block, and the block with a byte after its last transaction. -/
theorem header_binds_sample :
    (idxParseBlock chainSha256 (header1 ++ [1] ++ commitTx)).1.map IdxTx.raw =
      (idxParseBlock chainSha256 (header1 ++ [1] ++ commitTx ++ [0])).1.map IdxTx.raw := by
  have hb : bodyStrings chainSha256 (header1 ++ [1] ++ commitTx) = [commitTx] := by decide +kernel
  have hb' : bodyStrings chainSha256 (header1 ++ [1] ++ commitTx ++ [0]) = [commitTx] := by
    decide +kernel
  have hp : Parses chainSha256 (header1 ++ [1] ++ commitTx) := by decide +kernel
  have hp' : Parses chainSha256 (header1 ++ [1] ++ commitTx ++ [0]) := by decide +kernel
  have hok : ∀ h : Parses chainSha256 (header1 ++ [1] ++ commitTx),
      (Option.get _ h).merkleOk = true := by decide +kernel
  have hok' : ∀ h : Parses chainSha256 (header1 ++ [1] ++ commitTx ++ [0]),
      (Option.get _ h).merkleOk = true := by decide +kernel
  refine (header_binds chainSha256).1 _ _ _ _ (Option.some_get hp).symm (hok hp)
    (Option.some_get hp').symm (hok' hp') (by decide +kernel) (by decide +kernel) (by decide +kernel) ?_
  intro x hx y hy _
  rw [Set.mem_ofPred_eq, hb, hb', or_self, List.mem_singleton] at hx hy
  rw [hx, hy]

/-- SHA-256 on two ids in a row. -/
def pairHashes : List (Bytes × ℕ) :=
  [(ofHex 32 0xb738d74202a89b68fb1b4f871b66aa83cb0b3a2c6219c3eb538203c080d6a7b6 ++ ofHex 32 1,
    0x0a908a92997d8c3580115fba99a2cd3198dcc6d3220e1321404a7abeaa941e33),
   (ofHex 32 0x0a908a92997d8c3580115fba99a2cd3198dcc6d3220e1321404a7abeaa941e33,
    0x0452f0fbacf02cc1c59595d2b98fe1283c21eb5c6b0b98fb13378b73982eb4d8)]

def pairLeft : Hash256 :=
  copyFrom 32 (ofHex 32 0xb738d74202a89b68fb1b4f871b66aa83cb0b3a2c6219c3eb538203c080d6a7b6)
def pairRight : Hash256 := copyFrom 32 (ofHex 32 1)
def pairParent : Hash256 :=
  copyFrom 32 (ofHex 32 0x0452f0fbacf02cc1c59595d2b98fe1283c21eb5c6b0b98fb13378b73982eb4d8)

/-- The list of one id that is the hash of two others has the root of these two. -/
theorem merkleRoot_not_injective :
    [pairLeft, pairRight] ≠ [pairParent] ∧
      merkleRoot (hashTable pairHashes) 2 [pairLeft, pairRight] = (some pairParent, false) ∧
      merkleRoot (hashTable pairHashes) 1 [pairParent] = (some pairParent, false) ∧
      Set.InjOn (idxSha256d (hashTable pairHashes))
        {x | x ∈ nodeStrings (hashTable pairHashes) 2 [pairLeft, pairRight] ∨
          x ∈ nodeStrings (hashTable pairHashes) 1 [pairParent]} := by
  have h2 : nodeStrings (hashTable pairHashes) 2 [pairLeft, pairRight] =
      [pairLeft.val ++ pairRight.val] := by decide +kernel
  have h1 : nodeStrings (hashTable pairHashes) 1 [pairParent] = [] := by decide +kernel
  refine ⟨by decide +kernel, by decide +kernel, by decide +kernel, ?_⟩
  intro x hx y hy _
  rw [Set.mem_ofPred_eq, h1, h2, List.mem_singleton] at hx hy
  rw [hx.resolve_right List.not_mem_nil, hy.resolve_right List.not_mem_nil]

end NamespaceIndexer.Daemon
