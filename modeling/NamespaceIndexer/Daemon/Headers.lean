import NamespaceIndexer.Daemon.Branch
import NamespaceIndexer.Daemon.Inventory

/-!
# The headers a node serves

The store keeps 80 bytes of each block. A node that weighs them asks for the AuxPoW of a
merged-mined one as well.
-/

namespace NamespaceIndexer.Daemon

open Fold Lib

variable (sha256 idxPowHash : Bytes → Hash256)
variable (idxAttribute : Bytes → ℕ → Option (H160 × Byte))
variable (coin : Coin) (activation : UInt64)

/-- The block is the next one of the chain, and is valid there. -/
def ValidNext (n : ServeNode) (block : Bytes × Bool) : Prop :=
  (∃ tip ∈ n.node.tip, prevField block.1 = tip.val) ∧
    blockValidate sha256 idxPowHash coin n.node.db (n.node.height + 1) block.1 = true

/-- A pass connects a block. -/
def connectNext (n : ServeNode) (block : Bytes × Bool) : ServeNode :=
  n.connect sha256 idxAttribute block.1 block.2

/-- The answer to `getheaders` at a located row. -/
def getheadersReply (ss : ServeStore) (r : HeaderRow) : List Bytes :=
  serveStoreHeadersFrom ss r.height 2000

/-- Two databases record the same chain up to a height. -/
def SameUpTo (height : ℤ) (db db' : Db) : Prop :=
  ∀ h ≤ height, OrderedTable.find? BlockRow.height db'.blocks h =
    OrderedTable.find? BlockRow.height db.blocks h

/-- Every header of the message is accepted, and the work is theirs. -/
def WeighedInFull (bc : BranchCtx) (hdrs : List Bytes) : Prop :=
  ∃ bc', branchWeigh sha256 idxPowHash coin bc (headersMessage hdrs) = some (bc', hdrs.length) ∧
    bc'.work = (hdrs.map fun hdr => idxPowWork (le32At hdr 72)).sum % 2 ^ 256

section Store

variable {sha256 idxPowHash coin}

variable (sha256 idxPowHash coin) in
/-- What the store and the database say of a validated block. -/
structure Checked (db : Db) (r : HeaderRow) : Prop where
  length : r.hdr.length = 80
  hash : idxSha256d sha256 r.hdr = r.hash
  row : idxDbBlockHdr db r.height = ((le32At r.hdr 68 : ℤ), le32At r.hdr 72)
  expected : (powContext coin db (r.height - 1)).Expects coin (le32At r.hdr 72)
  direct : DirectMined r.hdr →
    idxPowCheck2 sha256 idxPowHash coin.powParams r.hdr = some r.hdr.length

variable (sha256 idxPowHash coin) in
/-- Every header of the store is that of a validated block of the chain. -/
structure Sourced (n : ServeNode) : Prop where
  serving : Serving sha256 coin n
  top : ∀ r ∈ n.store.headers, r.height ≤ n.node.height
  checked : ∀ r ∈ n.store.headers, Checked sha256 idxPowHash coin n.node.db r

theorem sourced_fresh : Sourced sha256 idxPowHash coin ⟨fresh coin activation, {}⟩ where
  serving := serving_fresh activation
  top := fun _ hr => absurd hr List.not_mem_nil
  checked := fun _ hr => absurd hr List.not_mem_nil

theorem Checked.mono {db db' : Db} {r : HeaderRow} (h : Checked sha256 idxPowHash coin db r)
    (hsame : ∀ k ≤ r.height, idxDbBlockHdr db' k = idxDbBlockHdr db k) :
    Checked sha256 idxPowHash coin db' r where
  length := h.length
  hash := h.hash
  row := (hsame r.height le_rfl).trans h.row
  expected := by
    rw [powContext_congr fun k hk => hsame k (by omega)]
    exact h.expected
  direct := h.direct

/-- The context at a stored header is what the walk keeps of it. -/
theorem Checked.context {db : Db} {r : HeaderRow} (h : Checked sha256 idxPowHash coin db r)
    (hlow : coin.start < r.height) :
    powContext coin db r.height =
      ⟨le32At r.hdr 68, (powContext coin db (r.height - 1)).prevTime, le32At r.hdr 72⟩ := by
  have hrow := h.row
  have hsucc : r.height - 1 + 1 = r.height := by omega
  rw [← hsucc] at hrow
  have hbelow : coin.start ≤ r.height - 1 := by omega
  have hctx := powContext_succ hbelow hrow rfl
  rw [hsucc] at hctx
  exact hctx

/-- What validation found of a block. -/
theorem blockValidate_parts {db : Db} {pos : ℤ} {raw : Bytes} (hpow : coin.powlimit ≠ 0)
    (h : blockValidate sha256 idxPowHash coin db pos raw = true) :
    ∃ m, (idxParseBlock sha256 raw).2 = some m ∧ m.merkleOk = true ∧
      (∃ span, idxPowCheck2 sha256 idxPowHash coin.powParams raw = some span) ∧
      (powContext coin db (pos - 1)).Expects coin m.bits ∧
      medianAllows (medianTimes coin db pos) m.time = true := by
  unfold blockValidate at h
  rw [if_neg hpow] at h
  split at h
  · cases h
  · rename_i m hm
    simp only [Bool.and_eq_true, decide_eq_true_eq] at h
    obtain ⟨⟨⟨hmerkle, hcheck⟩, hexp⟩, hmedian⟩ := h
    exact ⟨m, hm, hmerkle, Option.isSome_iff_exists.mp hcheck, hexp, hmedian⟩

theorem idxParseBlock_fields {raw : Bytes} {m : IdxBlockMeta}
    (h : (idxParseBlock sha256 raw).2 = some m) :
    m.time = le32At raw 68 ∧ m.bits = le32At raw 72 := by
  unfold idxParseBlock at h
  split at h
  · cases h
  · simp only at h
    split at h
    · cases h
    · split at h
      · cases h
      · split at h
        · cases h
        · cases h
          exact ⟨le32At_take (by omega), le32At_take (by omega)⟩

theorem Sourced.connect {n : ServeNode} (hn : Sourced sha256 idxPowHash coin n)
    (hpow : coin.powlimit ≠ 0) {block : Bytes × Bool}
    (hblock : ValidNext sha256 idxPowHash coin n block) :
    Sourced sha256 idxPowHash coin (connectNext sha256 idxAttribute n block) := by
  obtain ⟨raw, walletTouched⟩ := block
  obtain ⟨⟨tip, htip, hprev⟩, hvalid⟩ := hblock
  obtain ⟨m, hm, -, ⟨span, hspan⟩, hexp, -⟩ := blockValidate_parts hpow hvalid
  obtain ⟨htime, hbits⟩ := idxParseBlock_fields hm
  have hparse : Parses sha256 raw := by
    unfold Parses
    rw [hm]
    rfl
  have hlen := hparse.length_ge
  have hserving := hn.serving.connect idxAttribute walletTouched htip hprev
    fun _ => Or.inl fun r hr => (hn.top r hr).trans (by omega)
  obtain ⟨m', hm', -, -, hheight, -, hdb⟩ := connect_parses idxAttribute n.node walletTouched hparse
  cases hm.symm.trans hm'
  have hstore : (connectNext sha256 idxAttribute n (raw, walletTouched)).store =
      serveStorePut n.store (n.node.height + 1) m.blockHash (raw.take 80) raw
        (n.node.height + 1) := by
    unfold connectNext ServeNode.connect
    simp only [hm]
  have hhdr : ∀ k, idxDbBlockHdr (n.node.connect sha256 idxAttribute raw walletTouched).db k =
      if n.node.height + 1 = k then ((m.time : ℤ), m.bits) else idxDbBlockHdr n.node.db k :=
    idxDbBlockHdr_put hn.serving.recorded.blocks (congrArg Db.blocks hdb)
  have hold : ∀ k ≤ n.node.height,
      idxDbBlockHdr (n.node.connect sha256 idxAttribute raw walletTouched).db k =
        idxDbBlockHdr n.node.db k := by
    intro k hk
    rw [hhdr, if_neg (by omega)]
  refine ⟨hserving, ?_, ?_⟩
  · intro r hr
    rw [hstore] at hr
    show r.height ≤ (n.node.connect sha256 idxAttribute raw walletTouched).height
    rw [hheight]
    rcases (OrderedTable.mem_put HeaderRow.height).mp hr with rfl | ⟨hr, -⟩
    · exact le_rfl
    · exact (hn.top r hr).trans (by omega)
  · intro r hr
    rw [hstore] at hr
    show Checked sha256 idxPowHash coin
      (n.node.connect sha256 idxAttribute raw walletTouched).db r
    rcases (OrderedTable.mem_put HeaderRow.height).mp hr with rfl | ⟨hr, -⟩
    · refine ⟨?_, ?_, ?_, ?_, ?_⟩
      · show (raw.take 80).length = 80
        rw [List.length_take]
        omega
      · rw [idxParseBlock_hash hm]
        rfl
      · show idxDbBlockHdr _ (n.node.height + 1) = ((le32At (raw.take 80) 68 : ℤ), _)
        rw [hhdr, if_pos rfl, htime, hbits, le32At_take (by omega), le32At_take (by omega)]
      · show (powContext coin _ (n.node.height + 1 - 1)).Expects coin (le32At (raw.take 80) 72)
        rw [powContext_congr fun k hk => hold k (by omega), le32At_take (by omega), ← hbits]
        exact hexp
      · intro hdirect
        have hspan' : span = 80 := idxPowCheck2_direct hspan ((directMined_take raw).mp hdirect)
        have happend := idxPowCheck2_append hspan []
        rw [List.append_nil, hspan'] at happend
        show _ = some (raw.take 80).length
        rw [List.length_take, Nat.min_eq_left hlen]
        exact happend
    · exact (hn.checked r hr).mono fun k hk => hold k (hk.trans (hn.top r hr))

/-- Consecutive rows of direct headers follow one another from the row below them. -/
theorem extends_of_sourced {n : ServeNode} (hn : Sourced sha256 idxPowHash coin n)
    {rows : List HeaderRow} (hrows : ∀ r ∈ rows, r ∈ n.store.headers)
    (hdirect : ∀ r ∈ rows, DirectMined r.hdr) {bc : BranchCtx} {r : HeaderRow}
    (hr : r ∈ n.store.headers) (hcons : Consecutive (r.height + 1) rows)
    (hhash : bc.prevHash = r.hash) (hctx : bc.context = powContext coin n.node.db r.height) :
    Extends sha256 idxPowHash coin bc (rows.map HeaderRow.hdr) := by
  induction rows generalizing bc r with
  | nil => trivial
  | cons r' rows ih =>
    have hr' := hrows r' (List.mem_cons_self ..)
    have hchecked := hn.checked r' hr'
    have hbelow : r'.height - 1 = r.height := by
      have heq := hcons.1
      omega
    have hexp := hchecked.expected
    rw [hbelow, ← hctx] at hexp
    refine ⟨?_, hchecked.direct (hdirect r' (List.mem_cons_self ..)), hexp, ?_⟩
    · rw [hhash]
      exact hn.serving.whole.linked r hr r' hr' hcons.1
    · apply ih (fun x hx => hrows x (List.mem_cons_of_mem _ hx))
        (fun x hx => hdirect x (List.mem_cons_of_mem _ hx)) hr'
      · rw [hcons.1]
        exact hcons.2
      · show idxSha256d sha256 (r'.hdr.take 80) = r'.hash
        rw [List.take_of_length_le hchecked.length.le]
        exact hchecked.hash
      · rw [hchecked.context (hn.serving.whole.low r' hr'), hbelow, ← hctx]
        rfl

end Store

/-- The headers a node serves above a block of its chain are weighed in full by a node that holds
the chain up to that block, exactly when none of them is merged-mined. -/
theorem served_headers_weigh (hpow : coin.powlimit ≠ 0) (blocks : List (Bytes × Bool))
    (hblocks : Run.Along (connectNext sha256 idxAttribute) (ValidNext sha256 idxPowHash coin)
      ⟨fresh coin activation, {}⟩ blocks) (locator : List Hash256) (r : HeaderRow) (db : Db) :
    let n := blocks.foldl (connectNext sha256 idxAttribute) ⟨fresh coin activation, {}⟩
    serveStoreLocate n.store locator = some r → SameUpTo r.height n.node.db db →
      (WeighedInFull sha256 idxPowHash coin (branchSeed coin db r.height r.hash)
          (getheadersReply n.store r) ↔
        ∀ hdr ∈ getheadersReply n.store r, DirectMined hdr) := by
  intro n hloc hsame
  have hn : Sourced sha256 idxPowHash coin n :=
    (Run.throughout_of_keeps (fun _ _ hn hblock => hn.connect idxAttribute hpow hblock)
      (fun _ hn => hn) blocks (sourced_fresh activation) hblocks).last
  have hr := serveStoreLocate_mem hloc
  have hrows : ∀ r' ∈ headersAbove n.store r.height 2000, r' ∈ n.store.headers := fun r' hr' =>
    (List.mem_filter.mp (List.mem_of_mem_take hr')).1
  have hlen : ∀ hdr ∈ getheadersReply n.store r, hdr.length = 80 := by
    intro hdr hhdr
    obtain ⟨r', hr', rfl⟩ := List.mem_map.mp hhdr
    exact (hn.checked r' (hrows r' hr')).length
  have hcount : (getheadersReply n.store r).length ≤ 2000 := by
    unfold getheadersReply serveStoreHeadersFrom headersAbove
    rw [List.length_map, List.length_take]
    omega
  constructor
  · rintro ⟨bc', hweigh, -⟩
    rw [branchWeigh_headersMessage _ (hcount.trans (by omega))] at hweigh
    exact directMined_of_accepted hlen hweigh
  · intro hdirect
    have hctx : powContext coin db r.height = powContext coin n.node.db r.height := by
      apply powContext_congr
      intro k hk
      unfold idxDbBlockHdr
      rw [hsame k hk]
    have hextends : Extends sha256 idxPowHash coin (branchSeed coin db r.height r.hash)
        (getheadersReply n.store r) := by
      apply extends_of_sourced hn hrows _ hr (hn.serving.whole.headersAbove_consecutive hr 2000)
        rfl hctx
      intro r' hr'
      exact hdirect _ (List.mem_map_of_mem hr')
    have hweigh := weighHeaders_of_extends hextends
    rw [← branchWeigh_headersMessage _ (hcount.trans (by omega))] at hweigh
    refine ⟨_, hweigh, ?_⟩
    have hseed : (branchSeed coin db r.height r.hash).work = 0 := rfl
    have hlt := foldl_next_work_lt sha256 (hseed.trans_lt (Nat.two_pow_pos 256))
      (getheadersReply n.store r)
    have hwork := foldl_next_work sha256 (branchSeed coin db r.height r.hash)
      (getheadersReply n.store r)
    rw [Nat.mod_eq_of_lt hlt, hseed, Nat.zero_add] at hwork
    exact hwork

/-! ### Two mined blocks -/

/-- A profile of the host chain's shape whose targets are easy to meet. -/
def minedCoin : Coin :=
  { start := 0, startHash := zeros 32, subsidy := 1000000000000, startTime := 1000000,
    startBits := 0x207fffff, startPrevTime := 999940, powlimit := 0x207fffff, auxChainId := 0x62 }

def minedHeader (version prev merkle time nonce : ℕ) : Bytes :=
  leBytes 4 version ++ ofHex 32 prev ++ ofHex 32 merkle ++ leBytes 4 time ++ leBytes 4 0x207fffff ++
    leBytes 4 nonce

/-- A coinbase without outputs. -/
def bareCoinbase (script : Bytes) : Bytes :=
  leBytes 4 1 ++ [1] ++ (zeros 32).val ++ leBytes 4 0xFFFFFFFF ++
    [Fin.ofNat 256 script.length] ++ script ++
    leBytes 4 0xFFFFFFFF ++ [0] ++ leBytes 4 0

def mined1 : Bytes :=
  minedHeader 0x00620004
    0
    0x03cb9e0e8271b3166f3c1a46f9d7c137c9ee8e700261ab0ed0395823fdb8f717 1000060 3
def mined2 : Bytes :=
  minedHeader 0x00620004
    0xd3e7f519a6d9d27a9fd65a32199af22c108bb674289231de0d6adc7781ea6554
    0x8590b49b8ea75dfc07a58d1cbf021db0bce48e2d8ba24f363db16f5da31a6535 1000120 4
def merged2 : Bytes :=
  minedHeader 0x00620104
    0xd3e7f519a6d9d27a9fd65a32199af22c108bb674289231de0d6adc7781ea6554
    0x8590b49b8ea75dfc07a58d1cbf021db0bce48e2d8ba24f363db16f5da31a6535 1000120 0

/-- The header of the parent chain, which commits to `merged2`. -/
def parentHeader : Bytes :=
  minedHeader 0x00000001
    0x2222222222222222222222222222222222222222222222222222222222222222
    0xfe6e20b054b452e30285168e631af7ab39f6c1aef9c8c2e48cb5bd3891fb33cb 1000100 1

def parentScript : Bytes :=
  mmHeader ++ ofHex 32 0x05ab716b6292d377c99b15f9f55cf7a888f9c253c4d03dd59efa74d13dc02abf ++
    leBytes 4 1 ++ leBytes 4 0

/-- The AuxPoW of `merged2`: the parent coinbase, no branches, the parent header. -/
def aux2 : Bytes :=
  bareCoinbase parentScript ++ (zeros 32).val ++ [0] ++ leBytes 4 0 ++ [0] ++ leBytes 4 0 ++
    parentHeader

/-- SHA-256 on what these blocks hash. -/
def minedHashes : List (Bytes × ℕ) :=
  [(bareCoinbase [1, 1], 0x6d98959e9b3da627a8d9245cae4901ba5f0ebc93eed71c97d17a39207aad52d2),
   (ofHex 32 0x6d98959e9b3da627a8d9245cae4901ba5f0ebc93eed71c97d17a39207aad52d2,
    0x03cb9e0e8271b3166f3c1a46f9d7c137c9ee8e700261ab0ed0395823fdb8f717),
   (bareCoinbase [1, 2], 0xb4ff273cf40d36b5083a36d649a895206cff47a60e0aebbc236d0cce36a12e61),
   (ofHex 32 0xb4ff273cf40d36b5083a36d649a895206cff47a60e0aebbc236d0cce36a12e61,
    0x8590b49b8ea75dfc07a58d1cbf021db0bce48e2d8ba24f363db16f5da31a6535),
   (mined1, 0xac29a9832af75b83e28689a77d77118c21bea40c994f714b16bf0ee3ae5c84bb),
   (ofHex 32 0xac29a9832af75b83e28689a77d77118c21bea40c994f714b16bf0ee3ae5c84bb,
    0xd3e7f519a6d9d27a9fd65a32199af22c108bb674289231de0d6adc7781ea6554),
   (mined2, 0x479bf7d12ad8264e7a3884ea68a5457c950e05e3b1d57262f084b778f2d29c55),
   (ofHex 32 0x479bf7d12ad8264e7a3884ea68a5457c950e05e3b1d57262f084b778f2d29c55,
    0x4b1132251e05a4699e32949219960d79782b667c3cc738e17856d0e1f0a35e9b),
   (merged2, 0x11d411f11dc86b35c2eed250a7669da5d446b0e413f0e909fdf61aa6ec6daf08),
   (ofHex 32 0x11d411f11dc86b35c2eed250a7669da5d446b0e413f0e909fdf61aa6ec6daf08,
    0xbf2ac03dd174fa9ed53dd0c453c2f988a8f75cf5f9159bc977d392626b71ab05),
   (bareCoinbase parentScript, 0xfeb4698a1df892e0b0be6142f4d5c3a03e06a41db608091069a8175ebddd7c90),
   (ofHex 32 0xfeb4698a1df892e0b0be6142f4d5c3a03e06a41db608091069a8175ebddd7c90,
    0xfe6e20b054b452e30285168e631af7ab39f6c1aef9c8c2e48cb5bd3891fb33cb)]

def minedSha256 : Bytes → Hash256 := hashTable minedHashes

/-- scrypt on the headers that carry work. -/
def minedPowHash : Bytes → Hash256 :=
  hashTable [
(mined1, 0x681c1af332fc57893defca2d68d21244943b1faae76127cba895b6bb77c5a222),
    (mined2, 0xb356723a2f75e6faf525034200148c46fef1c246db448b98888363005c6f7c21),
    (parentHeader, 0x7af708a9f299b66b1254f78835e5151e0535e3079ff33f14144c7be55415ca1a)]

def minedBlock1 : Bytes := mined1 ++ [1] ++ bareCoinbase [1, 1]
def minedBlock2 : Bytes := mined2 ++ [1] ++ bareCoinbase [1, 2]
def mergedBlock2 : Bytes := merged2 ++ aux2 ++ [1] ++ bareCoinbase [1, 2]

def minedRow1 : HeaderRow := ⟨1, rawHash minedSha256 minedBlock1, mined1⟩

theorem served_headers_weigh_sample :
    let n := [(minedBlock1, false), (minedBlock2, false)].foldl
      (connectNext minedSha256 commitAttribute) ⟨fresh minedCoin 0, {}⟩
    getheadersReply n.store minedRow1 = [mined2] ∧
      WeighedInFull minedSha256 minedPowHash minedCoin
        (branchSeed minedCoin n.node.db 1 minedRow1.hash) (getheadersReply n.store minedRow1) := by
  intro n
  have hreply : getheadersReply n.store minedRow1 = [mined2] := by decide +kernel
  have hloc : serveStoreLocate n.store [minedRow1.hash] = some minedRow1 := by decide +kernel
  have hsame : SameUpTo minedRow1.height n.node.db n.node.db := fun _ _ => rfl
  have hfirst : prevField minedBlock1 = (zeros 32 : Hash256).val := by decide +kernel
  have hsecond : prevField minedBlock2 = minedRow1.hash.val := by decide +kernel
  refine ⟨hreply, (served_headers_weigh minedSha256 minedPowHash commitAttribute minedCoin 0
    (by decide) [(minedBlock1, false), (minedBlock2, false)] ?_ [minedRow1.hash] minedRow1
    n.node.db hloc hsame).mpr ?_⟩
  · exact ⟨⟨⟨_, by decide +kernel, hfirst⟩, by decide +kernel⟩,
      ⟨⟨_, by decide +kernel, hsecond⟩, by decide +kernel⟩, trivial⟩
  · intro hdr hhdr
    rw [hreply, List.mem_singleton] at hhdr
    rw [hhdr]
    decide +kernel

/-- The second block is merged-mined and valid, and its header is refused. -/
theorem merged_header_refused :
    let blocks := [(minedBlock1, false), (mergedBlock2, false)]
    let step := connectNext minedSha256 commitAttribute
    let n := blocks.foldl step ⟨fresh minedCoin 0, {}⟩
    Run.Along step (ValidNext minedSha256 minedPowHash minedCoin) ⟨fresh minedCoin 0, {}⟩ blocks ∧
      serveStoreLocate n.store [minedRow1.hash] = some minedRow1 ∧
      ¬ WeighedInFull minedSha256 minedPowHash minedCoin
        (branchSeed minedCoin n.node.db 1 minedRow1.hash) (getheadersReply n.store minedRow1) := by
  intro blocks step n
  have hfirst : prevField minedBlock1 = (zeros 32 : Hash256).val := by decide +kernel
  have hsecond : prevField mergedBlock2 = minedRow1.hash.val := by decide +kernel
  have hnone : (branchWeigh minedSha256 minedPowHash minedCoin
      (branchSeed minedCoin n.node.db 1 minedRow1.hash)
      (headersMessage (getheadersReply n.store minedRow1))).isNone = true := by decide +kernel
  refine ⟨?_, by decide +kernel, ?_⟩
  · exact ⟨⟨⟨_, by decide +kernel, hfirst⟩, by decide +kernel⟩,
      ⟨⟨_, by decide +kernel, hsecond⟩, by decide +kernel⟩, trivial⟩
  · rintro ⟨bc', hweigh, -⟩
    rw [hweigh] at hnone
    cases hnone

end NamespaceIndexer.Daemon
