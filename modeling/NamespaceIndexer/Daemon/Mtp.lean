import NamespaceIndexer.Daemon.Feed
import NamespaceIndexer.Daemon.Weighing
import NamespaceIndexer.Lib.Rank

/-!
# The median time past does not go back

`block_validate` takes its median of the rows in the database, the fold takes
its own of the feed. On a chain of validated blocks both are the element of rank
five of the last eleven times, and each block is above it.
-/

namespace NamespaceIndexer.Daemon

open Fold Lib

section Medians

/-- The last eleven times of a chain. -/
def lastTimes (chain : List Blk) : List ℤ := (chain.drop (chain.length - 11)).map Blk.time

theorem lastTimes_length {chain : List Blk} (h : 11 ≤ chain.length) :
    (lastTimes chain).length = 11 := by
  unfold lastTimes
  rw [List.length_map, List.length_drop]
  omega

/-- `sm_mtp` on a full window. -/
theorem smMtp_eq_ofRank {times : List ℤ} (h : times.length = 11) :
    smMtp times = Rank.ofRank times 5 0 := by
  unfold smMtp Rank.ofRank
  simp only [h, Nat.sub_self, List.drop_zero]

/-- The median of `block_validate` on a full window. -/
theorem medianAllows_iff {times : List ℤ} (h : times.length = 11) (time : ℤ) :
    medianAllows times time = true ↔ Rank.ofRank times 5 0 < time := by
  have hlen : (times.insertionSort (· ≤ ·)).length = 11 := by
    rw [List.length_insertionSort, h]
  have hget := List.getElem?_eq_getElem (l := times.insertionSort (· ≤ ·)) (i := 5) (by omega)
  unfold medianAllows Rank.ofRank
  rw [List.getD_eq_getElem?_getD, h, hget]
  exact decide_eq_true_iff

/-- A block above the median of a full window does not lower the median of the next one. -/
theorem smMtp_step {chain : List Blk} {b : Blk} (h : 11 ≤ chain.length)
    (hb : medianAllows ((chain.reverse.take 11).map Blk.time) b.time = true) :
    smMtp (lastTimes chain) ≤ smMtp (lastTimes (chain ++ [b])) := by
  have hlen := lastTimes_length h
  have hrev : ((chain.reverse.take 11).map Blk.time).Perm (lastTimes chain) := by
    rw [List.take_reverse]
    exact (List.reverse_perm _).map Blk.time
  have hlast : (lastTimes (chain ++ [b])).length = 11 := lastTimes_length (by
    rw [List.length_append, List.length_singleton]
    omega)
  rw [medianAllows_iff (hrev.length_eq.trans hlen), Rank.ofRank_perm hrev] at hb
  rw [smMtp_eq_ofRank hlen, smMtp_eq_ofRank hlast]
  -- the oldest time goes, the new one comes
  have hlt : chain.length - 11 < chain.length := by omega
  obtain ⟨a, m, ha, hm⟩ : ∃ a m, lastTimes chain = a :: m ∧
      lastTimes (chain ++ [b]) = m ++ [b.time] := by
    refine ⟨(chain.get ⟨_, hlt⟩).time, (chain.drop (chain.length - 11 + 1)).map Blk.time, ?_, ?_⟩
    · unfold lastTimes
      rw [List.drop_eq_getElem_cons hlt, List.map_cons]
      rfl
    · unfold lastTimes
      have hsub : (chain ++ [b]).length - 11 = chain.length - 11 + 1 := by
        rw [List.length_append, List.length_singleton]
        omega
      rw [hsub, List.drop_append_of_le_length (by omega), List.map_append]
      rfl
  rw [ha] at hb hlen ⊢
  rw [hm]
  have hm10 : m.length = 10 := by simpa using hlen
  exact Rank.ofRank_slide (by omega) 0 (le_of_lt hb)

end Medians

variable (sha256 idxPowHash : Bytes → Hash256) (idxAttribute : Bytes → ℕ → Option (H160 × Byte))
  (coin : Coin) (activation : UInt64)

/-- The median time that `oracle_for_height` derives. -/
def mtpAt (o : OracleFeed) (height : ℤ) : ℤ := (oracleForHeight o height).1

/-- From twelve above the start on, the median time is not lower at the next height. -/
def MtpMonotone (n : Node) : Prop :=
  ∀ h : ℤ, coin.start + 12 ≤ h → h ≤ n.height → mtpAt n.oracle h ≤ mtpAt n.oracle (h + 1)

section Runs

variable {sha256 idxPowHash coin} {n : Node} {chain : List Blk}

theorem Full.length {start height : ℤ} {chain : List Blk} (hc : Full start height chain) :
    chain.length = (height - start).toNat := by
  have hnodup : (chain.map Blk.height).Nodup :=
    List.pairwise_map.mpr (hc.ordered.imp fun hlt => ne_of_lt hlt)
  have hset : (chain.map Blk.height).toFinset = Finset.Ioc start height := by
    ext h
    rw [List.mem_toFinset, List.mem_map, Finset.mem_Ioc]
    exact hc.heights h
  have hcard := List.toFinset_card_of_nodup hnodup
  rw [hset, Int.card_Ioc, List.length_map] at hcard
  exact hcard.symm

/-- What the feed says of a height up to the next one, the chain says. -/
theorem Fed.mtpAt_eq (hf : Fed sha256 coin n chain) {h : ℤ} (hle : h ≤ n.height + 1) :
    mtpAt n.oracle h = mtpAt ⟨chain, coin.subsidy⟩ h := by
  unfold mtpAt
  rw [← oracleForHeight_below hle, hf.feed]

theorem Fed.mtpAt_next (hf : Fed sha256 coin n chain) :
    mtpAt n.oracle (n.height + 1) = smMtp (lastTimes chain) :=
  congrArg Prod.fst hf.inputs

/-- The rows that `block_validate` takes its median of are the last eleven of the chain. -/
theorem Fed.medianTimes_eq (hf : Fed sha256 coin n chain) (h : 11 ≤ chain.length) :
    medianTimes coin n.db (n.height + 1) = (chain.reverse.take 11).map Blk.time := by
  have hbelow : n.db.blocks.filter (fun r => r.height < n.height + 1)
      = OrderedTable.upTo BlockRow.height n.height n.db.blocks := by
    refine List.filter_congr fun b _ => ?_
    rw [decide_eq_decide]
    omega
  have htimes : idxDbBlockTimes n.db (n.height + 1) = (chain.reverse.take 11).map Blk.time := by
    unfold idxDbBlockTimes
    rw [hbelow, hf.stands.rows, ← List.map_reverse, ← List.map_take, List.map_map]
    rfl
  have hlen : ((chain.reverse.take 11).map Blk.time).length = 11 := by
    rw [List.length_map, List.length_take, List.length_reverse]
    omega
  unfold medianTimes withStandIns
  simp only [htimes, hlen, lt_irrefl, false_and, if_false]

/-- A connected block does not change what the feed says up to its own height. -/
theorem Fed.mtpAt_append (hf : Fed sha256 coin n chain) {n' : Node} {b : Blk}
    (hb : b.height = n.height + 1) (hf' : Fed sha256 coin n' (chain ++ [b]))
    (hheight : n'.height = n.height + 1) {h : ℤ} (hle : h ≤ n.height + 1) :
    mtpAt n'.oracle h = mtpAt n.oracle h := by
  have hlt : ∀ x ∈ chain, x.height < n.height + 1 := fun x hx => by
    have hx' := hf.stands.full.le hx
    omega
  have hbelow : (⟨chain ++ [b], coin.subsidy⟩ : OracleFeed).below (n.height + 1)
      = ⟨chain, coin.subsidy⟩ := by
    unfold OracleFeed.below
    simp only [OrderedTable.below_append, OrderedTable.below_eq_self Blk.height hlt]
    rw [OrderedTable.below_eq_nil Blk.height (by simp [hb]), List.append_nil]
  rw [hf.mtpAt_eq hle, hf'.mtpAt_eq (by omega)]
  unfold mtpAt
  rw [← oracleForHeight_below hle, hbelow]

/-- A validated block is connected to the chain, above the median of a full window. -/
theorem Fed.connectValid (hpow : coin.powlimit ≠ 0) (hf : Fed sha256 coin n chain)
    {block : Bytes × Bool} (hvalid : ValidOn sha256 idxPowHash coin n block) :
    ∃ b : Blk, b.height = n.height + 1 ∧
      Fed sha256 coin (connectBranch sha256 idxAttribute n block) (chain ++ [b]) ∧
      (connectBranch sha256 idxAttribute n block).height = n.height + 1 ∧
      (11 ≤ chain.length →
        medianAllows ((chain.reverse.take 11).map Blk.time) b.time = true) := by
  obtain ⟨m, hm, -, -, -, hmedian⟩ := blockValidate_parts hpow hvalid
  have hf' := hf.connect idxAttribute block.1 block.2
  simp only [Op.chain, hm] at hf'
  refine ⟨_, rfl, hf', ?_, fun hlen => ?_⟩
  · simp only [connectBranch, Node.connect, connectBlock, hm, if_true]
  · rw [hf.medianTimes_eq hlen] at hmedian
    exact hmedian

/-- The feed follows a chain on which median times are in order. -/
def FedInOrder (sha256 : Bytes → Hash256) (coin : Coin) (n : Node) : Prop :=
  ∃ chain, Fed sha256 coin n chain ∧ MtpMonotone coin n

theorem FedInOrder.connect (hpow : coin.powlimit ≠ 0) (hn : FedInOrder sha256 coin n)
    {block : Bytes × Bool} (hvalid : ValidOn sha256 idxPowHash coin n block) :
    FedInOrder sha256 coin (connectBranch sha256 idxAttribute n block) := by
  obtain ⟨chain, hf, hmono⟩ := hn
  obtain ⟨b, hb, hf', hheight, hmedian⟩ := hf.connectValid idxAttribute hpow hvalid
  refine ⟨_, hf', fun h hstart hle => ?_⟩
  rw [hheight] at hle
  by_cases hold : h ≤ n.height
  · rw [hf.mtpAt_append hb hf' hheight (by omega), hf.mtpAt_append hb hf' hheight (by omega)]
    exact hmono h hstart hold
  · have hnew : h = n.height + 1 := by omega
    have hlen : 11 ≤ chain.length := by
      have hcount := hf.stands.full.length
      omega
    rw [hnew, hf.mtpAt_append hb hf' hheight le_rfl, hf.mtpAt_next, ← hheight, hf'.mtpAt_next]
    exact smMtp_step hlen (hmedian hlen)

theorem fedInOrder_fresh : FedInOrder sha256 coin (fresh coin activation) := by
  refine ⟨[], fed_fresh activation, fun h hstart hle => ?_⟩
  change h ≤ (coin.start : ℤ) at hle
  omega

end Runs

section Later

variable {sha256 idxPowHash coin} {n : Node}

/-- Blocks connected later do not change what the feed said when a height was connected. -/
theorem FedInOrder.mtpAt_foldl (hpow : coin.powlimit ≠ 0) (hn : FedInOrder sha256 coin n)
    (blocks : List (Bytes × Bool))
    (hvalid : Run.Along (connectBranch sha256 idxAttribute) (ValidOn sha256 idxPowHash coin) n
      blocks) {h : ℤ} (hle : h ≤ n.height + 1) :
    mtpAt (blocks.foldl (connectBranch sha256 idxAttribute) n).oracle h = mtpAt n.oracle h := by
  induction blocks generalizing n with
  | nil => rfl
  | cons block blocks ih =>
    obtain ⟨chain, hf, -⟩ := id hn
    obtain ⟨b, hb, hf', hheight, -⟩ := hf.connectValid idxAttribute hpow hvalid.1
    rw [List.foldl_cons, ih (hn.connect idxAttribute hpow hvalid.1) hvalid.2 (by omega)]
    exact hf.mtpAt_append hb hf' hheight hle

/-- The median time a block was folded with is what the feed says of its height ever after. -/
theorem FedInOrder.mtpAt_take (hpow : coin.powlimit ≠ 0) (hn : FedInOrder sha256 coin n)
    (blocks : List (Bytes × Bool))
    (hvalid : Run.Along (connectBranch sha256 idxAttribute) (ValidOn sha256 idxPowHash coin) n
      blocks) (k : ℕ) :
    let m := (blocks.take k).foldl (connectBranch sha256 idxAttribute) n
    mtpAt m.oracle (m.height + 1)
      = mtpAt (blocks.foldl (connectBranch sha256 idxAttribute) n).oracle (m.height + 1) := by
  induction blocks generalizing n k with
  | nil => rw [List.take_nil]
  | cons block blocks ih =>
    cases k with
    | zero => exact (hn.mtpAt_foldl idxAttribute hpow (block :: blocks) hvalid le_rfl).symm
    | succ k => exact ih (hn.connect idxAttribute hpow hvalid.1) hvalid.2 k

end Later

/-- On every chain of validated blocks the median time past does not go back, and it is the one
that each block was folded with. -/
theorem mtp_monotone (hpow : coin.powlimit ≠ 0) (blocks : List (Bytes × Bool))
    (hvalid : Run.Along (connectBranch sha256 idxAttribute) (ValidOn sha256 idxPowHash coin)
      (fresh coin activation) blocks) :
    let after := fun k =>
      (blocks.take k).foldl (connectBranch sha256 idxAttribute) (fresh coin activation)
    let tip := blocks.foldl (connectBranch sha256 idxAttribute) (fresh coin activation)
    (∀ h : ℤ, coin.start + 12 ≤ h → h ≤ tip.height → mtpAt tip.oracle h ≤ mtpAt tip.oracle (h + 1)) ∧
      ∀ k, mtpAt (after k).oracle ((after k).height + 1)
        = mtpAt tip.oracle ((after k).height + 1) := by
  intro after tip
  have hfresh : FedInOrder sha256 coin (fresh coin activation) := fedInOrder_fresh activation
  have hlast : ∀ n, FedInOrder sha256 coin n → MtpMonotone coin n := fun _ hn => by
    obtain ⟨_, _, hmono⟩ := hn
    exact hmono
  have hrun := Run.throughout_of_keeps
    (fun _ _ hn hv => FedInOrder.connect idxAttribute hpow hn hv) hlast blocks hfresh hvalid
  exact ⟨hrun.last, fun k => hfresh.mtpAt_take idxAttribute hpow blocks hvalid k⟩

/-! ### Twelve mined blocks -/

/-- A mined block whose only transaction is a coinbase, with what is hashed of it. -/
structure MinedRow where
  time : ℕ
  nonce : ℕ
  coinbase : ℕ
  merkle : ℕ
  header : ℕ
  hash : ℕ
  pow : ℕ

/-- The last block is older than the one before it. -/
def minedRows : List MinedRow := [
  ⟨1000060, 3,
    0x6d98959e9b3da627a8d9245cae4901ba5f0ebc93eed71c97d17a39207aad52d2,
    0x03cb9e0e8271b3166f3c1a46f9d7c137c9ee8e700261ab0ed0395823fdb8f717,
    0xac29a9832af75b83e28689a77d77118c21bea40c994f714b16bf0ee3ae5c84bb,
    0xd3e7f519a6d9d27a9fd65a32199af22c108bb674289231de0d6adc7781ea6554,
    0x681c1af332fc57893defca2d68d21244943b1faae76127cba895b6bb77c5a222⟩,
  ⟨1000120, 4,
    0xb4ff273cf40d36b5083a36d649a895206cff47a60e0aebbc236d0cce36a12e61,
    0x8590b49b8ea75dfc07a58d1cbf021db0bce48e2d8ba24f363db16f5da31a6535,
    0x479bf7d12ad8264e7a3884ea68a5457c950e05e3b1d57262f084b778f2d29c55,
    0x4b1132251e05a4699e32949219960d79782b667c3cc738e17856d0e1f0a35e9b,
    0xb356723a2f75e6faf525034200148c46fef1c246db448b98888363005c6f7c21⟩,
  ⟨1000180, 3,
    0x58ded8d2d4df70702cecc0eee50e0e55087e293354645a0b96c663d304ee66b7,
    0x3ea5c09388bfc40d5553009260bb63772f04dc1e6fc09b387617987d81297783,
    0x91a82660fb5c2a3b075a94e604a243edd7697a38857e74f6641d9799ce69713c,
    0xb4b422d4dd206610b4860c2c75fde033ab111306797e7f6954403031daf19a4b,
    0x7ac62294fe78f411ca03827fb3138d788344a06d1e14ccea15a9560752dfe81d⟩,
  ⟨1000240, 1,
    0x8efcb4552ddcced8dc27bab910ab83dd8839dfaac7f3e5e0a30fe118802bfe24,
    0xc6bb022b484ea6c73e33e5ef7dc044173bad996dbbfb963ee839a2457bf73b5a,
    0x47c30a9c2e72308759fa934d4293e1e7c07fcbdcd297ddbe6d46dbc3c82c9a2e,
    0xcba9fc1b6391d1e8de9c806415add7dcb49ed76ec6ab080a40538a99e84fb9ca,
    0x6866725e0411a3fc351157380cd6c4af15345d1b4b44f13874ec08795a3be54c⟩,
  ⟨1000300, 3,
    0x9480102a6f7d32f111b501b832590d274502e284eee4159031c42be6ead35cfe,
    0xdcdc384d8165961e37e23b8d238889d83b3599f11ed1b113aa058d2efd920499,
    0x6562a2aee5213263c6f1892dd3dd443aa88bdeafd4ff44beb7adde0fbb4d0d10,
    0xeba1e0635b2a169462e06c83228db61a1b2ec8cb2118f5767f95dc30c6b095ed,
    0x3e7116cc090ede89731ecac2f244955b67a9939e94127e5e6ee2c7c72fdeb66a⟩,
  ⟨1000360, 2,
    0x333c7f368e0ebacbc83d6da9bdb0151d9fb3dcbd310df1c9a0433b556b1da016,
    0x8b8284de294e45b8a4203a4d42c3f018ccaea7c363050ec08e15c4c5c4db639b,
    0xdda7b836be74a612a0cd870d5d2b5882b05036a175521d841a71b8f67121b431,
    0xef29d43fec4bea3ea75dc6522f0141e5b435929bae2c4f2da983dd8f1ce01594,
    0xcd6bbfdb6d65afe6d6b2106af1b92857f855f0627c06ba163ecc6f106c102f2d⟩,
  ⟨1000420, 2,
    0xc42ec09b2f9dafcebb1ba1c0610777bb53eae39af7b558c78240801b03699d5a,
    0xc815d0467c565d1d2e9f52cc69b7b43b710ae7149f98650d505bdb12db9f64e1,
    0x953b379ff1804b09355134d276bcebd44acff3b486a3e0b0e45c3b1767380db7,
    0x4188d0977740e0e12969c7bbd3021ba47b3b72fa6ecb56e1b355f7e61c13714e,
    0x4b6dad0a04b2b37efa5ee1f3d80cecc020ae7c25dc3c666a188f4c6afa4c4f3d⟩,
  ⟨1000480, 1,
    0x9f7c88b8ee9b7c80a6fc01cb7c9a812414119d50fd3404cc9ae7829812456ce8,
    0xab20814c3d13beb3b991ac765f2e3953baa6a0868625172407199a41ddb1d1c2,
    0x31521892522a62b7dd04a50c61010a1113381957cd0a6b42288f9fa888d40138,
    0x173c4fe67e47b4c7c70bb8324ec0d8f29c3aacd655137757e66d1fc100f852d4,
    0x43dc4b34b3df5375e79a2f85509bba8cfc12f26eedb98d152ab579ad99b1e76b⟩,
  ⟨1000540, 1,
    0xd152978bcda82c2d0abe46b16ff8d56ff69949cc61b616020d3efb69f8632241,
    0x82945e0ff8a19d1dc246dd46e64034628f8c06fc083d23e31f96b9d757ceb7db,
    0x191c6100bcaedfb3ecdba1bc8558699a98ce1f5714011cff3db67d831720d3a8,
    0x5c315fa3a5b9ed4ae52317ee57f2a04da2aae4e27763ee58b2b9c02e8e3ecfeb,
    0x7f52963d97bbeaff2aee432441e2e75668d664c83b396f4c6e70c49c9734bd11⟩,
  ⟨1000600, 4,
    0x317f79be92bbeb3a56393e82f01d587c3e565a747099361e7b96fa45b3a9a8aa,
    0x837bfcb7d29d1890c68c4dc5092e15dc61bd3f072f9076523fdfa35d3b40d051,
    0x10eaf86f09d939d50fdb2e1250a57d4862da62425a42cd8ccfa2134ef8900ef2,
    0x0d027102ace17744abc52591b4e0729a54c81a4c9bc24d3ad2669d8120ea7aa3,
    0x23c4d845a859412291fbb7a4bebb0213d9379d78c397c0714a7244b419e1cf4a⟩,
  ⟨1000660, 0,
    0x53e17b43b96aa91f7ea945dac605ce7286eb0982d9091b5a01b67b34434f23c4,
    0x9e4db2db4b8b7ff074e3c2945786f6d0f2dcaf7b96a2c69b91ba30f363cbae3b,
    0xbda241d7dc91c15b1c58c38098f6d6bc17f64880f79651c9f0ffff33b1856f91,
    0x00d7a882e0f0219a3d4810ed01b1b734222c0b3fdf585e6f53bfcbc1c414bc64,
    0xa5a900a30361a3ccd662d5b57dc51329eb30caaaaaa27fb8220183a637d2be6b⟩,
  ⟨1000560, 2,
    0x7fccf44a75a84e91b6e216e56f16ea7fe07186adfb68e4e7d20cd6f98cdcc2fa,
    0xfaffcc9b214962ed7e2c5f3cf0aed7d024a873137ee301a7e38ef7d36e156c20,
    0x11354d77125b6641e43a7ca13acddae95af759392cd938a22a5504f3d6bd4908,
    0x6981b975ea3cfc718e79f1bd127a3e10f515cdc07a5519e1432b4436667678f8,
    0x3235383d64dbe17399146837f65a37a84dcd5fa7ecd9686cab106c816341ee04⟩]

def minedHeaders (prev : ℕ) : List MinedRow → List Bytes
  | [] => []
  | r :: rs => minedHeader 0x00620004 prev r.merkle r.time r.nonce :: minedHeaders r.hash rs

def minedRun : List (Bytes × Bool) :=
  (minedHeaders 0 minedRows).zipIdx.map fun (hdr, k) =>
    (hdr ++ [1] ++ bareCoinbase [1, Fin.ofNat 256 (k + 1)], false)

def runSha256 : Bytes → Hash256 :=
  hashTable (((minedHeaders 0 minedRows).zip minedRows).zipIdx.flatMap fun ((hdr, r), k) =>
    [(bareCoinbase [1, Fin.ofNat 256 (k + 1)], r.coinbase), (ofHex 32 r.coinbase, r.merkle),
      (hdr, r.header), (ofHex 32 r.header, r.hash)])

def runPowHash : Bytes → Hash256 :=
  hashTable (((minedHeaders 0 minedRows).zip minedRows).map fun (hdr, r) => (hdr, r.pow))

instance (sha256 idxPowHash : Bytes → Hash256) (coin : Coin) (n : Node) (block : Bytes × Bool) :
    Decidable (ValidOn sha256 idxPowHash coin n block) :=
  inferInstanceAs (Decidable (_ = true))

theorem mtp_monotone_sample :
    let tip := minedRun.foldl (connectBranch runSha256 commitAttribute) (fresh minedCoin 0)
    tip.height = 12 ∧ mtpAt tip.oracle 12 ≤ mtpAt tip.oracle 13 := by
  intro tip
  have hheight : tip.height = 12 := by decide +kernel
  have hmono := mtp_monotone runSha256 runPowHash commitAttribute minedCoin 0 (by decide) minedRun
    (by decide +kernel)
  exact ⟨hheight, hmono.1 12 (by decide) (le_of_eq hheight.symm)⟩

end NamespaceIndexer.Daemon
