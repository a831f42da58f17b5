import NamespaceIndexer.Daemon.Sync
import NamespaceIndexer.Ledger.Skip

/-!
# A rollback refolds what the live fold did

The rows of `raw_blocks` are the blocks of the live fold that carried something
or touched the wallet, and the feed gives each of them the time and rate it had
live. So a rollback is the live run without the other blocks.
-/

namespace NamespaceIndexer.Daemon

open Fold Lib

variable (sha256 : Bytes → Hash256) (idxAttribute : Bytes → ℕ → Option (H160 × Byte))

/-- `idx_parse_block` accepts the bytes. -/
def Parses (raw : Bytes) : Prop := (idxParseBlock sha256 raw).2.isSome = true

instance (raw : Bytes) : Decidable (Parses sha256 raw) := instDecidableEqBool _ _

/-- The feed after the block at `height` was connected. -/
def recordBlock (oracle : OracleFeed) (height : ℤ) (raw : Bytes) : OracleFeed :=
  match (idxParseBlock sha256 raw).2 with
  | none => oracle
  | some m => oracleRecord oracle ⟨height, m.time, m.coinbaseOutTotal, m.blockBytes⟩

/-- Blocks as `connect_block` gets them: the bytes, and whether the wallet is touched. -/
abbrev RawRun := List (Bytes × Bool)

/-- The blocks of a run above `height`, with whether their bytes are kept. -/
def liveBlocks (oracle : OracleFeed) (height : ℤ) : RawRun → List (FoldBlock × Bool)
  | [] => []
  | (raw, walletTouched) :: blocks =>
    let b := blockAt sha256 idxAttribute oracle (height + 1) raw
    (b, !b.txs.isEmpty || walletTouched) ::
      liveBlocks (recordBlock sha256 oracle (height + 1) raw) (height + 1) blocks

/-- The rows of `raw_blocks` that a run above `height` writes. -/
def keptRows (height : ℤ) : RawRun → List RawRow
  | [] => []
  | (raw, walletTouched) :: blocks =>
    (if !(blockTxs sha256 idxAttribute raw).isEmpty || walletTouched then [⟨height + 1, raw⟩]
      else []) ++ keptRows (height + 1) blocks

/-- The live fold of a run. -/
def connectAll (n : Node) (blocks : RawRun) : Node :=
  blocks.foldl (fun n blk => n.connect sha256 idxAttribute blk.1 blk.2) n

/-- The feed and the raw blocks reach up to the tip. -/
structure Chained (n : Node) : Prop where
  ordered : OrderedTable.Ordered Blk.height n.oracle.v
  feed : ∀ b ∈ n.oracle.v, b.height ≤ n.height
  raw : ∀ r ∈ n.db.rawBlocks, r.height ≤ n.height

theorem blockAt_txs (oracle : OracleFeed) (height : ℤ) (raw : Bytes) :
    (blockAt sha256 idxAttribute oracle height raw).txs = blockTxs sha256 idxAttribute raw := rfl

theorem connectWrites_db (db : Db) (height : ℤ) (raw : Bytes) (kept : Bool) (m : IdxBlockMeta) :
    db.writes (connectWrites height raw kept m)
      = { db with
          blocks := OrderedTable.put BlockRow.height
            ⟨height, m.blockHash, m.time, m.coinbaseOutTotal, m.blockBytes, m.bits⟩ db.blocks
          rawBlocks := if kept then OrderedTable.put RawRow.height ⟨height, raw⟩ db.rawBlocks
            else db.rawBlocks
          height := some height
          tip := some m.blockHash } := by
  cases kept <;> rfl

/-- The whole feed lies below the next block. -/
theorem Chained.below_self {n : Node} (hn : Chained n) :
    n.oracle.below (n.height + 1) = n.oracle := by
  unfold OracleFeed.below
  rw [OrderedTable.below_eq_self Blk.height fun b hb => Int.lt_add_one_iff.mpr (hn.feed b hb)]

section Connect

variable {sha256} {raw : Bytes} (n : Node) (walletTouched : Bool)

/-- A block whose bytes parse is connected: what becomes of the node. -/
theorem connect_parses (h : Parses sha256 raw) :
    ∃ m : IdxBlockMeta, (idxParseBlock sha256 raw).2 = some m ∧
      (n.connect sha256 idxAttribute raw walletTouched).s
        = foldBlock sha256 n.s (blockAt sha256 idxAttribute n.oracle (n.height + 1) raw) ∧
      (n.connect sha256 idxAttribute raw walletTouched).oracle
        = recordBlock sha256 n.oracle (n.height + 1) raw ∧
      (n.connect sha256 idxAttribute raw walletTouched).height = n.height + 1 ∧
      (n.connect sha256 idxAttribute raw walletTouched).tip = some m.blockHash ∧
      (n.connect sha256 idxAttribute raw walletTouched).db
        = { n.db with
            blocks := OrderedTable.put BlockRow.height
              ⟨n.height + 1, m.blockHash, m.time, m.coinbaseOutTotal, m.blockBytes, m.bits⟩
              n.db.blocks
            rawBlocks := if !(blockTxs sha256 idxAttribute raw).isEmpty || walletTouched then
                OrderedTable.put RawRow.height ⟨n.height + 1, raw⟩ n.db.rawBlocks
              else n.db.rawBlocks
            height := some (n.height + 1)
            tip := some m.blockHash } := by
  obtain ⟨m, hm⟩ := Option.isSome_iff_exists.mp h
  refine ⟨m, hm, ?_⟩
  unfold Node.connect connectBlock recordBlock
  simp only [hm, if_true, blockAt_txs]
  refine ⟨trivial, trivial, trivial, ?_, connectWrites_db ..⟩
  rw [connectWrites_db]

variable {n}

theorem Chained.connect (hn : Chained n) (h : Parses sha256 raw) :
    Chained (n.connect sha256 idxAttribute raw walletTouched) := by
  obtain ⟨m, hm, -, ho, hh, -, hdb⟩ :=
    connect_parses idxAttribute n walletTouched h
  refine ⟨?_, ?_, ?_⟩
  · rw [ho]
    simp only [recordBlock, hm]
    exact ordered_oracleRecord hn.ordered _
  · rw [ho, hh]
    simp only [recordBlock, hm]
    rw [oracleRecord_eq hn.ordered]
    intro b hb
    rcases List.mem_append.mp hb with hb | hb
    · have hlt := ((OrderedTable.mem_below Blk.height).mp hb).2
      simp only at hlt
      omega
    · rw [List.mem_singleton.mp hb]
  · rw [hdb, hh]
    intro r hr
    simp only at hr
    split at hr
    · rcases (OrderedTable.mem_put RawRow.height).mp hr with rfl | ⟨hr, -⟩
      · exact le_refl _
      · have hle := hn.raw r hr
        omega
    · have hle := hn.raw r hr
      omega

/-- The row written by a block lies above all others. -/
theorem Chained.connect_rawBlocks (hn : Chained n) (h : Parses sha256 raw) :
    (n.connect sha256 idxAttribute raw walletTouched).db.rawBlocks
      = n.db.rawBlocks ++ keptRows sha256 idxAttribute n.height [(raw, walletTouched)] := by
  obtain ⟨m, -, -, -, -, -, hdb⟩ :=
    connect_parses idxAttribute n walletTouched h
  rw [hdb]
  simp only [keptRows, List.append_nil]
  split
  · refine OrderedTable.put_of_above RawRow.height fun r hr => ?_
    have hle := hn.raw r hr
    simp only
    omega
  · rw [List.append_nil]

/-- The feed below a connected block is what it was. -/
theorem Chained.connect_below (hn : Chained n) (h : Parses sha256 raw) :
    (n.connect sha256 idxAttribute raw walletTouched).oracle.below (n.height + 1) = n.oracle := by
  obtain ⟨m, hm, -, ho, -, -, -⟩ :=
    connect_parses idxAttribute n walletTouched h
  rw [ho]
  simp only [recordBlock, hm]
  rw [oracleRecord_eq hn.ordered]
  have hself : OrderedTable.below Blk.height (n.height + 1) n.oracle.v = n.oracle.v :=
    congrArg OracleFeed.v hn.below_self
  simp only [OracleFeed.below, hself]
  rw [OrderedTable.below_append, hself,
    OrderedTable.below_eq_nil Blk.height (t := [_]) (by simp), List.append_nil]

end Connect

/-! ### Whole runs -/

section Run

variable {sha256} {n : Node} {blocks : RawRun}

variable (sha256) in
theorem connectAll_append (blocks blocks' : RawRun) :
    connectAll sha256 idxAttribute n (blocks ++ blocks')
      = connectAll sha256 idxAttribute (connectAll sha256 idxAttribute n blocks) blocks' :=
  List.foldl_append

theorem connectAll_height (hp : ∀ blk ∈ blocks, Parses sha256 blk.1) :
    (connectAll sha256 idxAttribute n blocks).height = n.height + blocks.length := by
  induction blocks generalizing n with
  | nil => exact (add_zero _).symm
  | cons blk blocks ih =>
    obtain ⟨-, -, -, -, hh, -, -⟩ := connect_parses idxAttribute n blk.2
      (hp blk (List.mem_cons_self ..))
    refine (ih fun b hb => hp b (List.mem_cons_of_mem _ hb)).trans ?_
    rw [hh, List.length_cons]
    push_cast
    ring

theorem Chained.run (hn : Chained n) (hp : ∀ blk ∈ blocks, Parses sha256 blk.1) :
    Chained (connectAll sha256 idxAttribute n blocks) := by
  induction blocks generalizing n with
  | nil => exact hn
  | cons blk blocks ih =>
    exact ih (hn.connect idxAttribute blk.2 (hp blk (List.mem_cons_self ..)))
      fun b hb => hp b (List.mem_cons_of_mem _ hb)

theorem connectAll_s (hp : ∀ blk ∈ blocks, Parses sha256 blk.1) :
    (connectAll sha256 idxAttribute n blocks).s
      = foldBlocks sha256 n.s
          ((liveBlocks sha256 idxAttribute n.oracle n.height blocks).map Prod.fst) := by
  induction blocks generalizing n with
  | nil => rfl
  | cons blk blocks ih =>
    obtain ⟨-, -, hs, ho, hh, -, -⟩ := connect_parses idxAttribute n blk.2
      (hp blk (List.mem_cons_self ..))
    refine (ih fun b hb => hp b (List.mem_cons_of_mem _ hb)).trans ?_
    rw [hs, ho, hh]
    rfl

theorem Chained.run_rawBlocks (hn : Chained n) (hp : ∀ blk ∈ blocks, Parses sha256 blk.1) :
    (connectAll sha256 idxAttribute n blocks).db.rawBlocks
      = n.db.rawBlocks ++ keptRows sha256 idxAttribute n.height blocks := by
  induction blocks generalizing n with
  | nil => exact (List.append_nil _).symm
  | cons blk blocks ih =>
    have hblk := hp blk (List.mem_cons_self ..)
    obtain ⟨-, -, -, -, hh, -, -⟩ := connect_parses idxAttribute n blk.2 hblk
    refine (ih (hn.connect idxAttribute blk.2 hblk) fun b hb => hp b (List.mem_cons_of_mem _ hb)).trans ?_
    rw [hn.connect_rawBlocks idxAttribute blk.2 hblk, hh, List.append_assoc]
    simp only [keptRows, List.append_nil]

/-- The feed below the blocks of a run is what it was before them. -/
theorem Chained.run_below (hn : Chained n) (hp : ∀ blk ∈ blocks, Parses sha256 blk.1) :
    (connectAll sha256 idxAttribute n blocks).oracle.below (n.height + 1) = n.oracle := by
  induction blocks generalizing n with
  | nil => exact hn.below_self
  | cons blk blocks ih =>
    have hblk := hp blk (List.mem_cons_self ..)
    obtain ⟨-, -, -, -, hh, -, -⟩ := connect_parses idxAttribute n blk.2 hblk
    have hrest := ih (hn.connect idxAttribute blk.2 hblk)
      fun b hb => hp b (List.mem_cons_of_mem _ hb)
    have hone := hn.connect_below idxAttribute blk.2 hblk
    rw [hh] at hrest
    rw [← hrest] at hone
    refine Eq.trans ?_ hone
    unfold OracleFeed.below
    simp only
    rw [OrderedTable.below_below Blk.height (by omega)]
    rfl

theorem keptRows_above (height : ℤ) :
    ∀ r ∈ keptRows sha256 idxAttribute height blocks, height < r.height := by
  induction blocks generalizing height with
  | nil => simp [keptRows]
  | cons blk blocks ih =>
    intro r hr
    simp only [keptRows, List.mem_append] at hr
    rcases hr with hr | hr
    · split at hr
      · rw [List.mem_singleton.mp hr]
        exact lt_add_one height
      · cases hr
    · have hlt := ih (height + 1) r hr
      omega

/-- A feed that extends the live one says of the next height what it said live. -/
theorem blockAt_feed {oracle : OracleFeed} (hn : Chained n)
    (hp : ∀ blk ∈ blocks, Parses sha256 blk.1)
    (ho : oracle.below ((connectAll sha256 idxAttribute n blocks).height + 1)
      = (connectAll sha256 idxAttribute n blocks).oracle) (raw : Bytes) :
    blockAt sha256 idxAttribute oracle (n.height + 1) raw
      = blockAt sha256 idxAttribute n.oracle (n.height + 1) raw := by
  have hfeed : oracle.below (n.height + 1) = n.oracle := by
    rw [← hn.run_below idxAttribute hp, ← ho]
    unfold OracleFeed.below
    simp only
    rw [OrderedTable.below_below Blk.height]
    rw [connectAll_height idxAttribute hp]
    omega
  unfold blockAt
  rw [← oracleForHeight_below (le_refl (n.height + 1)), hfeed]

/-- Replaying the kept rows with a feed that extends the live one is the live run without the blocks
that were not kept. -/
theorem rollbackReplay_keptRows {oracle : OracleFeed} (hn : Chained n)
    (hp : ∀ blk ∈ blocks, Parses sha256 blk.1)
    (ho : oracle.below ((connectAll sha256 idxAttribute n blocks).height + 1)
      = (connectAll sha256 idxAttribute n blocks).oracle) (s : SmState) :
    rollbackReplay sha256 idxAttribute oracle (keptRows sha256 idxAttribute n.height blocks) s
      = (true, foldBlocks sha256 s
          (keptBlocks (liveBlocks sha256 idxAttribute n.oracle n.height blocks))) := by
  induction blocks generalizing n s with
  | nil => rfl
  | cons blk blocks ih =>
    obtain ⟨raw, walletTouched⟩ := blk
    have hblk := hp (raw, walletTouched) (List.mem_cons_self ..)
    have htail := fun b hb => hp b (List.mem_cons_of_mem _ hb)
    obtain ⟨m, hm, -, hor, hh, -, -⟩ := connect_parses idxAttribute n walletTouched hblk
    have hrest := ih (hn.connect idxAttribute walletTouched hblk) htail ho
    rw [hor, hh] at hrest
    have hblock := blockAt_feed idxAttribute hn hp ho raw
    simp only [keptRows, liveBlocks, keptBlocks, blockAt_txs]
    cases hk : (!(blockTxs sha256 idxAttribute raw).isEmpty || walletTouched) with
    | true =>
      simp only [if_true, List.filter_cons, List.singleton_append, rollbackReplay, hm, hblock]
      exact hrest _
    | false =>
      simp only [Bool.false_eq_true, if_false, List.filter_cons, List.nil_append]
      exact hrest s

/-- The next block of a run. -/
theorem liveBlocks_snoc (hp : ∀ blk ∈ blocks, Parses sha256 blk.1) (blk : Bytes × Bool) :
    liveBlocks sha256 idxAttribute n.oracle n.height (blocks ++ [blk])
      = liveBlocks sha256 idxAttribute n.oracle n.height blocks ++
        [(blockAt sha256 idxAttribute (connectAll sha256 idxAttribute n blocks).oracle
            ((connectAll sha256 idxAttribute n blocks).height + 1) blk.1,
          !(blockTxs sha256 idxAttribute blk.1).isEmpty || blk.2)] := by
  induction blocks generalizing n with
  | nil => rfl
  | cons blk' blocks ih =>
    obtain ⟨-, -, -, ho, hh, -, -⟩ := connect_parses idxAttribute n blk'.2
      (hp blk' (List.mem_cons_self ..))
    have hrest := ih (n := n.connect sha256 idxAttribute blk'.1 blk'.2)
      fun b hb => hp b (List.mem_cons_of_mem _ hb)
    rw [ho, hh] at hrest
    exact congrArg (List.cons _) hrest

theorem liveBlocks_take (oracle : OracleFeed) (height : ℤ) (k : ℕ) :
    liveBlocks sha256 idxAttribute oracle height (blocks.take k)
      = (liveBlocks sha256 idxAttribute oracle height blocks).take k := by
  induction blocks generalizing oracle height k with
  | nil =>
    rw [List.take_nil]
    exact List.take_nil.symm
  | cons blk blocks ih =>
    cases k with
    | zero => rfl
    | succ k => exact congrArg (List.cons _) (ih _ _ k)

theorem liveBlocks_length (oracle : OracleFeed) (height : ℤ) :
    (liveBlocks sha256 idxAttribute oracle height blocks).length = blocks.length := by
  induction blocks generalizing oracle height with
  | nil => rfl
  | cons blk blocks ih => exact congrArg (· + 1) (ih _ _)

theorem liveBlocks_empty (oracle : OracleFeed) (height : ℤ) :
    ∀ bk ∈ liveBlocks sha256 idxAttribute oracle height blocks, bk.2 = false → bk.1.txs = [] := by
  induction blocks generalizing oracle height with
  | nil => simp [liveBlocks]
  | cons blk blocks ih =>
    intro bk hbk hf
    rcases List.mem_cons.mp hbk with rfl | hbk
    · simp only [Bool.or_eq_false_iff, Bool.not_eq_false', List.isEmpty_iff] at hf
      exact hf.1
    · exact ih _ _ bk hbk hf

theorem liveBlocks_heights (oracle : OracleFeed) (height : ℤ) :
    (∀ bk ∈ liveBlocks sha256 idxAttribute oracle height blocks, height < bk.1.height) ∧
      ((liveBlocks sha256 idxAttribute oracle height blocks).map Prod.fst).Pairwise
        fun b b' => b.height < b'.height := by
  induction blocks generalizing oracle height with
  | nil => exact ⟨by simp [liveBlocks], List.Pairwise.nil⟩
  | cons blk blocks ih =>
    obtain ⟨hlow, hup⟩ := ih (recordBlock sha256 oracle (height + 1) blk.1) (height + 1)
    refine ⟨fun bk hbk => ?_, List.pairwise_cons.mpr ⟨fun b hb => ?_, hup⟩⟩
    · rcases List.mem_cons.mp hbk with rfl | hbk
      · exact lt_add_one height
      · have hlt := hlow bk hbk
        omega
    · obtain ⟨bk, hbk, rfl⟩ := List.mem_map.mp hb
      exact hlow bk hbk

end Run

/-! ### Rolling back a live run -/

variable (coin : Coin) (activation : UInt64)

/-- A pass over a new database. -/
def fresh : Node := startup coin activation {}

theorem chained_fresh : Chained (fresh coin activation) :=
  ⟨List.Pairwise.nil, fun _ hb => absurd hb List.not_mem_nil, fun _ hr => absurd hr List.not_mem_nil⟩

/-- The live run of a new database. -/
def liveRun (blocks : RawRun) : List (FoldBlock × Bool) :=
  liveBlocks sha256 idxAttribute (fresh coin activation).oracle coin.start blocks

section Rollback

variable {blocks : RawRun} (hp : ∀ blk ∈ blocks, Parses sha256 blk.1) {k : ℕ} (hk : k ≤ blocks.length)

include hp hk

/-- Below the cut the feed is the live one. -/
theorem rollback_feed :
    oracleRollback (connectAll sha256 idxAttribute (fresh coin activation) blocks).oracle
        (coin.start + k + 1)
      = (connectAll sha256 idxAttribute (fresh coin activation) (blocks.take k)).oracle := by
  have hpre : ∀ blk ∈ blocks.take k, Parses sha256 blk.1 := fun b hb => hp b (List.mem_of_mem_take hb)
  have hpost : ∀ blk ∈ blocks.drop k, Parses sha256 blk.1 := fun b hb => hp b (List.mem_of_mem_drop hb)
  have hlive := (chained_fresh coin activation).run idxAttribute hpre
  have hheight : (connectAll sha256 idxAttribute (fresh coin activation) (blocks.take k)).height
      = coin.start + k := by
    rw [connectAll_height idxAttribute hpre, List.length_take, min_eq_left hk]
    rfl
  have hsplit := connectAll_append sha256 idxAttribute (n := fresh coin activation)
    (blocks.take k) (blocks.drop k)
  rw [List.take_append_drop] at hsplit
  rw [hsplit, oracleRollback_eq (hlive.run idxAttribute hpost).ordered, ← hheight]
  exact hlive.run_below idxAttribute hpost

/-- Below the cut the raw blocks are the kept ones. -/
theorem rollback_rows :
    OrderedTable.upTo RawRow.height (coin.start + k)
        (connectAll sha256 idxAttribute (fresh coin activation) blocks).db.rawBlocks
      = keptRows sha256 idxAttribute coin.start (blocks.take k) := by
  have hpre : ∀ blk ∈ blocks.take k, Parses sha256 blk.1 := fun b hb => hp b (List.mem_of_mem_take hb)
  have hpost : ∀ blk ∈ blocks.drop k, Parses sha256 blk.1 := fun b hb => hp b (List.mem_of_mem_drop hb)
  have hchain := chained_fresh coin activation
  have hlive := hchain.run idxAttribute hpre
  have hheight : (connectAll sha256 idxAttribute (fresh coin activation) (blocks.take k)).height
      = coin.start + k := by
    rw [connectAll_height idxAttribute hpre, List.length_take, min_eq_left hk]
    rfl
  have hkeep : OrderedTable.upTo RawRow.height (coin.start + k)
        (connectAll sha256 idxAttribute (fresh coin activation) (blocks.take k)).db.rawBlocks
      = (connectAll sha256 idxAttribute (fresh coin activation) (blocks.take k)).db.rawBlocks :=
    OrderedTable.upTo_eq_self RawRow.height fun r hr => hheight ▸ hlive.raw r hr
  have hdrop : OrderedTable.upTo RawRow.height (coin.start + k)
      (keptRows sha256 idxAttribute (coin.start + k) (blocks.drop k)) = [] :=
    List.filter_eq_nil_iff.mpr fun r hr => by
      simpa using keptRows_above idxAttribute _ r hr
  have hsplit := connectAll_append sha256 idxAttribute (n := fresh coin activation)
    (blocks.take k) (blocks.drop k)
  rw [List.take_append_drop] at hsplit
  rw [hsplit, hlive.run_rawBlocks idxAttribute hpost, hheight, OrderedTable.upTo_append, hkeep, hdrop,
    List.append_nil, hchain.run_rawBlocks idxAttribute hpre]
  rfl

/-- The rollback of a live run to a height of it replays the kept blocks up to there. -/
theorem rollback_replays :
    let tip := connectAll sha256 idxAttribute (fresh coin activation) blocks
    let out := idxSyncRollback sha256 idxAttribute tip.db tip.oracle activation (coin.start + k)
    out.ok = true ∧ out.s =
      { foldBlocks sha256 (smNew activation)
          (keptBlocks (liveRun sha256 idxAttribute coin activation (blocks.take k))) with
        curHeight := coin.start + k } := by
  intro tip out
  have hpre : ∀ blk ∈ blocks.take k, Parses sha256 blk.1 := fun b hb => hp b (List.mem_of_mem_take hb)
  have hchain := chained_fresh coin activation
  have hrows : idxDbRawblockIter (tip.db.writes (idxDbBlockPruneAbove (coin.start + k)))
        (coin.start + k)
      = keptRows sha256 idxAttribute coin.start (blocks.take k) :=
    (OrderedTable.upTo_upTo RawRow.height (le_refl _)).trans
      (rollback_rows sha256 idxAttribute coin activation hp hk)
  have hreplay := rollbackReplay_keptRows idxAttribute hchain hpre
    (hchain.run idxAttribute hpre).below_self (smNew activation)
  have hout : out = idxSyncRollback sha256 idxAttribute tip.db tip.oracle activation
      (coin.start + k) := rfl
  have hfeed : oracleRollback tip.oracle (coin.start + k + 1)
      = (connectAll sha256 idxAttribute (fresh coin activation) (blocks.take k)).oracle :=
    rollback_feed sha256 idxAttribute coin activation hp hk
  simp only [idxSyncRollback, hrows, hfeed] at hout
  rw [show (fresh coin activation).height = coin.start from rfl] at hreplay
  rw [hreplay] at hout
  rw [hout]
  exact ⟨rfl, rfl⟩

end Rollback

/-- Rolling back to a height of the live run gives the rows the live fold had there, and their
digest, when every block that was not kept could be skipped. -/
theorem rollback_eq_live {blocks : RawRun} (hp : ∀ blk ∈ blocks, Parses sha256 blk.1)
    {toHeight : ℤ} (hlo : coin.start ≤ toHeight)
    (hhi : toHeight ≤ (connectAll sha256 idxAttribute (fresh coin activation) blocks).height)
    (hskip : Skippable sha256 (fresh coin activation).s (liveRun sha256 idxAttribute coin activation
      (blocks.take (toHeight - coin.start).toNat))) :
    let tip := connectAll sha256 idxAttribute (fresh coin activation) blocks
    let live := connectAll sha256 idxAttribute (fresh coin activation)
      (blocks.take (toHeight - coin.start).toNat)
    let out := idxSyncRollback sha256 idxAttribute tip.db tip.oracle activation toHeight
    out.ok = true ∧ SameRows out.s live.s ∧
      smStateDigest sha256 out.s = smStateDigest sha256 live.s := by
  intro tip live out
  obtain ⟨k, rfl⟩ : ∃ k : ℕ, toHeight = coin.start + k :=
    ⟨(toHeight - coin.start).toNat, by omega⟩
  have hkn : ((coin.start : ℤ) + k - coin.start).toNat = k := by omega
  have hlen : k ≤ blocks.length := by
    rw [connectAll_height idxAttribute hp, show (fresh coin activation).height = coin.start from rfl]
      at hhi
    omega
  have hpre : ∀ blk ∈ blocks.take k, Parses sha256 blk.1 := fun b hb => hp b (List.mem_of_mem_take hb)
  obtain ⟨hok, hs⟩ := rollback_replays sha256 idxAttribute coin activation hp hlen
  rw [hkn] at hskip
  have hlive : live.s = foldBlocks sha256 (fresh coin activation).s
      ((liveRun sha256 idxAttribute coin activation (blocks.take k)).map Prod.fst) := by
    change (connectAll sha256 idxAttribute _ (blocks.take _)).s = _
    rw [hkn, connectAll_s idxAttribute hpre]
    rfl
  have hfresh : WellKeyed (fresh coin activation).s := ⟨List.nodup_nil, List.nodup_nil⟩
  have hrows : SameRows out.s live.s := by
    have hlag := lag_foldBlocks sha256 _ hfresh (wellKeyed_smNew activation)
      (liveBlocks_empty idxAttribute _ _) [] (by simp) ⟨rfl, rfl, rfl, rfl⟩ hskip
    change SameRows (idxSyncRollback sha256 idxAttribute tip.db tip.oracle activation _).s live.s
    rw [hs, hlive]
    exact ⟨hlag.activationHeight, hlag.names, hlag.commits, hlag.muts⟩
  refine ⟨hok, hrows, ?_⟩
  -- live heights increase, so no two commits tie in the sort order of the digest
  have htie : CommitsTieFree live.s.commits := by
    rw [hlive]
    refine commitsTieFree_foldBlocks hfresh sha256 (fun c hc => absurd hc List.not_mem_nil)
      (fun c hc => absurd hc List.not_mem_nil) ?_
    exact (liveBlocks_heights idxAttribute _ _).2
  have hkeyed : WellKeyed live.s := by
    rw [hlive]
    exact (hfresh.tracks.foldBlocks sha256 _).keyed
  exact (hrows.symm.agree.digest_eq hkeyed sha256 htie).symm

/-! ### Three blocks -/

/-- The bytes of a hexadecimal numeral. -/
def ofHex (n v : ℕ) : Bytes := (leBytes n v).reverse

/-- A hash by its values on known inputs. -/
def hashTable (table : List (Bytes × ℕ)) (b : Bytes) : Hash256 :=
  copyFrom 32 (ofHex 32 ((table.lookup b).getD 0))

/-- A signed transaction with one output, a commit. -/
def commitTx : Bytes :=
  ofHex 32 0x0100000001111111111111111111111111111111111111111111111111111111 ++
  ofHex 32 0x1111111111000000006b483045022100c4bae770cf506c5a5636601a6fce2387 ++
  ofHex 32 0xb07b7a90d26e19020abf3130b145c0bf02204f78f328dd0e8a57ee6b7cb4ef91 ++
  ofHex 32 0xbea78696527c0872f624bf64f755f038370b01210279be667ef9dcbbac55a062 ++
  ofHex 32 0x95ce870b07029bfcdb2dce28d959f2815b16f81798ffffffff01000000000000 ++
  ofHex 32 0x0000266a24ff504e039505cacb7c710ed17125fcc6cb3669e8ddca6c8cd8af6a ++
  ofHex 13 0x31f6b3cd64604c309800000000

/-- A block header: version 1, no target. -/
def headerOf (prev merkle time : ℕ) : Bytes :=
  leBytes 4 1 ++ ofHex 32 prev ++ ofHex 32 merkle ++ leBytes 4 time ++ leBytes 8 0

def header1 : Bytes :=
  headerOf 0 0xb738d74202a89b68fb1b4f871b66aa83cb0b3a2c6219c3eb538203c080d6a7b6 1000
def header2 : Bytes :=
  headerOf 0x628c97b28ab52dbf70baac1fea0aaa5e7291afa534ef03ca9d4faf1fef013379 0 20001
def header3 : Bytes :=
  headerOf 0x01734b50c1abe809b57aeaec8941ce9128d42b195f9a0492bf7a295e7299ecfe 0 20002

/-- SHA-256 on what these blocks hash. -/
def chainHashes : List (Bytes × ℕ) :=
  [(commitTx, 0x95427fc558f5cc1f4176637a0cd4bf1ad503f7f1b3bff71fb04ed20bede88411),
   (ofHex 32 0x95427fc558f5cc1f4176637a0cd4bf1ad503f7f1b3bff71fb04ed20bede88411,
    0xb738d74202a89b68fb1b4f871b66aa83cb0b3a2c6219c3eb538203c080d6a7b6),
   (header1, 0x8dc7c91e896a903e0db69c1e7bde194fce4d7a7087718e1405d33e3da71b7405),
   (ofHex 32 0x8dc7c91e896a903e0db69c1e7bde194fce4d7a7087718e1405d33e3da71b7405,
    0x628c97b28ab52dbf70baac1fea0aaa5e7291afa534ef03ca9d4faf1fef013379),
   (header2, 0x98f7dc39a54dfd0adfdd9569a18da5bdeae0c73ca4b1321b0a9c3ac52f70df35),
   (ofHex 32 0x98f7dc39a54dfd0adfdd9569a18da5bdeae0c73ca4b1321b0a9c3ac52f70df35,
    0x01734b50c1abe809b57aeaec8941ce9128d42b195f9a0492bf7a295e7299ecfe),
   (header3, 0x8d8270d3bd238ebec2aff6843559d7feda401187171d23ade77e0a3949c813f6),
   (ofHex 32 0x8d8270d3bd238ebec2aff6843559d7feda401187171d23ade77e0a3949c813f6,
    0x52d283910d5549aa127e4e86b3347f0a4430584a4774e7ba7fb113777199ab9e)]

def chainSha256 : Bytes → Hash256 := hashTable chainHashes

/-- The signature of the transaction is its owner's. -/
def commitAttribute (raw : Bytes) (k : ℕ) : Option (H160 × Byte) :=
  if raw = commitTx ∧ k = 0 then
    some (copyFrom 20 (ofHex 20 0x751e76e8199196d454941c45d1b3a323f1433bd6), 0)
  else none

/-- A block that commits, and two without transactions. -/
def commitChain : RawRun :=
  [(header1 ++ [1] ++ commitTx, false), (header2 ++ [0], false), (header3 ++ [0], false)]

def commitCoin : Coin := { start := 0, startHash := zeros 32, subsidy := 1000000000000 }

theorem rollback_eq_live_sample :
    let live := connectAll chainSha256 commitAttribute (fresh commitCoin 0) (commitChain.take 2)
    let tip := connectAll chainSha256 commitAttribute (fresh commitCoin 0) commitChain
    let out := idxSyncRollback chainSha256 commitAttribute tip.db tip.oracle 0 2
    out.ok = true ∧ SameRows out.s live.s ∧ live.s.commits ≠ [] :=
  have hp : ∀ blk ∈ commitChain, Parses chainSha256 blk.1 := by decide +kernel
  have hlo : (commitCoin.start : ℤ) ≤ 2 := by decide
  have h := rollback_eq_live chainSha256 commitAttribute commitCoin 0 hp hlo (by decide +kernel)
    (by decide +kernel)
  ⟨h.1, h.2.1, by decide +kernel⟩

/-- The third block is not kept, and a commit expires at it: the live fold prunes the commit, and a
rollback to the third block still has it. -/
theorem rollback_keeps_pruned_commit :
    let tip := connectAll chainSha256 commitAttribute (fresh commitCoin 0) commitChain
    let out := idxSyncRollback chainSha256 commitAttribute tip.db tip.oracle 0 3
    (∀ blk ∈ commitChain, Parses chainSha256 blk.1) ∧ tip.height = 3 ∧ out.ok = true ∧
      ¬ out.s.commits.Perm tip.s.commits := by
  decide +kernel

end NamespaceIndexer.Daemon
