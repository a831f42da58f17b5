import NamespaceIndexer.Daemon.Crash

/-!
# Oracle inputs over the life of a daemon

The feed in memory pops and appends, the table `blocks` replaces by height, and
a start warms the one from the other. Rows above the tip can stay in both; below
it they are the blocks of the current chain.
-/

namespace NamespaceIndexer.Daemon

open Fold Lib

/-! ### What the chain says -/

/-- The rows of the blocks of a chain: one for each height above `start` up to `height`. -/
structure Full (start height : ℤ) (chain : List Blk) : Prop where
  ordered : OrderedTable.Ordered Blk.height chain
  heights : ∀ h, (∃ b ∈ chain, b.height = h) ↔ start < h ∧ h ≤ height

/-- The inputs of the block on top of a chain that ends below `height`: the median time of its last
eleven blocks, and the rate over its blocks in the fee window. -/
def chainInputs (subsidy : ℤ) (chain : List Blk) (height : ℤ) : ℤ × UInt64 :=
  (smMtp ((chain.drop (chain.length - 11)).map Blk.time),
    smOracleRate ((chain.filter fun b => height - feeWindow ≤ b.height).map fun b =>
      (b.coinbase, subsidy, b.bytes)))

section Chains

variable {start height : ℤ} {chain : List Blk}

theorem Full.nil (start : ℤ) : Full start start [] :=
  ⟨List.Pairwise.nil, fun h => ⟨fun ⟨_, hb, _⟩ => absurd hb List.not_mem_nil, fun hh => by omega⟩⟩

theorem Full.le (hc : Full start height chain) {b : Blk} (hb : b ∈ chain) : b.height ≤ height :=
  ((hc.heights b.height).mp ⟨b, hb, rfl⟩).2

theorem Full.append (hc : Full start height chain) (hlow : start ≤ height) {b : Blk}
    (hb : b.height = height + 1) : Full start (height + 1) (chain ++ [b]) := by
  refine ⟨List.pairwise_append.mpr ⟨hc.ordered, List.pairwise_singleton _ _, ?_⟩, fun h => ?_⟩
  · intro x hx y hy
    have hle := hc.le hx
    rw [List.mem_singleton] at hy
    rw [hy]
    omega
  · constructor
    · rintro ⟨x, hx, rfl⟩
      rcases List.mem_append.mp hx with hx | hx
      · have hx' := (hc.heights x.height).mp ⟨x, hx, rfl⟩
        omega
      · rw [List.mem_singleton.mp hx]
        omega
    · intro hh
      by_cases hlast : h = height + 1
      · exact ⟨b, by simp, by omega⟩
      · obtain ⟨x, hx, hxh⟩ := (hc.heights h).mpr (by omega)
        exact ⟨x, List.mem_append_left _ hx, hxh⟩

theorem Full.upTo (hc : Full start height chain) {h : ℤ} (hle : h ≤ height) :
    Full start h (OrderedTable.upTo Blk.height h chain) := by
  refine ⟨hc.ordered.upTo Blk.height h, fun k => ?_⟩
  constructor
  · rintro ⟨x, hx, rfl⟩
    rw [OrderedTable.mem_upTo] at hx
    exact ⟨((hc.heights x.height).mp ⟨x, hx.1, rfl⟩).1, hx.2⟩
  · intro hk
    obtain ⟨x, hx, hxk⟩ := (hc.heights k).mpr (by omega)
    exact ⟨x, (OrderedTable.mem_upTo Blk.height).mpr ⟨hx, by omega⟩, hxk⟩

/-- Rows in height order within a window are no more than its heights. -/
theorem ordered_length_le {rows : List Blk} (h : OrderedTable.Ordered Blk.height rows) {k : ℤ}
    {n : ℕ} (hwin : ∀ b ∈ rows, k ≤ b.height ∧ b.height < k + n) : rows.length ≤ n := by
  have hnodup : (rows.map Blk.height).Nodup := List.pairwise_map.mpr (h.imp fun hlt => ne_of_lt hlt)
  have hsub : (rows.map Blk.height).toFinset ⊆ Finset.Ico k (k + n) := by
    intro x hx
    rw [List.mem_toFinset] at hx
    obtain ⟨b, hb, rfl⟩ := List.mem_map.mp hx
    exact Finset.mem_Ico.mpr (hwin b hb)
  have hcard := Finset.card_le_card hsub
  rw [List.toFinset_card_of_nodup hnodup, List.length_map, Int.card_Ico] at hcard
  omega

/-- A feed whose rows below the next height are the chain's derives what the chain says. -/
theorem oracleForHeight_chain {subsidy : ℤ} {o : OracleFeed} (hc : Full start height chain)
    (hfeed : o.below (height + 1) = ⟨chain, subsidy⟩) :
    oracleForHeight o (height + 1) = chainInputs subsidy chain (height + 1) := by
  have hlt : ∀ b ∈ chain, b.height < height + 1 := fun b hb => by
    have hle := hc.le hb
    omega
  have hts : chain.reverse.filter (fun b => b.height < height + 1) = chain.reverse :=
    List.filter_eq_self.mpr fun b hb => decide_eq_true (hlt b (List.mem_reverse.mp hb))
  have hrows : (chain.filter fun b => height + 1 - feeWindow ≤ b.height ∧ b.height < height + 1)
      = chain.filter fun b => height + 1 - feeWindow ≤ b.height := by
    refine List.filter_congr fun b hb => ?_
    have hb' := hlt b hb
    simp [hb']
  have hcount : (chain.filter fun b => height + 1 - feeWindow ≤ b.height).length
      ≤ feeWindow.toNat := by
    refine ordered_length_le (k := height + 1 - feeWindow) (hc.ordered.filter _) fun b hb => ?_
    rw [List.mem_filter, decide_eq_true_eq] at hb
    have hb' := hlt b hb.1
    unfold feeWindow at hb ⊢
    omega
  rw [← oracleForHeight_below (le_refl (height + 1)), hfeed]
  unfold oracleForHeight chainInputs
  simp only [hts, hrows, List.take_of_length_le hcount, List.take_reverse, List.reverse_reverse]

end Chains

variable (sha256 : Bytes → Hash256) (idxAttribute : Bytes → ℕ → Option (H160 × Byte))
  (coin : Coin) (activation : UInt64)

/-! ### The life of a daemon -/

/-- An operation runs to its end, or the process dies in it with `k` statements committed and is
started again. -/
inductive Event where
  | completed (o : Op)
  | dies (o : Op) (k : ℕ)

def Node.event (n : Node) : Event → Node
  | .completed o => n.op sha256 idxAttribute coin activation o
  | .dies o k =>
    startup coin activation
      (n.db.writes ((n.opWrites sha256 idxAttribute coin activation o).take k))

/-- A rollback goes to a height of the chain, and is not died in before it is through. -/
def Event.Legal (n : Node) : Event → Prop
  | .completed o => o.Legal coin n
  | .dies o k => o.Legal coin n ∧ ∀ toHeight, o = .rollback toHeight →
      (idxSyncRollback sha256 idxAttribute n.db n.oracle activation toHeight).writes.length ≤ k

/-- The recorded blocks of the chain that an operation leaves. -/
def Op.chain (n : Node) (chain : List Blk) : Op → List Blk
  | .connect raw _ =>
    match (idxParseBlock sha256 raw).2 with
    | none => chain
    | some m => chain ++ [⟨n.height + 1, m.time, m.coinbaseOutTotal, m.blockBytes⟩]
  | .rollback toHeight => OrderedTable.upTo Blk.height toHeight chain
  | .project => chain

/-- The recorded blocks of the chain after an event; of an operation that was died in, those that
the new start stands on. -/
def Event.chain (n : Node) (chain : List Blk) (e : Event) : List Blk :=
  match e with
  | .completed o => o.chain sha256 n chain
  | .dies o _ => OrderedTable.upTo Blk.height
      (n.event sha256 idxAttribute coin activation e).height (o.chain sha256 n chain)

/-- `P` holds of every state of the life of a daemon, with the chain that it has recorded. -/
def AllAlong (P : Node → List Blk → Prop) : Node → List Blk → List Event → Prop
  | n, chain, [] => P n chain
  | n, chain, e :: es => P n chain ∧
      AllAlong P (n.event sha256 idxAttribute coin activation e)
        (e.chain sha256 idxAttribute coin activation n chain) es

/-- Each event is legal where it happens. -/
def LegalLife : Node → List Event → Prop
  | _, [] => True
  | n, e :: es => e.Legal sha256 idxAttribute coin activation n ∧
      LegalLife (n.event sha256 idxAttribute coin activation e) es

/-! ### The table and the chain -/

/-- `Blk` of a row. -/
def BlockRow.blk (r : BlockRow) : Blk := ⟨r.height, r.time, r.coinbase, r.bytes⟩

theorem upTo_blk (t : List BlockRow) (h : ℤ) :
    OrderedTable.upTo Blk.height h (t.map BlockRow.blk)
      = (OrderedTable.upTo BlockRow.height h t).map BlockRow.blk :=
  List.filter_map ..

theorem ordered_blk {t : List BlockRow} (h : OrderedTable.Ordered BlockRow.height t) :
    OrderedTable.Ordered Blk.height (t.map BlockRow.blk) :=
  List.pairwise_map.mpr h

/-- Warming an empty feed from rows in order gives these rows. -/
theorem idxDbOracleWarm_eq {db : Db} (h : OrderedTable.Ordered BlockRow.height db.blocks)
    (subsidy : ℤ) : idxDbOracleWarm db ⟨[], subsidy⟩ = ⟨db.blocks.map BlockRow.blk, subsidy⟩ := by
  have hwarm : ∀ t : List Blk, OrderedTable.Ordered Blk.height t →
      t.foldl oracleRecord ⟨[], subsidy⟩ = ⟨t, subsidy⟩ := by
    intro t
    induction t using List.reverseRecOn with
    | nil => exact fun _ => rfl
    | append_singleton t b ih =>
      intro ht
      obtain ⟨ht', -, hb⟩ := List.pairwise_append.mp ht
      have hordered : OrderedTable.Ordered Blk.height (⟨t, subsidy⟩ : OracleFeed).v := ht'
      rw [List.foldl_append, ih ht']
      show oracleRecord _ b = _
      rw [oracleRecord_eq hordered, OrderedTable.below_eq_self Blk.height
        fun x hx => hb x hx b (List.mem_singleton_self b)]
  exact hwarm _ (ordered_blk h)

variable {sha256 coin}

/-- Up to height `h` the tables hold the chain, and raw blocks that parse. -/
structure Stands (sha256 : Bytes → Hash256) (coin : Coin) (db : Db) (h : ℤ) (chain : List Blk) :
    Prop where
  blocks : OrderedTable.Ordered BlockRow.height db.blocks
  rawBlocks : OrderedTable.Ordered RawRow.height db.rawBlocks
  raws : ∀ r ∈ db.rawBlocks, Parses sha256 r.raw
  low : coin.start ≤ h
  rows : chain = (OrderedTable.upTo BlockRow.height h db.blocks).map BlockRow.blk
  full : Full coin.start h chain

/-- The height that a start goes back to. -/
def HeightIs (coin : Coin) (db : Db) (h : ℤ) : Prop :=
  db.height = some h ∨ (db.height = none ∧ h = coin.start)

/-- The tables stand on the chain, and so does the feed below the next height. -/
structure Fed (sha256 : Bytes → Hash256) (coin : Coin) (n : Node) (chain : List Blk) : Prop where
  stands : Stands sha256 coin n.db n.height chain
  height : HeightIs coin n.db n.height
  ordered : OrderedTable.Ordered Blk.height n.oracle.v
  feed : n.oracle.below (n.height + 1) = ⟨chain, coin.subsidy⟩

theorem Fed.inputs {n : Node} {chain : List Blk} (h : Fed sha256 coin n chain) :
    oracleForHeight n.oracle (n.height + 1) = chainInputs coin.subsidy chain (n.height + 1) :=
  oracleForHeight_chain h.stands.full h.feed

theorem Fed.recorded {n : Node} {chain : List Blk} (h : Fed sha256 coin n chain) :
    Recorded coin n :=
  ⟨h.stands.blocks, h.stands.rawBlocks, h.height, h.stands.low⟩

theorem upTo_eq_below (t : List Blk) (h : ℤ) :
    OrderedTable.below Blk.height (h + 1) t = OrderedTable.upTo Blk.height h t := by
  refine List.filter_congr fun b _ => ?_
  rw [decide_eq_decide]
  omega

theorem Stands.upTo {db : Db} {h h' : ℤ} {chain : List Blk} (hs : Stands sha256 coin db h chain)
    (hlow : coin.start ≤ h') (hle : h' ≤ h) :
    Stands sha256 coin db h' (OrderedTable.upTo Blk.height h' chain) := by
  refine ⟨hs.blocks, hs.rawBlocks, hs.raws, hlow, ?_, hs.full.upTo hle⟩
  rw [hs.rows, upTo_blk, OrderedTable.upTo_upTo BlockRow.height hle]

/-- A start that does not go above the chain is fed with what it stands on. -/
theorem Stands.startup {db : Db} {h h' : ℤ} {chain : List Blk} (hs : Stands sha256 coin db h chain)
    (hh : HeightIs coin db h') (hlow : coin.start ≤ h')
    (hle : (startup coin activation db).height ≤ h) :
    Fed sha256 coin (startup coin activation db)
      (OrderedTable.upTo Blk.height (startup coin activation db).height chain) := by
  have hn : Recorded coin ⟨smNew activation, ⟨[], coin.subsidy⟩, db, h', none⟩ :=
    ⟨hs.blocks, hs.rawBlocks, hh, hlow⟩
  obtain ⟨hb, hr, -, hstart, hheight⟩ := startup_tables activation hn
  simp only at hb hr hstart hheight
  have horacle : (Daemon.startup coin activation db).oracle
      = idxDbOracleWarm db ⟨[], coin.subsidy⟩ := by
    unfold Daemon.startup
    cases db.projHeight with
    | none => cases db.height <;> rfl
    | some p =>
      cases db.height with
      | none => simp only; split <;> rfl
      | some x => simp only; split <;> rfl
  have hstands := hs.upTo hstart hle
  refine ⟨⟨hb ▸ hs.blocks, hr ▸ hs.rawBlocks, hr ▸ hs.raws, hstart, hb ▸ hstands.rows,
    hstands.full⟩, hheight, ?_, ?_⟩
  · rw [horacle, idxDbOracleWarm_eq hs.blocks]
    exact ordered_blk hs.blocks
  · rw [horacle, idxDbOracleWarm_eq hs.blocks, OracleFeed.below, upTo_eq_below, upTo_blk,
      hstands.rows]

theorem startup_le {db : Db} {h h' : ℤ} {chain : List Blk} (hs : Stands sha256 coin db h chain)
    (hh : HeightIs coin db h') (hlow : coin.start ≤ h') :
    (startup coin activation db).height ≤ h' :=
  (startup_tables activation (n := ⟨smNew activation, ⟨[], coin.subsidy⟩, db, h', none⟩)
    ⟨hs.blocks, hs.rawBlocks, hh, hlow⟩).2.2.1

/-! ### Statements -/

theorem Stands.congr {db db' : Db} {h : ℤ} {chain : List Blk} (hs : Stands sha256 coin db h chain)
    (hb : db'.blocks = db.blocks) (hr : db'.rawBlocks = db.rawBlocks) :
    Stands sha256 coin db' h chain :=
  ⟨hb ▸ hs.blocks, hr ▸ hs.rawBlocks, hr ▸ hs.raws, hs.low, hb ▸ hs.rows, hs.full⟩

/-- A row written above the tip is not on the chain yet. -/
theorem Stands.blockPut {db : Db} {h : ℤ} {chain : List Blk} (hs : Stands sha256 coin db h chain)
    {r : BlockRow} (hr : r.height = h + 1) :
    Stands sha256 coin (db.write (.blockPut r)) h chain := by
  refine ⟨hs.blocks.put BlockRow.height r, hs.rawBlocks, hs.raws, hs.low, ?_, hs.full⟩
  rw [hs.rows]
  exact congrArg _ (OrderedTable.upTo_put BlockRow.height (by omega)).symm

/-- Nor is a raw block. -/
theorem Stands.rawblockPut {db : Db} {h : ℤ} {chain : List Blk}
    (hs : Stands sha256 coin db h chain) {r : RawRow} (hr : Parses sha256 r.raw) :
    Stands sha256 coin (db.write (.rawblockPut r)) h chain := by
  refine ⟨hs.blocks, hs.rawBlocks.put RawRow.height r, fun x hx => ?_, hs.low, hs.rows, hs.full⟩
  rcases (OrderedTable.mem_put RawRow.height).mp hx with rfl | ⟨hx, -⟩
  · exact hr
  · exact hs.raws x hx

/-- The row above the tip extends the chain when the height goes up to it. -/
theorem Stands.extend {db : Db} {h : ℤ} {chain : List Blk} (hs : Stands sha256 coin db h chain)
    {r : BlockRow} (hr : r.height = h + 1) :
    Stands sha256 coin (db.write (.blockPut r)) (h + 1) (chain ++ [r.blk]) := by
  have hlow := hs.low
  have hbelow : OrderedTable.below BlockRow.height (h + 1) db.blocks
      = OrderedTable.upTo BlockRow.height h db.blocks := by
    refine List.filter_congr fun b _ => ?_
    rw [decide_eq_decide]
    omega
  refine ⟨hs.blocks.put BlockRow.height r, hs.rawBlocks, hs.raws, by omega, ?_,
    hs.full.append hlow hr⟩
  show _ = (OrderedTable.upTo BlockRow.height (h + 1)
    (OrderedTable.put BlockRow.height r db.blocks)).map BlockRow.blk
  rw [← hr, OrderedTable.upTo_put_self, hr, hbelow, List.map_append, hs.rows]
  rfl

/-- All statements of a connected block. -/
theorem Stands.connected {db : Db} {h : ℤ} {chain : List Blk} (hs : Stands sha256 coin db h chain)
    {raw : Bytes} (hraw : Parses sha256 raw) (kept : Bool) (m : IdxBlockMeta) :
    Stands sha256 coin (db.writes (connectWrites (h + 1) raw kept m)) (h + 1)
      (chain ++ [⟨h + 1, m.time, m.coinbaseOutTotal, m.blockBytes⟩]) := by
  have hext := hs.extend (r := ⟨h + 1, m.blockHash, m.time, m.coinbaseOutTotal, m.blockBytes,
    m.bits⟩) rfl
  cases kept with
  | false => exact hext.congr rfl rfl
  | true =>
    have hraw' : Parses sha256 (⟨h + 1, raw⟩ : RawRow).raw := hraw
    exact (hext.rawblockPut hraw').congr rfl rfl

/-- The first of them: the tip is the old one, or the block. -/
theorem Stands.connecting {db : Db} {h : ℤ} {chain : List Blk}
    (hs : Stands sha256 coin db h chain) (hh : HeightIs coin db h) {raw : Bytes}
    (hraw : Parses sha256 raw) (kept : Bool) (m : IdxBlockMeta) (k : ℕ) :
    let db' := db.writes ((connectWrites (h + 1) raw kept m).take k)
    let b : Blk := ⟨h + 1, m.time, m.coinbaseOutTotal, m.blockBytes⟩
    (HeightIs coin db' h ∧ Stands sha256 coin db' h chain) ∨
      (HeightIs coin db' (h + 1) ∧ Stands sha256 coin db' (h + 1) (chain ++ [b])) := by
  let r : BlockRow := ⟨h + 1, m.blockHash, m.time, m.coinbaseOutTotal, m.blockBytes, m.bits⟩
  have hput := hs.blockPut (r := r) rfl
  have hall := hs.connected hraw kept m
  have hraw' : Parses sha256 (⟨h + 1, raw⟩ : RawRow).raw := hraw
  cases kept with
  | false =>
    match k with
    | 0 => intro _ _; exact Or.inl ⟨hh, hs⟩
    | 1 => intro _ _; exact Or.inl ⟨hh, hput⟩
    | 2 => intro _ _; exact Or.inr ⟨Or.inl rfl, hall.congr rfl rfl⟩
    | k + 3 =>
      rw [List.take_of_length_le (by simp [connectWrites, idxDbSaveSync])]
      intro _ _
      exact Or.inr ⟨Or.inl rfl, hall⟩
  | true =>
    match k with
    | 0 => intro _ _; exact Or.inl ⟨hh, hs⟩
    | 1 => intro _ _; exact Or.inl ⟨hh, hput⟩
    | 2 => intro _ _; exact Or.inl ⟨hh, hput.rawblockPut hraw'⟩
    | 3 => intro _ _; exact Or.inr ⟨Or.inl rfl, hall.congr rfl rfl⟩
    | k + 4 =>
      rw [List.take_of_length_le (by simp [connectWrites, idxDbSaveSync])]
      intro _ _
      exact Or.inr ⟨Or.inl rfl, hall⟩

/-- Cut down to a height of the chain. -/
theorem Stands.cut {db db' : Db} {h toHeight : ℤ} {chain : List Blk}
    (hs : Stands sha256 coin db h chain) (hlow : coin.start ≤ toHeight) (hle : toHeight ≤ h)
    (hb : db'.blocks = OrderedTable.upTo BlockRow.height toHeight db.blocks)
    (hr : db'.rawBlocks = OrderedTable.upTo RawRow.height toHeight db.rawBlocks) :
    Stands sha256 coin db' toHeight (OrderedTable.upTo Blk.height toHeight chain) := by
  have hup := hs.upTo hlow hle
  refine ⟨hb ▸ hs.blocks.upTo BlockRow.height toHeight,
    hr ▸ hs.rawBlocks.upTo RawRow.height toHeight, fun x hx => ?_, hlow, ?_, hup.full⟩
  · rw [hr, OrderedTable.mem_upTo] at hx
    exact hs.raws x hx.1
  · rw [hb, OrderedTable.upTo_upTo BlockRow.height (le_refl toHeight)]
    exact hup.rows

/-! ### Operations -/

section Operations

variable {n : Node} {chain : List Blk}

theorem Fed.connect (hf : Fed sha256 coin n chain) (raw : Bytes) (walletTouched : Bool) :
    Fed sha256 coin (n.connect sha256 idxAttribute raw walletTouched)
      (Op.chain sha256 n chain (.connect raw walletTouched)) := by
  unfold Op.chain
  cases hm : (idxParseBlock sha256 raw).2 with
  | none =>
    simp only [Node.connect, connectBlock, hm, Bool.false_eq_true, if_false]
    exact ⟨hf.stands, hf.height, hf.ordered, hf.feed⟩
  | some m =>
    have hp : Parses sha256 raw := by rw [Parses, hm]; rfl
    simp only [Node.connect, connectBlock, hm, if_true]
    refine ⟨hf.stands.connected hp _ m, ?_, ordered_oracleRecord hf.ordered _, ?_⟩
    · have hh : (n.db.writes (connectWrites (n.height + 1) raw
          (!(blockAt sha256 idxAttribute n.oracle (n.height + 1) raw).txs.isEmpty || walletTouched)
          m)).height = some (n.height + 1) := by
        rw [connectWrites_db]
      exact Or.inl hh
    · have hfeed : OrderedTable.below Blk.height (n.height + 1) n.oracle.v = chain :=
        congrArg OracleFeed.v hf.feed
      have hsub : n.oracle.subsidy = coin.subsidy := congrArg OracleFeed.subsidy hf.feed
      have hlt : ∀ b ∈ chain, b.height < n.height + 1 + 1 := fun b hb => by
        have hle := hf.stands.full.le hb
        omega
      rw [oracleRecord_eq hf.ordered]
      unfold OracleFeed.below
      simp only [hsub, hfeed]
      rw [OrderedTable.below_append, OrderedTable.below_eq_self Blk.height hlt,
        OrderedTable.below_eq_self Blk.height (by simp)]

/-- The feed of a rollback is cut, whether the replay succeeds or not. -/
theorem rollback_oracle (toHeight : ℤ) :
    (n.rollback sha256 idxAttribute coin activation toHeight).oracle
      = oracleRollback n.oracle (toHeight + 1) := by
  unfold Node.rollback idxSyncRollback
  rcases hr : rollbackReplay sha256 idxAttribute (oracleRollback n.oracle (toHeight + 1))
    (idxDbRawblockIter (n.db.writes (idxDbBlockPruneAbove toHeight)) toHeight) (smNew activation)
    with ⟨ok, s⟩
  simp only [hr]
  cases ok <;> rfl

theorem Fed.rollback (hf : Fed sha256 coin n chain) {toHeight : ℤ} (hlow : coin.start ≤ toHeight)
    (hle : toHeight ≤ n.height) :
    Fed sha256 coin (n.rollback sha256 idxAttribute coin activation toHeight)
      (OrderedTable.upTo Blk.height toHeight chain) := by
  obtain ⟨s, tip, hs, hcur, -, -, -, hheight, hdb⟩ :=
    rollback_spec idxAttribute coin activation hf.stands.raws toHeight
  simp only [Node.op] at hheight hdb
  obtain ⟨hb, hr, -⟩ : (n.rollback sha256 idxAttribute coin activation toHeight).db.blocks
        = OrderedTable.upTo BlockRow.height toHeight n.db.blocks ∧
      (n.rollback sha256 idxAttribute coin activation toHeight).db.rawBlocks
        = OrderedTable.upTo RawRow.height toHeight n.db.rawBlocks ∧ _ :=
    rollback_tables idxAttribute activation n toHeight
  have hfeed : OrderedTable.below Blk.height (n.height + 1) n.oracle.v = chain :=
    congrArg OracleFeed.v hf.feed
  have hsub : n.oracle.subsidy = coin.subsidy := congrArg OracleFeed.subsidy hf.feed
  have hcut : OrderedTable.upTo Blk.height toHeight chain
      = OrderedTable.below Blk.height (toHeight + 1) n.oracle.v := by
    rw [← hfeed, ← upTo_eq_below, OrderedTable.below_below Blk.height (by omega)]
  have hstands := hf.stands.cut hlow hle hb hr
  refine ⟨by rw [hheight]; exact hstands, ?_, ?_, ?_⟩
  · refine Or.inl ?_
    rw [hheight, hdb]
    rfl
  · rw [rollback_oracle, oracleRollback_eq hf.ordered]
    exact hf.ordered.below Blk.height _
  · rw [rollback_oracle, oracleRollback_eq hf.ordered, hheight, hcut]
    unfold OracleFeed.below
    simp only [hsub, OrderedTable.below_below Blk.height (le_refl (toHeight + 1))]

theorem Fed.project (hf : Fed sha256 coin n chain) : Fed sha256 coin n.project chain := by
  have hh : HeightIs coin (projectDb n.db n.s) n.height := by
    unfold HeightIs
    rw [projectDb_height]
    exact hf.height
  exact ⟨hf.stands.congr (projectDb_blocks _ _) (projectDb_rawBlocks _ _), hh, hf.ordered, hf.feed⟩

theorem Fed.op (hf : Fed sha256 coin n chain) {o : Op} (hl : o.Legal coin n) :
    Fed sha256 coin (n.op sha256 idxAttribute coin activation o) (o.chain sha256 n chain) := by
  cases o with
  | connect raw walletTouched => exact hf.connect idxAttribute raw walletTouched
  | rollback toHeight => exact hf.rollback idxAttribute activation hl.1 hl.2
  | project => exact hf.project

/-- A start with nothing written that it reads of the blocks. -/
theorem Fed.idle (hf : Fed sha256 coin n chain) {db : Db} (hb : db.blocks = n.db.blocks)
    (hr : db.rawBlocks = n.db.rawBlocks) (hh : db.height = n.db.height) :
    Fed sha256 coin (startup coin activation db)
      (OrderedTable.upTo Blk.height (startup coin activation db).height chain) := by
  have hs := hf.stands.congr hb hr
  have hheight : HeightIs coin db n.height := by
    unfold HeightIs
    rw [hh]
    exact hf.height
  exact hs.startup activation hheight hs.low (startup_le activation hs hheight hs.low)

theorem Fed.dies_connect (hf : Fed sha256 coin n chain) (raw : Bytes) (walletTouched : Bool) (k : ℕ)
    {db : Db} (hdb : db = n.db.writes ((n.opWrites sha256 idxAttribute coin activation
      (.connect raw walletTouched)).take k)) :
    Fed sha256 coin (startup coin activation db)
      (OrderedTable.upTo Blk.height (startup coin activation db).height
        (Op.chain sha256 n chain (.connect raw walletTouched))) := by
  cases hm : (idxParseBlock sha256 raw).2 with
  | none =>
    simp only [Op.chain, hm]
    have hw : n.opWrites sha256 idxAttribute coin activation (.connect raw walletTouched) = [] := by
      simp only [Node.opWrites, connectBlock, hm]
    rw [hw, List.take_nil, Db.writes_nil] at hdb
    rw [hdb]
    exact hf.idle activation rfl rfl rfl
  | some m =>
    simp only [Op.chain, hm]
    have hp : Parses sha256 raw := by rw [Parses, hm]; rfl
    rw [connect_opWrites idxAttribute walletTouched hm] at hdb
    have hwhere := hf.stands.connecting hf.height hp
      (!(blockTxs sha256 idxAttribute raw).isEmpty || walletTouched) m k
    simp only [← hdb] at hwhere ⊢
    rcases hwhere with ⟨hh, hs⟩ | ⟨hh, hs⟩
    · have hle := startup_le activation hs hh hs.low
      have hcut : OrderedTable.upTo Blk.height (startup coin activation db).height
          (chain ++ [⟨n.height + 1, m.time, m.coinbaseOutTotal, m.blockBytes⟩])
          = OrderedTable.upTo Blk.height (startup coin activation db).height chain := by
        rw [OrderedTable.upTo_append]
        simp [OrderedTable.upTo]
        omega
      rw [hcut]
      exact hs.startup activation hh hs.low hle
    · exact hs.startup activation hh hs.low (startup_le activation hs hh hs.low)

theorem Fed.dies_rollback (hf : Fed sha256 coin n chain) {toHeight : ℤ}
    (hlow : coin.start ≤ toHeight) (hle : toHeight ≤ n.height) {k : ℕ}
    (hk : (idxSyncRollback sha256 idxAttribute n.db n.oracle activation toHeight).writes.length ≤ k)
    {db : Db} (hdb : db = n.db.writes ((n.opWrites sha256 idxAttribute coin activation
      (.rollback toHeight)).take k)) :
    Fed sha256 coin (startup coin activation db)
      (OrderedTable.upTo Blk.height (startup coin activation db).height
        (OrderedTable.upTo Blk.height toHeight chain)) := by
  obtain ⟨s, tip, hs, hcur, hw, -, -, -, -⟩ :=
    rollback_spec idxAttribute coin activation hf.stands.raws toHeight
  have hlen : 3 ≤ k := by
    have hcount := congrArg List.length hw
    simp only [Node.opWrites, List.length_append] at hcount
    have hsave : (if (idxSyncRollback sha256 idxAttribute n.db n.oracle activation toHeight).ok then
        idxDbSaveSync toHeight ((idxDbBlockGet (n.db.writes (idxSyncRollback sha256 idxAttribute n.db
          n.oracle activation toHeight).writes) toHeight).getD coin.startHash)
        else []).length ≤ 2 := by
      split <;> simp [idxDbSaveSync]
    simp only [List.length_cons, List.length_nil] at hcount
    omega
  have hwrites := writes_project n.db toHeight hs
  have hcut : Stands sha256 coin
      (n.db.writes [.pruneBlocks toHeight, .pruneRaw toHeight, .project s]) toHeight
      (OrderedTable.upTo Blk.height toHeight chain) :=
    hf.stands.cut hlow hle (congrArg Db.blocks hwrites) (congrArg Db.rawBlocks hwrites)
  rw [hw] at hdb
  obtain ⟨j, rfl⟩ : ∃ j, k = 3 + j := Nat.exists_eq_add_of_le hlen
  rcases j with _ | _ | j
  · -- the projection is there, and the recorded height is still the old one
    change db = n.db.writes [.pruneBlocks toHeight, .pruneRaw toHeight, .project s] at hdb
    rw [← hdb] at hcut hwrites
    have hheight : HeightIs coin db n.height := by
      unfold HeightIs
      rw [congrArg Db.height hwrites]
      exact hf.height
    refine hcut.startup activation hheight hf.stands.low ?_
    have hbound := startup_le activation hcut hheight hf.stands.low
    by_cases hlt : toHeight < n.height
    · rcases hheight with hsome | ⟨-, hstart⟩
      · have hproj : db.projHeight = some toHeight := by
          rw [hwrites, hcur]
        exact le_of_eq (startup_behind coin activation hsome hproj hlow hlt).1
      · omega
    · omega
  · have hs' : Stands sha256 coin db toHeight _ := hcut.congr (by rw [hdb]; rfl) (by rw [hdb]; rfl)
    have hh : HeightIs coin db toHeight := Or.inl (by rw [hdb]; rfl)
    exact hs'.startup activation hh hlow (startup_le activation hs' hh hlow)
  · rw [List.take_of_length_le (by simp only [List.length_cons, List.length_nil]; omega)] at hdb
    have hs' : Stands sha256 coin db toHeight _ := hcut.congr (by rw [hdb]; rfl) (by rw [hdb]; rfl)
    have hh : HeightIs coin db toHeight := Or.inl (by rw [hdb]; rfl)
    exact hs'.startup activation hh hlow (startup_le activation hs' hh hlow)

theorem Fed.dies_project (hf : Fed sha256 coin n chain) (k : ℕ) {db : Db}
    (hdb : db = n.db.writes ((n.opWrites sha256 idxAttribute coin activation .project).take k)) :
    Fed sha256 coin (startup coin activation db)
      (OrderedTable.upTo Blk.height (startup coin activation db).height chain) := by
  have hcases : db = n.db ∨ db = projectDb n.db n.s := by
    match k with
    | 0 => exact Or.inl hdb
    | k + 1 =>
      rw [List.take_of_length_le (by simp [Node.opWrites])] at hdb
      exact Or.inr hdb
  rcases hcases with rfl | rfl
  · exact hf.idle activation rfl rfl rfl
  · exact hf.idle activation (projectDb_blocks _ _) (projectDb_rawBlocks _ _) (projectDb_height _ _)

/-- Every event leaves the feed and the tables on the chain. -/
theorem Fed.event (hf : Fed sha256 coin n chain) {e : Event}
    (hl : e.Legal sha256 idxAttribute coin activation n) :
    Fed sha256 coin (n.event sha256 idxAttribute coin activation e)
      (e.chain sha256 idxAttribute coin activation n chain) := by
  match e with
  | .completed o => exact hf.op idxAttribute activation hl
  | .dies (.connect raw walletTouched) k =>
    exact hf.dies_connect idxAttribute activation raw walletTouched k rfl
  | .dies (.rollback toHeight) k =>
    exact hf.dies_rollback idxAttribute activation hl.1.1 hl.1.2 (hl.2 toHeight rfl) rfl
  | .dies .project k => exact hf.dies_project idxAttribute activation k rfl

end Operations

/-! ### Whole lives -/

theorem fed_fresh : Fed sha256 coin (fresh coin activation) [] :=
  ⟨⟨List.Pairwise.nil, List.Pairwise.nil, fun _ hr => absurd hr List.not_mem_nil, le_refl _, rfl,
    Full.nil _⟩, Or.inr ⟨rfl, rfl⟩, List.Pairwise.nil, rfl⟩

theorem Fed.allAlong {P : Node → List Blk → Prop}
    (hP : ∀ n chain, Fed sha256 coin n chain → P n chain) (es : List Event) {n : Node}
    {chain : List Blk} (hf : Fed sha256 coin n chain)
    (hl : LegalLife sha256 idxAttribute coin activation n es) :
    AllAlong sha256 idxAttribute coin activation P n chain es := by
  induction es generalizing n chain with
  | nil => exact hP n chain hf
  | cons e es ih => exact ⟨hP n chain hf, ih (hf.event idxAttribute activation hl.1) hl.2⟩

variable (sha256 coin)

/-- The chain has one block for each height up to the tip, the feed is strictly ascending, and the
inputs of the next block are those of the chain. -/
structure InputsOfChain (n : Node) (chain : List Blk) : Prop where
  full : Full coin.start n.height chain
  ordered : OrderedTable.Ordered Blk.height n.oracle.v
  inputs : oracleForHeight n.oracle (n.height + 1)
    = chainInputs coin.subsidy chain (n.height + 1)

/-- At every moment the median time and the rate of the next block are those of the recorded blocks
of the current chain, whatever came before. -/
theorem oracle_follows_chain (es : List Event)
    (hl : LegalLife sha256 idxAttribute coin activation (fresh coin activation) es) :
    AllAlong sha256 idxAttribute coin activation (InputsOfChain coin) (fresh coin activation) [] es :=
  Fed.allAlong idxAttribute activation (fun _ _ hf => ⟨hf.stands.full, hf.ordered, hf.inputs⟩) es
    (fed_fresh activation) hl

/-- A block, one that is died in before the height is recorded, the same again, and a rollback
that is died in after its projection. -/
def restartedLife : List Event :=
  [.completed (.connect (header1 ++ [1] ++ commitTx) false), .dies (.connect (header2 ++ [0]) false) 1,
    .completed (.connect (header2 ++ [0]) false), .dies (.rollback 1) 3]

theorem oracle_follows_chain_sample :
    AllAlong chainSha256 commitAttribute commitCoin 0 (InputsOfChain commitCoin)
      (fresh commitCoin 0) [] restartedLife :=
  oracle_follows_chain chainSha256 commitAttribute commitCoin 0 restartedLife
    ⟨trivial, ⟨trivial, fun _ h => by cases h⟩, trivial,
      ⟨⟨by decide, by decide +kernel⟩, fun _ h => by cases h; decide +kernel⟩, trivial⟩

end NamespaceIndexer.Daemon
