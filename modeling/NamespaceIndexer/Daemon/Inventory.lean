import NamespaceIndexer.Daemon.ServeStore
import NamespaceIndexer.Daemon.Crash
import NamespaceIndexer.Lib.Run

/-!
# The block inventory over a run

A pass feeds the serve cache as it connects. A reorg prunes the cache with the fold database; a
re-walk and a recovery lower the height and leave the cache as it is.
-/

namespace NamespaceIndexer.Daemon

open Fold Lib

variable (sha256 : Bytes → Hash256) (idxAttribute : Bytes → ℕ → Option (H160 × Byte))
variable (coin : Coin) (activation : UInt64)

/-- A daemon and its serve cache. -/
structure ServeNode where
  node : Node
  store : ServeStore := {}

inductive ServeOp where
  | connect (raw : Bytes) (walletTouched : Bool)
  | reorg (toHeight : ℤ)
  | rewalk (toHeight : ℤ)
  | project
  | restart

/-- The wallet re-walk of `cmd_sync`. -/
def Node.rewalk (n : Node) (toHeight : ℤ) : Node :=
  let o := idxSyncRollback sha256 idxAttribute n.db n.oracle activation toHeight
  let db := n.db.writes o.writes
  if o.ok then
    let tip := tipAt coin db toHeight
    { s := o.s, oracle := o.oracle, db := db.writes (idxDbSaveSync toHeight tip),
      height := toHeight, tip := some tip }
  else { n with s := o.s, oracle := o.oracle, db }

namespace ServeNode

/-- `connect_block` at `tip + 1`, with its `serve_store_put`. -/
def connect (n : ServeNode) (raw : Bytes) (walletTouched : Bool) : ServeNode where
  node := n.node.connect sha256 idxAttribute raw walletTouched
  store :=
    match (idxParseBlock sha256 raw).2 with
    | some m =>
      serveStorePut n.store (n.node.height + 1) m.blockHash (raw.take 80) raw (n.node.height + 1)
    | none => n.store

/-- A reorg of `cmd_sync`; a failed replay ends the pass before the cache is pruned. -/
def reorg (n : ServeNode) (toHeight : ℤ) : ServeNode where
  node := n.node.rollback sha256 idxAttribute coin activation toHeight
  store :=
    if (idxSyncRollback sha256 idxAttribute n.node.db n.node.oracle activation toHeight).ok then
      serveStorePruneAbove n.store toHeight
    else n.store

def op (n : ServeNode) : ServeOp → ServeNode
  | .connect raw walletTouched => n.connect sha256 idxAttribute raw walletTouched
  | .reorg toHeight => n.reorg sha256 idxAttribute coin activation toHeight
  | .rewalk toHeight =>
    { n with node := n.node.rewalk sha256 idxAttribute coin activation toHeight }
  | .project => { n with node := n.node.project }
  | .restart => { n with node := startup coin activation n.node.db }

end ServeNode

/-- A block is connected to the tip, and a height is lowered within the chain. -/
def ServeOp.Legal (n : ServeNode) : ServeOp → Prop
  | .connect raw _ => ∃ tip ∈ n.node.tip, prevField raw = tip.val
  | .reorg toHeight => coin.start ≤ toHeight ∧ toHeight ≤ n.node.height
  | .rewalk toHeight => coin.start ≤ toHeight ∧ toHeight ≤ n.node.height
  | _ => True

/-- A block that is connected finds nothing stale in the cache. -/
def ServeOp.Safe (n : ServeNode) : ServeOp → Prop
  | .connect raw _ =>
    Parses sha256 raw → NoStale n.store (n.node.height + 1) (rawHash sha256 raw)
  | _ => True

instance ServeOp.decidableSafe (n : ServeNode) : (op : ServeOp) → Decidable (op.Safe sha256 n)
  | .connect raw _ =>
    inferInstanceAs (Decidable
      (Parses sha256 raw → NoStale n.store (n.node.height + 1) (rawHash sha256 raw)))
  | .reorg _ => inferInstanceAs (Decidable True)
  | .rewalk _ => inferInstanceAs (Decidable True)
  | .project => inferInstanceAs (Decidable True)
  | .restart => inferInstanceAs (Decidable True)

section Steps

variable {sha256 coin}

theorem Parses.length_ge {raw : Bytes} (h : Parses sha256 raw) : 80 ≤ raw.length := by
  by_contra hlt
  unfold Parses idxParseBlock at h
  rw [if_pos (by omega)] at h
  cases h

theorem connect_refused_tip {raw : Bytes} (n : Node) (walletTouched : Bool)
    (h : ¬ Parses sha256 raw) :
    (n.connect sha256 idxAttribute raw walletTouched).tip = n.tip := by
  have hm := Option.not_isSome_iff_eq_none.mp h
  unfold Node.connect connectBlock
  simp only [hm]
  rfl

/-- Over raw blocks that parse a rollback goes through. -/
theorem idxSyncRollback_parses {db : Db} (hraw : ∀ r ∈ db.rawBlocks, Parses sha256 r.raw)
    (oracle : OracleFeed) (toHeight : ℤ) :
    ∃ s, idxSyncRollback sha256 idxAttribute db oracle activation toHeight =
      ⟨true, s, oracleRollback oracle (toHeight + 1),
        idxDbBlockPruneAbove toHeight ++ [.project s]⟩ := by
  have hrows : ∀ r ∈ idxDbRawblockIter (db.writes (idxDbBlockPruneAbove toHeight)) toHeight,
      Parses sha256 r.raw := by
    intro r hr
    have hm := ((OrderedTable.mem_upTo RawRow.height).mp hr).1
    exact hraw r ((OrderedTable.mem_upTo RawRow.height).mp hm).1
  have hok := (rollbackReplay_parses idxAttribute (oracleRollback oracle (toHeight + 1)) hrows
    (wellKeyed_smNew activation)).1
  rcases hr : rollbackReplay sha256 idxAttribute (oracleRollback oracle (toHeight + 1))
    (idxDbRawblockIter (db.writes (idxDbBlockPruneAbove toHeight)) toHeight) (smNew activation)
    with ⟨ok, s⟩
  rw [hr] at hok
  have hok' : ok = true := hok
  subst hok'
  unfold idxSyncRollback
  simp only [hr]
  exact ⟨_, rfl⟩

/-- A start stands on the tip of its height. -/
theorem startup_tip {n : Node} (hn : Recorded coin n)
    (htip : n.tip = some (tipAt coin n.db n.height))
    (hsaved : n.db.height = none ∨ n.db.tip = n.tip) :
    (startup coin activation n.db).tip =
        some (tipAt coin n.db (startup coin activation n.db).height) ∧
      ((startup coin activation n.db).db.height = none ∨
        (startup coin activation n.db).db.tip = (startup coin activation n.db).tip) := by
  have hstart : tipAt coin n.db coin.start = coin.startHash := if_pos le_rfl
  unfold startup
  cases hh : n.db.height with
  | none =>
    cases hp : n.db.projHeight with
    | none => exact ⟨congrArg some hstart.symm, Or.inl hh⟩
    | some p =>
      dsimp only
      split
      · rename_i hgap
        have hle : p ≤ coin.start := hgap.2.le
        dsimp only
        rw [if_pos hle, hstart]
        exact ⟨congrArg some (if_pos hle), Or.inr rfl⟩
      · exact ⟨congrArg some hstart.symm, Or.inl hh⟩
  | some h =>
    have heq : h = n.height := by
      rcases hn.height with he | he
      · rw [he] at hh
        exact (Option.some_inj.mp hh).symm
      · rw [he.1] at hh
        cases hh
    subst heq
    have htip' : n.db.tip = some (tipAt coin n.db n.height) := by
      rw [hh] at hsaved
      exact (hsaved.resolve_left (by simp)).trans htip
    cases hp : n.db.projHeight with
    | none => exact ⟨htip', Or.inr rfl⟩
    | some p =>
      dsimp only
      split
      · refine ⟨?_, Or.inr rfl⟩
        dsimp only
        split
        · rename_i hle
          rw [hstart]
          exact congrArg some (if_pos hle)
        · rfl
      · exact ⟨htip', Or.inr rfl⟩

end Steps

/-! ### What every state of a run meets -/

section Invariant

variable {sha256 coin}

variable (sha256 coin) in
/-- The store is whole, and up to the tip it holds the recorded chain. -/
structure Serving (n : ServeNode) : Prop where
  recorded : Recorded coin n.node
  low : ∀ b ∈ n.node.db.blocks, coin.start < b.height
  parses : ∀ r ∈ n.node.db.rawBlocks, Parses sha256 r.raw
  tip : n.node.tip = some (tipAt coin n.node.db n.node.height)
  saved : n.node.db.height = none ∨ n.node.db.tip = n.node.tip
  whole : Whole coin.start n.store
  served : ∀ h : ℤ, coin.start < h → h ≤ n.node.height →
    ∃ r ∈ n.store.headers, r.height = h ∧ idxDbBlockGet n.node.db h = some r.hash

theorem serving_fresh : Serving sha256 coin ⟨fresh coin activation, {}⟩ where
  recorded := recorded_fresh coin activation
  low := fun _ hb => absurd hb List.not_mem_nil
  parses := fun _ hr => absurd hr List.not_mem_nil
  tip := congrArg some (if_pos le_rfl).symm
  saved := Or.inl rfl
  whole := whole_empty
  served := by
    intro h hlo hle
    have hheight : (fresh coin activation).height = coin.start := rfl
    rw [hheight] at hle
    omega

/-- The height is lowered, and the store keeps what lies up to it. -/
theorem Serving.lower {n : ServeNode} (hn : Serving sha256 coin n) {n' : Node} {store : ServeStore}
    (hrec : Recorded coin n') (hblocks : ∀ b ∈ n'.db.blocks, b ∈ n.node.db.blocks)
    (hraw : ∀ r ∈ n'.db.rawBlocks, r ∈ n.node.db.rawBlocks)
    (htip : n'.tip = some (tipAt coin n'.db n'.height))
    (hsaved : n'.db.height = none ∨ n'.db.tip = n'.tip) (hle : n'.height ≤ n.node.height)
    (hget : ∀ h ≤ n'.height, idxDbBlockGet n'.db h = idxDbBlockGet n.node.db h)
    (hwhole : Whole coin.start store)
    (hstore : ∀ r ∈ n.store.headers, r.height ≤ n'.height → r ∈ store.headers) :
    Serving sha256 coin ⟨n', store⟩ where
  recorded := hrec
  low := fun b hb => hn.low b (hblocks b hb)
  parses := fun r hr => hn.parses r (hraw r hr)
  tip := htip
  saved := hsaved
  whole := hwhole
  served := by
    intro h hlo hle'
    dsimp only at hle'
    obtain ⟨r, hr, rfl, hr'⟩ := hn.served h hlo (hle'.trans hle)
    exact ⟨r, hstore r hr hle', rfl, (hget _ hle').trans hr'⟩

theorem idxDbBlockGet_upTo {db db' : Db} (hord : OrderedTable.Ordered BlockRow.height db.blocks)
    {toHeight : ℤ} (hdb : db'.blocks = OrderedTable.upTo BlockRow.height toHeight db.blocks)
    {h : ℤ} (hle : h ≤ toHeight) : idxDbBlockGet db' h = idxDbBlockGet db h := by
  unfold idxDbBlockGet
  rw [hdb, hord.find?_upTo BlockRow.height hle]

theorem tipAt_getD {db : Db} (hlow : ∀ b ∈ db.blocks, coin.start < b.height) {height : ℤ}
    (hge : coin.start ≤ height) :
    tipAt coin db height = (idxDbBlockGet db height).getD coin.startHash := by
  unfold tipAt
  split
  · rename_i hle
    rcases idxDbBlockGet_cases db height with ⟨hnone, -⟩ | ⟨b, hb, hheight, -⟩
    · rw [hnone]
      rfl
    · have hlt := hlow b hb
      omega
  · rfl

/-- The tables after a rollback that went through. -/
theorem Serving.cut {n : ServeNode} (hn : Serving sha256 coin n) {toHeight : ℤ}
    (hge : coin.start ≤ toHeight) (hle : toHeight ≤ n.node.height) (s : SmState)
    (oracle : OracleFeed) {store : ServeStore} (hwhole : Whole coin.start store)
    (hstore : ∀ r ∈ n.store.headers, r.height ≤ toHeight → r ∈ store.headers) :
    let db := n.node.db.writes (idxDbBlockPruneAbove toHeight ++ [.project s])
    let tip := tipAt coin db toHeight
    Serving sha256 coin
      ⟨⟨s, oracle, db.writes (idxDbSaveSync toHeight tip), toHeight, some tip⟩, store⟩ := by
  intro db tip
  have hblocks : db.blocks = OrderedTable.upTo BlockRow.height toHeight n.node.db.blocks :=
    projectDb_blocks _ _
  have hraw : db.rawBlocks = OrderedTable.upTo RawRow.height toHeight n.node.db.rawBlocks :=
    projectDb_rawBlocks _ _
  refine hn.lower ⟨?_, ?_, Or.inl rfl, hge⟩ ?_ ?_ rfl (Or.inr rfl) hle ?_ hwhole hstore
  · show OrderedTable.Ordered BlockRow.height db.blocks
    rw [hblocks]
    exact hn.recorded.blocks.upTo BlockRow.height _
  · show OrderedTable.Ordered RawRow.height db.rawBlocks
    rw [hraw]
    exact hn.recorded.rawBlocks.upTo RawRow.height _
  · intro b hb
    have hb' : b ∈ db.blocks := hb
    rw [hblocks] at hb'
    exact ((OrderedTable.mem_upTo BlockRow.height).mp hb').1
  · intro r hr
    have hr' : r ∈ db.rawBlocks := hr
    rw [hraw] at hr'
    exact ((OrderedTable.mem_upTo RawRow.height).mp hr').1
  · intro h hh
    exact idxDbBlockGet_upTo hn.recorded.blocks hblocks hh

theorem Serving.reorg {n : ServeNode} (hn : Serving sha256 coin n) {toHeight : ℤ}
    (hge : coin.start ≤ toHeight) (hle : toHeight ≤ n.node.height) :
    Serving sha256 coin (n.reorg sha256 idxAttribute coin activation toHeight) := by
  obtain ⟨s, hs⟩ := idxSyncRollback_parses idxAttribute activation hn.parses n.node.oracle toHeight
  have hcut := hn.cut hge hle s (oracleRollback n.node.oracle (toHeight + 1))
    (hn.whole.prune toHeight)
    (fun r hr hrle => (OrderedTable.mem_upTo HeaderRow.height).mpr ⟨hr, hrle⟩)
  dsimp only at hcut
  rw [tipAt_getD _ hge] at hcut
  · unfold ServeNode.reorg Node.rollback
    simp only [hs, if_true]
    exact hcut
  · intro b hb
    have hb' : b ∈ (projectDb (n.node.db.writes (idxDbBlockPruneAbove toHeight)) s).blocks := hb
    rw [projectDb_blocks] at hb'
    exact hn.low b ((OrderedTable.mem_upTo BlockRow.height).mp hb').1

theorem Serving.rewalk {n : ServeNode} (hn : Serving sha256 coin n) {toHeight : ℤ}
    (hge : coin.start ≤ toHeight) (hle : toHeight ≤ n.node.height) :
    Serving sha256 coin
      { n with node := n.node.rewalk sha256 idxAttribute coin activation toHeight } := by
  obtain ⟨s, hs⟩ := idxSyncRollback_parses idxAttribute activation hn.parses n.node.oracle toHeight
  have hcut := hn.cut hge hle s (oracleRollback n.node.oracle (toHeight + 1)) hn.whole
    (fun r hr _ => hr)
  unfold Node.rewalk
  simp only [hs, if_true]
  exact hcut

theorem Serving.project {n : ServeNode} (hn : Serving sha256 coin n) :
    Serving sha256 coin { n with node := n.node.project } := by
  have hblocks : n.node.project.db.blocks = n.node.db.blocks := projectDb_blocks _ _
  have hraw : n.node.project.db.rawBlocks = n.node.db.rawBlocks := projectDb_rawBlocks _ _
  have hheight : n.node.project.db.height = n.node.db.height := projectDb_height _ _
  have htip : n.node.project.db.tip = n.node.db.tip := projectDb_tip _ _
  have hget : ∀ h, idxDbBlockGet n.node.project.db h = idxDbBlockGet n.node.db h := by
    intro h
    unfold idxDbBlockGet
    rw [hblocks]
  refine hn.lower ⟨?_, ?_, ?_, hn.recorded.low⟩ ?_ ?_ ?_ ?_ le_rfl (fun h _ => hget h) hn.whole
    (fun r hr _ => hr)
  · rw [hblocks]
    exact hn.recorded.blocks
  · rw [hraw]
    exact hn.recorded.rawBlocks
  · rw [hheight]
    exact hn.recorded.height
  · rw [hblocks]
    exact fun b hb => hb
  · rw [hraw]
    exact fun r hr => hr
  · refine hn.tip.trans ?_
    unfold tipAt
    rw [hget]
    rfl
  · rw [hheight, htip]
    exact hn.saved

theorem Serving.restart {n : ServeNode} (hn : Serving sha256 coin n) :
    Serving sha256 coin { n with node := startup coin activation n.node.db } := by
  obtain ⟨hblocks, hraw, hheight, hlow, hrec⟩ := startup_tables activation hn.recorded
  obtain ⟨htip, hsaved⟩ := startup_tip activation hn.recorded hn.tip hn.saved
  have hget : ∀ h, idxDbBlockGet (startup coin activation n.node.db).db h
      = idxDbBlockGet n.node.db h := by
    intro h
    unfold idxDbBlockGet
    rw [hblocks]
  refine hn.lower ⟨?_, ?_, hrec, hlow⟩ ?_ ?_ ?_ hsaved hheight (fun h _ => hget h) hn.whole
    (fun r hr _ => hr)
  · rw [hblocks]
    exact hn.recorded.blocks
  · rw [hraw]
    exact hn.recorded.rawBlocks
  · rw [hblocks]
    exact fun b hb => hb
  · rw [hraw]
    exact fun r hr => hr
  · refine htip.trans ?_
    unfold tipAt
    rw [hget]

theorem Serving.connect {n : ServeNode} (hn : Serving sha256 coin n) {raw : Bytes}
    (walletTouched : Bool) {tip : Hash256} (htip : n.node.tip = some tip)
    (hprev : prevField raw = tip.val)
    (hstale : Parses sha256 raw → NoStale n.store (n.node.height + 1) (rawHash sha256 raw)) :
    Serving sha256 coin (n.connect sha256 idxAttribute raw walletTouched) := by
  by_cases hp : Parses sha256 raw
  · obtain ⟨m, hm, -, -, hheight, htip', hdb⟩ := connect_parses idxAttribute n.node walletTouched hp
    have hhash := idxParseBlock_hash hm
    have hlen := hp.length_ge
    have hlow := hn.recorded.low
    have hblocks : (n.node.connect sha256 idxAttribute raw walletTouched).db.blocks =
        OrderedTable.put BlockRow.height ⟨n.node.height + 1, m.blockHash, m.time,
          m.coinbaseOutTotal, m.blockBytes, m.bits⟩ n.node.db.blocks := congrArg Db.blocks hdb
    have hget : ∀ h, idxDbBlockGet (n.node.connect sha256 idxAttribute raw walletTouched).db h =
        if n.node.height + 1 = h then some m.blockHash else idxDbBlockGet n.node.db h := by
      intro h
      unfold idxDbBlockGet
      rw [hblocks, hn.recorded.blocks.find?_put BlockRow.height]
      dsimp only
      split
      · rfl
      · rfl
    -- the row of the tip is the block that this one builds on
    have hlink : ∀ r ∈ n.store.headers, r.height = n.node.height + 1 - 1 →
        prevField (raw.take 80) = r.hash.val := by
      intro r hr hh
      obtain ⟨r', hr', hh', hget'⟩ := hn.served n.node.height
        (by have hlo := hn.whole.low r hr; omega) le_rfl
      have heq : r = r' := hn.whole.ordered.eq_of_mem HeaderRow.height hr hr' (by omega)
      have htipAt : tipAt coin n.node.db n.node.height = r.hash := by
        unfold tipAt
        rw [if_neg (by have hlo := hn.whole.low r hr; omega), hget', heq]
        rfl
      have hsame := htip.symm.trans hn.tip
      rw [Option.some_inj] at hsame
      rw [prevField_take, hprev, hsame, htipAt]
    have hfill : ∀ h, (coin.start : ℤ) < h → h < n.node.height + 1 →
        ∃ r ∈ n.store.headers, r.height = h := by
      intro h hlo hlt
      obtain ⟨r, hr, hh, -⟩ := hn.served h hlo (by omega)
      exact ⟨r, hr, hh⟩
    have hraw : raw ≠ [] := by
      rintro rfl
      exact absurd hlen (by simp)
    have hwhole : Whole coin.start (serveStorePut n.store (n.node.height + 1) m.blockHash
        (raw.take 80) raw (n.node.height + 1)) :=
      hn.whole.put (by omega) hraw hfill hlink (hhash ▸ hstale hp)
    unfold ServeNode.connect
    simp only [hm]
    refine ⟨?_, ?_, ?_, ?_, ?_, hwhole, ?_⟩
    · have hmoves : Moves sha256 idxAttribute coin n.node (.op (.connect raw walletTouched)) _ :=
        step_moves idxAttribute 0 hn.recorded _
      have hlegal : Step.Legal coin n.node (.op (.connect raw walletTouched)) := trivial
      exact hn.recorded.moves idxAttribute hlegal hmoves
    · intro b hb
      rw [hblocks] at hb
      rcases (OrderedTable.mem_put BlockRow.height).mp hb with rfl | ⟨hb, -⟩
      · dsimp only
        omega
      · exact hn.low b hb
    · intro r hr
      rw [hdb] at hr
      dsimp only at hr
      split at hr
      · rcases (OrderedTable.mem_put RawRow.height).mp hr with rfl | ⟨hr, -⟩
        · exact hp
        · exact hn.parses r hr
      · exact hn.parses r hr
    · rw [htip', hheight]
      unfold tipAt
      rw [if_neg (by omega), hget, if_pos rfl]
      rfl
    · right
      rw [hdb, htip']
    · intro h hlo hle
      dsimp only at hle
      rw [hheight] at hle
      rw [hget]
      by_cases hh : n.node.height + 1 = h
      · rw [if_pos hh]
        exact ⟨_, (OrderedTable.mem_put HeaderRow.height).mpr (Or.inl rfl), hh, rfl⟩
      · rw [if_neg hh]
        obtain ⟨r, hr, hr', hget'⟩ := hn.served h hlo (by omega)
        have hne : r.height ≠ n.node.height + 1 := fun he => hh (he.symm.trans hr')
        exact ⟨r, (OrderedTable.mem_put HeaderRow.height).mpr (Or.inr ⟨hr, hne⟩), hr', hget'⟩
  · obtain ⟨hdb, hheight⟩ := connect_refused idxAttribute n.node walletTouched hp
    have htip' := connect_refused_tip idxAttribute n.node walletTouched hp
    have hm := Option.not_isSome_iff_eq_none.mp hp
    unfold ServeNode.connect
    simp only [hm]
    refine hn.lower ⟨?_, ?_, ?_, ?_⟩ ?_ ?_ ?_ ?_ hheight.le ?_ hn.whole (fun r hr _ => hr)
    · rw [hdb]
      exact hn.recorded.blocks
    · rw [hdb]
      exact hn.recorded.rawBlocks
    · rw [hdb, hheight]
      exact hn.recorded.height
    · rw [hheight]
      exact hn.recorded.low
    · rw [hdb]
      exact fun b hb => hb
    · rw [hdb]
      exact fun r hr => hr
    · rw [htip', hdb, hheight]
      exact hn.tip
    · rw [htip', hdb]
      exact hn.saved
    · intro h _
      rw [hdb]

theorem Serving.op {n : ServeNode} (hn : Serving sha256 coin n) {op : ServeOp}
    (hop : op.Legal coin n ∧ op.Safe sha256 n) :
    Serving sha256 coin (n.op sha256 idxAttribute coin activation op) := by
  cases op with
  | connect raw walletTouched =>
    obtain ⟨⟨tip, htip, hprev⟩, hstale⟩ := hop
    exact hn.connect idxAttribute walletTouched htip hprev hstale
  | reorg toHeight => exact hn.reorg idxAttribute activation hop.1.1 hop.1.2
  | rewalk toHeight => exact hn.rewalk idxAttribute activation hop.1.1 hop.1.2
  | project => exact hn.project
  | restart => exact hn.restart activation

end Invariant

/-- While no connected block finds a stale cache, every answer to `getblocks` is whole. -/
theorem getblocks_whole (ops : List ServeOp)
    (hops : Run.Along (ServeNode.op sha256 idxAttribute coin activation)
      (fun n op => op.Legal coin n ∧ op.Safe sha256 n) ⟨fresh coin activation, {}⟩ ops) :
    Run.Throughout (ServeNode.op sha256 idxAttribute coin activation)
      (fun n => ∀ locator, AnswersWhole n.store locator) ⟨fresh coin activation, {}⟩ ops :=
  Run.throughout_of_keeps (fun _ _ hn hop => hn.op idxAttribute activation hop)
    (fun _ hn => hn.whole.answers) ops (serving_fresh activation) hops

def block1 : Bytes := header1 ++ [1] ++ commitTx
def block2 : Bytes := header2 ++ [0]

/-- The first block is connected again after a re-walk, where the store ends with it. -/
theorem getblocks_whole_sample :
    let ops : List ServeOp := [.connect block1 false, .connect block2 false, .reorg 1, .rewalk 0,
      .connect block1 false, .connect block2 false]
    let step := ServeNode.op chainSha256 commitAttribute commitCoin 0
    Run.Throughout step (fun n => ∀ locator, AnswersWhole n.store locator)
        ⟨fresh commitCoin 0, {}⟩ ops ∧
      getblocksReply (ops.foldl step ⟨fresh commitCoin 0, {}⟩).store
        [rawHash chainSha256 block1] = [rawHash chainSha256 block2] := by
  have hroot : prevField block1 = (zeros 32 : Hash256).val := by decide +kernel
  have hnext : prevField block2 = (rawHash chainSha256 block1).val := by decide +kernel
  refine ⟨getblocks_whole chainSha256 commitAttribute commitCoin 0 _ ?_, by decide +kernel⟩
  exact ⟨⟨⟨_, by decide +kernel, hroot⟩, by decide +kernel⟩,
    ⟨⟨_, by decide +kernel, hnext⟩, by decide +kernel⟩,
    ⟨⟨by decide +kernel, by decide +kernel⟩, trivial⟩,
    ⟨⟨by decide +kernel, by decide +kernel⟩, trivial⟩,
    ⟨⟨_, by decide +kernel, hroot⟩, by decide +kernel⟩,
    ⟨⟨_, by decide +kernel, hnext⟩, by decide +kernel⟩, trivial⟩

/-- The pass dies before the projection, the next one resumes below both blocks and connects another
first one. The second one stays in the store, and is offered as its child. -/
theorem stale_inventory :
    let ops : List ServeOp := [.project, .connect block1 false, .connect block2 false, .restart,
      .connect (siblingHeader ++ [0]) false]
    let step := ServeNode.op forkSha256 commitAttribute commitCoin 0
    (∃ tip ∈ ((ops.take 4).foldl step ⟨fresh commitCoin 0, {}⟩).node.tip,
      prevField siblingHeader = tip.val) ∧
      ¬ Run.Throughout step (fun n => ∀ locator, AnswersWhole n.store locator)
        ⟨fresh commitCoin 0, {}⟩ ops := by
  intro ops step
  refine ⟨⟨zeros 32, by decide +kernel, by decide +kernel⟩, ?_⟩
  intro h
  have hloc : serveStoreLocate (ops.foldl step ⟨fresh commitCoin 0, {}⟩).store
      [rawHash forkSha256 siblingHeader] =
      some ⟨1, rawHash forkSha256 siblingHeader, siblingHeader⟩ := by decide +kernel
  have hreply : getblocksReply (ops.foldl step ⟨fresh commitCoin 0, {}⟩).store
      [rawHash forkSha256 siblingHeader] = [rawHash forkSha256 block2] := by decide +kernel
  have hchild : ¬ ChildOf (ops.foldl step ⟨fresh commitCoin 0, {}⟩).store
      (rawHash forkSha256 siblingHeader) (rawHash forkSha256 block2) := by
    unfold ChildOf
    decide +kernel
  obtain ⟨hchain, -⟩ := h.last _ _ hloc
  rw [hreply] at hchain
  exact hchild (List.isChain_cons_cons.mp hchain).1

end NamespaceIndexer.Daemon
