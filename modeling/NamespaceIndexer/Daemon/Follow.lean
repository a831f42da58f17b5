import NamespaceIndexer.Daemon.Grown
import NamespaceIndexer.Daemon.Relay

/-!
# Following a peer over one connection

The pull of `idx_serve`, the answers of `serve_dispatch` on both ends, and the pass of `cmd_sync` that
folds what arrived. Blocks wait in `blockstage`, where other peers may put theirs.
-/

namespace NamespaceIndexer.Daemon

open Fold Lib

/-! ### The pull -/

/-- `serve_store_tip`; -1 where there is no header. -/
def serveStoreTip (ss : ServeStore) : ℤ := ((ss.headers.map HeaderRow.height).max?).getD (-1)

/-- `serve_store_hash_at`. -/
def serveStoreHashAt (ss : ServeStore) (height : ℤ) : Option Hash256 :=
  (OrderedTable.find? HeaderRow.height ss.headers height).map HeaderRow.hash

/-- The walk down the stored headers: `nloc` are collected, and at most so many more are. -/
def pullWalk (ss : ServeStore) : ℕ → ℕ → ℤ → ℤ → List Hash256
  | 0, _, _, _ => []
  | more + 1, nloc, lh, step =>
    if lh < 0 then []
    else
      match serveStoreHashAt ss lh with
      | none => []
      | some hash =>
        let step := if 4 ≤ nloc + 1 then step * 2 else step
        hash :: pullWalk ss more (nloc + 1) (lh - step) step

/-- `loc`. -/
def pullLocator (ss : ServeStore) : List Hash256 := pullWalk ss 16 0 (serveStoreTip ss) 1

/-- A `getblocks` payload: version, locator, and no stop. -/
def getblocksPayload (locator : List Hash256) : Bytes :=
  leBytes 4 70015 ++ (putVarint locator.length ++ (locator.flatMap Subtype.val ++ (zeros 32 : Hash256).val))

/-- What is sent to a peer at a pull, if anything. -/
def pullMessage (ss : ServeStore) : Option Bytes :=
  if pullLocator ss = [] then none else some (getblocksPayload (pullLocator ss))

/-! ### The answer to it -/

/-- The count of a locator, and the bytes behind it. -/
def readLocator (pl : Bytes) : Option (ℕ × Bytes) :=
  if pl.length < 5 then none else netPolicyReadCount (pl.drop 4)

/-- The hashes of a locator. -/
def readHashes : ℕ → Bytes → List Hash256
  | 0, _ => []
  | nloc + 1, pl => copyFrom 32 pl :: readHashes nloc (pl.drop 32)

/-- The `getblocks` branch of `serve_dispatch`: what is sent, and what is held against the peer. -/
def serveGetblocks (ss : ServeStore) (pl : Bytes) : Option RelayMsg × Option (ℕ × String) :=
  match readLocator pl with
  | none => (none, none)
  | some (nloc, rest) =>
    if 2000 < nloc then (none, some (10, "getblocks nloc"))
    else if rest.length < nloc * 32 + 32 then (none, none)
    else
      let hashes := getblocksReply ss (readHashes nloc rest)
      (if hashes = [] then none else some ⟨.inv, inventory (hashes.map (2, ·))⟩, none)

/-! ### The stage -/

section Follower

variable (sha256 idxPowHash : Bytes → Hash256)
variable (idxAttribute : Bytes → ℕ → Option (H160 × Byte))
variable (coin : Coin) (activation : UInt64)

/-- A pass with its stage, and the times at which the rows were put (`at`). -/
structure Follower extends StageNode where
  stamp : Hash256 → ℤ := fun _ => 0

/-- `ORDER BY at DESC LIMIT 32`: which of the rows put at one second come first is left open. -/
structure FreshestFirst (pick : (Hash256 → ℤ) → List StagedRow → List StagedRow) : Prop where
  sublist : ∀ stamp rows, (pick stamp rows).Sublist rows
  full : ∀ stamp rows, (pick stamp rows).length = min 32 rows.length
  fresh : ∀ stamp rows, ∀ r ∈ pick stamp rows, ∀ x ∈ rows, x ∉ pick stamp rows →
    stamp (x.hash sha256) ≤ stamp (r.hash sha256)

variable (pick : (Hash256 → ℤ) → List StagedRow → List StagedRow)

/-- `serve_store_stage_put`: a row with this hash stays, an hour is the longest wait, and 32 rows are
the most. -/
def serveStoreStagePut (c : Follower) (r : StagedRow) (now : ℤ) : Follower :=
  let hash := r.hash sha256
  let had := c.stage.any fun x => x.hash sha256 = hash
  let stamp := if had then c.stamp else Function.update c.stamp hash now
  let rows := (if had then c.stage else c.stage ++ [r]).filter fun x =>
    now - 3600 ≤ stamp (x.hash sha256)
  { c with stage := pick stamp rows, stamp }

/-- The `block` branch of `serve_dispatch`. -/
def serveBlock (c : Follower) (pl : Bytes) (now : ℤ) : Follower :=
  if h : 80 ≤ pl.length then serveStoreStagePut sha256 pick c ⟨pl, h⟩ now else c

/-! ### The pass -/

/-- The loop that folds staged rows on top of the tip, and how many it folded. -/
def foldStage (touched : Bytes → Bool) : ℕ → StageNode → StageNode × ℕ
  | 0, n => (n, 0)
  | guard + 1, n =>
    match n.node.tip.bind (serveStoreStageNext n.stage) with
    | none => (n, 0)
    | some r =>
      let stage := serveStoreStageDel sha256 n.stage (r.hash sha256)
      if blockValidate sha256 idxPowHash coin n.node.db (n.node.height + 1) r.raw then
        let ok := (connectBlock sha256 idxAttribute n.node.s n.node.oracle (n.node.height + 1) r.raw
          (touched r.raw)).ok
        let (n, folded) := foldStage touched guard
          ⟨n.connect sha256 idxAttribute r.raw (touched r.raw), stage⟩
        (n, if ok then folded + 1 else folded)
      else foldStage touched guard { n with stage }

/-- Does the stage-side reorg roll back, and the replay fail? -/
def stageAborts (n : StageNode) : Bool :=
  serveStoreStagePending sha256 n.store n.stage &&
    (stageFork coin n.node.db n.node.height n.stage).any fun (forkH, fh) =>
      outweighs sha256 idxPowHash coin n.node.db n.node.height forkH fh
          (stageWalk sha256 n.stage 32 fh) &&
        !(idxSyncRollback sha256 idxAttribute n.node.db n.node.oracle activation forkH).ok

/-- The part of `cmd_sync` that needs no socket. A stage-side reorg projects by itself; after a failed
replay the pass is over. -/
def stagePass (touched : Bytes → Bool) (n : StageNode) : StageNode :=
  let (n, folded) := foldStage sha256 idxPowHash idxAttribute coin touched 512 n
  let n' := stageReorg sha256 idxPowHash idxAttribute coin activation touched n
  if !stageAborts sha256 idxPowHash idxAttribute coin activation n && 0 < folded then
    { n' with node := n'.node.project }
  else n'

/-! ### Rounds -/

/-- The peer: what its `serve_dispatch` reads besides the budget of the connection. -/
structure Peer where
  store : ServeStore
  stage : List StagedRow := []
  pool : Mempool := {}

/-- A pull with all that comes of it, and the clocks of the two ends; or a block that another peer
pushes. -/
inductive FollowEvent where
  | pull (theirNow ourNow : ℤ)
  | push (pl : Bytes) (now : ℤ)

variable (touched : Bytes → Bool) (pool : Mempool) (peer : Peer)

/-- The blocks that the peer sends after a pull, and its budget. -/
def pullBlocks (store : ServeStore) (stage : List StagedRow) (gd : GdBudget) (theirNow ourNow : ℤ) :
    List RelayMsg × GdBudget :=
  match (pullMessage store).bind fun gb => (serveGetblocks peer.store gb).1 with
  | none => ([], gd)
  | some inv =>
    let ask := (serveDispatch sha256 pool {} (some (store, stage)) ourNow inv).reply
    ask.foldl (fun out m =>
      let d := serveDispatch sha256 peer.pool out.2 (some (peer.store, peer.stage)) theirNow m
      (out.1 ++ d.reply, d.gd)) ([], gd)

/-- One event: a pull ends with the pass that its blocks wake. -/
def followStep (cg : Follower × GdBudget) : FollowEvent → Follower × GdBudget
  | .pull theirNow ourNow =>
    let (c, gd) := cg
    let (msgs, gd) := pullBlocks sha256 pool peer c.store c.stage gd theirNow ourNow
    let c := msgs.foldl (fun c m => if m.cmd = .block then serveBlock sha256 pick c m.pl ourNow else c) c
    ({ stagePass sha256 idxPowHash idxAttribute coin activation touched c.toStageNode with
        stamp := c.stamp }, gd)
  | .push pl now => (serveBlock sha256 pick cg.1 pl now, cg.2)

end Follower

/-! ### A pull on the wire -/

section Wire

theorem pullWalk_length_le (ss : ServeStore) (more nloc : ℕ) (lh step : ℤ) :
    (pullWalk ss more nloc lh step).length ≤ more := by
  induction more generalizing nloc lh step with
  | zero => exact Nat.zero_le _
  | succ more ih =>
    unfold pullWalk
    split
    · exact Nat.zero_le _
    · split
      · exact Nat.zero_le _
      · exact Nat.succ_le_succ (ih _ _ _)

theorem readHashes_flatMap (locator : List Hash256) (rest : Bytes) :
    readHashes locator.length (locator.flatMap Subtype.val ++ rest) = locator := by
  induction locator with
  | nil => rfl
  | cons hash locator ih =>
    have hcons : (hash :: locator).flatMap Subtype.val ++ rest =
        hash.val ++ (locator.flatMap Subtype.val ++ rest) := by
      rw [List.flatMap_cons, List.append_assoc]
    rw [hcons, List.length_cons, readHashes, copyFrom_append, List.drop_left' hash.2, ih]

/-- A locator is read as it was written. -/
theorem serveGetblocks_payload (ss : ServeStore) {locator : List Hash256} (h : locator.length ≤ 2000) :
    serveGetblocks ss (getblocksPayload locator) =
      (if getblocksReply ss locator = [] then none
        else some ⟨.inv, inventory ((getblocksReply ss locator).map (2, ·))⟩, none) := by
  have hversion : (leBytes 4 70015).length = 4 := length_leBytes 4 70015
  have hzeros : (zeros 32 : Hash256).val.length = 32 := (zeros 32).2
  have hflat : (locator.flatMap Subtype.val).length = locator.length * 32 := by
    rw [List.length_flatMap, List.map_congr_left (g := fun _ => 32) fun hash _ => hash.2]
    simp
  have hread : readLocator (getblocksPayload locator) = some (locator.length,
      locator.flatMap Subtype.val ++ (zeros 32 : Hash256).val) := by
    unfold readLocator getblocksPayload
    rw [if_neg (by simp only [List.length_append, hversion, hzeros]; omega),
      List.drop_left' hversion, netPolicyReadCount_putVarint (by omega)]
  unfold serveGetblocks
  rw [hread]
  dsimp only
  rw [if_neg (by omega), if_neg (by rw [List.length_append, hflat, hzeros]; omega), readHashes_flatMap]

end Wire

section Rounds

variable {sha256 idxPowHash : Bytes → Hash256}
variable {idxAttribute : Bytes → ℕ → Option (H160 × Byte)}
variable {coin : Coin} {activation : UInt64}

theorem headerRows_ordered (height : ℤ) (raws : List Bytes) :
    OrderedTable.Ordered HeaderRow.height (headerRows sha256 height raws) := by
  induction raws generalizing height with
  | nil => exact List.Pairwise.nil
  | cons raw raws ih =>
    refine List.pairwise_cons.mpr ⟨fun r hr => ?_, ih (height + 1)⟩
    exact (mem_headerRows_height hr).1

theorem bodyRows_ordered (height : ℤ) (raws : List Bytes) :
    OrderedTable.Ordered RawRow.height (bodyRows height raws) := by
  induction raws generalizing height with
  | nil => exact List.Pairwise.nil
  | cons raw raws ih =>
    refine List.pairwise_cons.mpr ⟨fun w hw => ?_, ih (height + 1)⟩
    exact (mem_bodyRows_height hw).1

theorem GrownTo.bodies_ordered {n : ServeNode} {raws : List Bytes} (h : GrownTo sha256 coin n raws) :
    OrderedTable.Ordered RawRow.height n.store.blockwin := by
  rw [h.blockwin]
  exact (bodyRows_ordered coin.start raws).filter _

theorem hash_off_split {below above : List Bytes} {raw : Bytes}
    (h : (links sha256 coin (below ++ raw :: above)).Nodup) :
    rawHash sha256 raw ∉ below.map (rawHash sha256) ∧ rawHash sha256 raw ∉ above.map (rawHash sha256) := by
  have hmap := (List.nodup_cons.mp h).2
  rw [List.map_append, List.map_cons, List.nodup_middle, List.nodup_cons, List.mem_append, not_or] at hmap
  exact hmap.1

/-- A pull starts at the tip. -/
theorem pullLocator_tip {ss : ServeStore} {height : ℤ} (h0 : 0 ≤ height) {raws : List Bytes} {raw : Bytes}
    (h : ss.headers = headerRows sha256 height (raws ++ [raw])) :
    ∃ rest, pullLocator ss = rawHash sha256 raw :: rest ∧ rest.length ≤ 15 := by
  have hrows : ss.headers = headerRows sha256 height raws ++
      [⟨height + raws.length + 1, rawHash sha256 raw, raw.take 80⟩] := by
    rw [h, headerRows_append]
    rfl
  have htip : serveStoreTip ss = height + raws.length + 1 := by
    have hmax : (ss.headers.map HeaderRow.height).max? = some (height + raws.length + 1) := by
      rw [List.max?_eq_some_iff]
      constructor
      · rw [hrows]
        simp
      · intro b hb
        obtain ⟨r, hr, rfl⟩ := List.mem_map.mp hb
        rw [h] at hr
        have hle := (mem_headerRows_height hr).2
        simp only [List.length_append, List.length_singleton] at hle
        push_cast at hle
        omega
    unfold serveStoreTip
    rw [hmax]
    rfl
  have hat : serveStoreHashAt ss (height + raws.length + 1) = some (rawHash sha256 raw) := by
    have hord : OrderedTable.Ordered HeaderRow.height ss.headers := by
      rw [h]
      exact headerRows_ordered height _
    have hfind : OrderedTable.find? HeaderRow.height ss.headers (height + raws.length + 1) =
        some ⟨height + raws.length + 1, rawHash sha256 raw, raw.take 80⟩ := by
      apply (hord.find?_eq_some HeaderRow.height).mpr
      rw [hrows]
      exact ⟨List.mem_append_right _ List.mem_cons_self, rfl⟩
    unfold serveStoreHashAt
    rw [hfind]
    rfl
  unfold pullLocator
  rw [htip, pullWalk, if_neg (by omega), hat]
  exact ⟨_, rfl, pullWalk_length_le _ _ _ _ _⟩

variable {n : ServeNode} {below above : List Bytes} {raw : Bytes}

theorem GrownTo.headers_split (h : GrownTo sha256 coin n (below ++ raw :: above)) :
    n.store.headers = headerRows sha256 coin.start below ++
      ⟨coin.start + below.length + 1, rawHash sha256 raw, raw.take 80⟩ ::
        headerRows sha256 (coin.start + below.length + 1) above := by
  rw [h.headers, headerRows_append]
  rfl

theorem headerRows_hash_ne {height : ℤ} {raws : List Bytes} {hash : Hash256}
    (h : hash ∉ raws.map (rawHash sha256)) : ∀ r ∈ headerRows sha256 height raws, r.hash ≠ hash := by
  intro r hr heq
  apply h
  rw [← headerRows_map_hash height, ← heq]
  exact List.mem_map_of_mem hr

/-- The block that a hash of the window stands for. -/
theorem GrownTo.block (h : GrownTo sha256 coin n (below ++ raw :: above))
    (hnodup : (links sha256 coin (below ++ raw :: above)).Nodup) (hraw : raw ≠ [])
    (hwindow : above.length ≤ 288) : serveStoreBlock n.store (rawHash sha256 raw) = some raw := by
  obtain ⟨hbelow, habove⟩ := hash_off_split hnodup
  have hfilter : (n.store.headers.filter fun r => r.hash = rawHash sha256 raw) =
      [⟨coin.start + below.length + 1, rawHash sha256 raw, raw.take 80⟩] := by
    rw [h.headers_split, List.filter_append, List.filter_cons_of_pos (by simp),
      List.filter_eq_nil_iff.mpr fun r hr => by simpa using headerRows_hash_ne hbelow r hr,
      List.filter_eq_nil_iff.mpr fun r hr => by simpa using headerRows_hash_ne habove r hr]
    rfl
  have hbody : OrderedTable.find? RawRow.height n.store.blockwin (coin.start + below.length + 1) =
      some ⟨coin.start + below.length + 1, raw⟩ := by
    apply ((h.bodies_ordered).find?_eq_some RawRow.height).mpr
    rw [h.blockwin, List.mem_filter, bodyRows_append]
    refine ⟨⟨List.mem_append_right _ List.mem_cons_self, ?_⟩, rfl⟩
    simp only [List.length_append, List.length_cons, decide_eq_true_eq, serveBlockWindow]
    push_cast
    omega
  unfold serveStoreBlock
  rw [hfilter]
  simp only [List.filterMap_cons, hbody, List.filterMap_nil, List.head?_cons, if_neg hraw]

theorem GrownTo.winFloor (h : GrownTo sha256 coin n (below ++ raw :: above)) (hwindow : above.length ≤ 288) :
    ∃ wfloor, serveStoreWinFloor n.store = some wfloor ∧ 0 ≤ wfloor ∧
      wfloor ≤ coin.start + below.length + 1 := by
  have hmem : (⟨coin.start + below.length + 1, raw⟩ : RawRow) ∈ n.store.blockwin := by
    rw [h.blockwin, List.mem_filter, bodyRows_append]
    refine ⟨List.mem_append_right _ List.mem_cons_self, ?_⟩
    simp only [List.length_append, List.length_cons, decide_eq_true_eq, serveBlockWindow]
    push_cast
    omega
  unfold serveStoreWinFloor
  cases hmin : (n.store.blockwin.map RawRow.height).min? with
  | none =>
    rw [List.min?_eq_none_iff, List.map_eq_nil_iff] at hmin
    rw [hmin] at hmem
    cases hmem
  | some wfloor =>
    obtain ⟨hin, hle⟩ := List.min?_eq_some_iff.mp hmin
    obtain ⟨w, hw, rfl⟩ := List.mem_map.mp hin
    rw [h.blockwin] at hw
    have hlow := (mem_bodyRows_height (List.mem_filter.mp hw).1).1
    refine ⟨w.height, rfl, by omega, ?_⟩
    exact hle _ (List.mem_map_of_mem hmem)

/-- What is above the tip of the asker. -/
theorem GrownTo.getblocksReply (h : GrownTo sha256 coin n (below ++ raw :: above))
    (hnodup : (links sha256 coin (below ++ raw :: above)).Nodup) (hwindow : above.length ≤ 289)
    (locator : List Hash256) :
    Daemon.getblocksReply n.store (rawHash sha256 raw :: locator) =
      (above.map (rawHash sha256)).take 500 := by
  obtain ⟨hbelow, -⟩ := hash_off_split hnodup
  have hlocate : serveStoreLocate n.store (rawHash sha256 raw :: locator) =
      some ⟨coin.start + below.length + 1, rawHash sha256 raw, raw.take 80⟩ := by
    have hfind : (n.store.headers.find? fun r => r.hash = rawHash sha256 raw) =
        some ⟨coin.start + below.length + 1, rawHash sha256 raw, raw.take 80⟩ := by
      rw [h.headers_split, List.find?_append,
        List.find?_eq_none.mpr fun r hr => by simpa using headerRows_hash_ne hbelow r hr,
        List.find?_cons_of_pos (by simp)]
      rfl
    unfold serveStoreLocate
    rw [List.findSome?_cons, hfind]
  have hrows : (n.store.headers.filter fun r => (coin.start + below.length + 1 : ℤ) < r.height) =
      headerRows sha256 (coin.start + below.length + 1) above := by
    rw [h.headers_split, List.filter_append, List.filter_cons_of_neg (by simp),
      List.filter_eq_nil_iff.mpr, List.nil_append, List.filter_eq_self.mpr]
    · intro r hr
      exact decide_eq_true (mem_headerRows_height hr).1
    · intro r hr
      have hle := (mem_headerRows_height hr).2
      simp only [decide_eq_true_eq]
      omega
  have hreply : serveStoreHashesFrom n.store (coin.start + below.length + 1) 500 =
      (above.map (rawHash sha256)).take 500 := by
    unfold serveStoreHashesFrom headersAbove
    rw [hrows, List.map_take, headerRows_map_hash]
  unfold Daemon.getblocksReply
  rw [hlocate]
  cases above with
  | nil =>
    rw [List.map_nil, List.take_nil] at hreply ⊢
    split
    · split
      · rfl
      · rename_i hr _ _
        cases hr
        exact hreply
    · rfl
  | cons next above =>
    have hgrown : GrownTo sha256 coin n ((below ++ [raw]) ++ next :: above) := by simpa using h
    rw [List.length_cons] at hwindow
    obtain ⟨wfloor, hfloor, hpos, hle⟩ := hgrown.winFloor (by omega)
    rw [List.length_append, List.length_singleton] at hle
    push_cast at hle
    rw [hfloor]
    dsimp only
    rw [if_neg (by omega)]
    exact hreply

/-! ### What is asked for and sent -/

theorem foldl_wantItem {p : Mempool} {ss : ServeStore} {stage : List StagedRow} {hashes : List Hash256}
    (h : ∀ hash ∈ hashes, serveStoreHave sha256 (some (ss, stage)) hash = false) (wblk : List Hash256)
    (hwblk : wblk.length ≤ 16) :
    (hashes.map (2, ·)).foldl (wantItem sha256 p (some (ss, stage))) { wblk } =
      { wblk := (wblk ++ hashes).take 16 } := by
  induction hashes generalizing wblk with
  | nil =>
    rw [List.append_nil, List.take_of_length_le hwblk]
    rfl
  | cons hash hashes ih =>
    have hrest := fun x hx => h x (List.mem_cons_of_mem _ hx)
    rw [List.map_cons, List.foldl_cons]
    by_cases hfull : wblk.length < 16
    · have hstep : wantItem sha256 p (some (ss, stage)) { wblk } (2, hash) =
          { wblk := wblk ++ [hash] } := by
        unfold wantItem
        rw [if_neg (by simp), if_pos ⟨rfl, hfull, rfl⟩, h hash List.mem_cons_self]
        rfl
      rw [hstep, ih hrest _ (by simpa using hfull), List.append_assoc]
      rfl
    · have hstep : wantItem sha256 p (some (ss, stage)) { wblk } (2, hash) = { wblk } := by
        unfold wantItem
        rw [if_neg (by simp), if_neg fun hc => hfull hc.2.1]
      rw [hstep, ih hrest _ hwblk, List.take_append_of_le_length (by omega),
        List.take_append_of_le_length (by omega)]

/-- A window that has just been looked at is the one of the next look. -/
theorem GdBudget.window_window (g : GdBudget) {now : ℤ} (hpos : 0 < now) (b y : ℕ) :
    ({ g.window now with gdBlocks := b, gdBytes := y } : GdBudget).window now =
      { g.window now with gdBlocks := b, gdBytes := y } := by
  unfold GdBudget.window
  by_cases hw : g.gdWinT = 0 ∨ idxGetdataWindowS ≤ now - g.gdWinT
  · have hnow : ¬ (now = 0 ∨ idxGetdataWindowS ≤ now - now) := by
      unfold idxGetdataWindowS
      omega
    rw [if_pos hw]
    exact if_neg hnow
  · rw [if_neg hw]
    exact if_neg hw

/-- Blocks that the window has room for are all sent. -/
theorem serveGetdata_blocks {p : Mempool} {ss : ServeStore} {stage : List StagedRow} {now : ℤ}
    (hpos : 0 < now) {batch : List Bytes}
    (h : ∀ raw ∈ batch, serveStoreBlock ss (rawHash sha256 raw) = some raw ∧ raw.length ≤ 2 ^ 20)
    {examined : ℕ} (hexamined : examined + batch.length ≤ idxGetdataItems) {g : GdBudget}
    (hblocks : (g.window now).gdBlocks + batch.length ≤ idxGetdataBlocks)
    (hbytes : (g.window now).gdBytes + batch.length * 2 ^ 20 ≤ idxGetdataBytes) :
    (serveGetdata p (some (ss, stage)) now (batch.map fun raw => (2, rawHash sha256 raw)) examined g).1 =
      batch.map fun raw => ⟨.block, raw⟩ := by
  induction batch generalizing examined g with
  | nil => rfl
  | cons raw batch ih =>
    obtain ⟨hbody, hsize⟩ := h raw List.mem_cons_self
    rw [List.length_cons] at hexamined hblocks hbytes
    have hitem : itemBody p (some (ss, stage)) (2, rawHash sha256 raw) = some (⟨.block, raw⟩, 1) := by
      unfold itemBody
      rw [if_pos ⟨rfl, rfl⟩, Option.bind_some, hbody]
      rfl
    have hok : netPolicyGetdataOk g now 1 raw.length =
        ({ g.window now with
            gdBlocks := (g.window now).gdBlocks + 1
            gdBytes := (g.window now).gdBytes + raw.length }, true) := by
      unfold netPolicyGetdataOk
      dsimp only
      rw [if_neg (by omega), if_neg (by omega)]
    have hlook : netPolicyGetdataItemsOk examined = true := decide_eq_true (by omega)
    rw [List.map_cons, serveGetdata, if_pos hlook, hitem]
    dsimp only
    rw [hok]
    dsimp only
    rw [ih (fun x hx => h x (List.mem_cons_of_mem _ hx)) (by omega)]
    · rfl
    · rw [g.window_window hpos]
      dsimp only
      omega
    · rw [g.window_window hpos]
      dsimp only
      omega

theorem block_items (hashes : List Hash256) :
    ∀ it ∈ hashes.map fun hash => ((2 : ℕ), hash), it.1 < 2 ^ 32 := by
  intro it hit
  obtain ⟨hash, -, rfl⟩ := List.mem_map.mp hit
  norm_num

/-- An inventory of block hashes that are all unknown is asked for, up to the sixteenth. -/
theorem serveDispatch_inv {p : Mempool} {ss : ServeStore} {stage : List StagedRow} {hashes : List Hash256}
    (hne : hashes ≠ []) (hlen : hashes.length ≤ 500)
    (h : ∀ hash ∈ hashes, serveStoreHave sha256 (some (ss, stage)) hash = false) (gd : GdBudget) (now : ℤ) :
    (serveDispatch sha256 p gd (some (ss, stage)) now ⟨.inv, inventory (hashes.map (2, ·))⟩).reply =
      [⟨.getdata, inventory ((hashes.take 16).map (2, ·))⟩] := by
  obtain ⟨rest, hcount, hread⟩ := inventory_read (by rw [List.length_map]; omega)
    (block_items hashes)
  have hwants := foldl_wantItem (p := p) h [] (Nat.zero_le _)
  rw [List.nil_append] at hwants
  have htake : (hashes.take 16).length ≠ 0 := by
    rw [List.length_take]
    have hpos := List.length_pos_iff.mpr hne
    omega
  unfold serveDispatch
  dsimp only
  rw [hcount]
  dsimp only
  rw [List.length_map] at hread ⊢
  rw [if_neg (by unfold idxMaxInvSz; omega), hread]
  unfold invReply
  dsimp only
  rw [hwants]
  dsimp only
  rw [List.length_nil, Nat.zero_add, if_neg htake, List.map_nil, List.nil_append]

theorem serveDispatch_getdata {p : Mempool} {ss : ServeStore} {stage : List StagedRow} {now : ℤ}
    (hpos : 0 < now) {batch : List Bytes} (hlen : batch.length ≤ 16)
    (h : ∀ raw ∈ batch, serveStoreBlock ss (rawHash sha256 raw) = some raw ∧ raw.length ≤ 2 ^ 20)
    {gd : GdBudget} (hgd : gd.gdWinT = 0 ∨ idxGetdataWindowS ≤ now - gd.gdWinT) :
    (serveDispatch sha256 p gd (some (ss, stage)) now
        ⟨.getdata, inventory (batch.map fun raw => (2, rawHash sha256 raw))⟩).reply =
      batch.map fun raw => ⟨.block, raw⟩ := by
  have hitems : ∀ it ∈ batch.map fun raw => ((2 : ℕ), rawHash sha256 raw), it.1 < 2 ^ 32 := by
    have hblocks := block_items (batch.map (rawHash sha256))
    rw [List.map_map] at hblocks
    exact hblocks
  obtain ⟨rest, hcount, hread⟩ := inventory_read (by rw [List.length_map]; omega) hitems
  have hwindow : gd.window now = ⟨0, 0, now⟩ := if_pos hgd
  unfold serveDispatch
  dsimp only
  rw [hcount]
  dsimp only
  rw [List.length_map] at hread ⊢
  rw [if_neg (by unfold idxMaxInvSz; omega), hread]
  apply serveGetdata_blocks hpos h
  · unfold idxGetdataItems
    omega
  · rw [hwindow]
    unfold idxGetdataBlocks
    dsimp only
    omega
  · rw [hwindow]
    unfold idxGetdataBytes
    dsimp only
    omega

/-- A pull brings the next sixteen blocks, or all that there are. -/
theorem pullBlocks_eq {c : ServeNode} (h : GrownTo sha256 coin n (below ++ raw :: above))
    (hc : GrownTo sha256 coin c (below ++ [raw]))
    (hnodup : (links sha256 coin (below ++ raw :: above)).Nodup) (hwindow : above.length ≤ 289)
    (hsize : ∀ raw ∈ above, raw ≠ [] ∧ raw.length ≤ 2 ^ 20) {peer : Peer} (hpeer : peer.store = n.store)
    {stage : List StagedRow} (hstage : ∀ r ∈ stage, r.hash sha256 ∉ above.map (rawHash sha256))
    (pool : Mempool) {gd : GdBudget} {theirNow : ℤ} (hpos : 0 < theirNow)
    (hgd : gd.gdWinT = 0 ∨ idxGetdataWindowS ≤ theirNow - gd.gdWinT) (ourNow : ℤ) :
    (pullBlocks sha256 pool peer c.store stage gd theirNow ourNow).1 =
      (above.take 16).map fun raw => ⟨.block, raw⟩ := by
  obtain ⟨rest, hloc, hrest⟩ := pullLocator_tip (by omega) hc.headers
  have hask : pullMessage c.store = some (getblocksPayload (rawHash sha256 raw :: rest)) := by
    unfold pullMessage
    rw [hloc, if_neg (List.cons_ne_nil _ _)]
  unfold pullBlocks
  rw [hask, Option.bind_some, serveGetblocks_payload _ (by rw [List.length_cons]; omega), hpeer,
    h.getblocksReply hnodup hwindow]
  by_cases habove : above = []
  · subst habove
    rfl
  · have hne : (above.map (rawHash sha256)).take 500 ≠ [] := by simpa using habove
    have hlen : ((above.map (rawHash sha256)).take 500).length ≤ 500 := List.length_take_le _ _
    have hunknown : ∀ hash ∈ (above.map (rawHash sha256)).take 500,
        serveStoreHave sha256 (some (c.store, stage)) hash = false := by
      intro hash hhash
      have hhash := List.mem_of_mem_take hhash
      have hheaders : c.store.headers.any (fun r => r.hash = hash) = false := by
        rw [List.any_eq_false]
        intro r hr
        rw [decide_eq_true_eq]
        rw [hc.headers] at hr
        apply headerRows_hash_ne ?_ r hr
        intro hmem
        have hmap := (List.nodup_cons.mp hnodup).2
        rw [List.append_cons, List.map_append] at hmap
        exact List.disjoint_of_nodup_append hmap hmem hhash
      have hwaiting : stage.any (fun r => r.hash sha256 = hash) = false := by
        rw [List.any_eq_false]
        intro r hr
        rw [decide_eq_true_eq]
        rintro rfl
        exact hstage r hr hhash
      unfold serveStoreHave
      dsimp only
      rw [hheaders, hwaiting]
      rfl
    have hbatch : (((above.map (rawHash sha256)).take 500).take 16).map (fun hash => (2, hash)) =
        (above.take 16).map fun raw => (2, rawHash sha256 raw) := by
      rw [List.take_take, ← List.map_take, List.map_map]
      rfl
    have hserved : ∀ raw ∈ above.take 16,
        serveStoreBlock n.store (rawHash sha256 raw) = some raw ∧ raw.length ≤ 2 ^ 20 := by
      intro next hnext
      have hnext := List.mem_of_mem_take hnext
      obtain ⟨before, after, rfl⟩ := List.append_of_mem hnext
      obtain ⟨hbody, hle⟩ := hsize next hnext
      have hsplit : below ++ raw :: (before ++ next :: after) =
          (below ++ raw :: before) ++ next :: after := by simp
      rw [hsplit] at h hnodup
      rw [List.length_append, List.length_cons] at hwindow
      exact ⟨h.block hnodup hbody (by omega), hle⟩
    rw [if_neg hne]
    dsimp only
    rw [serveDispatch_inv hne hlen hunknown, List.foldl_cons, List.foldl_nil, List.nil_append, hbatch]
    exact serveDispatch_getdata hpos (List.length_take_le _ _) hserved hgd

end Rounds

end NamespaceIndexer.Daemon
