import NamespaceIndexer.Daemon.Headers

/-!
# A chain that only grew

The rows that connects alone leave in the serve cache, and what of a node neither its wallet nor its
last projection decides.
-/

namespace NamespaceIndexer.Daemon

open Fold Lib

variable (sha256 idxPowHash : Bytes → Hash256)
variable (idxAttribute : Bytes → ℕ → Option (H160 × Byte))
variable (coin : Coin) (activation : UInt64)

/-- A node with this wallet that connected these blocks to an empty database. -/
def grown (touched : Bytes → Bool) (raws : List Bytes) : ServeNode :=
  (raws.map fun raw => (raw, touched raw)).foldl (connectNext sha256 idxAttribute)
    ⟨fresh coin activation, {}⟩

/-- Each block is valid in its place. -/
def ValidChain (raws : List Bytes) : Prop :=
  Run.Along (connectNext sha256 idxAttribute) (ValidNext sha256 idxPowHash coin)
    ⟨fresh coin activation, {}⟩ (raws.map fun raw => (raw, false))

/-- A node without its raw blocks and its projection. -/
def ServeNode.bare (n : ServeNode) : ServeNode :=
  { n with node := { n.node with
      db := { blocks := n.node.db.blocks, height := n.node.db.height, tip := n.node.db.tip } } }

/-- What the chain stands on, block by block: the checkpoint, then the blocks. -/
def links (raws : List Bytes) : List Hash256 := coin.startHash :: raws.map (rawHash sha256)

/-- The rows of `headers` above a height. -/
def headerRows : ℤ → List Bytes → List HeaderRow
  | _, [] => []
  | height, raw :: raws => ⟨height + 1, rawHash sha256 raw, raw.take 80⟩ :: headerRows (height + 1) raws

/-- The rows of `blockwin` above a height, before any is trimmed. -/
def bodyRows : ℤ → List Bytes → List RawRow
  | _, [] => []
  | height, raw :: raws => ⟨height + 1, raw⟩ :: bodyRows (height + 1) raws

section Bare

variable {sha256 coin}

/-- Connecting a block does not read what is left out, and the wallet only decides that. -/
theorem bare_connect (n : ServeNode) (raw : Bytes) (w w' : Bool) :
    (n.connect sha256 idxAttribute raw w).bare = (n.bare.connect sha256 idxAttribute raw w').bare := by
  unfold ServeNode.bare ServeNode.connect Node.connect connectBlock
  cases hm : (idxParseBlock sha256 raw).2 with
  | none => rfl
  | some m =>
    simp only [connectWrites_db, if_true]

theorem bare_project (n : ServeNode) : ({ n with node := n.node.project } : ServeNode).bare = n.bare := by
  unfold ServeNode.bare Node.project Db.write
  simp only [projectDb_blocks, projectDb_height, projectDb_tip]

theorem connect_bare_congr {n n' : ServeNode} (h : n.bare = n'.bare) (raw : Bytes) (w w' : Bool) :
    (n.connect sha256 idxAttribute raw w).bare = (n'.connect sha256 idxAttribute raw w').bare := by
  rw [bare_connect idxAttribute n raw w w', h, ← bare_connect idxAttribute n' raw w' w']

/-- Validation reads the recorded chain, and nothing of what is left out. -/
theorem blockValidate_bare {n n' : ServeNode} (h : n.bare = n'.bare) (pos : ℤ) (raw : Bytes) :
    blockValidate sha256 idxPowHash coin n.node.db pos raw =
      blockValidate sha256 idxPowHash coin n'.node.db pos raw := by
  have hrows : n.bare.node.db.blocks = n'.bare.node.db.blocks := by rw [h]
  have hdb : ∀ db db' : Db, db.blocks = db'.blocks →
      blockValidate sha256 idxPowHash coin db pos raw =
        blockValidate sha256 idxPowHash coin db' pos raw := by
    intro db db' heq
    unfold blockValidate powContext medianTimes idxDbBlockHdr idxDbBlockTimes
    rw [heq]
  exact hdb _ _ hrows

theorem bare_grown (w w' : Bytes → Bool) (raws : List Bytes) :
    (grown sha256 idxAttribute coin activation w raws).bare =
      (grown sha256 idxAttribute coin activation w' raws).bare := by
  have hrun : ∀ (raws : List Bytes) (n n' : ServeNode), n.bare = n'.bare →
      ((raws.map fun raw => (raw, w raw)).foldl (connectNext sha256 idxAttribute) n).bare =
        ((raws.map fun raw => (raw, w' raw)).foldl (connectNext sha256 idxAttribute) n').bare := by
    intro raws
    induction raws with
    | nil => exact fun _ _ h => h
    | cons raw raws ih => exact fun n n' h => ih _ _ (connect_bare_congr idxAttribute h raw _ _)
  exact hrun raws _ _ rfl

end Bare

/-! ### Its rows -/

section Rows

variable {sha256 idxPowHash coin}

@[simp] theorem length_headerRows (height : ℤ) (raws : List Bytes) :
    (headerRows sha256 height raws).length = raws.length := by
  induction raws generalizing height with
  | nil => rfl
  | cons raw raws ih => exact congrArg (· + 1) (ih (height + 1))

theorem links_append (raws more : List Bytes) :
    links sha256 coin (raws ++ more) = links sha256 coin raws ++ more.map (rawHash sha256) := by
  simp [links]

theorem headerRows_append (height : ℤ) (raws more : List Bytes) :
    headerRows sha256 height (raws ++ more) =
      headerRows sha256 height raws ++ headerRows sha256 (height + raws.length) more := by
  induction raws generalizing height with
  | nil => simp [headerRows]
  | cons raw raws ih =>
    have hnext : height + 1 + (raws.length : ℤ) = height + ((raws.length + 1 : ℕ) : ℤ) := by
      push_cast
      ring
    rw [List.cons_append, headerRows, headerRows, ih, hnext]
    rfl

theorem bodyRows_append (height : ℤ) (raws more : List Bytes) :
    bodyRows height (raws ++ more) = bodyRows height raws ++ bodyRows (height + raws.length) more := by
  induction raws generalizing height with
  | nil => simp [bodyRows]
  | cons raw raws ih =>
    have hnext : height + 1 + (raws.length : ℤ) = height + ((raws.length + 1 : ℕ) : ℤ) := by
      push_cast
      ring
    rw [List.cons_append, bodyRows, bodyRows, ih, hnext]
    rfl

theorem mem_headerRows_height {height : ℤ} {raws : List Bytes} {r : HeaderRow}
    (h : r ∈ headerRows sha256 height raws) : height < r.height ∧ r.height ≤ height + raws.length := by
  induction raws generalizing height with
  | nil => cases h
  | cons raw raws ih =>
    rw [List.length_cons]
    push_cast
    rcases List.mem_cons.mp h with rfl | h
    · dsimp only
      omega
    · have hrest := ih h
      omega

theorem mem_bodyRows_height {height : ℤ} {raws : List Bytes} {w : RawRow}
    (h : w ∈ bodyRows height raws) : height < w.height ∧ w.height ≤ height + raws.length := by
  induction raws generalizing height with
  | nil => cases h
  | cons raw raws ih =>
    rw [List.length_cons]
    push_cast
    rcases List.mem_cons.mp h with rfl | h
    · dsimp only
      omega
    · have hrest := ih h
      omega

theorem getElem?_headerRows (height : ℤ) (raws : List Bytes) (i : ℕ) :
    (headerRows sha256 height raws)[i]? =
      raws[i]?.map fun raw => ⟨height + i + 1, rawHash sha256 raw, raw.take 80⟩ := by
  induction raws generalizing height i with
  | nil => rfl
  | cons raw raws ih =>
    cases i with
    | zero =>
      rw [headerRows, List.getElem?_cons_zero, List.getElem?_cons_zero, Nat.cast_zero, add_zero]
      rfl
    | succ i =>
      have hnext : height + 1 + (i : ℤ) = height + ((i + 1 : ℕ) : ℤ) := by
        push_cast
        ring
      rw [headerRows, List.getElem?_cons_succ, List.getElem?_cons_succ, ih, hnext]

theorem headerRows_map_hash (height : ℤ) (raws : List Bytes) :
    (headerRows sha256 height raws).map HeaderRow.hash = raws.map (rawHash sha256) := by
  induction raws generalizing height with
  | nil => rfl
  | cons raw raws ih => exact congrArg (_ :: ·) (ih _)

variable (sha256 coin) in
/-- What a chain of valid blocks leaves. -/
structure GrownTo (n : ServeNode) (raws : List Bytes) : Prop where
  height : n.node.height = coin.start + raws.length
  tip : n.node.tip = (links sha256 coin raws).getLast?
  headers : n.store.headers = headerRows sha256 coin.start raws
  blockwin : n.store.blockwin = (bodyRows coin.start raws).filter
    fun w => ¬ w.height < coin.start + raws.length - serveBlockWindow
  blocks : (n.node.db.blocks.map fun b => (b.height, b.hash)) =
    (headerRows sha256 coin.start raws).map fun r => (r.height, r.hash)
  top : ∀ b ∈ n.node.db.blocks, b.height ≤ n.node.height
  ordered : OrderedTable.Ordered BlockRow.height n.node.db.blocks

theorem grown_append (w : Bytes → Bool) (raws : List Bytes) (raw : Bytes) :
    grown sha256 idxAttribute coin activation w (raws ++ [raw]) =
      (grown sha256 idxAttribute coin activation w raws).connect sha256 idxAttribute raw (w raw) := by
  unfold grown
  rw [List.map_append, List.foldl_append]
  rfl

theorem GrownTo.connect {n : ServeNode} {raws : List Bytes} (h : GrownTo sha256 coin n raws)
    {raw : Bytes} (hp : Parses sha256 raw) (w : Bool) :
    GrownTo sha256 coin (n.connect sha256 idxAttribute raw w) (raws ++ [raw]) := by
  obtain ⟨m, hm, -, -, hheight, htip, hdb⟩ := connect_parses idxAttribute n.node w hp
  have hhash := idxParseBlock_hash hm
  have hlen : ((raws ++ [raw]).length : ℤ) = raws.length + 1 := by simp
  have hnext : n.node.height + 1 = coin.start + ((raws ++ [raw]).length : ℤ) := by
    rw [h.height, hlen]
    ring
  have hstore : (n.connect sha256 idxAttribute raw w).store = serveStorePut n.store (n.node.height + 1)
      m.blockHash (raw.take 80) raw (n.node.height + 1) := by
    unfold ServeNode.connect
    simp only [hm]
  have hheaders : ∀ r ∈ n.store.headers, r.height < n.node.height + 1 := by
    intro r hr
    rw [h.headers] at hr
    have hle := (mem_headerRows_height hr).2
    rw [h.height]
    omega
  have hbodies : ∀ b ∈ n.store.blockwin, b.height < n.node.height + 1 := by
    intro b hb
    rw [h.blockwin] at hb
    have hle := (mem_bodyRows_height (List.mem_filter.mp hb).1).2
    rw [h.height]
    omega
  have hrows : ∀ b ∈ n.node.db.blocks, b.height < n.node.height + 1 := by
    intro b hb
    have hle := h.top b hb
    omega
  constructor
  · exact hheight.trans hnext
  · refine htip.trans ?_
    rw [links_append, List.getLast?_append, hhash]
    rfl
  · rw [hstore]
    refine (OrderedTable.put_of_above HeaderRow.height
      (r := (⟨n.node.height + 1, m.blockHash, raw.take 80⟩ : HeaderRow)) hheaders).trans ?_
    rw [h.headers, headerRows_append, hhash, h.height]
    rfl
  · rw [hstore]
    have hput : (serveStorePut n.store (n.node.height + 1) m.blockHash (raw.take 80) raw
        (n.node.height + 1)).blockwin =
        (n.store.blockwin ++ [(⟨n.node.height + 1, raw⟩ : RawRow)]).filter
          fun w => ¬ w.height < n.node.height + 1 - serveBlockWindow :=
      congrArg (List.filter _) (OrderedTable.put_of_above RawRow.height hbodies)
    rw [hput, h.blockwin, bodyRows_append, List.filter_append, List.filter_append, List.filter_filter,
      hnext, ← hnext, h.height]
    refine congrArg₂ (· ++ ·) (List.filter_congr fun w _ => ?_) rfl
    rw [Bool.and_eq_left_iff_imp]
    simp only [decide_eq_true_eq]
    intro hw
    omega
  · have hblocks := congrArg Db.blocks hdb
    refine (congrArg (List.map fun b => (b.height, b.hash)) (hblocks.trans
      (OrderedTable.put_of_above BlockRow.height hrows))).trans ?_
    rw [List.map_append, headerRows_append, List.map_append, h.blocks, h.height, hhash]
    rfl
  · intro b hb
    have hblocks := congrArg Db.blocks hdb
    have hb' : b ∈ (n.node.connect sha256 idxAttribute raw w).db.blocks := hb
    rw [hblocks] at hb'
    have hgoal : b.height ≤ n.node.height + 1 := by
      rcases (OrderedTable.mem_put BlockRow.height).mp hb' with rfl | ⟨hb', -⟩
      · exact le_rfl
      · exact (hrows b hb').le
    exact hgoal.trans_eq hheight.symm
  · have hblocks : (n.node.connect sha256 idxAttribute raw w).db.blocks = _ := congrArg Db.blocks hdb
    show OrderedTable.Ordered _ (n.node.connect sha256 idxAttribute raw w).db.blocks
    rw [hblocks]
    exact h.ordered.put BlockRow.height _

theorem grownTo_fresh : GrownTo sha256 coin ⟨fresh coin activation, {}⟩ [] where
  height := (add_zero _).symm
  tip := rfl
  headers := rfl
  blockwin := rfl
  blocks := rfl
  top := fun _ hb => absurd hb List.not_mem_nil
  ordered := List.Pairwise.nil

theorem GrownTo.hashes {n : ServeNode} {raws : List Bytes} (h : GrownTo sha256 coin n raws) :
    n.node.db.blocks.map BlockRow.hash = raws.map (rawHash sha256) := by
  have hmap := congrArg (List.map Prod.snd) h.blocks
  rw [List.map_map, List.map_map] at hmap
  exact hmap.trans (headerRows_map_hash coin.start raws)

/-- The row of the `i`-th block. -/
theorem GrownTo.block_at {n : ServeNode} {raws : List Bytes} (h : GrownTo sha256 coin n raws) {i : ℕ}
    {raw : Bytes} (hi : raws[i]? = some raw) :
    ∃ b, OrderedTable.find? BlockRow.height n.node.db.blocks (coin.start + i + 1) = some b ∧
      b.hash = rawHash sha256 raw := by
  have hrow : ((coin.start : ℤ) + i + 1, rawHash sha256 raw) ∈
      (headerRows sha256 coin.start raws).map fun r => (r.height, r.hash) := by
    have hget : (headerRows sha256 coin.start raws)[i]? = _ := getElem?_headerRows coin.start raws i
    rw [hi] at hget
    exact List.mem_map.mpr ⟨_, List.mem_of_getElem? hget, rfl⟩
  rw [← h.blocks] at hrow
  obtain ⟨b, hb, heq⟩ := List.mem_map.mp hrow
  obtain ⟨hheight, hhash⟩ := Prod.mk.inj heq
  exact ⟨b, (h.ordered.find?_eq_some BlockRow.height).mpr ⟨hb, hheight⟩, hhash⟩

theorem GrownTo.block_mem {n : ServeNode} {raws : List Bytes} (h : GrownTo sha256 coin n raws)
    {b : BlockRow} (hb : b ∈ n.node.db.blocks) :
    ∃ (i : ℕ) (raw : Bytes), raws[i]? = some raw ∧ b.height = coin.start + i + 1 ∧ b.hash = rawHash sha256 raw := by
  have hrow := List.mem_map_of_mem (f := fun b => (b.height, b.hash)) hb
  rw [h.blocks] at hrow
  obtain ⟨r, hr, heq⟩ := List.mem_map.mp hrow
  obtain ⟨i, hi⟩ := List.mem_iff_getElem?.mp hr
  rw [getElem?_headerRows] at hi
  obtain ⟨raw, hraw, rfl⟩ := Option.map_eq_some_iff.mp hi
  obtain ⟨hheight, hhash⟩ := Prod.mk.inj heq
  exact ⟨i, raw, hraw, hheight.symm, hhash.symm⟩

variable {idxAttribute activation}

theorem ValidChain.front {raws : List Bytes} (more : List Bytes)
    (h : ValidChain sha256 idxPowHash idxAttribute coin activation (raws ++ more)) :
    ValidChain sha256 idxPowHash idxAttribute coin activation raws := by
  unfold ValidChain at h ⊢
  rw [List.map_append] at h
  exact (Run.along_append.mp h).1

theorem ValidChain.last {raws : List Bytes} {raw : Bytes}
    (h : ValidChain sha256 idxPowHash idxAttribute coin activation (raws ++ [raw])) :
    ValidNext sha256 idxPowHash coin
      (grown sha256 idxAttribute coin activation (fun _ => false) raws) (raw, false) := by
  unfold ValidChain at h
  rw [List.map_append] at h
  exact (Run.along_append.mp h).2.1

/-- A valid chain stands, whatever the wallet. -/
theorem ValidChain.grownTo (hpow : coin.powlimit ≠ 0) {raws : List Bytes}
    (h : ValidChain sha256 idxPowHash idxAttribute coin activation raws) (w : Bytes → Bool) :
    GrownTo sha256 coin (grown sha256 idxAttribute coin activation w raws) raws := by
  induction raws using List.reverseRecOn with
  | nil => exact grownTo_fresh activation
  | append_singleton raws raw ih =>
    obtain ⟨m, hm, -⟩ := blockValidate_parts hpow h.last.2
    have hp : Parses sha256 raw := by
      unfold Parses
      rw [hm]
      rfl
    rw [grown_append]
    exact (ih (h.front _)).connect idxAttribute hp (w raw)

theorem ValidChain.parses (hpow : coin.powlimit ≠ 0) {raws : List Bytes}
    (h : ValidChain sha256 idxPowHash idxAttribute coin activation raws) {raw : Bytes}
    (hraw : raw ∈ raws) : Parses sha256 raw := by
  obtain ⟨below, above, rfl⟩ := List.append_of_mem hraw
  have hfront : ValidChain sha256 idxPowHash idxAttribute coin activation (below ++ [raw]) := by
    apply ValidChain.front above
    simpa using h
  obtain ⟨m, hm, -⟩ := blockValidate_parts hpow hfront.last.2
  unfold Parses
  rw [hm]
  rfl

/-- A block names the link that it stands on. -/
theorem ValidChain.prev_link (hpow : coin.powlimit ≠ 0) {raws : List Bytes}
    (h : ValidChain sha256 idxPowHash idxAttribute coin activation raws) {i : ℕ} {raw : Bytes}
    (hi : raws[i]? = some raw) :
    ∃ link, (links sha256 coin raws)[i]? = some link ∧ prevField raw = link.val := by
  obtain ⟨hlt, hget⟩ := List.getElem?_eq_some_iff.mp hi
  have hsplit : raws = raws.take i ++ [raw] ++ raws.drop (i + 1) := by
    rw [← hget, List.append_assoc, List.singleton_append, List.getElem_cons_drop, List.take_append_drop]
  have hfront : ValidChain sha256 idxPowHash idxAttribute coin activation (raws.take i ++ [raw]) := by
    apply ValidChain.front (raws.drop (i + 1))
    rw [← hsplit]
    exact h
  obtain ⟨⟨tip, htip, hprev⟩, -⟩ := hfront.last
  have htake : links sha256 coin (raws.take i) = (links sha256 coin raws).take (i + 1) := by
    unfold links
    rw [List.take_succ_cons, List.map_take]
  have hlen : i < (links sha256 coin raws).length := by
    simp only [links, List.length_cons, List.length_map]
    omega
  have hgrown := ((hfront.front _).grownTo hpow fun _ => false).tip
  rw [htake, List.getLast?_take, if_neg (by omega), Nat.add_sub_cancel,
    List.getElem?_eq_getElem hlen, Option.some_or] at hgrown
  refine ⟨tip, ?_, hprev⟩
  rw [List.getElem?_eq_getElem hlen, ← hgrown]
  exact htip

theorem ValidChain.snoc {raws : List Bytes}
    (h : ValidChain sha256 idxPowHash idxAttribute coin activation raws) {raw : Bytes}
    (hnext : ValidNext sha256 idxPowHash coin
      (grown sha256 idxAttribute coin activation (fun _ => false) raws) (raw, false)) :
    ValidChain sha256 idxPowHash idxAttribute coin activation (raws ++ [raw]) := by
  unfold ValidChain at h ⊢
  rw [List.map_append]
  exact Run.along_append.mpr ⟨h, hnext, trivial⟩

/-- The rows up to a height are those of the chain up to there. -/
theorem ValidChain.upTo_blocks (hpow : coin.powlimit ≠ 0) {raws : List Bytes}
    (h : ValidChain sha256 idxPowHash idxAttribute coin activation raws) (w : Bytes → Bool) (j : ℕ) :
    OrderedTable.upTo BlockRow.height (coin.start + j)
        (grown sha256 idxAttribute coin activation w raws).node.db.blocks =
      (grown sha256 idxAttribute coin activation w (raws.take j)).node.db.blocks := by
  induction raws using List.reverseRecOn with
  | nil =>
    rw [List.take_nil]
    rfl
  | append_singleton raws raw ih =>
    have hold := (h.front _).grownTo hpow w
    have hnew := h.grownTo hpow w
    by_cases hj : raws.length < j
    · rw [List.take_of_length_le (by simpa using hj)]
      apply OrderedTable.upTo_eq_self BlockRow.height
      intro b hb
      have hle := hnew.top b hb
      rw [hnew.height, List.length_append, List.length_singleton] at hle
      push_cast at hle
      omega
    · have hp := h.parses hpow (List.mem_append_right raws List.mem_cons_self)
      obtain ⟨m, -, -, -, -, -, hdb⟩ := connect_parses idxAttribute
        (grown sha256 idxAttribute coin activation w raws).node (w raw) hp
      have hblocks := congrArg Db.blocks hdb
      rw [List.take_append_of_le_length (by omega), ← ih (h.front _), grown_append]
      refine (congrArg (OrderedTable.upTo BlockRow.height (coin.start + j)) hblocks).trans ?_
      apply OrderedTable.upTo_put
      rw [hold.height]
      dsimp only
      omega

end Rows

end NamespaceIndexer.Daemon
