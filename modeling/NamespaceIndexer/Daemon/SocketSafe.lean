import NamespaceIndexer.Daemon.CatchUp
import NamespaceIndexer.Daemon.SocketPass

/-!
# What a peer can do to the chain of a pass

It may extend it by valid blocks. It may cut it, but only for headers that it sent and that carry more
work than what is cut.
-/

namespace NamespaceIndexer.Daemon

open Fold Lib

variable {sha256 idxPowHash : Bytes → Hash256}
variable {idxAttribute : Bytes → ℕ → Option (H160 × Byte)}
variable {coin : Coin} {activation : UInt64}

/-! ### The recorded chain -/

section Chain

variable (sha256 idxPowHash idxAttribute coin activation) in
/-- The node records this chain, and the chain is valid. -/
structure RecordsChain (n : ServeNode) (raws : List Bytes) : Prop where
  valid : ValidChain sha256 idxPowHash idxAttribute coin activation raws
  height : n.node.height = coin.start + raws.length
  tip : n.node.tip = (links sha256 coin raws).getLast?
  blocks : n.node.db.blocks =
    (grown sha256 idxAttribute coin activation (fun _ => false) raws).node.db.blocks
  rawBlocks : ∀ r ∈ n.node.db.rawBlocks, Parses sha256 r.raw

variable {n : ServeNode} {raws : List Bytes} {raw : Bytes}

theorem RecordsChain.project (h : RecordsChain sha256 idxPowHash idxAttribute coin activation n raws) :
    RecordsChain sha256 idxPowHash idxAttribute coin activation { n with node := n.node.project }
      raws where
  valid := h.valid
  height := h.height
  tip := h.tip
  blocks := by
    show (projectDb n.node.db n.node.s).blocks = _
    rw [projectDb_blocks]
    exact h.blocks
  rawBlocks := by
    show ∀ r ∈ (projectDb n.node.db n.node.s).rawBlocks, _
    rw [projectDb_rawBlocks]
    exact h.rawBlocks

/-- A context reads the rows below. -/
theorem powContext_upTo {db db' : Db} {pos : ℤ} (hord : OrderedTable.Ordered BlockRow.height db.blocks)
    (hord' : OrderedTable.Ordered BlockRow.height db'.blocks)
    (h : OrderedTable.upTo BlockRow.height pos db.blocks =
      OrderedTable.upTo BlockRow.height pos db'.blocks) :
    powContext coin db pos = powContext coin db' pos := by
  apply powContext_congr
  intro k hk
  unfold idxDbBlockHdr
  rw [← hord.find?_upTo BlockRow.height hk, h, hord'.find?_upTo BlockRow.height hk]

/-- Validation reads the rows below. -/
theorem blockValidate_upTo {db db' : Db} {pos : ℤ} (hord : OrderedTable.Ordered BlockRow.height db.blocks)
    (hord' : OrderedTable.Ordered BlockRow.height db'.blocks)
    (h : OrderedTable.upTo BlockRow.height pos db.blocks =
      OrderedTable.upTo BlockRow.height pos db'.blocks)
    (raw : Bytes) :
    blockValidate sha256 idxPowHash coin db (pos + 1) raw =
      blockValidate sha256 idxPowHash coin db' (pos + 1) raw := by
  have hbelow : ∀ rows : List BlockRow, (rows.filter fun r => r.height < pos + 1) =
      OrderedTable.upTo BlockRow.height pos rows := by
    intro rows
    refine List.filter_congr fun r _ => decide_eq_decide.mpr ?_
    omega
  have htimes : idxDbBlockTimes db (pos + 1) = idxDbBlockTimes db' (pos + 1) := by
    unfold idxDbBlockTimes
    rw [hbelow, hbelow, h]
  unfold blockValidate medianTimes
  rw [htimes, add_sub_cancel_right, powContext_upTo hord hord' h]

theorem RecordsChain.take
    (h : RecordsChain sha256 idxPowHash idxAttribute coin activation n raws) (j : ℕ) :
    ValidChain sha256 idxPowHash idxAttribute coin activation (raws.take j) := by
  apply ValidChain.front (raws.drop j)
  rw [List.take_append_drop]
  exact h.valid

theorem RecordsChain.ordered (hpow : coin.powlimit ≠ 0)
    (h : RecordsChain sha256 idxPowHash idxAttribute coin activation n raws) :
    OrderedTable.Ordered BlockRow.height n.node.db.blocks := by
  rw [h.blocks]
  exact (h.valid.grownTo hpow fun _ => false).ordered

/-- Up to a link, the rows are those of the chain that ends there. -/
theorem RecordsChain.upTo (hpow : coin.powlimit ≠ 0)
    (h : RecordsChain sha256 idxPowHash idxAttribute coin activation n raws) {j : ℕ}
    (hj : j ≤ raws.length) :
    OrderedTable.upTo BlockRow.height (coin.start + j) n.node.db.blocks =
      OrderedTable.upTo BlockRow.height (coin.start + j)
        (grown sha256 idxAttribute coin activation (fun _ => false) (raws.take j)).node.db.blocks := by
  have hlow := (h.take j).grownTo hpow fun _ => false
  rw [h.blocks, h.valid.upTo_blocks hpow]
  symm
  apply OrderedTable.upTo_eq_self BlockRow.height
  intro b hb
  have hle := hlow.top b hb
  rw [hlow.height, List.length_take, Nat.min_eq_left hj] at hle
  exact hle

theorem RecordsChain.validate (hpow : coin.powlimit ≠ 0)
    (h : RecordsChain sha256 idxPowHash idxAttribute coin activation n raws) {j : ℕ}
    (hj : j ≤ raws.length)
    (raw : Bytes) :
    blockValidate sha256 idxPowHash coin n.node.db (coin.start + j + 1) raw =
      blockValidate sha256 idxPowHash coin
        (grown sha256 idxAttribute coin activation (fun _ => false) (raws.take j)).node.db
        (coin.start + j + 1) raw :=
  blockValidate_upTo (h.ordered hpow) ((h.take j).grownTo hpow fun _ => false).ordered
    (h.upTo hpow hj) raw

/-- A valid block on top of the tip. -/
theorem RecordsChain.connect (hpow : coin.powlimit ≠ 0)
    (h : RecordsChain sha256 idxPowHash idxAttribute coin activation n raws) {tip : Hash256}
    (htip : n.node.tip = some tip) (hprev : prevField raw = tip.val)
    (hvalid : blockValidate sha256 idxPowHash coin n.node.db (n.node.height + 1) raw = true) (w : Bool) :
    RecordsChain sha256 idxPowHash idxAttribute coin activation (n.connect sha256 idxAttribute raw w)
      (raws ++ [raw]) := by
  have hgrown := h.valid.grownTo hpow fun _ => false
  obtain ⟨m, hm, -⟩ := blockValidate_parts hpow hvalid
  have hp : Parses sha256 raw := by
    unfold Parses
    rw [hm]
    rfl
  have hnext : ValidNext sha256 idxPowHash coin
      (grown sha256 idxAttribute coin activation (fun _ => false) raws) (raw, false) := by
    refine ⟨⟨tip, ?_, hprev⟩, ?_⟩
    · rw [hgrown.tip, ← h.tip]
      exact htip
    · have hsame := h.validate hpow le_rfl raw
      rw [List.take_length, ← h.height] at hsame
      rw [hgrown.height, ← h.height, ← hsame]
      exact hvalid
  have hchain := h.valid.snoc hnext
  have hnew := hchain.grownTo hpow fun _ => false
  obtain ⟨m1, hm1, -, -, hheight, htip', hdb⟩ := connect_parses idxAttribute n.node w hp
  obtain ⟨m2, hm2, -, -, -, htip2, hdb2⟩ := connect_parses idxAttribute
    (grown sha256 idxAttribute coin activation (fun _ => false) raws).node false hp
  cases hm1.symm.trans hm2
  have hblocks : (n.connect sha256 idxAttribute raw w).node.db.blocks = _ := congrArg Db.blocks hdb
  constructor
  · exact hchain
  · refine hheight.trans ?_
    rw [h.height, List.length_append, List.length_singleton]
    push_cast
    ring
  · refine htip'.trans ?_
    rw [← hnew.tip, grown_append]
    exact htip2.symm
  · rw [hblocks, grown_append]
    refine Eq.trans ?_ (congrArg Db.blocks hdb2).symm
    dsimp only
    rw [h.blocks, h.height, ← hgrown.height]
  · intro r hr
    have hrows : (n.connect sha256 idxAttribute raw w).node.db.rawBlocks = _ := congrArg Db.rawBlocks hdb
    rw [hrows] at hr
    dsimp only at hr
    split at hr
    · rcases (OrderedTable.mem_put RawRow.height).mp hr with rfl | ⟨hr, -⟩
      · exact hp
      · exact h.rawBlocks r hr
    · exact h.rawBlocks r hr

variable (idxAttribute coin activation) in
/-- What a rollback over raw blocks that parse leaves. -/
theorem rollback_parses {n : Node} (hraw : ∀ r ∈ n.db.rawBlocks, Parses sha256 r.raw) (toHeight : ℤ) :
    let n' := n.rollback sha256 idxAttribute coin activation toHeight
    let blocks := OrderedTable.upTo BlockRow.height toHeight n.db.blocks
    (idxSyncRollback sha256 idxAttribute n.db n.oracle activation toHeight).ok = true ∧
      n'.height = toHeight ∧ n'.db.blocks = blocks ∧
      n'.db.rawBlocks = OrderedTable.upTo RawRow.height toHeight n.db.rawBlocks ∧
      n'.tip = some (((OrderedTable.find? BlockRow.height blocks toHeight).map BlockRow.hash).getD
        coin.startHash) := by
  obtain ⟨s, hs⟩ := idxSyncRollback_parses idxAttribute activation hraw n.oracle toHeight
  have hblocks : (projectDb (n.db.writes (idxDbBlockPruneAbove toHeight)) s).blocks =
      OrderedTable.upTo BlockRow.height toHeight n.db.blocks := by
    rw [projectDb_blocks]
    rfl
  have hrows : (projectDb (n.db.writes (idxDbBlockPruneAbove toHeight)) s).rawBlocks =
      OrderedTable.upTo RawRow.height toHeight n.db.rawBlocks := by
    rw [projectDb_rawBlocks]
    rfl
  unfold Node.rollback
  simp only [hs, if_true]
  refine ⟨trivial, trivial, hblocks, hrows, ?_⟩
  rw [← hblocks]
  rfl

/-- The chain is cut above its `j`-th block. -/
theorem RecordsChain.reorg (hpow : coin.powlimit ≠ 0)
    (h : RecordsChain sha256 idxPowHash idxAttribute coin activation n raws) {j : ℕ} (hj0 : 0 < j)
    (hj : j ≤ raws.length) :
    (idxSyncRollback sha256 idxAttribute n.node.db n.node.oracle activation (coin.start + j)).ok = true ∧
      RecordsChain sha256 idxPowHash idxAttribute coin activation
        (n.reorg sha256 idxAttribute coin activation (coin.start + j)) (raws.take j) := by
  obtain ⟨hok, hheight, hblocks, hrows, htip⟩ :=
    rollback_parses idxAttribute coin activation h.rawBlocks (coin.start + j)
  have hlen : (raws.take j).length = j := by
    rw [List.length_take, Nat.min_eq_left hj]
  have hlow := (h.take j).grownTo hpow fun _ => false
  have hupTo := h.valid.upTo_blocks hpow (fun _ => false) j
  rw [← h.blocks] at hupTo
  obtain ⟨raw, hraw⟩ : ∃ raw, (raws.take j)[j - 1]? = some raw :=
    ⟨_, List.getElem?_eq_getElem (by omega)⟩
  obtain ⟨b, hb, hhash⟩ := hlow.block_at hraw
  have hlast : (links sha256 coin (raws.take j)).getLast? = some b.hash := by
    have hget : (raws.take j).getLast? = some raw := by
      rw [List.getLast?_eq_getElem?, hlen]
      exact hraw
    unfold links
    rw [List.getLast?_cons, List.getLast?_map, hget, hhash]
    rfl
  have hpos : (coin.start : ℤ) + (j - 1 : ℕ) + 1 = coin.start + j := by omega
  rw [← hupTo, hpos] at hb
  refine ⟨hok, h.take j, ?_, ?_, hblocks.trans hupTo, ?_⟩
  · rw [hlen]
    exact hheight
  · rw [hlast]
    refine htip.trans ?_
    rw [hb]
    rfl
  · intro r hr
    have hr' : r ∈ (n.node.rollback sha256 idxAttribute coin activation
        (coin.start + j)).db.rawBlocks := hr
    rw [hrows] at hr'
    exact h.rawBlocks r ((OrderedTable.mem_upTo RawRow.height).mp hr').1

end Chain

/-! ### What is weighed -/

section Weighed

/-- The elements that a message is accepted for are in it. -/
theorem weighHeaders_elements {cnt k : ℕ} {bc bc' : BranchCtx} {pl : Bytes}
    (h : weighHeaders sha256 idxPowHash coin cnt bc pl = some (bc', k)) :
    ∃ es, Extends sha256 idxPowHash coin bc es ∧ bc' = es.foldl (BranchCtx.next sha256) bc ∧
      ∀ e ∈ es, e <:+: pl := by
  induction cnt generalizing bc pl k with
  | zero =>
    cases h
    exact ⟨[], trivial, rfl, fun _ he => absurd he List.not_mem_nil⟩
  | succ cnt ih =>
    unfold weighHeaders at h
    split at h
    · cases h
    · rename_i bc1 span hw
      have hfirst := weighHeader_append hw []
      rw [List.append_nil] at hfirst
      obtain ⟨hlink, hs, hexp, hnext⟩ := weighHeader_eq_some.mp hfirst
      have hspan := (idxPowCheck2_span (weighHeader_eq_some.mp hw).2.1).2
      have hlen : (pl.take span).length = span := List.length_take_of_le hspan
      rw [← hlen] at hs
      rw [hlen] at hs
      have hfront : pl.take span <+: pl := List.take_prefix span pl
      have hinfix : pl.take span <:+: pl := hfront.isInfix
      split at h
      · cases h
        refine ⟨[pl.take span], ⟨hlink, by rw [hlen]; exact hs, hexp, trivial⟩, hnext, ?_⟩
        intro e he
        rw [List.mem_singleton.mp he]
        exact hinfix
      · rename_i tc rest hdrop
        obtain ⟨⟨bc2, m⟩, hrest, heq⟩ := Option.map_eq_some_iff.mp h
        cases heq
        obtain ⟨es, hes, hlast, hin⟩ := ih hrest
        rw [hnext] at hes hlast
        refine ⟨pl.take span :: es, ⟨hlink, by rw [hlen]; exact hs, hexp, hes⟩, hlast, ?_⟩
        intro e he
        rcases List.mem_cons.mp he with rfl | he
        · exact hinfix
        · have htail : rest.drop (countTail tc) <:+: pl := by
            have hcut : pl.drop span <:+ pl := List.drop_suffix span pl
            rw [hdrop] at hcut
            exact (((List.drop_suffix _ rest).trans (List.suffix_cons tc rest)).trans hcut).isInfix
          exact (hin e he).trans htail

theorem branchWeigh_elements {k : ℕ} {bc bc' : BranchCtx} {pl : Bytes}
    (h : branchWeigh sha256 idxPowHash coin bc pl = some (bc', k)) :
    ∃ es, Extends sha256 idxPowHash coin bc es ∧ bc' = es.foldl (BranchCtx.next sha256) bc ∧
      ∀ e ∈ es, e <:+: pl := by
  unfold branchWeigh at h
  split at h
  · cases h
    exact ⟨[], trivial, rfl, fun _ he => absurd he List.not_mem_nil⟩
  · rename_i c rest
    split at h
    · split at h
      · cases h
        exact ⟨[], trivial, rfl, fun _ he => absurd he List.not_mem_nil⟩
      · obtain ⟨es, hes, hlast, hin⟩ := weighHeaders_elements h
        refine ⟨es, hes, hlast, fun e he => (hin e he).trans ?_⟩
        exact ((List.drop_suffix 2 rest).trans (List.suffix_cons c rest)).isInfix
    · split at h
      · cases h
      · obtain ⟨es, hes, hlast, hin⟩ := weighHeaders_elements h
        exact ⟨es, hes, hlast, fun e he => (hin e he).trans (List.suffix_cons c rest).isInfix⟩

/-- The bits of the `i`-th block. -/
theorem ValidChain.bits_at (hpow : coin.powlimit ≠ 0) {raws : List Bytes}
    (h : ValidChain sha256 idxPowHash idxAttribute coin activation raws) {i : ℕ} {raw : Bytes}
    (hi : raws[i]? = some raw) :
    (OrderedTable.find? BlockRow.height
      (grown sha256 idxAttribute coin activation (fun _ => false) raws).node.db.blocks
      (coin.start + i + 1)).map BlockRow.bits = some (le32At raw 72) := by
  induction raws using List.reverseRecOn with
  | nil => cases hi
  | append_singleton raws last ih =>
    have hold := (h.front _).grownTo hpow fun _ => false
    obtain ⟨m, hm, -, -, -, -, hdb⟩ := connect_parses idxAttribute
      (grown sha256 idxAttribute coin activation (fun _ => false) raws).node false
      (h.parses hpow (List.mem_append_right raws List.mem_cons_self))
    have hblocks := congrArg Db.blocks hdb
    rw [grown_append]
    refine (congrArg (fun t => (OrderedTable.find? BlockRow.height t (coin.start + i + 1)).map
      BlockRow.bits) hblocks).trans ?_
    dsimp only
    rw [hold.ordered.find?_put BlockRow.height, hold.height]
    by_cases hlt : i < raws.length
    · rw [List.getElem?_append_left hlt] at hi
      rw [if_neg (by dsimp only; omega)]
      exact ih (h.front _) hi
    · obtain rfl : i = raws.length := by
        have hlen := (List.getElem?_eq_some_iff.mp hi).1
        rw [List.length_append, List.length_singleton] at hlen
        omega
      rw [List.getElem?_concat_length] at hi
      rw [if_pos rfl, Option.map_some, (idxParseBlock_fields hm).2, Option.some.inj hi]

/-- The work of headers that follow one another, as far as 256 bits hold it. -/
def headersWork (hdrs : List Bytes) : ℕ := (hdrs.map fun hdr => idxPowWork (le32At hdr 72)).sum % 2 ^ 256

theorem RecordsChain.ours {n : ServeNode} {raws : List Bytes} (hpow : coin.powlimit ≠ 0)
    (h : RecordsChain sha256 idxPowHash idxAttribute coin activation n raws) {j k ours : ℕ}
    (hk : j + k ≤ raws.length) (hours : oursAbove n.node.db (coin.start + j) k = some ours) :
    ours = headersWork ((raws.drop j).take k) := by
  induction k generalizing ours with
  | zero => exact (Option.some.inj hours).symm
  | succ k ih =>
    obtain ⟨raw, hraw⟩ : ∃ raw, raws[j + k]? = some raw := ⟨_, List.getElem?_eq_getElem (by omega)⟩
    have hbits := h.valid.bits_at hpow hraw
    rw [← h.blocks] at hbits
    obtain ⟨r, hr, hrbits⟩ := Option.map_eq_some_iff.mp hbits
    have hpos : (coin.start : ℤ) + j + (k + 1) = coin.start + (j + k : ℕ) + 1 := by omega
    unfold oursAbove at hours
    rw [hpos, hr] at hours
    cases hlow : oursAbove n.node.db (coin.start + j) k with
    | none =>
      simp only [hlow] at hours
      cases hours
    | some low =>
      simp only [hlow] at hours
      split at hours
      · cases hours
      · have hnext : (raws.drop j).take (k + 1) = (raws.drop j).take k ++ [raw] := by
          rw [List.take_add_one, List.getElem?_drop, hraw]
          rfl
        rw [← Option.some.inj hours, ih (by omega) hlow, hnext, hrbits]
        unfold headersWork idxPowWorkAdd
        rw [Nat.mod_add_mod, List.map_append, List.sum_append, List.map_singleton, List.sum_singleton]

end Weighed

/-! ### What a receive does to the chain -/

section Steps

variable (sha256 idxPowHash idxAttribute coin activation) in
/-- The context of the headers that follow the `j`-th link. -/
def seedAt (raws : List Bytes) (j : ℕ) (link : Hash256) : BranchCtx :=
  branchSeed coin (grown sha256 idxAttribute coin activation (fun _ => false) (raws.take j)).node.db
    (coin.start + j) link

/-- The header is in one of these messages. -/
def Received (seen : List Recv) (hdr : Bytes) : Prop :=
  ∃ pl, Recv.msg .headers pl ∈ seen ∧ hdr <:+: pl

variable (sha256 idxPowHash idxAttribute coin activation) in
/-- Headers that were received and follow the `j`-th link one after another. -/
def Branches (seen : List Recv) (raws : List Bytes) (j : ℕ) (link : Hash256) (hdrs : List Bytes) : Prop :=
  (links sha256 coin raws)[j]? = some link ∧
    Extends sha256 idxPowHash coin (seedAt sha256 idxAttribute coin activation raws j link) hdrs ∧
    ∀ hdr ∈ hdrs, Received seen hdr

variable (sha256 idxPowHash idxAttribute coin activation) in
/-- The chain stays, or gets a block that was received: on top, or where headers that were received carry
more work than what they replace. -/
inductive ChainStep (seen : List Recv) (raws : List Bytes) : List Bytes → Prop
  | same : ChainStep seen raws raws
  | extend (raw : Bytes) (hraw : Recv.msg .block raw ∈ seen) : ChainStep seen raws (raws ++ [raw])
  | cut (j : ℕ) (link : Hash256) (hdrs : List Bytes) (raw : Bytes) (hj0 : 0 < j) (hj : j < raws.length)
      (hbranch : Branches sha256 idxPowHash idxAttribute coin activation seen raws j link hdrs)
      (hwork : headersWork (raws.drop j) < headersWork hdrs) (hraw : Recv.msg .block raw ∈ seen) :
      ChainStep seen raws (raws.take j ++ [raw])

variable (sha256 idxPowHash idxAttribute coin activation) in
/-- What a weighing stands for. -/
structure WeighsFork (seen : List Recv) (raws : List Bytes) (w : Weighing) (j : ℕ) (link : Hash256)
    (hdrs : List Bytes) : Prop where
  pos : 0 < j
  low : j < raws.length
  forkH : w.forkH = coin.start + j
  branches : Branches sha256 idxPowHash idxAttribute coin activation seen raws j link hdrs
  bc : w.bc = hdrs.foldl (BranchCtx.next sha256) (seedAt sha256 idxAttribute coin activation raws j link)
  ours : w.ours = headersWork (raws.drop j)
  block : Recv.msg .block w.pl ∈ seen
  prev : prevField w.pl = link.val
  valid : blockValidate sha256 idxPowHash coin
    (grown sha256 idxAttribute coin activation (fun _ => false) (raws.take j)).node.db
    (coin.start + j + 1) w.pl = true

variable (sha256 idxPowHash idxAttribute coin activation) in
/-- The pass is on this chain. -/
structure PassOn (seen : List Recv) (p : SyncPass) (raws : List Bytes) : Prop where
  chain : RecordsChain sha256 idxPowHash idxAttribute coin activation p.n raws
  weighs : ∀ gotAny left w, p.phase = .headers gotAny left w → ∃ j link hdrs,
    WeighsFork sha256 idxPowHash idxAttribute coin activation seen raws w j link hdrs

variable {seen : List Recv} {p : SyncPass} {raws : List Bytes}

theorem SyncPass.finish_on
    (h : RecordsChain sha256 idxPowHash idxAttribute coin activation p.n raws) (ok : Bool) :
    PassOn sha256 idxPowHash idxAttribute coin activation seen (p.finish ok) raws where
  chain := h.project
  weighs := fun _ _ _ hp => nomatch hp

theorem SyncPass.idleOn_on
    (h : RecordsChain sha256 idxPowHash idxAttribute coin activation p.n raws) :
    PassOn sha256 idxPowHash idxAttribute coin activation seen p.idleOn raws := by
  unfold SyncPass.idleOn
  dsimp only
  split
  · exact ⟨h, fun _ _ _ hp => nomatch hp⟩
  · exact SyncPass.finish_on (p := { p with idle := p.idle + 1 }) h true

theorem SyncPass.endBatch_on
    (h : RecordsChain sha256 idxPowHash idxAttribute coin activation p.n raws) (gotAny : Bool) :
    PassOn sha256 idxPowHash idxAttribute coin activation seen (p.endBatch gotAny) raws := by
  unfold SyncPass.endBatch
  dsimp only
  split
  · exact ⟨h.project, fun _ _ _ hp => nomatch hp⟩
  · exact SyncPass.idleOn_on h.project

theorem SyncPass.blockDone_on
    (h : RecordsChain sha256 idxPowHash idxAttribute coin activation p.n raws) (gotAny : Bool)
    (left : ℕ) :
    PassOn sha256 idxPowHash idxAttribute coin activation seen (p.blockDone gotAny left) raws := by
  unfold SyncPass.blockDone
  split
  · exact SyncPass.endBatch_on h gotAny
  · exact ⟨h, fun _ _ _ hp => nomatch hp⟩

variable {touched : Bytes → Bool} {gotAny : Bool} {left : ℕ} {pl : Bytes}

/-- A valid block on top of the tip is connected. -/
theorem SyncPass.connectTip_on (hpow : coin.powlimit ≠ 0)
    (h : RecordsChain sha256 idxPowHash idxAttribute coin activation p.n raws) {tip : Hash256}
    (htip : p.n.node.tip = some tip) (hprev : prevField pl = tip.val)
    (hvalid : blockValidate sha256 idxPowHash coin p.n.node.db (p.n.node.height + 1) pl = true) :
    PassOn sha256 idxPowHash idxAttribute coin activation seen
      (p.connectTip sha256 idxPowHash idxAttribute coin touched gotAny left pl) (raws ++ [pl]) := by
  unfold SyncPass.connectTip
  rw [if_pos hvalid]
  exact SyncPass.blockDone_on (h.connect hpow htip hprev hvalid (touched pl)) _ left

variable (sha256 idxPowHash idxAttribute coin activation) in
/-- The pass is on a chain that one receive makes of `raws`. -/
def StepsTo (seen : List Recv) (raws : List Bytes) (p : SyncPass) : Prop :=
  ∃ raws', PassOn sha256 idxPowHash idxAttribute coin activation seen p raws' ∧
    ChainStep sha256 idxPowHash idxAttribute coin activation seen raws raws'

theorem PassOn.stays (h : PassOn sha256 idxPowHash idxAttribute coin activation seen p raws) :
    StepsTo sha256 idxPowHash idxAttribute coin activation seen raws p :=
  ⟨raws, h, .same⟩

/-- The link that a recorded hash is. -/
theorem RecordsChain.fork (hpow : coin.powlimit ≠ 0) {n : ServeNode}
    (h : RecordsChain sha256 idxPowHash idxAttribute coin activation n raws) {hash : Hash256}
    (hlow : 0 ≤ idxDbBlockHeightByHash n.node.db hash)
    (hhigh : idxDbBlockHeightByHash n.node.db hash < n.node.height) :
    ∃ j : ℕ, 0 < j ∧ j < raws.length ∧ idxDbBlockHeightByHash n.node.db hash = coin.start + j ∧
      (links sha256 coin raws)[j]? = some hash := by
  unfold idxDbBlockHeightByHash at hlow hhigh ⊢
  cases hfind : n.node.db.blocks.find? fun r => r.hash = hash with
  | none =>
    rw [hfind] at hlow
    exact absurd hlow (by decide)
  | some r =>
    rw [hfind] at hhigh
    have hhash : r.hash = hash := by simpa using List.find?_some hfind
    have hmem := List.mem_of_find?_eq_some hfind
    rw [h.blocks] at hmem
    obtain ⟨i, raw, hraw, hheight, hlink⟩ := (h.valid.grownTo hpow fun _ => false).block_mem hmem
    rw [h.height] at hhigh
    simp only [Option.map_some, Option.getD_some] at hhigh ⊢
    refine ⟨i + 1, i.succ_pos, by omega, by push_cast; omega, ?_⟩
    unfold links
    rw [List.getElem?_cons_succ, List.getElem?_map, hraw, ← hhash, hlink]
    rfl

theorem RecordsChain.seedAt (hpow : coin.powlimit ≠ 0) {n : ServeNode}
    (h : RecordsChain sha256 idxPowHash idxAttribute coin activation n raws) {j : ℕ}
    (hj : j ≤ raws.length)
    (link : Hash256) :
    branchSeed coin n.node.db (coin.start + j) link =
      Daemon.seedAt sha256 idxAttribute coin activation raws j link := by
  unfold Daemon.seedAt branchSeed
  rw [powContext_upTo (h.ordered hpow) ((h.take j).grownTo hpow fun _ => false).ordered (h.upTo hpow hj)]

/-- The end of a cut chain. -/
theorem getLast?_links_take {j : ℕ} (hj : j ≤ raws.length) :
    (links sha256 coin (raws.take j)).getLast? = (links sha256 coin raws)[j]? := by
  have htake : links sha256 coin (raws.take j) = (links sha256 coin raws).take (j + 1) := by
    unfold links
    rw [List.take_succ_cons, List.map_take]
  have hlen : j < (links sha256 coin raws).length := by
    simp only [links, List.length_cons, List.length_map]
    omega
  rw [htake, List.getLast?_take, if_neg (by omega), Nat.add_sub_cancel, List.getElem?_eq_getElem hlen,
    Option.some_or]

theorem SyncPass.takeBlock_steps (hpow : coin.powlimit ≠ 0)
    (h : RecordsChain sha256 idxPowHash idxAttribute coin activation p.n raws)
    (hpl : Recv.msg .block pl ∈ seen) :
    StepsTo sha256 idxPowHash idxAttribute coin activation seen raws
      (p.takeBlock sha256 idxPowHash idxAttribute coin touched gotAny left pl) := by
  have hdone : StepsTo sha256 idxPowHash idxAttribute coin activation seen raws
      (p.blockDone gotAny left) := (SyncPass.blockDone_on h gotAny left).stays
  unfold SyncPass.takeBlock
  split
  · exact hdone
  · rename_i hlen
    have hprev : prevField pl = (copyFrom 32 (pl.drop 4) : Hash256).val := by
      rw [copyFrom_val (by rw [List.length_drop]; omega)]
      rfl
    dsimp only
    split
    · rename_i htip
      by_cases hvalid : blockValidate sha256 idxPowHash coin p.n.node.db (p.n.node.height + 1) pl = true
      · exact ⟨raws ++ [pl], SyncPass.connectTip_on hpow h htip hprev hvalid, .extend pl hpl⟩
      · unfold SyncPass.connectTip
        rw [if_neg hvalid]
        exact (SyncPass.finish_on h false).stays
    · split
      · exact hdone
      · rename_i hfork
        obtain ⟨hlow, hhigh⟩ := not_or.mp hfork
        obtain ⟨j, hj0, hj, hforkH, hlink⟩ := h.fork hpow (not_lt.mp hlow) (not_le.mp hhigh)
        split
        · exact hdone
        · split
          · rename_i hvalid
            split
            · exact hdone
            · rename_i ours hours
              rw [hforkH] at hours hvalid
              rw [h.validate hpow hj.le] at hvalid
              have hk : (p.n.node.height - (coin.start + j)).toNat = raws.length - j := by
                rw [h.height]
                omega
              rw [hk] at hours
              have hwork := h.ours hpow (by omega) hours
              rw [List.take_of_length_le (by rw [List.length_drop])] at hwork
              refine ⟨raws, ⟨h, ?_⟩, .same⟩
              rintro _ _ w hw
              cases hw
              refine ⟨j, _, [], hj0, hj, hforkH, ⟨hlink, trivial, fun _ hx => absurd hx List.not_mem_nil⟩,
                ?_, hwork, hpl, hprev, hvalid⟩
              dsimp only
              rw [hforkH, h.seedAt hpow hj.le]
              rfl
          · exact (SyncPass.finish_on h false).stays

section Fork

variable {w : Weighing} {j : ℕ} {link : Hash256} {hdrs : List Bytes}

/-- The block of a weighing is connected where the chain is cut. -/
theorem SyncPass.reorgTo_on (hpow : coin.powlimit ≠ 0)
    (h : RecordsChain sha256 idxPowHash idxAttribute coin activation p.n raws)
    (hw : WeighsFork sha256 idxPowHash idxAttribute coin activation seen raws w j link hdrs) :
    PassOn sha256 idxPowHash idxAttribute coin activation seen
      (p.reorgTo sha256 idxPowHash idxAttribute coin activation touched gotAny left w)
      (raws.take j ++ [w.pl]) := by
  obtain ⟨hok, hcut⟩ := h.reorg hpow hw.pos hw.low.le
  have hlen : (raws.take j).length = j := by
    rw [List.length_take, Nat.min_eq_left hw.low.le]
  have htip := hcut.tip
  rw [getLast?_links_take hw.low.le, hw.branches.1] at htip
  have hvalid := hcut.validate hpow le_rfl w.pl
  rw [List.take_length, hlen] at hvalid
  unfold SyncPass.reorgTo
  rw [hw.forkH, if_pos hok]
  apply SyncPass.connectTip_on hpow hcut htip hw.prev
  rw [hcut.height, hlen, hvalid]
  exact hw.valid

theorem seedAt_work (raws : List Bytes) (j : ℕ) (link : Hash256) (hdrs : List Bytes) :
    (hdrs.foldl (BranchCtx.next sha256) (seedAt sha256 idxAttribute coin activation raws j link)).work =
      headersWork hdrs := by
  have hseed : (seedAt sha256 idxAttribute coin activation raws j link).work < 2 ^ 256 :=
    Nat.two_pow_pos 256
  have hlt := foldl_next_work_lt sha256 hseed hdrs
  have hsum := foldl_next_work sha256 (seedAt sha256 idxAttribute coin activation raws j link) hdrs
  rw [Nat.mod_eq_of_lt hlt] at hsum
  rw [hsum]
  unfold headersWork seedAt branchSeed
  rw [Nat.zero_add]

theorem SyncPass.takeHeaders_steps (hpow : coin.powlimit ≠ 0)
    (h : RecordsChain sha256 idxPowHash idxAttribute coin activation p.n raws)
    (hw : WeighsFork sha256 idxPowHash idxAttribute coin activation seen raws w j link hdrs)
    (hpl : Recv.msg .headers pl ∈ seen) :
    StepsTo sha256 idxPowHash idxAttribute coin activation seen raws
      (p.takeHeaders sha256 idxPowHash idxAttribute coin activation touched gotAny left w pl) := by
  unfold SyncPass.takeHeaders
  split
  · exact (SyncPass.finish_on h false).stays
  · rename_i bc k hbc
    obtain ⟨es, hes, hlast, hsent⟩ := branchWeigh_elements hbc
    rw [hw.bc] at hes hlast
    rw [← List.foldl_append] at hlast
    have hmore : Branches sha256 idxPowHash idxAttribute coin activation seen raws j link
        (hdrs ++ es) := by
      refine ⟨hw.branches.1, extends_append.mpr ⟨hw.branches.2.1, hes⟩, ?_⟩
      intro hdr hhdr
      rcases List.mem_append.mp hhdr with hhdr | hhdr
      · exact hw.branches.2.2 hdr hhdr
      · exact ⟨pl, hpl, hsent hdr hhdr⟩
    split
    · rename_i hheavier
      rw [hw.ours, hlast, seedAt_work] at hheavier
      exact ⟨_, SyncPass.reorgTo_on hpow h hw,
        .cut j link (hdrs ++ es) w.pl hw.pos hw.low hmore hheavier hw.block⟩
    · split
      · exact (SyncPass.blockDone_on h gotAny left).stays
      · refine PassOn.stays ⟨h, ?_⟩
        rintro _ _ w' hw'
        cases hw'
        exact ⟨j, link, hdrs ++ es, { hw with branches := hmore, bc := hlast }⟩

theorem SyncPass.passOver_steps
    (h : RecordsChain sha256 idxPowHash idxAttribute coin activation p.n raws)
    (hw : WeighsFork sha256 idxPowHash idxAttribute coin activation seen raws w j link hdrs) :
    StepsTo sha256 idxPowHash idxAttribute coin activation seen raws (p.passOver gotAny left w) := by
  unfold SyncPass.passOver
  split
  · refine PassOn.stays ⟨h, ?_⟩
    rintro _ _ w' hw'
    cases hw'
    exact ⟨j, link, hdrs, { hw with }⟩
  · exact (SyncPass.blockDone_on h gotAny left).stays

/-- A weighing stays one while more is received. -/
theorem WeighsFork.mono {seen' : List Recv} (hsub : seen ⊆ seen')
    (hw : WeighsFork sha256 idxPowHash idxAttribute coin activation seen raws w j link hdrs) :
    WeighsFork sha256 idxPowHash idxAttribute coin activation seen' raws w j link hdrs := by
  obtain ⟨hlink, hext, hsent⟩ := hw.branches
  have hmore : Branches sha256 idxPowHash idxAttribute coin activation seen' raws j link hdrs := by
    refine ⟨hlink, hext, fun hdr hhdr => ?_⟩
    obtain ⟨pl, hpl, hin⟩ := hsent hdr hhdr
    exact ⟨pl, hsub hpl, hin⟩
  exact { hw with branches := hmore, block := hsub hw.block }

end Fork

theorem SyncPass.takeInv_on
    (h : RecordsChain sha256 idxPowHash idxAttribute coin activation p.n raws) (hp : p.phase = .inv) :
    PassOn sha256 idxPowHash idxAttribute coin activation seen (p.takeInv pl) raws := by
  unfold SyncPass.takeInv
  split
  · refine ⟨h, fun _ _ _ hw => ?_⟩
    rw [hp] at hw
    cases hw
  · exact SyncPass.idleOn_on h
  · exact ⟨h, fun _ _ _ hw => nomatch hw⟩

variable (touched) in
/-- One receive. -/
theorem PassOn.recv (hpow : coin.powlimit ≠ 0)
    (h : PassOn sha256 idxPowHash idxAttribute coin activation seen p raws) {r : Recv} (hr : r ∈ seen) :
    StepsTo sha256 idxPowHash idxAttribute coin activation seen raws
      (p.recv sha256 idxPowHash idxAttribute coin activation touched r) := by
  have hover : StepsTo sha256 idxPowHash idxAttribute coin activation seen raws (p.finish true) :=
    (SyncPass.finish_on h.chain true).stays
  cases hphase : p.phase with
  | done ok =>
    have heq : p.recv sha256 idxPowHash idxAttribute coin activation touched r = p := by
      unfold SyncPass.recv
      rw [hphase]
    rw [heq]
    exact h.stays
  | inv =>
    unfold SyncPass.recv
    rw [hphase]
    rcases r with ⟨cmd, pl⟩ | _ | _ | _
    · cases cmd
      case inv => exact (SyncPass.takeInv_on h.chain hphase).stays
      all_goals exact h.stays
    · exact h.stays
    · exact (SyncPass.idleOn_on h.chain).stays
    · exact hover
  | blocks gotAny left =>
    unfold SyncPass.recv
    rw [hphase]
    rcases r with ⟨cmd, pl⟩ | _ | _ | _
    · cases cmd
      case block => exact SyncPass.takeBlock_steps hpow h.chain hr
      all_goals exact h.stays
    · exact h.stays
    · exact (SyncPass.endBatch_on h.chain gotAny).stays
    · exact hover
  | headers gotAny left w =>
    obtain ⟨j, link, hdrs, hw⟩ := h.weighs gotAny left w hphase
    unfold SyncPass.recv
    rw [hphase]
    rcases r with ⟨cmd, pl⟩ | _ | _ | _
    · cases cmd
      case headers => exact SyncPass.takeHeaders_steps hpow h.chain hw hr
      all_goals exact SyncPass.passOver_steps h.chain hw
    · exact SyncPass.passOver_steps h.chain hw
    · exact (SyncPass.blockDone_on h.chain gotAny left).stays
    · exact hover

theorem PassOn.mono {seen' : List Recv} (hsub : seen ⊆ seen')
    (h : PassOn sha256 idxPowHash idxAttribute coin activation seen p raws) :
    PassOn sha256 idxPowHash idxAttribute coin activation seen' p raws where
  chain := h.chain
  weighs := by
    intro gotAny left w hphase
    obtain ⟨j, link, hdrs, hw⟩ := h.weighs gotAny left w hphase
    exact ⟨j, link, hdrs, hw.mono hsub⟩

end Steps

/-! ### A pass -/

/-- The next block of a longer valid chain. -/
theorem RecordsChain.next (hpow : coin.powlimit ≠ 0) {n : ServeNode} {raws : List Bytes} {raw : Bytes}
    (h : RecordsChain sha256 idxPowHash idxAttribute coin activation n raws)
    (hmore : ValidChain sha256 idxPowHash idxAttribute coin activation (raws ++ [raw])) :
    ∃ tip, n.node.tip = some tip ∧ prevField raw = tip.val ∧
      blockValidate sha256 idxPowHash coin n.node.db (n.node.height + 1) raw = true := by
  obtain ⟨⟨tip, htip, hprev⟩, hvalid⟩ := hmore.last
  have hgrown := h.valid.grownTo hpow fun _ => false
  refine ⟨tip, ?_, hprev, ?_⟩
  · rw [h.tip, ← hgrown.tip]
    exact htip
  · have hsame := h.validate hpow le_rfl raw
    rw [List.take_length, ← h.height] at hsame
    rw [hgrown.height, ← h.height] at hvalid
    exact hsame.trans hvalid

/-- A node that grew to a valid chain records it. -/
theorem recordsChain_grown (hpow : coin.powlimit ≠ 0) {raws : List Bytes}
    (h : ValidChain sha256 idxPowHash idxAttribute coin activation raws) (w : Bytes → Bool) :
    RecordsChain sha256 idxPowHash idxAttribute coin activation
      (grown sha256 idxAttribute coin activation w raws) raws := by
  induction raws using List.reverseRecOn with
  | nil => exact ⟨h, (add_zero _).symm, rfl, rfl, fun _ hr => absurd hr List.not_mem_nil⟩
  | append_singleton raws raw ih =>
    have hold := ih (h.front _)
    obtain ⟨tip, htip, hprev, hvalid⟩ := hold.next hpow h
    rw [grown_append]
    exact hold.connect hpow htip hprev hvalid (w raw)

variable (sha256 idxPowHash idxAttribute coin activation) in
/-- Whatever a peer sends, and in whatever order: after each receive the node records a valid chain. It is
the chain of before, or that chain with a block of the peer on top, or it was cut for headers of the peer
that carry more work than what they replace, and a block of the peer stands where it was cut. -/
theorem pass_any_peer (hpow : coin.powlimit ≠ 0) (touched : Bytes → Bool) (p : SyncPass)
    (raws : List Bytes) (hp : p.phase = .inv)
    (hraws : RecordsChain sha256 idxPowHash idxAttribute coin activation p.n raws) (rs : List Recv) :
    ∃ chains : ℕ → List Bytes, chains 0 = raws ∧
      (∀ i ≤ rs.length, RecordsChain sha256 idxPowHash idxAttribute coin activation
        ((rs.take i).foldl (SyncPass.recv sha256 idxPowHash idxAttribute coin activation touched) p).n
        (chains i)) ∧
      ∀ i < rs.length, ChainStep sha256 idxPowHash idxAttribute coin activation (rs.take (i + 1))
        (chains i) (chains (i + 1)) := by
  have hstart : PassOn sha256 idxPowHash idxAttribute coin activation [] p raws := by
    refine ⟨hraws, fun gotAny left w hw => ?_⟩
    rw [hp] at hw
    cases hw
  obtain ⟨chains, hfirst, hon, hsteps⟩ := Run.exists_trace
    (R := ChainStep sha256 idxPowHash idxAttribute coin activation)
    (fun seen p raws r h => (h.mono (List.subset_append_left seen [r])).recv touched hpow
      (List.mem_append_right seen (List.mem_singleton_self r))) rs hstart
  exact ⟨chains, hfirst, fun i hi => (hon i hi).chain, hsteps⟩

/-- A peer offers another second block, and answers with its header and one more. -/
def forkReceives : List Recv :=
  [.msg .inv (inventory [(2, rawHash raceSha256 minedBlock2)]), .msg .block minedBlock2,
    .msg .headers (headersMessage [mined2, timelyHeader])]

theorem pass_any_peer_fork :
    let raws := [minedBlock1, mergedBlock2]
    let p : SyncPass := { n := grown raceSha256 commitAttribute minedCoin 0 (fun _ => false) raws }
    let recv := SyncPass.recv raceSha256 racePowHash commitAttribute minedCoin 0 fun _ => false
    (∃ chains : ℕ → List Bytes, chains 0 = raws ∧
      (∀ i ≤ forkReceives.length, RecordsChain raceSha256 racePowHash commitAttribute minedCoin 0
        ((forkReceives.take i).foldl recv p).n (chains i)) ∧
      ∀ i < forkReceives.length, ChainStep raceSha256 racePowHash commitAttribute minedCoin 0
        (forkReceives.take (i + 1)) (chains i) (chains (i + 1))) ∧
      (forkReceives.foldl recv p).n.node.tip = some (rawHash raceSha256 minedBlock2) := by
  intro raws p recv
  have hraws := recordsChain_grown (by decide) validChain_raced fun _ => false
  have htip : (forkReceives.foldl recv p).n.node.tip = some (rawHash raceSha256 minedBlock2) := by
    decide +kernel
  exact ⟨pass_any_peer raceSha256 racePowHash commitAttribute minedCoin 0 (by decide) (fun _ => false) p
    raws rfl hraws forkReceives, htip⟩

end NamespaceIndexer.Daemon
