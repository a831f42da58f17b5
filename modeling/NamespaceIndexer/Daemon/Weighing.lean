import NamespaceIndexer.Daemon.Auxpow
import NamespaceIndexer.Daemon.Branch
import NamespaceIndexer.Daemon.Headers

/-!
# A branch that is weighed, and then connected

A branch is weighed by its headers before its blocks are validated one by one. Both go by the same
proof of work and the same retarget; the median of the times below is checked on the blocks alone.
-/

namespace NamespaceIndexer.Daemon

open Fold Lib

variable (sha256 idxPowHash : Bytes → Hash256)
variable (idxAttribute : Bytes → ℕ → Option (H160 × Byte))
variable (coin : Coin) (activation : UInt64)

/-- The header of a block, with its AuxPoW. -/
def headerElement (raw : Bytes) : Bytes :=
  if DirectMined raw then raw.take 80
  else
    match auxpowSkip (raw.drop 80) with
    | some (_, r) => raw.take (raw.length - r.length)
    | none => raw

/-- The block parses, and its transactions have the merkle root of the header. -/
def BodyOk (raw : Bytes) : Prop :=
  ∃ m, (idxParseBlock sha256 raw).2 = some m ∧ m.merkleOk = true

/-- `branch_weigh` over several `headers` messages: the context when every header was accepted. -/
def weighMessages (bc : BranchCtx) : List (List Bytes) → Option BranchCtx
  | [] => some bc
  | es :: rest =>
    match branchWeigh sha256 idxPowHash coin bc (headersMessage es) with
    | some (bc', n) => if n = es.length then weighMessages bc' rest else none
    | none => none

/-- Each of these times is above the median of those below it; `below` is newest first. -/
def MediansHold (below : List ℤ) (pos : ℤ) : List ℤ → Prop
  | [] => True
  | time :: times =>
    medianAllows (withStandIns coin pos (below.take 11)) time = true ∧
      MediansHold (time :: below) (pos + 1) times

/-- The stored times, newest first. -/
def timesBelow (db : Db) : List ℤ := db.blocks.reverse.map BlockRow.time

/-- The stored times up to a height, newest first. -/
def timesUpTo (db : Db) (height : ℤ) : List ℤ :=
  (OrderedTable.upTo BlockRow.height height db.blocks).reverse.map BlockRow.time

/-- A block of the branch is connected. -/
def connectBranch (n : Node) (block : Bytes × Bool) : Node :=
  n.connect sha256 idxAttribute block.1 block.2

/-- `block_validate` accepts the next block of the branch. -/
def ValidOn (n : Node) (block : Bytes × Bool) : Prop :=
  blockValidate sha256 idxPowHash coin n.db (n.height + 1) block.1 = true

section Elements

variable {sha256 idxPowHash coin}

/-- Of a block that parses, the header is whole and the AuxPoW, if it has one, is stepped over. -/
theorem idxParseBlock_count {raw : Bytes} {m : IdxBlockMeta}
    (h : (idxParseBlock sha256 raw).2 = some m) :
    80 ≤ raw.length ∧ (¬ DirectMined raw → ∃ r, auxpowSkip (raw.drop 80) = some ((), r)) := by
  have hparse : Parses sha256 raw := by
    unfold Parses
    rw [h]
    rfl
  have hlen := hparse.length_ge
  refine ⟨hlen, fun hm => ?_⟩
  unfold idxParseBlock at h
  rw [if_neg (by omega)] at h
  simp only at h
  split at h
  · cases h
  · rename_i ntx r hcount
    have hversion : le32At (raw.take 80) 0 / 0x100 % 2 = 1 := by
      rw [le32At_take (by omega)]
      have hne : le32At raw 0 / 0x100 % 2 ≠ 0 := hm
      omega
    unfold curCount at hcount
    rw [if_pos hversion] at hcount
    obtain ⟨⟨⟩, t, hskip, -⟩ := Reader.bind_eq_some.mp hcount
    exact ⟨t, hskip⟩

/-- The header element of a block: 80 bytes, or 80 bytes and what is stepped over. -/
theorem headerElement_cases {raw : Bytes} {m : IdxBlockMeta}
    (h : (idxParseBlock sha256 raw).2 = some m) :
    (DirectMined raw ∧ headerElement raw = raw.take 80) ∨
      ¬ DirectMined raw ∧ ∃ c r, raw.drop 80 = c ++ r ∧ headerElement raw = raw.take 80 ++ c ∧
        ∀ r', auxpowSkip (c ++ r') = some ((), r') := by
  obtain ⟨hlen, hskip⟩ := idxParseBlock_count h
  unfold headerElement
  by_cases hd : DirectMined raw
  · exact Or.inl ⟨hd, if_pos hd⟩
  · obtain ⟨r, hr⟩ := hskip hd
    obtain ⟨c, hc, hlocal⟩ := auxpowSkip_local _ _ _ hr
    refine Or.inr ⟨hd, c, r, hc, ?_, hlocal⟩
    have hraw : raw = raw.take 80 ++ c ++ r := by
      rw [List.append_assoc, ← hc, List.take_append_drop]
    have hcut : raw.length - r.length = (raw.take 80 ++ c).length := by
      have hsum := congrArg List.length hraw
      rw [List.length_append] at hsum
      omega
    rw [if_neg hd, hr]
    dsimp only
    rw [hcut]
    exact (congrArg (List.take _) hraw).trans List.take_left

theorem headerElement_take {raw : Bytes} {m : IdxBlockMeta}
    (h : (idxParseBlock sha256 raw).2 = some m) :
    80 ≤ (headerElement raw).length ∧ (headerElement raw).take 80 = raw.take 80 ∧
      ∃ body, raw = headerElement raw ++ body := by
  have hlen := (idxParseBlock_count h).1
  have h80 : (raw.take 80).length = 80 := by
    rw [List.length_take]
    omega
  rcases headerElement_cases h with ⟨-, he⟩ | ⟨-, c, r, hc, he, -⟩
  · rw [he]
    exact ⟨h80.ge, by rw [List.take_take, Nat.min_self], _, (List.take_append_drop 80 raw).symm⟩
  · rw [he]
    refine ⟨by rw [List.length_append]; omega, ?_, r, ?_⟩
    · rw [List.take_append_of_le_length h80.ge, List.take_take, Nat.min_self]
    · rw [List.append_assoc, ← hc, List.take_append_drop]

/-- The check of a block's header spans what the parser steps over. -/
theorem headerElement_span {raw : Bytes} {m : IdxBlockMeta}
    (h : (idxParseBlock sha256 raw).2 = some m) (rest : Bytes) {pp : PowParams} {span : ℕ}
    (hs : idxPowCheck2 sha256 idxPowHash pp (headerElement raw ++ rest) = some span) :
    span = (headerElement raw).length := by
  obtain ⟨hge, htake, -⟩ := headerElement_take h
  have hmined : DirectMined (headerElement raw ++ rest) ↔ DirectMined raw := by
    rw [← directMined_take, List.take_append_of_le_length hge, htake, directMined_take]
  have hlen := (idxParseBlock_count h).1
  have h80 : (raw.take 80).length = 80 := by
    rw [List.length_take]
    omega
  rcases headerElement_cases h with ⟨hd, he⟩ | ⟨hd, c, r, -, he, hskip⟩
  · rw [idxPowCheck2_direct hs (hmined.mpr hd), he, h80]
  · obtain ⟨target, -, ⟨hd', -⟩ | ⟨-, a, r', ha, -, rfl⟩⟩ := idxPowCheck2_eq_some.mp hs
    · exact absurd (hmined.mp hd') hd
    · -- the two readers stop at the same byte
      have hdrop : (headerElement raw ++ rest).drop 80 = c ++ rest := by
        rw [he, List.append_assoc, List.drop_left' h80]
      rw [hdrop] at ha
      obtain ⟨-, rfl⟩ := pcAuxpow_steps _ _ _ _ _ ha (hskip rest)
      rw [List.length_append, Nat.add_sub_cancel]

theorem extends_of_weighMessages {bc bc' : BranchCtx} {batches : List (List Bytes)}
    (hspan : ∀ e ∈ batches.flatten, ∀ rest span,
      idxPowCheck2 sha256 idxPowHash coin.powParams (e ++ rest) = some span → span = e.length)
    (h : weighMessages sha256 idxPowHash coin bc batches = some bc') :
    Extends sha256 idxPowHash coin bc batches.flatten := by
  induction batches generalizing bc with
  | nil => trivial
  | cons es rest ih =>
    unfold weighMessages at h
    split at h
    · rename_i bc1 k hw
      split at h
      · rename_i hk
        subst hk
        rw [List.flatten_cons] at hspan ⊢
        by_cases hlen : es.length ≤ 0xFFFF
        · rw [branchWeigh_headersMessage _ hlen] at hw
          obtain ⟨hext, rfl⟩ :=
            extends_of_weighed (fun e he => hspan e (List.mem_append_left _ he)) hw
          exact extends_append.mpr
            ⟨hext, ih (fun e he => hspan e (List.mem_append_right _ he)) h⟩
        · rw [branchWeigh_overlong _ (by omega)] at hw
          cases hw
      · cases h
    · cases h

end Elements

section Connecting

variable {sha256 idxPowHash coin}

variable (coin) in
/-- The chain of `n` ends where the branch context stands. -/
structure Standing (n : Node) (c : PowContext) : Prop where
  ordered : OrderedTable.Ordered BlockRow.height n.db.blocks
  top : ∀ b ∈ n.db.blocks, b.height ≤ n.height
  low : coin.start ≤ n.height
  context : c = powContext coin n.db n.height

/-- The row that a connected block leaves on top. -/
theorem Standing.connect_blocks {n : Node} {c : PowContext} (hn : Standing coin n c)
    (block : Bytes × Bool) {m : IdxBlockMeta} (hm : (idxParseBlock sha256 block.1).2 = some m) :
    (connectBranch sha256 idxAttribute n block).height = n.height + 1 ∧
      (connectBranch sha256 idxAttribute n block).db.blocks =
        n.db.blocks ++ [⟨n.height + 1, m.blockHash, m.time, m.coinbaseOutTotal, m.blockBytes,
          m.bits⟩] := by
  obtain ⟨raw, walletTouched⟩ := block
  have hparse : Parses sha256 raw := by
    unfold Parses
    rw [hm]
    rfl
  obtain ⟨m', hm', -, -, hheight, -, hdb⟩ := connect_parses idxAttribute n walletTouched hparse
  cases hm.symm.trans hm'
  have habove : ∀ b ∈ n.db.blocks, b.height < n.height + 1 := by
    intro b hb
    have hle := hn.top b hb
    omega
  refine ⟨hheight, ?_⟩
  show (n.connect sha256 idxAttribute raw walletTouched).db.blocks = _
  rw [hdb]
  exact OrderedTable.put_of_above BlockRow.height habove

theorem Standing.connect {n : Node} {bc : BranchCtx} (hn : Standing coin n bc.context)
    (block : Bytes × Bool) {m : IdxBlockMeta} (hm : (idxParseBlock sha256 block.1).2 = some m) :
    Standing coin (connectBranch sha256 idxAttribute n block)
        (bc.next sha256 (headerElement block.1)).context ∧
      (connectBranch sha256 idxAttribute n block).height = n.height + 1 ∧
      timesBelow (connectBranch sha256 idxAttribute n block).db =
        (m.time : ℤ) :: timesBelow n.db := by
  obtain ⟨hheight, hblocks⟩ := hn.connect_blocks idxAttribute block hm
  obtain ⟨htime, hbits⟩ := idxParseBlock_fields hm
  have habove : ∀ b ∈ n.db.blocks, b.height < n.height + 1 := by
    intro b hb
    have hle := hn.top b hb
    omega
  have hrows : (connectBranch sha256 idxAttribute n block).db.blocks =
      OrderedTable.put BlockRow.height ⟨n.height + 1, m.blockHash, m.time, m.coinbaseOutTotal,
        m.blockBytes, m.bits⟩ n.db.blocks := by
    rw [hblocks]
    exact (OrderedTable.put_of_above BlockRow.height habove).symm
  have hput : ∀ k, idxDbBlockHdr (connectBranch sha256 idxAttribute n block).db k =
      if n.height + 1 = k then ((m.time : ℤ), m.bits) else idxDbBlockHdr n.db k :=
    idxDbBlockHdr_put hn.ordered hrows
  have hrow := hput (n.height + 1)
  rw [if_pos rfl] at hrow
  have hsame := hput n.height
  rw [if_neg (by omega)] at hsame
  refine ⟨⟨?_, ?_, ?_, ?_⟩, hheight, ?_⟩
  · rw [hrows]
    exact hn.ordered.put BlockRow.height _
  · intro b hb
    rw [hblocks, List.mem_append, List.mem_singleton] at hb
    rw [hheight]
    rcases hb with hb | rfl
    · exact (habove b hb).le
    · exact le_rfl
  · rw [hheight]
    have hlow := hn.low
    omega
  · have htake := (headerElement_take hm).2.1
    rw [hheight, powContext_succ hn.low hrow hsame, ← hn.context, htime, hbits]
    rw [← BranchCtx.next_take, htake, BranchCtx.next_take]
    rfl
  · unfold timesBelow
    rw [hblocks, List.reverse_append, List.map_append]
    rfl

/-- What `block_validate` says of a block whose header extends the chain. -/
theorem blockValidate_extending (hpow : coin.powlimit ≠ 0) {n : Node} {c : PowContext}
    (hn : Standing coin n c) {raw : Bytes}
    (hcheck : idxPowCheck sha256 idxPowHash coin.powParams raw = true)
    (hexp : c.Expects coin (le32At raw 72)) :
    blockValidate sha256 idxPowHash coin n.db (n.height + 1) raw =
      match (idxParseBlock sha256 raw).2 with
      | none => false
      | some m => m.merkleOk &&
          medianAllows (withStandIns coin (n.height + 1) ((timesBelow n.db).take 11)) m.time := by
  have htimes : medianTimes coin n.db (n.height + 1) =
      withStandIns coin (n.height + 1) ((timesBelow n.db).take 11) := by
    have hall : (n.db.blocks.filter fun r => decide (r.height < n.height + 1)) = n.db.blocks := by
      rw [List.filter_eq_self]
      intro b hb
      have hle := hn.top b hb
      exact decide_eq_true (by omega)
    unfold medianTimes idxDbBlockTimes timesBelow
    rw [hall, List.map_take]
  unfold blockValidate
  rw [if_neg hpow]
  cases hm : (idxParseBlock sha256 raw).2 with
  | none => rfl
  | some m =>
    have hcontext : (powContext coin n.db (n.height + 1 - 1)).Expects coin m.bits := by
      rw [Int.add_sub_cancel, ← hn.context, (idxParseBlock_fields hm).2]
      exact hexp
    simp only [hcheck, hcontext, htimes, decide_true, Bool.and_true]

theorem blockValidate_iff_median (hpow : coin.powlimit ≠ 0) {n : Node} {bc : BranchCtx}
    (hn : Standing coin n bc.context) {raw : Bytes} {m : IdxBlockMeta}
    (hm : (idxParseBlock sha256 raw).2 = some m) (hmerkle : m.merkleOk = true)
    (hs : idxPowCheck2 sha256 idxPowHash coin.powParams (headerElement raw) =
      some (headerElement raw).length)
    (hexp : bc.context.Expects coin (le32At (headerElement raw) 72)) :
    blockValidate sha256 idxPowHash coin n.db (n.height + 1) raw = true ↔
      medianAllows (withStandIns coin (n.height + 1) ((timesBelow n.db).take 11)) m.time = true := by
  obtain ⟨hge, htake, body, hbody⟩ := headerElement_take hm
  have hcheck : idxPowCheck sha256 idxPowHash coin.powParams raw = true := by
    have happend := idxPowCheck2_append hs body
    rw [List.take_length, ← hbody] at happend
    unfold idxPowCheck
    rw [happend]
    rfl
  have hbits : le32At (headerElement raw) 72 = le32At raw 72 := by
    rw [← le32At_take (show 72 + 4 ≤ 80 by omega), htake, le32At_take (by omega)]
  rw [hbits] at hexp
  rw [blockValidate_extending hpow hn hcheck hexp, hm]
  simp only [hmerkle, Bool.true_and]

/-- Blocks whose headers extend the branch are valid one after another exactly when the medians
hold. -/
theorem along_iff_mediansHold (hpow : coin.powlimit ≠ 0) {n : Node} {bc : BranchCtx}
    (hn : Standing coin n bc.context) {blocks : List (Bytes × Bool)}
    (hbody : ∀ b ∈ blocks, BodyOk sha256 b.1)
    (hext : Extends sha256 idxPowHash coin bc (blocks.map fun b => headerElement b.1)) :
    Run.Along (connectBranch sha256 idxAttribute) (ValidOn sha256 idxPowHash coin) n blocks ↔
      MediansHold coin (timesBelow n.db) (n.height + 1)
        (blocks.map fun b => (le32At b.1 68 : ℤ)) := by
  induction blocks generalizing n bc with
  | nil => exact Iff.rfl
  | cons b blocks ih =>
    obtain ⟨m, hm, hmerkle⟩ := hbody b (List.mem_cons_self ..)
    obtain ⟨-, hs, hexp, hrest⟩ := hext
    have hvalid := blockValidate_iff_median hpow hn hm hmerkle hs hexp
    obtain ⟨hstanding, hheight, htimes⟩ := hn.connect idxAttribute b hm
    have hnext := ih hstanding (fun x hx => hbody x (List.mem_cons_of_mem _ hx)) hrest
    rw [hheight, htimes] at hnext
    rw [(idxParseBlock_fields hm).1] at hvalid hnext
    exact and_congr hvalid hnext

theorem idxSyncRollback_writes {db : Db} {oracle : OracleFeed} {toHeight : ℤ}
    (h : (idxSyncRollback sha256 idxAttribute db oracle activation toHeight).ok = true) :
    ∃ s, (idxSyncRollback sha256 idxAttribute db oracle activation toHeight).writes =
      idxDbBlockPruneAbove toHeight ++ [.project s] := by
  unfold idxSyncRollback at h ⊢
  cases hr : rollbackReplay sha256 idxAttribute (oracleRollback oracle (toHeight + 1))
    (idxDbRawblockIter (db.writes (idxDbBlockPruneAbove toHeight)) toHeight) (smNew activation) with
  | mk ok s =>
    simp only [hr] at h ⊢
    cases ok with
    | false => cases h
    | true => exact ⟨_, rfl⟩

variable (coin) in
theorem rollback_blocks {n : Node} {toHeight : ℤ}
    (h : (idxSyncRollback sha256 idxAttribute n.db n.oracle activation toHeight).ok = true) :
    (n.rollback sha256 idxAttribute coin activation toHeight).height = toHeight ∧
      (n.rollback sha256 idxAttribute coin activation toHeight).db.blocks =
        OrderedTable.upTo BlockRow.height toHeight n.db.blocks := by
  obtain ⟨s, hs⟩ := idxSyncRollback_writes idxAttribute activation h
  unfold Node.rollback
  simp only [h, hs, if_true]
  exact ⟨trivial, projectDb_blocks _ _⟩

/-- A chain that was cut stands where the weighing of a branch starts. -/
theorem standing_rollback {n : Node} (hord : OrderedTable.Ordered BlockRow.height n.db.blocks)
    {forkH : ℤ} (hfork : coin.start ≤ forkH)
    (h : (idxSyncRollback sha256 idxAttribute n.db n.oracle activation forkH).ok = true) :
    Standing coin (n.rollback sha256 idxAttribute coin activation forkH)
      (powContext coin n.db forkH) := by
  obtain ⟨hheight, hblocks⟩ := rollback_blocks idxAttribute coin activation h
  refine ⟨?_, ?_, ?_, ?_⟩
  · rw [hblocks]
    exact hord.upTo BlockRow.height _
  · rw [hblocks, hheight]
    exact fun b hb => ((OrderedTable.mem_upTo BlockRow.height).mp hb).2
  · rw [hheight]
    exact hfork
  · rw [hheight]
    symm
    apply powContext_congr
    intro k hk
    unfold idxDbBlockHdr
    rw [hblocks, hord.find?_upTo BlockRow.height hk]

end Connecting

/-- Where every header of a branch was accepted, its blocks are valid one after another, on the chain
rolled back to the fork, exactly when each of them is younger than the median of the times below. -/
theorem weighed_branch_validates (hpow : coin.powlimit ≠ 0) (n : Node)
    (hord : OrderedTable.Ordered BlockRow.height n.db.blocks) (forkH : ℤ)
    (hfork : coin.start ≤ forkH)
    (hback : (idxSyncRollback sha256 idxAttribute n.db n.oracle activation forkH).ok = true)
    (forkHash : Hash256) (batches : List (List (Bytes × Bool)))
    (hbody : ∀ b ∈ batches.flatten, BodyOk sha256 b.1)
    (hweigh : (weighMessages sha256 idxPowHash coin (branchSeed coin n.db forkH forkHash)
      (batches.map fun blocks => blocks.map fun b => headerElement b.1)).isSome) :
    Run.Along (connectBranch sha256 idxAttribute) (ValidOn sha256 idxPowHash coin)
        (n.rollback sha256 idxAttribute coin activation forkH) batches.flatten ↔
      MediansHold coin (timesUpTo n.db forkH) (forkH + 1)
        (batches.flatten.map fun b => (le32At b.1 68 : ℤ)) := by
  obtain ⟨hheight, hblocks⟩ := rollback_blocks idxAttribute coin activation hback
  have hstanding := standing_rollback idxAttribute activation hord hfork hback
  obtain ⟨bc', hbc'⟩ := Option.isSome_iff_exists.mp hweigh
  have helements : (batches.map fun blocks => blocks.map fun b => headerElement b.1).flatten =
      batches.flatten.map fun b => headerElement b.1 := List.map_flatten.symm
  have hspan : ∀ e ∈ (batches.map fun blocks => blocks.map fun b => headerElement b.1).flatten,
      ∀ rest span, idxPowCheck2 sha256 idxPowHash coin.powParams (e ++ rest) = some span →
        span = e.length := by
    intro e he rest span hs
    rw [helements] at he
    obtain ⟨b, hb, rfl⟩ := List.mem_map.mp he
    obtain ⟨m, hm, -⟩ := hbody b hb
    exact headerElement_span hm rest hs
  have hext := extends_of_weighMessages hspan hbc'
  rw [helements] at hext
  have hiff := along_iff_mediansHold idxAttribute hpow hstanding hbody hext
  unfold timesBelow at hiff
  rw [hblocks, hheight] at hiff
  exact hiff

/-- A direct block and a merged-mined one, weighed from the checkpoint. -/
theorem weighed_branch_validates_sample :
    Run.Along (connectBranch minedSha256 commitAttribute)
      (ValidOn minedSha256 minedPowHash minedCoin)
      ((fresh minedCoin 0).rollback minedSha256 commitAttribute minedCoin 0 0)
      [(minedBlock1, false), (mergedBlock2, false)] := by
  refine (weighed_branch_validates minedSha256 minedPowHash commitAttribute minedCoin 0 (by decide)
    (fresh minedCoin 0) List.Pairwise.nil 0 (by decide) (by decide +kernel) (zeros 32)
    [[(minedBlock1, false), (mergedBlock2, false)]] ?_ (by decide +kernel)).mpr ?_
  · intro b hb
    rcases List.mem_pair.mp hb with rfl | rfl
    · exact ⟨Option.get _ (by decide +kernel : Parses minedSha256 minedBlock1),
        (Option.some_get _).symm, by decide +kernel⟩
    · exact ⟨Option.get _ (by decide +kernel : Parses minedSha256 mergedBlock2),
        (Option.some_get _).symm, by decide +kernel⟩
  · exact ⟨by decide +kernel, by decide +kernel, trivial⟩

/-- A third block whose time is below the second one's and below the median. -/
def lateHeader : Bytes :=
  minedHeader 0x00620004
    0x4b1132251e05a4699e32949219960d79782b667c3cc738e17856d0e1f0a35e9b
    0x3ea5c09388bfc40d5553009260bb63772f04dc1e6fc09b387617987d81297783 1000030 1

def lateBlock : Bytes := lateHeader ++ [1] ++ bareCoinbase [1, 3]

/-- SHA-256 on what the three blocks hash. -/
def lateSha256 : Bytes → Hash256 :=
  hashTable ([(bareCoinbase [1, 3],
      0x58ded8d2d4df70702cecc0eee50e0e55087e293354645a0b96c663d304ee66b7),
    (ofHex 32 0x58ded8d2d4df70702cecc0eee50e0e55087e293354645a0b96c663d304ee66b7,
      0x3ea5c09388bfc40d5553009260bb63772f04dc1e6fc09b387617987d81297783),
    (lateHeader, 0xf2c9a130559c722b47adb7e3876f30199c4afeb74447854191512e4c25634328),
    (ofHex 32 0xf2c9a130559c722b47adb7e3876f30199c4afeb74447854191512e4c25634328,
      0x16477c84785158c71a4fad146b76e1cce05e8c5dde790a3f86e21f7fd03ef3ce)] ++ minedHashes)

/-- scrypt on the headers of the three blocks. -/
def latePowHash (hdr : Bytes) : Hash256 :=
  if hdr = lateHeader then
    hashTable [(lateHeader, 0xf351d7b31b7ccd6ae3406adcd508f4db0ed786caf5a841324a3059f9fa86c944)] hdr
  else minedPowHash hdr

/-- The header of the late block is accepted on top of two stored blocks, and the block is not. -/
theorem late_block_weighed :
    let n := [(minedBlock1, false), (minedBlock2, false)].foldl
      (connectBranch lateSha256 commitAttribute) (fresh minedCoin 0)
    BodyOk lateSha256 lateBlock ∧
      (weighMessages lateSha256 latePowHash minedCoin (branchSeed minedCoin n.db 2
        (rawHash lateSha256 minedBlock2)) [[headerElement lateBlock]]).isSome ∧
      (idxSyncRollback lateSha256 commitAttribute n.db n.oracle 0 2).ok = true ∧
      ¬ Run.Along (connectBranch lateSha256 commitAttribute)
        (ValidOn lateSha256 latePowHash minedCoin)
        (n.rollback lateSha256 commitAttribute minedCoin 0 2) [(lateBlock, false)] := by
  intro n
  have hparse : Parses lateSha256 lateBlock := by decide +kernel
  have hrefused : blockValidate lateSha256 latePowHash minedCoin
      (n.rollback lateSha256 commitAttribute minedCoin 0 2).db 3 lateBlock = false := by
    decide +kernel
  have hmerkle : ∀ h : Parses lateSha256 lateBlock, (Option.get _ h).merkleOk = true := by
    decide +kernel
  refine ⟨⟨Option.get _ hparse, (Option.some_get _).symm, hmerkle hparse⟩, by decide +kernel,
    by decide +kernel, ?_⟩
  rintro ⟨hvalid, -⟩
  have hheight : (n.rollback lateSha256 commitAttribute minedCoin 0 2).height + 1 = 3 := by
    decide +kernel
  unfold ValidOn at hvalid
  rw [hheight, hrefused] at hvalid
  cases hvalid

end NamespaceIndexer.Daemon
