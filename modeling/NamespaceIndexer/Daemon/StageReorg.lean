import NamespaceIndexer.Daemon.Weighing
import NamespaceIndexer.Daemon.Inventory

/-!
# The reorg off the stage (`cmd_sync`)

Blocks that came over a serve connection wait in `blockstage`. A branch of them that outweighs the
chain is connected after the chain was cut: what its headers promised its bodies need not hold.
-/

namespace NamespaceIndexer.Daemon

open Fold Lib

variable (sha256 idxPowHash : Bytes → Hash256)
variable (idxAttribute : Bytes → ℕ → Option (H160 × Byte))
variable (coin : Coin) (activation : UInt64)

/-- A row of `blockstage`, as `serve_dispatch` puts it: the bytes of a message that is not shorter
than a header. -/
structure StagedRow where
  raw : Bytes
  long : 80 ≤ raw.length

def StagedRow.hash (r : StagedRow) : Hash256 := rawHash sha256 r.raw

/-- `serve_store_stage_next`. -/
def serveStoreStageNext (stage : List StagedRow) (prev : Hash256) : Option StagedRow :=
  stage.find? fun r => prevField r.raw = prev.val

/-- `serve_store_stage_pending`. -/
def serveStoreStagePending (ss : ServeStore) (stage : List StagedRow) : Bool :=
  stage.any fun r => ss.headers.all fun h => h.hash ≠ r.hash sha256

/-- `serve_store_stage_del`. -/
def serveStoreStageDel (stage : List StagedRow) (hash : Hash256) : List StagedRow :=
  stage.filter fun r => r.hash sha256 ≠ hash

/-- A pass and the stage. -/
structure StageNode extends ServeNode where
  stage : List StagedRow

/-- The highest of the 31 blocks below the tip that a staged row extends. -/
def stageFork (db : Db) (height : ℤ) (stage : List StagedRow) : Option (ℤ × Hash256) :=
  (List.range 31).findSome? fun i : ℕ =>
    let h := height - 1 - (i : ℤ)
    if h < coin.start then none
    else
      match idxDbBlockGet db h with
      | none => none
      | some fh => if (serveStoreStageNext stage fh).isSome then some (h, fh) else none

/-- The staged rows that follow one another from `cur`, at most so many. -/
def stageWalk (stage : List StagedRow) : ℕ → Hash256 → List StagedRow
  | 0, _ => []
  | bn + 1, cur =>
    match serveStoreStageNext stage cur with
    | none => []
    | some r => r :: stageWalk stage bn (r.hash sha256)

/-- The work of the `k` blocks above the fork; none where a row or its bits are missing. -/
def oursAbove (db : Db) (forkH : ℤ) : ℕ → Option ℕ
  | 0 => some 0
  | k + 1 =>
    match oursAbove db forkH k, OrderedTable.find? BlockRow.height db.blocks (forkH + (k + 1)) with
    | some ours, some r => if r.bits = 0 then none else some (idxPowWorkAdd ours (idxPowWork r.bits))
    | _, _ => none

/-- `branch_weigh` on each row as a message of one element; none unless all are accepted. -/
def weighStaged (bc : BranchCtx) : List StagedRow → Option BranchCtx
  | [] => some bc
  | r :: rs =>
    match branchWeigh sha256 idxPowHash coin bc (1 :: r.raw) with
    | some (bc', 1) => weighStaged bc' rs
    | _ => none

/-- Is the verdict a reorg? -/
def outweighs (db : Db) (height forkH : ℤ) (fh : Hash256) (branch : List StagedRow) : Bool :=
  match oursAbove db forkH (height - forkH).toNat,
    weighStaged sha256 idxPowHash coin (branchSeed coin db forkH fh) branch with
  | some ours, some bc => ours < bc.work
  | _, _ => false

/-- The branch is connected up to the first row that is refused. -/
def connectStaged (touched : Bytes → Bool) : StageNode → List StagedRow → StageNode
  | n, [] => n
  | n, r :: rs =>
    let stage := serveStoreStageDel sha256 n.stage (r.hash sha256)
    if blockValidate sha256 idxPowHash coin n.node.db (n.node.height + 1) r.raw then
      let ok := (connectBlock sha256 idxAttribute n.node.s n.node.oracle (n.node.height + 1) r.raw
        (touched r.raw)).ok
      let n : StageNode := ⟨n.connect sha256 idxAttribute r.raw (touched r.raw), stage⟩
      if ok then connectStaged touched n rs else n
    else { n with stage }

/-- The stage-side reorg of `cmd_sync`. -/
def stageReorg (touched : Bytes → Bool) (n : StageNode) : StageNode :=
  if !serveStoreStagePending sha256 n.store n.stage then n
  else
    match stageFork coin n.node.db n.node.height n.stage with
    | none => n
    | some (forkH, fh) =>
      let branch := stageWalk sha256 n.stage 32 fh
      if outweighs sha256 idxPowHash coin n.node.db n.node.height forkH fh branch then
        let rolled : StageNode := ⟨n.reorg sha256 idxAttribute coin activation forkH, n.stage⟩
        if (idxSyncRollback sha256 idxAttribute n.node.db n.node.oracle activation forkH).ok then
          let n := connectStaged sha256 idxPowHash idxAttribute coin touched rolled branch
          { n with node := n.node.project }
        else rolled
      else { n with stage := branch.foldl (fun s r => serveStoreStageDel sha256 s (r.hash sha256)) n.stage }

/-! ### What the reorg is for -/

/-- The recorded chain. -/
def Node.chain (n : Node) : List BlockRow := OrderedTable.upTo BlockRow.height n.height n.db.blocks

def rowsAbove (height : ℤ) (rows : List BlockRow) : List BlockRow :=
  rows.filter fun r => height < r.height

def workSum (rows : List BlockRow) : ℕ := (rows.map fun r => idxPowWork r.bits).sum

/-- The chain stays, or has more work above the fork than it had. -/
def EndsHeavier (n n' : StageNode) : Prop :=
  n'.node.chain = n.node.chain ∨
    ∃ forkH fh, stageFork coin n.node.db n.node.height n.stage = some (forkH, fh) ∧
      workSum (rowsAbove forkH n.node.chain) < workSum (rowsAbove forkH n'.node.chain)

/-- Headers that extend the branch one after another. -/
def StagedExtends (bc : BranchCtx) : List StagedRow → Prop
  | [] => True
  | r :: rs =>
    prevField r.raw = bc.prevHash.val ∧
      idxPowCheck sha256 idxPowHash coin.powParams r.raw = true ∧
      bc.context.Expects coin (le32At r.raw 72) ∧ StagedExtends (bc.next sha256 r.raw) rs

/-- The rows of a branch up to the first body that does not parse or has another merkle root, or the
first time that is not above the median; `below` are the times below `pos`, newest first. -/
def soundRows (below : List ℤ) (pos : ℤ) : List StagedRow → List BlockRow
  | [] => []
  | r :: rs =>
    match (idxParseBlock sha256 r.raw).2 with
    | none => []
    | some m =>
      if m.merkleOk && medianAllows (withStandIns coin pos (below.take 11)) m.time then
        ⟨pos, m.blockHash, m.time, m.coinbaseOutTotal, m.blockBytes, m.bits⟩ ::
          soundRows (m.time :: below) (pos + 1) rs
      else []

/-- The chain is not outweighed; or it is, and then the raw blocks up to the fork parse, and what the
bodies leave of the branch has more work than what it replaces, or is what was there. -/
def SoundBranch (n : StageNode) : Prop :=
  ∀ forkH fh, serveStoreStagePending sha256 n.store n.stage = true →
    stageFork coin n.node.db n.node.height n.stage = some (forkH, fh) →
    let branch := stageWalk sha256 n.stage 32 fh
    let replaced := rowsAbove forkH n.node.chain
    let kept := soundRows sha256 coin (timesUpTo n.node.db forkH) (forkH + 1) branch
    outweighs sha256 idxPowHash coin n.node.db n.node.height forkH fh branch = true →
      (∀ r ∈ n.node.db.rawBlocks, r.height ≤ forkH → Parses sha256 r.raw) ∧
        (kept = replaced ∨ workSum replaced < workSum kept)

section Weighing

variable {sha256 idxPowHash coin}

theorem branchWeigh_one {bc bc' : BranchCtx} {raw : Bytes} :
    branchWeigh sha256 idxPowHash coin bc (1 :: raw) = some (bc', 1) ↔
      prevField raw = bc.prevHash.val ∧ idxPowCheck sha256 idxPowHash coin.powParams raw = true ∧
        bc.context.Expects coin (le32At raw 72) ∧ bc' = bc.next sha256 raw := by
  have hmsg : branchWeigh sha256 idxPowHash coin bc (1 :: raw) =
      (weighHeader sha256 idxPowHash coin bc raw).map fun o => (o.1, 1) := by
    show weighHeaders sha256 idxPowHash coin 1 bc raw = _
    rw [weighHeaders]
    cases weighHeader sha256 idxPowHash coin bc raw with
    | none => rfl
    | some o =>
      dsimp only
      cases raw.drop o.2 <;> rfl
  rw [hmsg, Option.map_eq_some_iff]
  constructor
  · rintro ⟨⟨bc1, span⟩, hw, heq⟩
    obtain ⟨hlink, hs, hexp, rfl⟩ := weighHeader_eq_some.mp hw
    exact ⟨hlink, by rw [idxPowCheck, hs]; rfl, hexp, (congrArg Prod.fst heq).symm⟩
  · rintro ⟨hlink, hs, hexp, rfl⟩
    obtain ⟨span, hspan⟩ := Option.isSome_iff_exists.mp hs
    exact ⟨(bc.next sha256 raw, span), weighHeader_eq_some.mpr ⟨hlink, hspan, hexp, rfl⟩, rfl⟩

theorem weighStaged_extends {bc bc' : BranchCtx} {rs : List StagedRow}
    (h : weighStaged sha256 idxPowHash coin bc rs = some bc') :
    StagedExtends sha256 idxPowHash coin bc rs := by
  induction rs generalizing bc with
  | nil => trivial
  | cons r rs ih =>
    rw [weighStaged] at h
    split at h
    · rename_i bc1 hw
      obtain ⟨hlink, hs, hexp, rfl⟩ := branchWeigh_one.mp hw
      exact ⟨hlink, hs, hexp, ih h⟩
    · cases h

end Weighing

section Connecting

variable {sha256 idxPowHash coin}

/-- The branch is connected as far as its bodies are sound. -/
theorem connectStaged_rows (hpow : coin.powlimit ≠ 0) (touched : Bytes → Bool) {n : StageNode}
    {bc : BranchCtx} (hn : Standing coin n.node bc.context) {branch : List StagedRow}
    (hext : StagedExtends sha256 idxPowHash coin bc branch) :
    let kept := soundRows sha256 coin (timesBelow n.node.db) (n.node.height + 1) branch
    let n' := connectStaged sha256 idxPowHash idxAttribute coin touched n branch
    n'.node.db.blocks = n.node.db.blocks ++ kept ∧
      n'.node.height = n.node.height + kept.length := by
  induction branch generalizing n bc with
  | nil => exact ⟨(List.append_nil _).symm, (add_zero _).symm⟩
  | cons r rs ih =>
    obtain ⟨-, hcheck, hexp, hrest⟩ := hext
    have hvalid := blockValidate_extending hpow hn hcheck hexp
    cases hm : (idxParseBlock sha256 r.raw).2 with
    | none =>
      rw [hm] at hvalid
      dsimp only
      rw [connectStaged, hvalid, soundRows, hm]
      exact ⟨(List.append_nil _).symm, (add_zero _).symm⟩
    | some m =>
      rw [hm] at hvalid
      dsimp only at hvalid ⊢
      rw [connectStaged, hvalid, soundRows, hm]
      dsimp only
      split
      · have hok : (connectBlock sha256 idxAttribute n.node.s n.node.oracle (n.node.height + 1) r.raw
            (touched r.raw)).ok = true := by
          unfold connectBlock
          simp only [hm]
        obtain ⟨hheight, hblocks⟩ := hn.connect_blocks idxAttribute (r.raw, touched r.raw) hm
        obtain ⟨hstanding, -, htimes⟩ := hn.connect idxAttribute (r.raw, touched r.raw) hm
        have htake := (headerElement_take hm).2.1
        rw [← BranchCtx.next_take, htake, BranchCtx.next_take] at hstanding
        rw [if_pos hok]
        generalize hn1 : (⟨n.connect sha256 idxAttribute r.raw (touched r.raw),
          serveStoreStageDel sha256 n.stage (r.hash sha256)⟩ : StageNode) = n1
        have hnode : n1.node = connectBranch sha256 idxAttribute n.node (r.raw, touched r.raw) := by
          rw [← hn1]
          rfl
        rw [← hnode] at hheight hblocks hstanding htimes
        obtain ⟨hb, hh⟩ := ih hstanding hrest
        rw [hblocks, htimes, hheight] at hb
        rw [htimes, hheight] at hh
        refine ⟨?_, ?_⟩
        · rw [hb, List.append_assoc]
          rfl
        · rw [hh, List.length_cons]
          push_cast
          ring
      · exact ⟨(List.append_nil _).symm, (add_zero _).symm⟩

end Connecting

section Chains

variable {sha256 idxPowHash coin}

theorem stageFork_eq_some {db : Db} {height forkH : ℤ} {fh : Hash256} {stage : List StagedRow}
    (h : stageFork coin db height stage = some (forkH, fh)) :
    coin.start ≤ forkH ∧ forkH < height := by
  obtain ⟨i, -, hi⟩ := List.exists_of_findSome?_eq_some h
  dsimp only at hi
  split at hi
  · cases hi
  · rename_i hlow
    split at hi
    · cases hi
    · split at hi
      · cases hi
        omega
      · cases hi

/-- A chain that is weighed has its tip recorded. -/
theorem tip_of_outweighs {db : Db} {height forkH : ℤ} {fh : Hash256} {branch : List StagedRow}
    (hlt : forkH < height)
    (h : outweighs sha256 idxPowHash coin db height forkH fh branch = true) :
    (∃ r ∈ db.blocks, r.height = height) ∧
      StagedExtends sha256 idxPowHash coin (branchSeed coin db forkH fh) branch := by
  obtain ⟨k, hk⟩ : ∃ k : ℕ, height - forkH = k + 1 := ⟨(height - forkH - 1).toNat, by omega⟩
  unfold outweighs at h
  rw [hk, show ((k : ℤ) + 1).toNat = k + 1 by omega] at h
  split at h
  · rename_i ours bc hours hweigh
    rw [oursAbove] at hours
    split at hours
    · rename_i w r hw hr
      obtain ⟨hmem, hheight⟩ := OrderedTable.find?_some BlockRow.height hr
      exact ⟨⟨r, hmem, by omega⟩, weighStaged_extends hweigh⟩
    · cases hours
  · cases h

/-- A replay goes through when its raw blocks parse, and only then. -/
theorem rollbackReplay_ok {oracle : OracleFeed} {rows : List RawRow} {s : SmState} :
    (rollbackReplay sha256 idxAttribute oracle rows s).1 = true ↔ ∀ r ∈ rows, Parses sha256 r.raw := by
  induction rows generalizing s with
  | nil => simp [rollbackReplay]
  | cons r rows ih =>
    rw [List.forall_mem_cons, rollbackReplay]
    unfold Parses
    cases hm : (idxParseBlock sha256 r.raw).2 with
    | none => simp
    | some m => simp [ih, Parses]

theorem idxSyncRollback_ok {db : Db} {oracle : OracleFeed} {toHeight : ℤ} :
    (idxSyncRollback sha256 idxAttribute db oracle activation toHeight).ok = true ↔
      ∀ r ∈ db.rawBlocks, r.height ≤ toHeight → Parses sha256 r.raw := by
  have hrows : idxDbRawblockIter (db.writes (idxDbBlockPruneAbove toHeight)) toHeight =
      OrderedTable.upTo RawRow.height toHeight db.rawBlocks :=
    OrderedTable.upTo_upTo RawRow.height le_rfl
  have hok : (idxSyncRollback sha256 idxAttribute db oracle activation toHeight).ok =
      (rollbackReplay sha256 idxAttribute (oracleRollback oracle (toHeight + 1))
        (OrderedTable.upTo RawRow.height toHeight db.rawBlocks) (smNew activation)).1 := by
    unfold idxSyncRollback
    dsimp only
    rw [hrows]
    split
    · rename_i h
      rw [h]
    · rename_i h
      rw [h]
  rw [hok, rollbackReplay_ok]
  constructor
  · intro h r hr hle
    exact h r ((OrderedTable.mem_upTo RawRow.height).mpr ⟨hr, hle⟩)
  · intro h r hr
    obtain ⟨hmem, hle⟩ := (OrderedTable.mem_upTo RawRow.height).mp hr
    exact h r hmem hle

/-- The rows that a sound branch leaves lie right above `pos`. -/
theorem soundRows_heights {below : List ℤ} {pos : ℤ} {branch : List StagedRow} {b : BlockRow}
    (hb : b ∈ soundRows sha256 coin below pos branch) :
    pos ≤ b.height ∧ b.height < pos + (soundRows sha256 coin below pos branch).length := by
  induction branch generalizing below pos with
  | nil => cases hb
  | cons r rs ih =>
    cases hm : (idxParseBlock sha256 r.raw).2 with
    | none =>
      rw [soundRows, hm] at hb
      cases hb
    | some m =>
      rw [soundRows, hm] at hb ⊢
      dsimp only at hb ⊢
      split at hb
      · rename_i hsound
        rw [if_pos hsound, List.length_cons]
        rcases List.mem_cons.mp hb with rfl | hb
        · dsimp only
          omega
        · have hrest := ih hb
          omega
      · cases hb

theorem Node.chain_split {n : Node} (hord : OrderedTable.Ordered BlockRow.height n.db.blocks)
    {forkH : ℤ} (hle : forkH ≤ n.height) :
    n.chain = OrderedTable.upTo BlockRow.height forkH n.db.blocks ++ rowsAbove forkH n.chain := by
  have h := (hord.upTo BlockRow.height n.height).upTo_append_above BlockRow.height forkH
  rw [OrderedTable.upTo_upTo BlockRow.height hle] at h
  exact h.symm

theorem rowsAbove_upTo (forkH : ℤ) (rows : List BlockRow) :
    rowsAbove forkH (OrderedTable.upTo BlockRow.height forkH rows) = [] := by
  refine List.filter_eq_nil_iff.mpr fun r hr => ?_
  have hle := ((OrderedTable.mem_upTo BlockRow.height).mp hr).2
  simpa using hle

variable (coin) in
/-- A replay that fails leaves the chain cut. -/
theorem rollback_failed {n : Node} {toHeight : ℤ}
    (h : ¬ (idxSyncRollback sha256 idxAttribute n.db n.oracle activation toHeight).ok = true) :
    (n.rollback sha256 idxAttribute coin activation toHeight).height = n.height ∧
      (n.rollback sha256 idxAttribute coin activation toHeight).db.blocks =
        OrderedTable.upTo BlockRow.height toHeight n.db.blocks := by
  have hwrites : (idxSyncRollback sha256 idxAttribute n.db n.oracle activation toHeight).writes =
      idxDbBlockPruneAbove toHeight := by
    unfold idxSyncRollback at h ⊢
    cases hr : rollbackReplay sha256 idxAttribute (oracleRollback n.oracle (toHeight + 1))
      (idxDbRawblockIter (n.db.writes (idxDbBlockPruneAbove toHeight)) toHeight)
      (smNew activation) with
    | mk ok s =>
      simp only [hr] at h ⊢
      cases ok with
      | false => rfl
      | true => exact absurd rfl h
  unfold Node.rollback
  simp only [h, hwrites]
  exact ⟨rfl, rfl⟩

/-- The replay fails: the chain was cut and nothing is put in its place. -/
theorem not_endsHeavier_of_failed {n n' : StageNode} {forkH : ℤ} {fh : Hash256}
    (hfork : stageFork coin n.node.db n.node.height n.stage = some (forkH, fh))
    (htip : ∃ r ∈ n.node.db.blocks, r.height = n.node.height)
    (hheight : n'.node.height = n.node.height)
    (hblocks : n'.node.db.blocks = OrderedTable.upTo BlockRow.height forkH n.node.db.blocks) :
    ¬ EndsHeavier coin n n' := by
  have hlt := (stageFork_eq_some hfork).2
  have hchain : n'.node.chain = OrderedTable.upTo BlockRow.height forkH n.node.db.blocks := by
    unfold Node.chain
    rw [hheight, hblocks]
    refine OrderedTable.upTo_eq_self BlockRow.height fun r hr => ?_
    have hle := ((OrderedTable.mem_upTo BlockRow.height).mp hr).2
    omega
  rintro (hsame | ⟨forkH', fh', hf, hwork⟩)
  · obtain ⟨r, hr, hrh⟩ := htip
    have hmem : r ∈ n'.node.chain := by
      rw [hsame]
      exact (OrderedTable.mem_upTo BlockRow.height).mpr ⟨hr, hrh.le⟩
    rw [hchain] at hmem
    have hle := ((OrderedTable.mem_upTo BlockRow.height).mp hmem).2
    omega
  · rw [hfork] at hf
    cases hf
    rw [hchain, rowsAbove_upTo] at hwork
    exact absurd hwork (Nat.not_lt_zero _)

/-- The branch is connected as far as it is sound, on top of the fork. -/
theorem endsHeavier_iff_kept {n n' : StageNode} {forkH : ℤ} {fh : Hash256} {kept : List BlockRow}
    (hord : OrderedTable.Ordered BlockRow.height n.node.db.blocks)
    (hfork : stageFork coin n.node.db n.node.height n.stage = some (forkH, fh))
    (hkept : ∀ b ∈ kept, forkH < b.height ∧ b.height ≤ n'.node.height)
    (hheight : forkH ≤ n'.node.height)
    (hblocks : n'.node.db.blocks =
      OrderedTable.upTo BlockRow.height forkH n.node.db.blocks ++ kept) :
    EndsHeavier coin n n' ↔ kept = rowsAbove forkH n.node.chain ∨
      workSum (rowsAbove forkH n.node.chain) < workSum kept := by
  have hlt := (stageFork_eq_some hfork).2
  have hchain : n'.node.chain =
      OrderedTable.upTo BlockRow.height forkH n.node.db.blocks ++ kept := by
    unfold Node.chain
    rw [hblocks]
    refine OrderedTable.upTo_eq_self BlockRow.height fun r hr => ?_
    rcases List.mem_append.mp hr with hr | hr
    · exact ((OrderedTable.mem_upTo BlockRow.height).mp hr).2.trans hheight
    · exact (hkept r hr).2
  have habove : rowsAbove forkH n'.node.chain = kept := by
    have hall : rowsAbove forkH kept = kept :=
      List.filter_eq_self.mpr fun b hb => decide_eq_true (hkept b hb).1
    rw [hchain]
    unfold rowsAbove at hall ⊢
    rw [List.filter_append, hall]
    exact congrArg (· ++ kept) (rowsAbove_upTo forkH _)
  have hsame : n'.node.chain = n.node.chain ↔ kept = rowsAbove forkH n.node.chain := by
    rw [hchain, Node.chain_split hord hlt.le, List.append_cancel_left_eq,
      ← Node.chain_split hord hlt.le]
  unfold EndsHeavier
  rw [hsame]
  refine or_congr_right ⟨?_, fun hwork => ⟨forkH, fh, hfork, by rwa [habove]⟩⟩
  rintro ⟨forkH', fh', hf, hwork⟩
  rw [hfork] at hf
  cases hf
  rwa [habove] at hwork

end Chains

/-- Wherever the section goes, the chain stays or gains work exactly if the bodies of an outweighing
branch hold what its headers promise. -/
theorem stageReorg_heavier_iff (hpow : coin.powlimit ≠ 0) (touched : Bytes → Bool) (n : StageNode)
    (hord : OrderedTable.Ordered BlockRow.height n.node.db.blocks) :
    EndsHeavier coin n (stageReorg sha256 idxPowHash idxAttribute coin activation touched n) ↔
      SoundBranch sha256 idxPowHash coin n := by
  have hstay : EndsHeavier coin n n := Or.inl rfl
  unfold stageReorg
  cases hpend : serveStoreStagePending sha256 n.store n.stage with
  | false =>
    refine iff_of_true hstay fun forkH fh hp => ?_
    rw [hpend] at hp
    cases hp
  | true =>
    rw [if_neg (by simp)]
    cases hfork : stageFork coin n.node.db n.node.height n.stage with
    | none =>
      refine iff_of_true hstay fun forkH fh _ hf => ?_
      rw [hfork] at hf
      cases hf
    | some fork =>
      obtain ⟨forkH, fh⟩ := fork
      dsimp only
      split
      · rename_i hwins
        obtain ⟨hlow, hlt⟩ := stageFork_eq_some hfork
        obtain ⟨htip, hext⟩ := tip_of_outweighs hlt hwins
        have hsound : SoundBranch sha256 idxPowHash coin n ↔
            (∀ r ∈ n.node.db.rawBlocks, r.height ≤ forkH → Parses sha256 r.raw) ∧
              (soundRows sha256 coin (timesUpTo n.node.db forkH) (forkH + 1)
                  (stageWalk sha256 n.stage 32 fh) = rowsAbove forkH n.node.chain ∨
                workSum (rowsAbove forkH n.node.chain) <
                  workSum (soundRows sha256 coin (timesUpTo n.node.db forkH) (forkH + 1)
                    (stageWalk sha256 n.stage 32 fh))) := by
          constructor
          · exact fun h => h forkH fh hpend hfork hwins
          · intro h forkH' fh' _ hf
            rw [hfork] at hf
            cases hf
            exact fun _ => h
        rw [hsound]
        split
        · rename_i hok
          obtain ⟨hheight, hblocks⟩ := rollback_blocks idxAttribute coin activation hok
          have hstanding : Standing coin (n.reorg sha256 idxAttribute coin activation forkH).node
              (branchSeed coin n.node.db forkH fh).context :=
            standing_rollback idxAttribute activation hord hlow hok
          obtain ⟨hrows, htop⟩ := connectStaged_rows idxAttribute hpow touched
            (n := ⟨n.reorg sha256 idxAttribute coin activation forkH, n.stage⟩) hstanding hext
          have htimes : timesBelow (n.reorg sha256 idxAttribute coin activation forkH).node.db =
              timesUpTo n.node.db forkH := by
            unfold timesBelow timesUpTo
            exact congrArg (fun rows => (rows.reverse.map BlockRow.time)) hblocks
          have hh : (n.reorg sha256 idxAttribute coin activation forkH).node.height = forkH := hheight
          have hb : (n.reorg sha256 idxAttribute coin activation forkH).node.db.blocks =
            OrderedTable.upTo BlockRow.height forkH n.node.db.blocks := hblocks
          dsimp only at hrows htop
          rw [htimes, hh, hb] at hrows
          rw [htimes, hh] at htop
          rw [and_iff_right ((idxSyncRollback_ok idxAttribute activation).mp hok)]
          refine endsHeavier_iff_kept hord hfork (fun b hbm => ?_) ?_ ((projectDb_blocks _ _).trans hrows)
          · have hbound := soundRows_heights hbm
            refine ⟨by omega, ?_⟩
            show b.height ≤ (connectStaged _ _ _ _ _ _ _).node.height
            omega
          · show forkH ≤ (connectStaged _ _ _ _ _ _ _).node.height
            omega
        · rename_i hfail
          obtain ⟨hheight, hblocks⟩ := rollback_failed idxAttribute coin activation hfail
          refine iff_of_false (not_endsHeavier_of_failed hfork htip hheight hblocks) fun h => ?_
          exact hfail ((idxSyncRollback_ok idxAttribute activation).mpr h.1)
      · rename_i hlight
        refine iff_of_true (Or.inl rfl) fun forkH' fh' _ hf => ?_
        rw [hfork] at hf
        cases hf
        exact fun hwins => absurd hwins hlight

/-- A third block in time for the median. -/
def timelyHeader : Bytes :=
  minedHeader 0x00620004
    0x4b1132251e05a4699e32949219960d79782b667c3cc738e17856d0e1f0a35e9b
    0x3ea5c09388bfc40d5553009260bb63772f04dc1e6fc09b387617987d81297783 1000180 3

/-- SHA-256 on what the blocks of the race hash. -/
def raceSha256 : Bytes → Hash256 :=
  hashTable ([(timelyHeader, 0x91a82660fb5c2a3b075a94e604a243edd7697a38857e74f6641d9799ce69713c),
    (ofHex 32 0x91a82660fb5c2a3b075a94e604a243edd7697a38857e74f6641d9799ce69713c,
      0xb4b422d4dd206610b4860c2c75fde033ab111306797e7f6954403031daf19a4b),
    (bareCoinbase [1, 3], 0x58ded8d2d4df70702cecc0eee50e0e55087e293354645a0b96c663d304ee66b7),
    (ofHex 32 0x58ded8d2d4df70702cecc0eee50e0e55087e293354645a0b96c663d304ee66b7,
      0x3ea5c09388bfc40d5553009260bb63772f04dc1e6fc09b387617987d81297783)] ++ minedHashes)

/-- scrypt on the headers of the race. -/
def racePowHash (hdr : Bytes) : Hash256 :=
  if hdr = timelyHeader then
    hashTable [(timelyHeader, 0x7ac62294fe78f411ca03827fb3138d788344a06d1e14ccea15a9560752dfe81d)] hdr
  else minedPowHash hdr

def raceRow2 : StagedRow := ⟨minedBlock2, by decide +kernel⟩
def raceRow3 : StagedRow := ⟨timelyHeader ++ [1] ++ bareCoinbase [1, 3], by decide +kernel⟩

/-- A merged-mined block on top of the first, and the stage. -/
def raceNode (stage : List StagedRow) : StageNode :=
  ⟨[(minedBlock1, false), (mergedBlock2, false)].foldl (connectNext raceSha256 commitAttribute)
    ⟨fresh minedCoin 0, {}⟩, stage⟩

theorem raceNode_ordered (stage : List StagedRow) :
    OrderedTable.Ordered BlockRow.height (raceNode stage).node.db.blocks := by
  have hheights : (raceNode []).node.db.blocks.map BlockRow.height = [1, 2] := by decide +kernel
  have hnode : (raceNode stage).node = (raceNode []).node := by
    unfold raceNode
    rfl
  unfold OrderedTable.Ordered
  rw [hnode, ← List.pairwise_map, hheights]
  decide

/-- Two sound blocks outweigh the one on top of the fork. -/
theorem stageReorg_heavier_sample :
    EndsHeavier minedCoin (raceNode [raceRow2, raceRow3])
      (stageReorg raceSha256 racePowHash commitAttribute minedCoin 0 (fun _ => false)
        (raceNode [raceRow2, raceRow3])) := by
  refine (stageReorg_heavier_iff raceSha256 racePowHash commitAttribute minedCoin 0 (by decide)
    (fun _ => false) _ (raceNode_ordered _)).mpr fun forkH fh _ hfork _ => ?_
  have hat : stageFork minedCoin (raceNode [raceRow2, raceRow3]).node.db
      (raceNode [raceRow2, raceRow3]).node.height (raceNode [raceRow2, raceRow3]).stage =
        some (1, rawHash raceSha256 minedBlock1) := by decide +kernel
  rw [hat] at hfork
  cases hfork
  exact ⟨by decide +kernel, Or.inr (by decide +kernel)⟩

/-- The header of the second block, and no body. -/
def bareRow2 : StagedRow := ⟨mined2, by decide +kernel⟩

/-- The chain is cut for a branch whose first body does not parse. -/
theorem stageReorg_cuts :
    ¬ ∀ (sha256 idxPowHash : Bytes → Hash256) (idxAttribute : Bytes → ℕ → Option (H160 × Byte))
      (coin : Coin) (activation : UInt64) (touched : Bytes → Bool) (n : StageNode),
      coin.powlimit ≠ 0 → OrderedTable.Ordered BlockRow.height n.node.db.blocks →
        (∀ r ∈ n.node.db.blocks, r.bits ≠ 0) →
          EndsHeavier coin n (stageReorg sha256 idxPowHash idxAttribute coin activation touched n) := by
  intro h
  have hafter : ((stageReorg raceSha256 racePowHash commitAttribute minedCoin 0 (fun _ => false)
      (raceNode [bareRow2, raceRow3])).node.chain.map BlockRow.height) = [1] := by decide +kernel
  rcases h raceSha256 racePowHash commitAttribute minedCoin 0 (fun _ => false)
      (raceNode [bareRow2, raceRow3]) (by decide) (raceNode_ordered _) (by decide +kernel) with
    hsame | ⟨forkH, fh, hfork, hwork⟩
  · rw [hsame] at hafter
    exact absurd hafter (by decide +kernel)
  · have hat : stageFork minedCoin (raceNode [bareRow2, raceRow3]).node.db
        (raceNode [bareRow2, raceRow3]).node.height (raceNode [bareRow2, raceRow3]).stage =
          some (1, rawHash raceSha256 minedBlock1) := by decide +kernel
    rw [hat] at hfork
    cases hfork
    exact absurd hwork (by decide +kernel)

end NamespaceIndexer.Daemon
