import NamespaceIndexer.Daemon.Replay

/-!
# Raw blocks and the recorded chain

A raw block stays until its height is cut off or another block is kept at it.
A restart lowers the height without cutting, so the raw blocks above it stay
behind for the branch that comes next.
-/

namespace NamespaceIndexer.Daemon

open Fold Lib

variable (sha256 : Bytes → Hash256) (idxAttribute : Bytes → ℕ → Option (H160 × Byte))
  (coin : Coin) (activation : UInt64)

/-- What a daemon does, pass after pass. -/
inductive Step where
  | op (o : Op)
  | restart

def Node.step (n : Node) : Step → Node
  | .op o => n.op sha256 idxAttribute coin activation o
  | .restart => startup coin activation n.db

def Step.Legal (n : Node) : Step → Prop
  | .op o => o.Legal coin n
  | .restart => True

/-- The hash of the block that these bytes start with. -/
def rawHash (raw : Bytes) : Hash256 := idxSha256d sha256 (raw.take 80)

/-- The raw blocks up to the tip are the blocks recorded at their heights. -/
def OnChain (n : Node) : Prop :=
  ∀ r ∈ n.db.rawBlocks, r.height ≤ n.height →
    ∃ b ∈ n.db.blocks, b.height = r.height ∧ b.hash = rawHash sha256 r.raw

/-- A block that is connected and not kept finds no raw block of another branch at its height. -/
def Step.NotStale (n : Node) : Step → Prop
  | .op (.connect raw walletTouched) =>
    Parses sha256 raw → (blockTxs sha256 idxAttribute raw).isEmpty = true → walletTouched = false →
      ∀ r ∈ n.db.rawBlocks, r.height = n.height + 1 → rawHash sha256 r.raw = rawHash sha256 raw
  | _ => True

/-- Each step meets `P` in the state it is taken in. -/
def Along (P : Node → Step → Prop) : Node → List Step → Prop
  | _, [] => True
  | n, st :: sts => P n st ∧ Along P (n.step sha256 idxAttribute coin activation st) sts

/-- Every state of the run meets `P`. -/
def Throughout (P : Node → Prop) : Node → List Step → Prop
  | n, [] => P n
  | n, st :: sts => P n ∧ Throughout P (n.step sha256 idxAttribute coin activation st) sts

/-- The tables are in order, and the recorded height is the height. -/
structure Recorded (n : Node) : Prop where
  blocks : OrderedTable.Ordered BlockRow.height n.db.blocks
  rawBlocks : OrderedTable.Ordered RawRow.height n.db.rawBlocks
  height : n.db.height = some n.height ∨ (n.db.height = none ∧ n.height = coin.start)
  low : coin.start ≤ n.height

section Steps

variable {sha256 coin}

theorem idxParseBlock_hash {raw : Bytes} {m : IdxBlockMeta}
    (h : (idxParseBlock sha256 raw).2 = some m) : m.blockHash = rawHash sha256 raw := by
  unfold idxParseBlock at h
  split at h
  · cases h
  · simp only at h
    split at h
    · cases h
    · split at h
      · cases h
      · split at h
        · cases h
        · cases h
          rfl

/-- A block that does not parse leaves the tables and the height. -/
theorem connect_refused {raw : Bytes} (n : Node) (walletTouched : Bool) (h : ¬ Parses sha256 raw) :
    (n.connect sha256 idxAttribute raw walletTouched).db = n.db ∧
      (n.connect sha256 idxAttribute raw walletTouched).height = n.height := by
  have hm : (idxParseBlock sha256 raw).2 = none := by
    unfold Parses at h
    rwa [Bool.not_eq_true, Option.isSome_eq_false_iff, Option.isNone_iff_eq_none] at h
  unfold Node.connect connectBlock
  simp only [hm]
  exact ⟨rfl, rfl⟩

/-- The tables and the height after a rollback; a failed one has cut the tables all the same. -/
theorem rollback_tables (n : Node) (toHeight : ℤ) :
    let n' := n.rollback sha256 idxAttribute coin activation toHeight
    n'.db.blocks = OrderedTable.upTo BlockRow.height toHeight n.db.blocks ∧
      n'.db.rawBlocks = OrderedTable.upTo RawRow.height toHeight n.db.rawBlocks ∧
      ((n'.height = toHeight ∧ n'.db.height = some toHeight) ∨
        (n'.height = n.height ∧ n'.db.height = n.db.height)) := by
  intro n'
  have hn' : n' = n.rollback sha256 idxAttribute coin activation toHeight := rfl
  unfold Node.rollback idxSyncRollback at hn'
  rcases hr : rollbackReplay sha256 idxAttribute (oracleRollback n.oracle (toHeight + 1))
    (idxDbRawblockIter (n.db.writes (idxDbBlockPruneAbove toHeight)) toHeight) (smNew activation)
    with ⟨ok, s⟩
  cases ok with
  | false =>
    simp only [hr] at hn'
    rw [hn']
    exact ⟨rfl, rfl, Or.inr ⟨rfl, rfl⟩⟩
  | true =>
    simp only [hr] at hn'
    rw [hn']
    exact ⟨projectDb_blocks _ _, projectDb_rawBlocks _ _, Or.inl ⟨rfl, rfl⟩⟩

/-- A start resumes at a height that is not above the recorded one. -/
theorem startup_tables {n : Node} (hn : Recorded coin n) :
    let n' := startup coin activation n.db
    n'.db.blocks = n.db.blocks ∧ n'.db.rawBlocks = n.db.rawBlocks ∧ n'.height ≤ n.height ∧
      coin.start ≤ n'.height ∧
      (n'.db.height = some n'.height ∨ (n'.db.height = none ∧ n'.height = coin.start)) := by
  have hlow := hn.low
  have resumed : ∀ h : ℤ, n.db.height = some h → h = n.height := by
    intro h hh
    rcases hn.height with he | he
    · rw [he] at hh
      exact (Option.some.inj hh).symm
    · rw [he.1] at hh
      cases hh
  intro n'
  have hn' : n' = startup coin activation n.db := rfl
  unfold startup at hn'
  cases hp : n.db.projHeight with
  | none =>
    cases hh : n.db.height with
    | none =>
      simp only [hp, hh] at hn'
      rw [hn']
      exact ⟨rfl, rfl, hlow, le_refl _, Or.inr ⟨hh, rfl⟩⟩
    | some h =>
      simp only [hp, hh] at hn'
      rw [hn']
      have he := resumed h hh
      exact ⟨rfl, rfl, le_of_eq he, he ▸ hlow, Or.inl hh⟩
  | some p =>
    cases hh : n.db.height with
    | none =>
      simp only [hp, hh] at hn'
      split at hn'
      · rw [hn']
        next hgap =>
        have hle : p ≤ coin.start := le_of_lt hgap.2
        simp only [if_pos hle]
        exact ⟨rfl, rfl, hlow, le_refl _, Or.inl rfl⟩
      · rw [hn']
        exact ⟨rfl, rfl, hlow, le_refl _, Or.inr ⟨hh, rfl⟩⟩
    | some h =>
      have he := resumed h hh
      simp only [hp, hh] at hn'
      split at hn'
      · rw [hn']
        next hgap =>
        refine ⟨rfl, rfl, ?_, ?_, Or.inl rfl⟩
        · simp only
          split <;> omega
        · simp only
          split <;> omega
      · rw [hn']
        exact ⟨rfl, rfl, le_of_eq he, he ▸ hlow, Or.inl hh⟩

variable (sha256 coin)

/-- What a step does to the tables and to the height. -/
inductive Moves (n : Node) : Step → Node → Prop where
  | connected {raw : Bytes} {walletTouched : Bool} {m : IdxBlockMeta} {n' : Node}
      (parses : (idxParseBlock sha256 raw).2 = some m)
      (blocks : n'.db.blocks = OrderedTable.put BlockRow.height
        ⟨n.height + 1, m.blockHash, m.time, m.coinbaseOutTotal, m.blockBytes, m.bits⟩ n.db.blocks)
      (rawBlocks : n'.db.rawBlocks =
        if !(blockTxs sha256 idxAttribute raw).isEmpty || walletTouched then
          OrderedTable.put RawRow.height ⟨n.height + 1, raw⟩ n.db.rawBlocks
        else n.db.rawBlocks)
      (height : n'.height = n.height + 1) (recorded : n'.db.height = some n'.height) :
      Moves n (.op (.connect raw walletTouched)) n'
  | cut {toHeight : ℤ} {n' : Node}
      (blocks : n'.db.blocks = OrderedTable.upTo BlockRow.height toHeight n.db.blocks)
      (rawBlocks : n'.db.rawBlocks = OrderedTable.upTo RawRow.height toHeight n.db.rawBlocks)
      (height : (n'.height = toHeight ∧ n'.db.height = some toHeight) ∨
        (n'.height = n.height ∧ n'.db.height = n.db.height)) :
      Moves n (.op (.rollback toHeight)) n'
  | lowered {st : Step} {n' : Node}
      (refused : ∀ raw walletTouched, st = .op (.connect raw walletTouched) → ¬ Parses sha256 raw)
      (blocks : n'.db.blocks = n.db.blocks) (rawBlocks : n'.db.rawBlocks = n.db.rawBlocks)
      (height : n'.height ≤ n.height) (low : coin.start ≤ n'.height)
      (recorded : n'.db.height = some n'.height ∨
        (n'.db.height = none ∧ n'.height = coin.start)) :
      Moves n st n'

variable {sha256 coin}

theorem step_moves {n : Node} (hn : Recorded coin n) (st : Step) :
    Moves sha256 idxAttribute coin n st (n.step sha256 idxAttribute coin activation st) := by
  match st with
  | .op (.connect raw walletTouched) =>
    by_cases hp : Parses sha256 raw
    · obtain ⟨m, hm, -, -, hh, -, hdb⟩ := connect_parses idxAttribute n walletTouched hp
      refine .connected hm ?_ ?_ hh ?_
      · exact congrArg Db.blocks hdb
      · exact congrArg Db.rawBlocks hdb
      · exact (congrArg Db.height hdb).trans (congrArg some hh.symm)
    · obtain ⟨hdb, hh⟩ := connect_refused idxAttribute n walletTouched hp
      refine .lowered ?_ (congrArg Db.blocks hdb) (congrArg Db.rawBlocks hdb) (le_of_eq hh)
        (hh ▸ hn.low) ?_
      · rintro raw' walletTouched' ⟨⟩
        exact hp
      · exact (congrArg Db.height hdb) ▸ hh ▸ hn.height
  | .op (.rollback toHeight) =>
    obtain ⟨hb, hr, hh⟩ := rollback_tables idxAttribute activation n toHeight
    exact .cut hb hr hh
  | .op .project =>
    refine .lowered (fun _ _ h => by cases h) (projectDb_blocks _ _) (projectDb_rawBlocks _ _)
      (le_refl _) hn.low ?_
    exact (projectDb_height n.db n.s) ▸ hn.height
  | .restart =>
    obtain ⟨hb, hr, hh, hlow, hd⟩ := startup_tables activation hn
    exact .lowered (fun _ _ h => by cases h) hb hr hh hlow hd

theorem Recorded.moves {n n' : Node} (hn : Recorded coin n) {st : Step} (hl : st.Legal coin n)
    (h : Moves sha256 idxAttribute coin n st n') : Recorded coin n' := by
  have hlow := hn.low
  cases h with
  | connected hm hb hr hh hd =>
    refine ⟨hb ▸ hn.blocks.put BlockRow.height _, ?_, Or.inl hd, by omega⟩
    rw [hr]
    split
    · exact hn.rawBlocks.put RawRow.height _
    · exact hn.rawBlocks
  | @cut toHeight n' hb hr hh =>
    have hto : coin.start ≤ toHeight ∧ toHeight ≤ n.height := hl
    refine ⟨hb ▸ hn.blocks.upTo BlockRow.height _, hr ▸ hn.rawBlocks.upTo RawRow.height _, ?_, ?_⟩
    · rcases hh with ⟨hh, hd⟩ | ⟨hh, hd⟩
      · exact Or.inl (hh ▸ hd)
      · rw [hh, hd]
        exact hn.height
    · rcases hh with ⟨hh, -⟩ | ⟨hh, -⟩ <;> omega
  | lowered _ hb hr hh hlow hd => exact ⟨hb ▸ hn.blocks, hr ▸ hn.rawBlocks, hd, hlow⟩

/-- A step keeps the raw blocks on the recorded chain exactly when it leaves no stale one below the
new tip. -/
theorem onChain_moves {n n' : Node} (hon : OnChain sha256 n) {st : Step}
    (hl : st.Legal coin n) (h : Moves sha256 idxAttribute coin n st n') :
    OnChain sha256 n' ↔ st.NotStale sha256 idxAttribute n := by
  cases h with
  | @connected raw walletTouched m n' hm hb hr hh hd =>
    have hhash := idxParseBlock_hash hm
    have hp : Parses sha256 raw := by
      unfold Parses
      rw [hm]
      rfl
    -- below the new block nothing changed
    have hbelow : ∀ r ∈ n.db.rawBlocks, r.height ≤ n.height →
        ∃ b ∈ n'.db.blocks, b.height = r.height ∧ b.hash = rawHash sha256 r.raw := by
      intro r hr hle
      obtain ⟨b, hbm, hbh, hbhash⟩ := hon r hr hle
      refine ⟨b, ?_, hbh, hbhash⟩
      rw [hb, OrderedTable.mem_put]
      refine Or.inr ⟨hbm, ?_⟩
      change b.height ≠ n.height + 1
      omega
    have hat : ∀ b ∈ n'.db.blocks, b.height = n.height + 1 → b.hash = rawHash sha256 raw := by
      intro b hbm hbh
      rw [hb, OrderedTable.mem_put] at hbm
      rcases hbm with rfl | ⟨-, hne⟩
      · exact hhash
      · exact absurd hbh hne
    have hthere : ∃ b ∈ n'.db.blocks, b.height = n.height + 1 ∧ b.hash = rawHash sha256 raw :=
      ⟨_, hb ▸ (OrderedTable.mem_put BlockRow.height).mpr (Or.inl rfl), rfl, hhash⟩
    cases hk : (!(blockTxs sha256 idxAttribute raw).isEmpty || walletTouched) with
    | true =>
      rw [hk, if_pos rfl] at hr
      refine ⟨fun _ _ hempty htouch => ?_, fun _ r hrm hrh => ?_⟩
      · rw [hempty, htouch] at hk
        cases hk
      · rw [hr, OrderedTable.mem_put] at hrm
        rcases hrm with rfl | ⟨hrm, hne⟩
        · exact hthere
        · have hlt : r.height ≠ n.height + 1 := hne
          exact hbelow r hrm (by omega)
    | false =>
      rw [hk, if_neg Bool.false_ne_true] at hr
      simp only [Bool.or_eq_false_iff, Bool.not_eq_false'] at hk
      constructor
      · intro hon' _ _ _ r hrm hrh
        obtain ⟨b, hbm, hbh, hbhash⟩ := hon' r (hr ▸ hrm) (by omega)
        rw [← hbhash]
        exact hat b hbm (hbh.trans hrh)
      · intro hfresh r hrm hrh
        rw [hr] at hrm
        by_cases hle : r.height ≤ n.height
        · exact hbelow r hrm hle
        · have heq : r.height = n.height + 1 := by omega
          obtain ⟨b, hbm, hbh, hbhash⟩ := hthere
          exact ⟨b, hbm, hbh.trans heq.symm, hbhash.trans (hfresh hp hk.1 hk.2 r hrm heq).symm⟩
  | @cut toHeight n' hb hr hh =>
    refine ⟨fun _ => trivial, fun _ r hrm hrh => ?_⟩
    have hto : coin.start ≤ toHeight ∧ toHeight ≤ n.height := hl
    rw [hr, OrderedTable.mem_upTo] at hrm
    obtain ⟨b, hbm, hbh, hbhash⟩ := hon r hrm.1 (hrm.2.trans hto.2)
    exact ⟨b, hb ▸ (OrderedTable.mem_upTo BlockRow.height).mpr ⟨hbm, hbh.trans_le hrm.2⟩, hbh, hbhash⟩
  | lowered hrefused hb hr hh hlow hd =>
    refine ⟨fun _ => ?_, fun _ r hrm hrh => ?_⟩
    · match st with
      | .op (.connect raw walletTouched) =>
        exact fun hp => absurd hp (hrefused raw walletTouched rfl)
      | .op (.rollback _) | .op .project | .restart => trivial
    · rw [hb]
      exact hon r (hr ▸ hrm) (hrh.trans hh)

end Steps

/-! ### Whole runs -/

theorem recorded_fresh : Recorded coin (fresh coin activation) :=
  ⟨List.Pairwise.nil, List.Pairwise.nil, Or.inr ⟨rfl, rfl⟩, le_refl _⟩

theorem onChain_run (sts : List Step) {n : Node} (hn : Recorded coin n) (hon : OnChain sha256 n)
    (hl : Along sha256 idxAttribute coin activation (fun n st => st.Legal coin n) n sts) :
    Throughout sha256 idxAttribute coin activation (OnChain sha256) n sts ↔
      Along sha256 idxAttribute coin activation (fun n st => st.NotStale sha256 idxAttribute n) n
        sts := by
  induction sts generalizing n with
  | nil => exact ⟨fun _ => trivial, fun _ => hon⟩
  | cons st sts ih =>
    have hmoves : Moves sha256 idxAttribute coin n st _ := step_moves idxAttribute activation hn st
    have hstep := onChain_moves idxAttribute hon hl.1 hmoves
    have hrec := hn.moves idxAttribute hl.1 hmoves
    constructor
    · rintro ⟨-, hrest⟩
      have hon' : OnChain sha256 (n.step sha256 idxAttribute coin activation st) := by
        cases sts with
        | nil => exact hrest
        | cons st' sts => exact hrest.1
      exact ⟨hstep.mp hon', (ih hrec hon' hl.2).mp hrest⟩
    · rintro ⟨hst, hrest⟩
      exact ⟨hon, (ih hrec (hstep.mpr hst) hl.2).mpr hrest⟩

/-- In every run of a new database, the raw blocks stay on the recorded chain throughout exactly
when no block that is not kept is ever connected over a raw block of another branch. -/
theorem rawBlocks_onChain (sts : List Step)
    (hl : Along sha256 idxAttribute coin activation (fun n st => st.Legal coin n)
      (fresh coin activation) sts) :
    Throughout sha256 idxAttribute coin activation (OnChain sha256) (fresh coin activation) sts ↔
      Along sha256 idxAttribute coin activation (fun n st => st.NotStale sha256 idxAttribute n)
        (fresh coin activation) sts :=
  onChain_run sha256 idxAttribute coin activation sts (recorded_fresh coin activation)
    (fun _ hr => absurd hr List.not_mem_nil) hl

/-- A block without transactions beside the first block of the chain. -/
def siblingHeader : Bytes := headerOf 0 0 1001

def forkSha256 : Bytes → Hash256 :=
  hashTable
    ((siblingHeader, 0x3559940e78cc17a499be99c5e26f3771e59d8f20b043b5de06ee38097a27644d) ::
     (ofHex 32 0x3559940e78cc17a499be99c5e26f3771e59d8f20b043b5de06ee38097a27644d,
      0xcc57803cca4a5d12ca18a583310fec0589faff5502b33e04575d531125c5760e) :: chainHashes)

theorem rawBlocks_onChain_sample :
    Throughout forkSha256 commitAttribute commitCoin 0 (OnChain forkSha256) (fresh commitCoin 0)
      [.op .project, .op (.connect (header1 ++ [1] ++ commitTx) false), .op (.rollback 0),
        .op (.connect (siblingHeader ++ [0]) false)] :=
  (rawBlocks_onChain forkSha256 commitAttribute commitCoin 0
    [.op .project, .op (.connect (header1 ++ [1] ++ commitTx) false), .op (.rollback 0),
      .op (.connect (siblingHeader ++ [0]) false)]
    ⟨trivial, trivial, ⟨by decide, by decide +kernel⟩, trivial, trivial⟩).mpr
    ⟨trivial, fun _ hempty => absurd hempty (by decide +kernel), trivial,
      fun _ _ _ => by decide +kernel, trivial⟩

instance (sha256 : Bytes → Hash256) (n : Node) : Decidable (OnChain sha256 n) :=
  inferInstanceAs (Decidable (∀ r ∈ n.db.rawBlocks, r.height ≤ n.height →
    ∃ b ∈ n.db.blocks, b.height = r.height ∧ b.hash = rawHash sha256 r.raw))

/-- The pass dies after a block was kept and before the projection; the next one resumes below that
block, and connects another one without transactions in its place. -/
theorem stale_rawBlock :
    let step := Node.step forkSha256 commitAttribute commitCoin 0
    let n := step (step (step (fresh commitCoin 0) (.op .project))
      (.op (.connect (header1 ++ [1] ++ commitTx) false))) .restart
    n.height = 0 ∧ n.tip.map Subtype.val = some ((siblingHeader.drop 4).take 32) ∧
      Parses forkSha256 (siblingHeader ++ [0]) ∧
      ¬ OnChain forkSha256 (step n (.op (.connect (siblingHeader ++ [0]) false))) := by
  decide +kernel

end NamespaceIndexer.Daemon
