import NamespaceIndexer.Daemon.Substrate

/-!
# A pass that dies between two statements

The statements of a run are committed one after the other; a process that dies
leaves a prefix of them. The next start looks at the recorded height and the
height of the projection, and nothing else.
-/

namespace NamespaceIndexer.Daemon

open Fold Lib

variable (sha256 : Bytes → Hash256) (idxAttribute : Bytes → ℕ → Option (H160 × Byte))
  (coin : Coin) (activation : UInt64)

/-- The statements of an operation, in order. -/
def Node.opWrites (n : Node) : Op → List Write
  | .connect raw walletTouched =>
    (connectBlock sha256 idxAttribute n.s n.oracle (n.height + 1) raw walletTouched).writes
  | .rollback toHeight =>
    let o := idxSyncRollback sha256 idxAttribute n.db n.oracle activation toHeight
    let db := n.db.writes o.writes
    o.writes ++ if o.ok then
      idxDbSaveSync toHeight ((idxDbBlockGet db toHeight).getD coin.startHash) else []
  | .project => [.project n.s]

def runWrites (n : Node) : List Op → List Write
  | [] => []
  | o :: os => n.opWrites sha256 idxAttribute coin activation o ++
      runWrites (n.op sha256 idxAttribute coin activation o) os

/-- The nodes a run passes through after `n` while it commits its first `j` statements, with the
outcome of the operation it is in. -/
def visited (n : Node) : List Op → ℕ → List Node
  | [], _ => []
  | o :: os, j =>
    let n' := n.op sha256 idxAttribute coin activation o
    let len := (n.opWrites sha256 idxAttribute coin activation o).length
    if j < len then [n'] else n' :: visited n' os (j - len)

/-- A start from `db` resumes where the run was: the fold it loads is the one of a node of the run
that stood at that height on the same blocks, no block is missing up to there, and the tip is the
last of them. -/
structure Resumes (vs : List Node) (db : Db) : Prop where
  fold : ∃ v ∈ vs, v.height = (startup coin activation db).height ∧
    v.s.names.Perm (startup coin activation db).s.names ∧
    v.s.commits.Perm (startup coin activation db).s.commits ∧
    v.s.muts.Perm (startup coin activation db).s.muts ∧
    OrderedTable.upTo BlockRow.height v.height v.db.blocks
      = OrderedTable.upTo BlockRow.height v.height db.blocks
  rows : ∀ h : ℤ, coin.start < h → h ≤ (startup coin activation db).height →
    ∃ b ∈ db.blocks, b.height = h
  tip : ((startup coin activation db).height = coin.start ∧
      (startup coin activation db).tip = some coin.startHash) ∨
    ∃ b ∈ db.blocks, b.height = (startup coin activation db).height ∧
      (startup coin activation db).tip = some b.hash

/-! ### What a start loads -/

theorem foldl_smCommitAdd (cs : List SmCommit) (s : SmState) :
    cs.foldl (fun s c => smCommitAdd s c.commitment c.commitHeight c.txIndex c.commitTime) s
      = { s with commits := s.commits ++ cs } := by
  induction cs generalizing s with
  | nil => rw [List.append_nil]; rfl
  | cons c cs ih =>
    rw [List.foldl_cons, ih]
    simp [smCommitAdd]

theorem foldl_smBumpMutation (ms : List SmMut) (s : SmState)
    (hd : RowTable.Distinct SmMut.owner (s.muts ++ ms)) :
    ms.foldl (fun s m => smBumpMutation s m.owner m.height) s =
      { s with muts := s.muts ++ ms } := by
  induction ms generalizing s with
  | nil => rw [List.append_nil]; rfl
  | cons m ms ih =>
    have hnone : RowTable.indexOf? SmMut.owner s.muts m.owner = none := by
      rw [RowTable.indexOf?_none, RowTable.lookup_eq_none]
      intro hm
      unfold RowTable.Distinct at hd
      rw [List.map_append, List.map_cons, List.nodup_append] at hd
      exact hd.2.2 m.owner hm m.owner (List.mem_cons_self ..) rfl
    have hbump : smBumpMutation s m.owner m.height = { s with muts := s.muts ++ [m] } := by
      unfold smBumpMutation
      rw [hnone]
    rw [List.foldl_cons, hbump, ih]
    · simp
    · simpa using hd

theorem idxDbLoadState_eq {db : Db} (hd : RowTable.Distinct SmMut.owner db.muts)
    (activation : UInt64) :
    idxDbLoadState db (smNew activation)
      = { smNew activation with names := db.names, commits := db.commits, muts := db.muts } := by
  unfold idxDbLoadState
  simp only [foldl_smCommitAdd]
  rw [foldl_smBumpMutation]
  · rfl
  · exact hd

theorem startup_s (db : Db) :
    (startup coin activation db).s.names = (idxDbLoadState db (smNew activation)).names ∧
      (startup coin activation db).s.commits = (idxDbLoadState db (smNew activation)).commits ∧
      (startup coin activation db).s.muts = (idxDbLoadState db (smNew activation)).muts := by
  unfold startup
  cases db.projHeight with
  | none => cases db.height <;> exact ⟨rfl, rfl, rfl⟩
  | some p =>
    cases db.height with
    | none =>
      simp only
      split <;> exact ⟨rfl, rfl, rfl⟩
    | some h =>
      simp only
      split <;> exact ⟨rfl, rfl, rfl⟩

section Startup

variable {db : Db}

/-- A projection that is not behind: the start resumes at the recorded height. -/
theorem startup_at {h : ℤ} (hh : db.height = some h) (hp : ∀ p ∈ db.projHeight, h ≤ p) :
    (startup coin activation db).height = h ∧ (startup coin activation db).tip = db.tip := by
  unfold startup
  simp only [hh]
  cases hpr : db.projHeight with
  | none => exact ⟨rfl, rfl⟩
  | some p =>
    have hle := hp p hpr
    simp only
    rw [if_neg fun hgap => absurd hgap.2 (not_lt.mpr hle)]
    exact ⟨rfl, rfl⟩

/-- Nothing is recorded: the start stands on the checkpoint. -/
theorem startup_unborn (hh : db.height = none) (hp : ∀ p ∈ db.projHeight, (coin.start : ℤ) ≤ p) :
    (startup coin activation db).height = coin.start ∧
      (startup coin activation db).tip = some coin.startHash := by
  unfold startup
  simp only [hh]
  cases hpr : db.projHeight with
  | none => exact ⟨rfl, rfl⟩
  | some p =>
    have hle := hp p hpr
    simp only
    rw [if_neg fun hgap => absurd hgap.2 (not_lt.mpr hle)]
    exact ⟨rfl, rfl⟩

/-- A projection that is behind: the start goes back to it. -/
theorem startup_behind {h p : ℤ} (hh : db.height = some h) (hp : db.projHeight = some p)
    (hlow : coin.start ≤ p) (hlt : p < h) :
    (startup coin activation db).height = p ∧
      (startup coin activation db).tip = some (tipAt coin db p) := by
  unfold startup
  simp only [hh, hp]
  rw [if_pos ⟨by omega, hlt⟩]
  refine ⟨?_, rfl⟩
  simp only
  split <;> omega

variable {coin}

theorem idxDbBlockGet_cases (db : Db) (h : ℤ) :
    (idxDbBlockGet db h = none ∧ ∀ b ∈ db.blocks, b.height ≠ h) ∨
      ∃ b ∈ db.blocks, b.height = h ∧ idxDbBlockGet db h = some b.hash := by
  unfold idxDbBlockGet
  cases hf : OrderedTable.find? BlockRow.height db.blocks h with
  | none =>
    refine Or.inl ⟨rfl, fun b hb hbh => ?_⟩
    exact List.find?_eq_none.mp hf b hb (decide_eq_true hbh)
  | some b =>
    obtain ⟨hm, hk⟩ := OrderedTable.find?_some BlockRow.height hf
    exact Or.inr ⟨b, hm, hk, rfl⟩

theorem tipAt_row {h : ℤ} (hrows : coin.start < h → ∃ b ∈ db.blocks, b.height = h)
    (hlow : coin.start ≤ h) :
    (h = coin.start ∧ tipAt coin db h = coin.startHash) ∨
      ∃ b ∈ db.blocks, b.height = h ∧ tipAt coin db h = b.hash := by
  unfold tipAt
  by_cases hle : h ≤ coin.start
  · rw [if_pos hle]
    exact Or.inl ⟨by omega, rfl⟩
  · rw [if_neg hle]
    obtain ⟨b, hb, hbh⟩ := hrows (by omega)
    rcases idxDbBlockGet_cases db h with ⟨-, hno⟩ | ⟨b', hb', hbh', hget⟩
    · exact absurd hbh (hno b hb)
    · exact Or.inr ⟨b', hb', hbh', by rw [hget]; rfl⟩

end Startup

/-! ### States of the database that a start recovers from -/

/-- The loaded tables are those of the node `v`, which stood on the same blocks. -/
structure Holds (db : Db) (v : Node) : Prop where
  names : db.names = v.s.names
  commits : db.commits = v.s.commits
  muts : db.muts = v.s.muts
  keyed : RowTable.Distinct SmMut.owner db.muts
  blocks : OrderedTable.upTo BlockRow.height v.height v.db.blocks
    = OrderedTable.upTo BlockRow.height v.height db.blocks

/-- The recorded tip is the block at `h`, or the checkpoint. -/
def TipAt (db : Db) (h : ℤ) : Prop :=
  (h = coin.start ∧ db.tip = some coin.startHash) ∨
    ∃ b ∈ db.blocks, b.height = h ∧ db.tip = some b.hash

/-- There is a row for every height up to `h`. -/
def RowsTo (db : Db) (h : ℤ) : Prop :=
  ∀ h' : ℤ, coin.start < h' → h' ≤ h → ∃ b ∈ db.blocks, b.height = h'

section Recover

variable {coin activation} {db : Db} {vs : List Node} {v : Node}

theorem Holds.resumes (hv : v ∈ vs) (h : Holds db v)
    (hheight : (startup coin activation db).height = v.height) (hrows : RowsTo coin db v.height)
    (htip : (v.height = coin.start ∧ (startup coin activation db).tip = some coin.startHash) ∨
      ∃ b ∈ db.blocks, b.height = v.height ∧ (startup coin activation db).tip = some b.hash) :
    Resumes coin activation vs db := by
  obtain ⟨hn, hc, hm⟩ := startup_s coin activation db
  rw [idxDbLoadState_eq h.keyed] at hn hc hm
  refine ⟨⟨v, hv, hheight.symm, ?_, ?_, ?_, h.blocks⟩, hheight ▸ hrows, hheight ▸ htip⟩
  · rw [hn]
    exact .of_eq h.names.symm
  · rw [hc]
    exact .of_eq h.commits.symm
  · rw [hm]
    exact .of_eq h.muts.symm

/-- The projection is at the recorded height, and the recorded tip with it. -/
theorem Holds.resumes_at (hv : v ∈ vs) (h : Holds db v) (hh : db.height = some v.height)
    (hp : ∀ p ∈ db.projHeight, v.height ≤ p) (hrows : RowsTo coin db v.height)
    (htip : TipAt coin db v.height) : Resumes coin activation vs db := by
  obtain ⟨h1, h2⟩ := startup_at coin activation hh hp
  refine h.resumes hv h1 hrows ?_
  rw [h2]
  exact htip

/-- Nothing is recorded yet. -/
theorem Holds.resumes_unborn (hv : v ∈ vs) (h : Holds db v) (hh : db.height = none)
    (hp : ∀ p ∈ db.projHeight, (coin.start : ℤ) ≤ p) (hstart : v.height = coin.start) :
    Resumes coin activation vs db := by
  obtain ⟨h1, h2⟩ := startup_unborn coin activation hh hp
  refine h.resumes hv (h1.trans hstart.symm) (fun h' hlo hhi => ?_) (Or.inl ⟨hstart, h2⟩)
  omega

/-- The projection is behind the recorded height. -/
theorem Holds.resumes_behind (hv : v ∈ vs) (h : Holds db v) {height : ℤ}
    (hh : db.height = some height) (hp : db.projHeight = some v.height)
    (hlow : coin.start ≤ v.height) (hlt : v.height < height) (hrows : RowsTo coin db v.height) :
    Resumes coin activation vs db := by
  obtain ⟨h1, h2⟩ := startup_behind coin activation hh hp hlow hlt
  refine h.resumes hv h1 hrows ?_
  rw [h2]
  rcases tipAt_row (fun hlo => hrows v.height hlo (le_refl _)) hlow with ⟨ht, he⟩ | ⟨b, hb, hbh, he⟩
  · exact Or.inl ⟨ht, congrArg some he⟩
  · exact Or.inr ⟨b, hb, hbh, congrArg some he⟩

/-- Two databases with the same projection and the same blocks up to `h`. -/
structure Alike (h : ℤ) (db db' : Db) : Prop where
  names : db'.names = db.names
  commits : db'.commits = db.commits
  muts : db'.muts = db.muts
  projHeight : db'.projHeight = db.projHeight
  blocks : OrderedTable.upTo BlockRow.height h db'.blocks
    = OrderedTable.upTo BlockRow.height h db.blocks

variable {db' : Db} {h : ℤ}

theorem Alike.mem (a : Alike h db db') {b : BlockRow} (hb : b ∈ db.blocks) (hle : b.height ≤ h) :
    b ∈ db'.blocks := by
  have hm := (OrderedTable.mem_upTo BlockRow.height).mpr ⟨hb, hle⟩
  rw [← a.blocks, OrderedTable.mem_upTo] at hm
  exact hm.1

theorem Alike.rows (a : Alike h db db') {h' : ℤ} (hle : h' ≤ h) (hr : RowsTo coin db h') :
    RowsTo coin db' h' := by
  intro x hlo hhi
  obtain ⟨b, hb, hbh⟩ := hr x hlo hhi
  exact ⟨b, a.mem hb (by omega), hbh⟩

theorem Alike.tip (a : Alike h db db') (he : db'.tip = db.tip) {h' : ℤ} (hle : h' ≤ h)
    (ht : TipAt coin db h') : TipAt coin db' h' := by
  rcases ht with ⟨hs, ht⟩ | ⟨b, hb, hbh, ht⟩
  · exact Or.inl ⟨hs, he.trans ht⟩
  · exact Or.inr ⟨b, a.mem hb (by omega), hbh, he.trans ht⟩

theorem Alike.holds (a : Alike h db db') (hle : v.height ≤ h) (hv : Holds db v) : Holds db' v := by
  refine ⟨a.names.trans hv.names, a.commits.trans hv.commits, a.muts.trans hv.muts,
    a.muts ▸ hv.keyed, hv.blocks.trans ?_⟩
  rw [← OrderedTable.upTo_upTo BlockRow.height hle, ← a.blocks,
    OrderedTable.upTo_upTo BlockRow.height hle]

theorem Alike.refl (h : ℤ) (db : Db) : Alike h db db := ⟨rfl, rfl, rfl, rfl, rfl⟩

end Recover

/-! ### Between two operations -/

/-- The last projection, if there was one, is the fold of a node on the same blocks. -/
inductive Projected (vs : List Node) (db : Db) (height : ℤ) : Prop where
  | never (projHeight : db.projHeight = none)
      (empty : db.names = [] ∧ db.commits = [] ∧ db.muts = [])
  | last (v : Node) (mem : v ∈ vs) (projHeight : db.projHeight = some v.height)
      (low : coin.start ≤ v.height) (high : v.height ≤ height) (holds : Holds db v)

/-- What holds of a node between two operations of its run, after the nodes `vs`. -/
structure Consistent (vs : List Node) (n : Node) : Prop where
  recorded : Recorded coin n
  mem : n ∈ vs
  rows : RowsTo coin n.db n.height
  tip : n.db.height = some n.height → TipAt coin n.db n.height
  unborn : n.db.height = none → n.s.names = [] ∧ n.s.commits = [] ∧ n.s.muts = []
  keyed : WellKeyed n.s
  clock : n.s.curHeight = n.height
  raws : ∀ r ∈ n.db.rawBlocks, Parses sha256 r.raw
  proj : Projected coin vs n.db n.height

/-- Before the first projection nothing is recorded, or nothing was folded. -/
def Calm (n : Node) : Prop :=
  n.db.projHeight = none →
    n.db.height = none ∨ (n.s.names = [] ∧ n.s.commits = [] ∧ n.s.muts = [])

section Idle

variable {sha256 coin activation} {vs : List Node} {n : Node} {db : Db}

theorem holds_empty (he : n.s.names = [] ∧ n.s.commits = [] ∧ n.s.muts = [])
    (hdb : n.db.names = [] ∧ n.db.commits = [] ∧ n.db.muts = []) : Holds n.db n := by
  refine ⟨hdb.1.trans he.1.symm, hdb.2.1.trans he.2.1.symm, hdb.2.2.trans he.2.2.symm, ?_, rfl⟩
  rw [hdb.2.2]
  exact RowTable.distinct_nil _

/-- A process that dies with nothing but rows above the tip written. -/
theorem Consistent.idle (hn : Consistent sha256 coin vs n) (hc : Calm n)
    (a : Alike n.height n.db db) (hh : db.height = n.db.height) (ht : db.tip = n.db.tip) :
    Resumes coin activation vs db := by
  have hle := le_refl n.height
  cases hn.proj with
  | never hp hempty =>
    have hpdb : ∀ p, p ∉ db.projHeight := by
      rw [a.projHeight, hp]
      simp
    rcases hn.recorded.height with hrec | ⟨hrec, hstart⟩
    · have he := (hc hp).resolve_left (by rw [hrec]; simp)
      exact (a.holds hle (holds_empty he hempty)).resumes_at hn.mem (hh.trans hrec)
        (fun p hpm => absurd hpm (hpdb p)) (a.rows hle hn.rows) (a.tip ht hle (hn.tip hrec))
    · exact (a.holds hle (holds_empty (hn.unborn hrec) hempty)).resumes_unborn hn.mem
        (hh.trans hrec) (fun p hpm => absurd hpm (hpdb p)) hstart
  | last v hv hp hlow hhigh hholds =>
    have hpdb := a.projHeight.trans hp
    have hpe : ∀ p ∈ db.projHeight, p = v.height := fun p hpm => by
      rw [hpdb] at hpm
      exact (Option.some.inj hpm).symm
    have hrows : RowsTo coin db v.height :=
      a.rows hhigh fun x hlo hhi => hn.rows x hlo (hhi.trans hhigh)
    rcases hn.recorded.height with hrec | ⟨hrec, hstart⟩
    · rcases lt_or_eq_of_le hhigh with hlt | heq
      · exact (a.holds hhigh hholds).resumes_behind hv (hh.trans hrec) hpdb hlow hlt hrows
      · refine (a.holds hhigh hholds).resumes_at hv (hh.trans (heq ▸ hrec))
          (fun p hpm => (hpe p hpm).ge) hrows ?_
        rw [heq]
        exact a.tip ht hle (hn.tip hrec)
    · refine (a.holds hhigh hholds).resumes_unborn hv (hh.trans hrec)
        (fun p hpm => (hpe p hpm).symm ▸ hlow) ?_
      omega

end Idle

/-! ### Inside an operation -/

/-- Where in an operation a process may die: `k` of its statements are committed. -/
def SafeIn (n : Node) (o : Op) (k : ℕ) : Prop :=
  match o with
  | .connect _ _ =>
    -- the recorded height moves before the recorded tip
    if k + 1 < (n.opWrites sha256 idxAttribute coin activation o).length then Calm n
    else n.db.projHeight ≠ none
  | .rollback toHeight =>
    if k = 0 then Calm n
    else if k < 3 then (toHeight = n.height ∧ Calm n) ∨ ∃ p ∈ n.db.projHeight, p ≤ toHeight
    else if k = 3 then True
    else toHeight = n.height ∧ n.db.height ≠ none
  | .project => Calm n

instance (n : Node) : Decidable (Calm n) :=
  inferInstanceAs (Decidable (n.db.projHeight = none → _))

instance decidableSafeIn (n : Node) : (o : Op) → (k : ℕ) →
    Decidable (SafeIn sha256 idxAttribute coin activation n o k)
  | .connect _ _, k => inferInstanceAs (Decidable (if k + 1 < _ then Calm n else _))
  | .rollback _, k => inferInstanceAs (Decidable (if k = 0 then Calm n else _))
  | .project, _ => inferInstanceAs (Decidable (Calm n))

section Inside

variable {sha256 coin activation} {vs : List Node} {n : Node}

theorem rollbackReplay_parses (oracle : OracleFeed) {rows : List RawRow}
    (hp : ∀ r ∈ rows, Parses sha256 r.raw) {s : SmState} (hs : WellKeyed s) :
    (rollbackReplay sha256 idxAttribute oracle rows s).1 = true ∧
      WellKeyed (rollbackReplay sha256 idxAttribute oracle rows s).2 := by
  induction rows generalizing s with
  | nil => exact ⟨rfl, hs⟩
  | cons r rows ih =>
    obtain ⟨m, hm⟩ := Option.isSome_iff_exists.mp (hp r (List.mem_cons_self ..))
    simp only [rollbackReplay, hm]
    exact ih (fun r' hr' => hp r' (List.mem_cons_of_mem _ hr')) (hs.tracks.foldBlock sha256 _).keyed

/-- A rollback over raw blocks that parse: its statements, and the fold it leaves. -/
theorem rollback_spec (coin : Coin) (activation : UInt64)
    (hraw : ∀ r ∈ n.db.rawBlocks, Parses sha256 r.raw) (toHeight : ℤ) :
    ∃ (s : SmState) (tip : Hash256), WellKeyed s ∧ s.curHeight = toHeight ∧
      n.opWrites sha256 idxAttribute coin activation (.rollback toHeight)
        = [.pruneBlocks toHeight, .pruneRaw toHeight, .project s, .setHeight toHeight,
            .setTip tip] ∧
      tip = (idxDbBlockGet (n.db.writes [.pruneBlocks toHeight, .pruneRaw toHeight, .project s])
        toHeight).getD coin.startHash ∧
      (n.op sha256 idxAttribute coin activation (.rollback toHeight)).s = s ∧
      (n.op sha256 idxAttribute coin activation (.rollback toHeight)).height = toHeight ∧
      (n.op sha256 idxAttribute coin activation (.rollback toHeight)).db
        = n.db.writes [.pruneBlocks toHeight, .pruneRaw toHeight, .project s,
            .setHeight toHeight, .setTip tip] := by
  have hrows : ∀ r ∈ idxDbRawblockIter (n.db.writes (idxDbBlockPruneAbove toHeight)) toHeight,
      Parses sha256 r.raw := by
    intro r hr
    have hm := ((OrderedTable.mem_upTo RawRow.height).mp hr).1
    exact hraw r ((OrderedTable.mem_upTo RawRow.height).mp hm).1
  obtain ⟨hok, hkeyed⟩ := rollbackReplay_parses idxAttribute
    (oracleRollback n.oracle (toHeight + 1))
    hrows (wellKeyed_smNew activation)
  rcases hr : rollbackReplay sha256 idxAttribute (oracleRollback n.oracle (toHeight + 1))
    (idxDbRawblockIter (n.db.writes (idxDbBlockPruneAbove toHeight)) toHeight) (smNew activation)
    with ⟨ok, s⟩
  rw [hr] at hok hkeyed
  have hok' : ok = true := hok
  subst hok'
  refine ⟨{ s with curHeight := toHeight }, _, ⟨hkeyed.names, hkeyed.muts⟩, rfl, ?_, rfl, ?_, ?_,
    ?_⟩
  · simp only [Node.opWrites, idxSyncRollback, hr]
    rfl
  · simp only [Node.op, Node.rollback, idxSyncRollback, hr]
    rfl
  · simp only [Node.op, Node.rollback, idxSyncRollback, hr]
    rfl
  · simp only [Node.op, Node.rollback, idxSyncRollback, hr]
    rfl

theorem projectDb_keyed (db : Db) {s : SmState} (hs : WellKeyed s) :
    projectDb db s = { db with names := s.names, commits := s.commits, muts := s.muts,
                               projHeight := some s.curHeight } :=
  if_pos ⟨hs.names, hs.muts⟩

/-- The tables after the projection of a rollback. -/
theorem writes_project (db : Db) (toHeight : ℤ) {s : SmState} (hs : WellKeyed s) :
    db.writes [.pruneBlocks toHeight, .pruneRaw toHeight, .project s]
      = { db with
          blocks := OrderedTable.upTo BlockRow.height toHeight db.blocks
          rawBlocks := OrderedTable.upTo RawRow.height toHeight db.rawBlocks
          names := s.names, commits := s.commits, muts := s.muts
          projHeight := some s.curHeight } :=
  projectDb_keyed _ hs

/-- The statements of a connected block. -/
theorem connect_opWrites {raw : Bytes} (walletTouched : Bool) {m : IdxBlockMeta}
    (hm : (idxParseBlock sha256 raw).2 = some m) :
    n.opWrites sha256 idxAttribute coin activation (.connect raw walletTouched)
      = connectWrites (n.height + 1) raw
          (!(blockTxs sha256 idxAttribute raw).isEmpty || walletTouched) m := by
  unfold Node.opWrites connectBlock
  simp only [hm]
  rfl

/-- A row above the tip changes nothing below it. -/
theorem alike_blockPut (db : Db) {r : BlockRow} {h : ℤ} (hr : h < r.height) :
    Alike h db (db.write (.blockPut r)) :=
  ⟨rfl, rfl, rfl, rfl, OrderedTable.upTo_put BlockRow.height hr⟩

theorem Consistent.inside_connect (hn : Consistent sha256 coin vs n) {raw : Bytes}
    {walletTouched : Bool} (hp : Parses sha256 raw) {k : ℕ}
    (hk : k < (n.opWrites sha256 idxAttribute coin activation (.connect raw walletTouched)).length)
    (hsafe : SafeIn sha256 idxAttribute coin activation n (.connect raw walletTouched) k) :
    Resumes coin activation vs (n.db.writes
      ((n.opWrites sha256 idxAttribute coin activation (.connect raw walletTouched)).take k)) := by
  obtain ⟨m, hm⟩ := Option.isSome_iff_exists.mp hp
  unfold SafeIn at hsafe
  simp only at hsafe
  rw [connect_opWrites idxAttribute walletTouched hm] at hk hsafe ⊢
  have hup : n.height < n.height + 1 := lt_add_one _
  have hput := alike_blockPut n.db
    (r := ⟨n.height + 1, m.blockHash, m.time, m.coinbaseOutTotal, m.blockBytes, m.bits⟩) hup
  have hput' : ∀ db : Db, db.blocks = (n.db.write (.blockPut ⟨n.height + 1, m.blockHash, m.time,
      m.coinbaseOutTotal, m.blockBytes, m.bits⟩)).blocks → db.names = n.db.names →
      db.commits = n.db.commits → db.muts = n.db.muts → db.projHeight = n.db.projHeight →
      Alike n.height n.db db := fun db hb h1 h2 h3 h4 => ⟨h1, h2, h3, h4, hb ▸ hput.blocks⟩
  -- with the height recorded and the tip not, the start goes back to the projection
  have hbehind : ∀ db : Db, Alike n.height n.db db → db.height = some (n.height + 1) →
      n.db.projHeight ≠ none → Resumes coin activation vs db := by
    intro db a hh hne
    cases hn.proj with
    | never hnone _ => exact absurd hnone hne
    | last v hv hpv hlow hhigh hholds =>
      exact (a.holds hhigh hholds).resumes_behind hv hh (a.projHeight.trans hpv) hlow (by omega)
        (a.rows hhigh fun x hlo hhi => hn.rows x hlo (hhi.trans hhigh))
  cases hkept : (!(blockTxs sha256 idxAttribute raw).isEmpty || walletTouched) with
  | true =>
    rw [hkept] at hk hsafe
    change k < 4 at hk
    change if k + 1 < 4 then Calm n else n.db.projHeight ≠ none at hsafe
    interval_cases k
    · exact hn.idle hsafe (Alike.refl _ _) rfl rfl
    · exact hn.idle hsafe (hput' _ rfl rfl rfl rfl rfl) rfl rfl
    · exact hn.idle hsafe (hput' _ rfl rfl rfl rfl rfl) rfl rfl
    · exact hbehind _ (hput' _ rfl rfl rfl rfl rfl) rfl hsafe
  | false =>
    rw [hkept] at hk hsafe
    change k < 3 at hk
    change if k + 1 < 3 then Calm n else n.db.projHeight ≠ none at hsafe
    interval_cases k
    · exact hn.idle hsafe (Alike.refl _ _) rfl rfl
    · exact hn.idle hsafe (hput' _ rfl rfl rfl rfl rfl) rfl rfl
    · exact hbehind _ (hput' _ rfl rfl rfl rfl rfl) rfl hsafe

theorem Resumes.mono {vs' : List Node} (hsub : vs ⊆ vs') {db : Db}
    (h : Resumes coin activation vs db) : Resumes coin activation vs' db := by
  obtain ⟨v, hv, hrest⟩ := h.fold
  exact ⟨⟨v, hsub hv, hrest⟩, h.rows, h.tip⟩

/-- The tables are cut, and the projection is still the old one. -/
theorem Consistent.cut (hn : Consistent sha256 coin vs n) {toHeight : ℤ}
    (hlegal : coin.start ≤ toHeight ∧ toHeight ≤ n.height)
    (hsafe : (toHeight = n.height ∧ Calm n) ∨ ∃ p ∈ n.db.projHeight, p ≤ toHeight) {db : Db}
    (a : Alike toHeight n.db db) (hh : db.height = n.db.height) (ht : db.tip = n.db.tip) :
    Resumes coin activation vs db := by
  rcases lt_or_eq_of_le hlegal.2 with hlt | heq
  · obtain ⟨p, hpm, hple⟩ := hsafe.resolve_left fun h => (ne_of_lt hlt) h.1
    have hrec : n.db.height = some n.height :=
      hn.recorded.height.resolve_right fun h => by
        have hle := hlegal.1
        omega
    cases hn.proj with
    | never hnone _ =>
      rw [hnone] at hpm
      cases hpm
    | last v hv hpv hlow hhigh hholds =>
      have hpe : p = v.height := by
        rw [hpv] at hpm
        exact (Option.some.inj hpm).symm
      have hle : v.height ≤ toHeight := hpe ▸ hple
      exact (a.holds hle hholds).resumes_behind hv (hh.trans hrec) (a.projHeight.trans hpv) hlow
        (by omega) (a.rows hle fun x hlo hhi => hn.rows x hlo (hhi.trans hhigh))
  · have hcalm : Calm n := by
      rcases hsafe with ⟨-, hc⟩ | ⟨p, hpm, -⟩
      · exact hc
      · intro hnone
        rw [hnone] at hpm
        cases hpm
    exact hn.idle hcalm (heq ▸ a) hh ht

theorem Consistent.inside_rollback (hn : Consistent sha256 coin vs n) {toHeight : ℤ}
    (hlegal : coin.start ≤ toHeight ∧ toHeight ≤ n.height) {k : ℕ}
    (hk : k < (n.opWrites sha256 idxAttribute coin activation (.rollback toHeight)).length)
    (hsafe : SafeIn sha256 idxAttribute coin activation n (.rollback toHeight) k) :
    Resumes coin activation (vs ++ [n.op sha256 idxAttribute coin activation (.rollback toHeight)])
      (n.db.writes
        ((n.opWrites sha256 idxAttribute coin activation (.rollback toHeight)).take k)) := by
  obtain ⟨s, tip, hkeyed, hcur, hws, -, hs, hheight, hdb⟩ :=
    rollback_spec idxAttribute coin activation hn.raws toHeight
  rw [hws] at hk ⊢
  generalize n.op sha256 idxAttribute coin activation (.rollback toHeight) = n'
    at hs hheight hdb ⊢
  subst hheight
  have hmem := List.mem_append_right vs (List.mem_singleton_self n')
  have hsub : vs ⊆ vs ++ [n'] := fun _ hv => List.mem_append_left _ hv
  have hcut : ∀ db : Db, db.blocks = OrderedTable.upTo BlockRow.height n'.height n.db.blocks →
      OrderedTable.upTo BlockRow.height n'.height db.blocks
        = OrderedTable.upTo BlockRow.height n'.height n.db.blocks := fun db hb => by
    rw [hb, OrderedTable.upTo_upTo BlockRow.height (le_refl _)]
  have hrows : ∀ db : Db, db.blocks = OrderedTable.upTo BlockRow.height n'.height n.db.blocks →
      RowsTo coin db n'.height := by
    intro db hb x hlo hhi
    obtain ⟨b, hbm, hbh⟩ := hn.rows x hlo (hhi.trans hlegal.2)
    exact ⟨b, hb ▸ (OrderedTable.mem_upTo BlockRow.height).mpr ⟨hbm, hbh.trans_le hhi⟩, hbh⟩
  -- once the projection is committed, it holds the fold of the rollback
  have hholds : ∀ db : Db, db.blocks = OrderedTable.upTo BlockRow.height n'.height n.db.blocks →
      db.names = s.names → db.commits = s.commits → db.muts = s.muts →
      Holds db n' := by
    intro db hb h1 h2 h3
    refine ⟨hs ▸ h1, hs ▸ h2, hs ▸ h3, h3 ▸ hkeyed.muts, ?_⟩
    rw [hdb, hcut db hb]
    change OrderedTable.upTo _ _ (projectDb _ s).blocks = _
    rw [projectDb_blocks]
    exact hcut _ rfl
  have htip : ∀ db : Db, db.blocks = OrderedTable.upTo BlockRow.height n'.height n.db.blocks →
      db.tip = n.db.tip → n'.height = n.height → n.db.height ≠ none → TipAt coin db n'.height := by
    intro db hb ht heq hne
    have hrec := hn.recorded.height.resolve_right fun h => hne h.1
    rcases hn.tip hrec with ⟨hstart, htn⟩ | ⟨b, hbm, hbh, htn⟩
    · exact Or.inl ⟨heq.trans hstart, ht.trans htn⟩
    · refine Or.inr ⟨b, hb ▸ (OrderedTable.mem_upTo BlockRow.height).mpr ⟨hbm, ?_⟩, ?_,
        ht.trans htn⟩
      · omega
      · omega
  have hproj := writes_project n.db n'.height hkeyed
  rw [hcur] at hproj
  change k < 5 at hk
  unfold SafeIn at hsafe
  simp only at hsafe
  interval_cases k
  · exact (hn.idle hsafe (Alike.refl _ _) rfl rfl).mono hsub
  · have a : Alike n'.height n.db (n.db.writes [.pruneBlocks n'.height]) :=
      ⟨rfl, rfl, rfl, rfl, hcut _ rfl⟩
    exact (hn.cut hlegal hsafe a rfl rfl).mono hsub
  · have a : Alike n'.height n.db (n.db.writes [.pruneBlocks n'.height, .pruneRaw n'.height]) :=
      ⟨rfl, rfl, rfl, rfl, hcut _ rfl⟩
    exact (hn.cut hlegal hsafe a rfl rfl).mono hsub
  · change Resumes coin activation _
      (n.db.writes [.pruneBlocks n'.height, .pruneRaw n'.height, .project s])
    rw [hproj]
    have hh := hholds { n.db with
      blocks := OrderedTable.upTo BlockRow.height n'.height n.db.blocks
      rawBlocks := OrderedTable.upTo RawRow.height n'.height n.db.rawBlocks
      names := s.names, commits := s.commits, muts := s.muts
      projHeight := some n'.height } rfl rfl rfl rfl
    rcases hn.recorded.height with hrec | ⟨hrec, hstart⟩
    · rcases lt_or_eq_of_le hlegal.2 with hlt | heq
      · exact hh.resumes_behind hmem hrec rfl hlegal.1 hlt (hrows _ rfl)
      · have hne : n.db.height ≠ none := by
          rw [hrec]
          exact Option.some_ne_none _
        have ht := htip { n.db with blocks := _ } rfl rfl heq hne
        exact hh.resumes_at hmem (hrec.trans (congrArg some heq.symm))
          (fun p hpm => (Option.some.inj hpm).le) (hrows _ rfl) ht
    · refine hh.resumes_unborn hmem hrec (fun p hpm => ?_) (by omega)
      rw [← Option.some.inj hpm]
      exact hlegal.1
  · change Resumes coin activation _
      ((n.db.writes [.pruneBlocks n'.height, .pruneRaw n'.height, .project s]).write
        (.setHeight n'.height))
    rw [hproj]
    have hh := hholds { n.db with
      blocks := OrderedTable.upTo BlockRow.height n'.height n.db.blocks
      rawBlocks := OrderedTable.upTo RawRow.height n'.height n.db.rawBlocks
      names := s.names, commits := s.commits, muts := s.muts
      height := some n'.height, projHeight := some n'.height } rfl rfl rfl rfl
    exact hh.resumes_at hmem rfl (fun p hpm => (Option.some.inj hpm).le) (hrows _ rfl)
      (htip _ rfl rfl hsafe.1 hsafe.2)

end Inside

/-! ### Operations keep a node consistent -/

/-- A block that is connected parses. -/
def Op.Accepted : Op → Prop
  | .connect raw _ => Parses sha256 raw
  | _ => True

section Keep

variable {sha256 coin activation} {vs : List Node} {n : Node}

theorem op_recorded (hn : Recorded coin n) (o : Op) (hl : o.Legal coin n) :
    Recorded coin (n.op sha256 idxAttribute coin activation o) := by
  have hmoves : Moves sha256 idxAttribute coin n (.op o) _ :=
    step_moves idxAttribute activation hn (.op o)
  have hlegal : Step.Legal coin n (.op o) := hl
  exact hn.moves idxAttribute hlegal hmoves

theorem Projected.alike {vs' : List Node} (hsub : vs ⊆ vs') {db db' : Db} {h h' : ℤ}
    (p : Projected coin vs db h) (hle : h ≤ h') (a : Alike h db db') :
    Projected coin vs' db' h' := by
  cases p with
  | never hp he =>
    exact .never (a.projHeight.trans hp) ⟨a.names.trans he.1, a.commits.trans he.2.1,
      a.muts.trans he.2.2⟩
  | last v hv hp hlow hhigh hholds =>
    exact .last v (hsub hv) (a.projHeight.trans hp) hlow (hhigh.trans hle) (a.holds hhigh hholds)

theorem Consistent.connect (hn : Consistent sha256 coin vs n) {raw : Bytes} (walletTouched : Bool)
    (hp : Parses sha256 raw) :
    let n' := n.op sha256 idxAttribute coin activation (.connect raw walletTouched)
    Consistent sha256 coin (vs ++ [n']) n' := by
  intro n'
  have hrec : Recorded coin n' := op_recorded idxAttribute hn.recorded _ trivial
  obtain ⟨m, hm, hs, -, hh, ht, hdb⟩ := connect_parses idxAttribute n walletTouched hp
  have htr := hn.keyed.tracks.foldBlock sha256
    (blockAt sha256 idxAttribute n.oracle (n.height + 1) raw)
  change n'.s = _ at hs
  change n'.height = _ at hh
  change n'.db = _ at hdb
  have hnew : (⟨n.height + 1, m.blockHash, m.time, m.coinbaseOutTotal, m.blockBytes, m.bits⟩ :
      BlockRow) ∈ n'.db.blocks := by
    rw [hdb]
    exact (OrderedTable.mem_put BlockRow.height).mpr (Or.inl rfl)
  refine ⟨hrec, List.mem_append_right _ (List.mem_singleton_self n'), ?_, fun _ => ?_, ?_, ?_, ?_,
    ?_, ?_⟩
  · intro x hlo hhi
    by_cases hx : x = n.height + 1
    · exact ⟨_, hnew, hx.symm⟩
    · obtain ⟨b, hb, hbh⟩ := hn.rows x hlo (by omega)
      refine ⟨b, ?_, hbh⟩
      rw [hdb]
      exact (OrderedTable.mem_put BlockRow.height).mpr
        (Or.inr ⟨hb, show b.height ≠ n.height + 1 by omega⟩)
  · exact Or.inr ⟨_, hnew, hh.symm, by rw [hdb]⟩
  · intro hnone
    rw [hdb] at hnone
    cases hnone
  · rw [hs]
    exact htr.keyed
  · rw [hs, hh, ← htr.height]
    exact Ledger.foldBlock_height sha256 _ _
  · intro r hr
    rw [hdb] at hr
    simp only at hr
    split at hr
    · rcases (OrderedTable.mem_put RawRow.height).mp hr with rfl | ⟨hr, -⟩
      · exact hp
      · exact hn.raws r hr
    · exact hn.raws r hr
  · refine hn.proj.alike (fun _ hv => List.mem_append_left _ hv) (by omega) ?_
    rw [hdb]
    exact ⟨rfl, rfl, rfl, rfl, OrderedTable.upTo_put BlockRow.height (lt_add_one n.height)⟩

theorem Consistent.rollback (hn : Consistent sha256 coin vs n) {toHeight : ℤ}
    (hl : coin.start ≤ toHeight ∧ toHeight ≤ n.height) :
    let n' := n.op sha256 idxAttribute coin activation (.rollback toHeight)
    Consistent sha256 coin (vs ++ [n']) n' := by
  intro n'
  have hrec : Recorded coin n' := op_recorded idxAttribute hn.recorded (.rollback toHeight) hl
  obtain ⟨s, tip, hkeyed, hcur, -, htip, hs, hh, hdb⟩ :=
    rollback_spec idxAttribute coin activation hn.raws toHeight
  change n'.s = _ at hs
  change n'.height = _ at hh
  change n'.db = _ at hdb
  have hdb' : n'.db =
      { n.db with
        blocks := OrderedTable.upTo BlockRow.height toHeight n.db.blocks
        rawBlocks := OrderedTable.upTo RawRow.height toHeight n.db.rawBlocks
        names := s.names, commits := s.commits, muts := s.muts
        height := some toHeight, tip := some tip, projHeight := some toHeight } := by
    have hproj := writes_project n.db toHeight hkeyed
    rw [hcur] at hproj
    have happend := Db.writes_append n.db [.pruneBlocks toHeight, .pruneRaw toHeight, .project s]
      (idxDbSaveSync toHeight tip)
    rw [hproj] at happend
    exact hdb.trans happend
  have hblocks : n'.db.blocks = OrderedTable.upTo BlockRow.height toHeight n.db.blocks :=
    congrArg Db.blocks hdb'
  have hrows : RowsTo coin n'.db toHeight := by
    intro x hlo hhi
    obtain ⟨b, hbm, hbh⟩ := hn.rows x hlo (hhi.trans hl.2)
    exact ⟨b, hblocks ▸ (OrderedTable.mem_upTo BlockRow.height).mpr ⟨hbm, hbh.trans_le hhi⟩, hbh⟩
  have hproj : Holds n'.db n' := by
    refine ⟨?_, ?_, ?_, ?_, rfl⟩
    · rw [hdb', hs]
    · rw [hdb', hs]
    · rw [hdb', hs]
    · rw [hdb']
      exact hkeyed.muts
  refine ⟨hrec, List.mem_append_right _ (List.mem_singleton_self n'), hh ▸ hrows, fun _ => ?_, ?_,
    hs ▸ hkeyed, by rw [hs, hh, hcur], ?_, ?_⟩
  · -- the row at the target is still there, unless the target is the checkpoint
    have htip' : n'.db.tip = some tip := by rw [hdb']
    rw [writes_project n.db toHeight hkeyed] at htip
    rcases idxDbBlockGet_cases { n.db with
        blocks := OrderedTable.upTo BlockRow.height toHeight n.db.blocks
        rawBlocks := OrderedTable.upTo RawRow.height toHeight n.db.rawBlocks
        names := s.names, commits := s.commits, muts := s.muts
        projHeight := some s.curHeight } toHeight with ⟨hget, hno⟩ | ⟨b, hb, hbh, hget⟩
    · rw [hget] at htip
      refine Or.inl ⟨?_, htip'.trans (congrArg some htip)⟩
      rw [hh]
      by_contra hne
      have hlo := hl.1
      obtain ⟨b, hb, hbh⟩ := hrows toHeight (by omega) (le_refl _)
      exact hno b (hblocks ▸ hb) hbh
    · rw [hget] at htip
      exact Or.inr ⟨b, hblocks ▸ hb, hbh.trans hh.symm, htip'.trans (congrArg some htip)⟩
  · intro hnone
    rw [hdb'] at hnone
    cases hnone
  · intro r hr
    rw [hdb'] at hr
    exact hn.raws r ((OrderedTable.mem_upTo RawRow.height).mp hr).1
  · refine .last n' (List.mem_append_right _ (List.mem_singleton_self n')) ?_ (hh ▸ hl.1)
      (le_refl _) hproj
    rw [hdb', hh]

theorem Consistent.project (hn : Consistent sha256 coin vs n) :
    let n' := n.op sha256 idxAttribute coin activation .project
    Consistent sha256 coin (vs ++ [n']) n' := by
  intro n'
  have hrec : Recorded coin n' := op_recorded idxAttribute hn.recorded .project trivial
  have hdb : n'.db = { n.db with names := n.s.names, commits := n.s.commits, muts := n.s.muts,
                                 projHeight := some n.height } := by
    change projectDb n.db n.s = _
    rw [projectDb_keyed _ hn.keyed, hn.clock]
  have hmem := List.mem_append_right vs (List.mem_singleton_self n')
  refine ⟨hrec, hmem, ?_, ?_, ?_, hn.keyed, hn.clock, ?_, ?_⟩
  · rw [hdb]
    exact hn.rows
  · rw [hdb]
    exact hn.tip
  · rw [hdb]
    exact hn.unborn
  · rw [hdb]
    exact hn.raws
  · refine .last n' hmem (by rw [hdb]; rfl) hn.recorded.low (le_refl _) ⟨?_, ?_, ?_, ?_, rfl⟩
    · rw [hdb]; rfl
    · rw [hdb]; rfl
    · rw [hdb]; rfl
    · rw [hdb]
      exact hn.keyed.muts

theorem Consistent.op (hn : Consistent sha256 coin vs n) {o : Op} (hl : o.Legal coin n)
    (ha : o.Accepted sha256) :
    Consistent sha256 coin (vs ++ [n.op sha256 idxAttribute coin activation o])
      (n.op sha256 idxAttribute coin activation o) := by
  cases o with
  | connect raw walletTouched => exact hn.connect idxAttribute walletTouched ha
  | rollback toHeight => exact hn.rollback idxAttribute hl
  | project => exact hn.project idxAttribute

theorem Consistent.inside (hn : Consistent sha256 coin vs n) {o : Op} (hl : o.Legal coin n)
    (ha : o.Accepted sha256) {k : ℕ}
    (hk : k < (n.opWrites sha256 idxAttribute coin activation o).length)
    (hsafe : SafeIn sha256 idxAttribute coin activation n o k) :
    Resumes coin activation (vs ++ [n.op sha256 idxAttribute coin activation o])
      (n.db.writes ((n.opWrites sha256 idxAttribute coin activation o).take k)) := by
  have hsub : vs ⊆ vs ++ [n.op sha256 idxAttribute coin activation o] :=
    fun _ hv => List.mem_append_left _ hv
  cases o with
  | connect raw walletTouched => exact (hn.inside_connect idxAttribute ha hk hsafe).mono hsub
  | rollback toHeight => exact hn.inside_rollback idxAttribute hl hk hsafe
  | project =>
    have hk0 : k = 0 := by
      change k < 1 at hk
      omega
    subst hk0
    exact (hn.idle hsafe (Alike.refl _ _) rfl rfl).mono hsub

theorem op_db (o : Op) :
    (n.op sha256 idxAttribute coin activation o).db
      = n.db.writes (n.opWrites sha256 idxAttribute coin activation o) := by
  cases o with
  | connect raw walletTouched =>
    simp only [Node.op, Node.connect, Node.opWrites]
    split <;> rfl
  | rollback toHeight =>
    simp only [Node.op, Node.rollback, Node.opWrites]
    split
    · rw [Db.writes_append]
    · rw [List.append_nil]
  | project => rfl

end Keep

/-! ### Whole runs -/

/-- Each operation of the run meets `P` in the state it is started in. -/
def AlongOps (P : Node → Op → Prop) : Node → List Op → Prop
  | _, [] => True
  | n, o :: os => P n o ∧ AlongOps P (n.op sha256 idxAttribute coin activation o) os

/-- The process dies at a safe place: after `j` statements of the run, or at its end. -/
def CrashSafe (n : Node) : List Op → ℕ → Prop
  | [], _ => Calm n
  | o :: os, j =>
    let len := (n.opWrites sha256 idxAttribute coin activation o).length
    if j < len then SafeIn sha256 idxAttribute coin activation n o j
    else CrashSafe (n.op sha256 idxAttribute coin activation o) os (j - len)

instance decidableCrashSafe : (n : Node) → (os : List Op) → (j : ℕ) →
    Decidable (CrashSafe sha256 idxAttribute coin activation n os j)
  | n, [], _ => inferInstanceAs (Decidable (Calm n))
  | n, o :: os, j =>
    have := decidableCrashSafe (n.op sha256 idxAttribute coin activation o) os
      (j - (n.opWrites sha256 idxAttribute coin activation o).length)
    inferInstanceAs (Decidable (if j < _ then
      SafeIn sha256 idxAttribute coin activation n o j else CrashSafe _ _ _ _ _ os _))

theorem Consistent.run (os : List Op) {vs : List Node} {n : Node}
    (hn : Consistent sha256 coin vs n)
    (hl : AlongOps sha256 idxAttribute coin activation (fun n o => o.Legal coin n) n os)
    (ha : ∀ o ∈ os, o.Accepted sha256) (j : ℕ)
    (hsafe : CrashSafe sha256 idxAttribute coin activation n os j) :
    Resumes coin activation (vs ++ visited sha256 idxAttribute coin activation n os j)
      (n.db.writes ((runWrites sha256 idxAttribute coin activation n os).take j)) := by
  induction os generalizing vs n j with
  | nil =>
    simp only [visited, runWrites, List.append_nil, List.take_nil]
    exact hn.idle hsafe (Alike.refl _ _) rfl rfl
  | cons o os ih =>
    have hao := ha o (List.mem_cons_self ..)
    simp only [visited, runWrites, CrashSafe] at hsafe ⊢
    split at hsafe
    · next hj =>
      rw [if_pos hj, List.take_append_of_le_length (le_of_lt hj)]
      exact hn.inside idxAttribute hl.1 hao hj hsafe
    · next hj =>
      have hstep : Consistent sha256 coin _ (n.op sha256 idxAttribute coin activation o) :=
        hn.op idxAttribute hl.1 hao
      have hrest := ih hstep hl.2 (fun o' ho' => ha o' (List.mem_cons_of_mem _ ho')) _ hsafe
      rw [if_neg hj, List.take_append, List.take_of_length_le (not_lt.mp hj), Db.writes_append,
        ← op_db]
      rw [List.append_assoc] at hrest
      exact hrest

theorem consistent_fresh :
    Consistent sha256 coin [fresh coin activation] (fresh coin activation) := by
  refine ⟨recorded_fresh coin activation, List.mem_singleton_self _, fun x hlo hhi => ?_,
    fun hh => ?_, fun _ => ⟨rfl, rfl, rfl⟩, ⟨List.nodup_nil, List.nodup_nil⟩, rfl,
    fun _ hr => absurd hr List.not_mem_nil, .never rfl ⟨rfl, rfl, rfl⟩⟩
  · change x ≤ (coin.start : ℤ) at hhi
    omega
  · cases hh

/-- Wherever the process dies in a run of a new database, outside the unsafe places, the next start
resumes where the run was. -/
theorem crash_resumes (os : List Op)
    (hl : AlongOps sha256 idxAttribute coin activation (fun n o => o.Legal coin n)
      (fresh coin activation) os)
    (ha : ∀ o ∈ os, o.Accepted sha256) (j : ℕ)
    (hsafe : CrashSafe sha256 idxAttribute coin activation (fresh coin activation) os j) :
    Resumes coin activation
      (fresh coin activation ::
        visited sha256 idxAttribute coin activation (fresh coin activation) os j)
      (({} : Db).writes
        ((runWrites sha256 idxAttribute coin activation (fresh coin activation) os).take j)) :=
  (consistent_fresh sha256 coin activation).run sha256 idxAttribute coin activation os hl ha j hsafe

/-- Two blocks, and a rollback of the second. -/
def reorgOps : List Op :=
  [.connect (header1 ++ [1] ++ commitTx) false, .connect (header2 ++ [0]) false, .rollback 1]

theorem reorgOps_legal : AlongOps chainSha256 commitAttribute commitCoin 0
    (fun n o => o.Legal commitCoin n) (fresh commitCoin 0) reorgOps :=
  ⟨trivial, trivial, ⟨by decide, by decide +kernel⟩, trivial⟩

theorem reorgOps_accepted : ∀ o ∈ reorgOps, o.Accepted chainSha256 := by
  unfold reorgOps
  intro o ho
  simp only [List.mem_cons, List.not_mem_nil, or_false] at ho
  rcases ho with rfl | rfl | rfl
  · exact (by decide +kernel : Parses chainSha256 (header1 ++ [1] ++ commitTx))
  · exact (by decide +kernel : Parses chainSha256 (header2 ++ [0]))
  · trivial

/-- The process dies with the projection of the rollback committed and the height not yet. -/
theorem crash_resumes_sample :
    Resumes commitCoin 0
      (fresh commitCoin 0 ::
        visited chainSha256 commitAttribute commitCoin 0 (fresh commitCoin 0) reorgOps 10)
      (({} : Db).writes
        ((runWrites chainSha256 commitAttribute commitCoin 0 (fresh commitCoin 0)
          reorgOps).take 10)) :=
  crash_resumes chainSha256 commitAttribute commitCoin 0 reorgOps reorgOps_legal reorgOps_accepted
    10 (by decide +kernel)

/-- The process dies between the two statements of `idx_db_save_sync` after a rollback: the next
start stands at the fork, with the hash of the block that was rolled back. -/
theorem torn_save_sync :
    AlongOps chainSha256 commitAttribute commitCoin 0 (fun n o => o.Legal commitCoin n)
        (fresh commitCoin 0) reorgOps ∧
      (∀ o ∈ reorgOps, o.Accepted chainSha256) ∧
      ¬ Resumes commitCoin 0
        (fresh commitCoin 0 ::
          visited chainSha256 commitAttribute commitCoin 0 (fresh commitCoin 0) reorgOps 11)
        (({} : Db).writes ((runWrites chainSha256 commitAttribute commitCoin 0 (fresh commitCoin 0)
          reorgOps).take 11)) :=
  ⟨reorgOps_legal, reorgOps_accepted, fun h => absurd h.tip (by decide +kernel)⟩

end NamespaceIndexer.Daemon
