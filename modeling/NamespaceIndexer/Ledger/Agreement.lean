import NamespaceIndexer.Ledger.Erase
import NamespaceIndexer.Ledger.RefineBlock
import NamespaceIndexer.Fold.Digest

/-!
# States that agree stay in agreement

Two states have the same rows when they hold them in any order, and agree when
they do up to owner script types. Both are equality of what the ledger sees, so
blocks preserve both; the digest is a function of agreement wherever the commit
sort key tells rows apart.
-/

namespace NamespaceIndexer

open Fold Lib

/-- Same rows up to order. -/
structure SameRows (s t : SmState) : Prop where
  activationHeight : s.activationHeight = t.activationHeight
  names : s.names.Perm t.names
  commits : s.commits.Perm t.commits
  muts : s.muts.Perm t.muts

/-- The row with `owner_type` cleared. -/
def untyped (r : SmNameRow) : SmNameRow := { r with ownerType := 0 }

/-- Same rows up to order, names up to `owner_type`. -/
structure Agree (s t : SmState) : Prop where
  activationHeight : s.activationHeight = t.activationHeight
  names : (s.names.map untyped).Perm (t.names.map untyped)
  commits : s.commits.Perm t.commits
  muts : s.muts.Perm t.muts

/-- The tables of two ledgers are equal. -/
structure SameTables (L M : Ledger) : Prop where
  activationHeight : L.activationHeight = M.activationHeight
  names : L.names = M.names
  commits : L.commits = M.commits
  muts : L.muts = M.muts

theorem SameRows.symm {s t : SmState} (h : SameRows s t) : SameRows t s :=
  ⟨h.activationHeight.symm, h.names.symm, h.commits.symm, h.muts.symm⟩

theorem SameRows.agree {s t : SmState} (h : SameRows s t) : Agree s t :=
  ⟨h.activationHeight, h.names.map untyped, h.commits, h.muts⟩

/-! ### Same rows are equal tables of the ledger -/

theorem row_ext {r r' : SmNameRow} (hn : r.name = r'.name) (hd : deed r = deed r') : r = r' := by
  cases r
  cases r'
  simp only [deed, Deed.mk.injEq] at hd
  simp_all

theorem mut_ext {m m' : SmMut} (ho : m.owner = m'.owner) (hh : m.height = m'.height) : m = m' := by
  cases m
  cases m'
  simp_all

theorem SameRows.sameTables {s t : SmState} (hs : WellKeyed s) (h : SameRows s t) :
    SameTables (obs s) (obs t) := by
  refine ⟨h.activationHeight, funext fun n => ?_, Multiset.coe_eq_coe.mpr h.commits,
    funext fun who => ?_⟩
  · exact congrArg (Option.map deed) (RowTable.lookup_perm _ hs.names h.names n)
  · exact congrArg (Option.map SmMut.height) (RowTable.lookup_perm _ hs.muts h.muts who)

theorem SameTables.sameRows {s t : SmState} (hs : WellKeyed s) (ht : WellKeyed t)
    (h : SameTables (obs s) (obs t)) : SameRows s t := by
  refine ⟨h.activationHeight, ?_, Multiset.coe_eq_coe.mp h.commits, ?_⟩
  · refine RowTable.perm_of_lookup SmNameRow.name hs.names ht.names fun n => ?_
    exact RowTable.lookup_of_map_eq SmNameRow.name row_ext (congrFun h.names n)
  · refine RowTable.perm_of_lookup SmMut.owner hs.muts ht.muts fun who => ?_
    exact RowTable.lookup_of_map_eq SmMut.owner mut_ext (congrFun h.muts who)

/-! ### Agreement is the same without owner types -/

theorem lookup_untyped (l : List SmNameRow) (n : Name) :
    RowTable.lookup SmNameRow.name (l.map untyped) n
      = (RowTable.lookup SmNameRow.name l n).map untyped :=
  RowTable.lookup_map _ (f := untyped) (fun _ => rfl) n

theorem distinct_untyped {l : List SmNameRow} :
    RowTable.Distinct SmNameRow.name (l.map untyped) ↔ RowTable.Distinct SmNameRow.name l :=
  RowTable.distinct_map _ (f := untyped) fun _ => rfl

/-- The state with every owner's script type cleared. -/
def untypedState (s : SmState) : SmState := { s with names := s.names.map untyped }

theorem WellKeyed.untypedState {s : SmState} (h : WellKeyed s) : WellKeyed (untypedState s) :=
  ⟨distinct_untyped.mpr h.names, h.muts⟩

theorem obs_untypedState (s : SmState) : obs (untypedState s) = (obs s).untyped := by
  refine Ledger.ext rfl rfl rfl rfl (funext fun n => ?_) rfl rfl rfl
  change (RowTable.lookup SmNameRow.name (s.names.map untyped) n).map deed
    = ((RowTable.lookup SmNameRow.name s.names n).map deed).map Deed.untyped
  rw [lookup_untyped, Option.map_map, Option.map_map]
  rfl

theorem Agree.sameTables {s t : SmState} (hs : WellKeyed s) (h : Agree s t) :
    SameTables (obs s).untyped (obs t).untyped := by
  rw [← obs_untypedState, ← obs_untypedState]
  exact SameRows.sameTables hs.untypedState ⟨h.activationHeight, h.names, h.commits, h.muts⟩

theorem agree_of_sameButTypes {s t : SmState} (hs : WellKeyed s) (ht : WellKeyed t)
    (h : Ledger.SameButTypes (obs s) (obs t)) : Agree s t := by
  have hrows : SameRows (untypedState s) (untypedState t) := by
    refine SameTables.sameRows hs.untypedState ht.untypedState ?_
    rw [obs_untypedState, obs_untypedState, h]
    exact ⟨rfl, rfl, rfl, rfl⟩
  exact ⟨hrows.activationHeight, hrows.names, hrows.commits, hrows.muts⟩

/-! ### Blocks -/

/-- The clock and the scratch table of a block do not depend on what was there before. -/
theorem beginBlock_of_sameTables {L M : Ledger} (h : SameTables L M) (height mtp : ℤ)
    (rate : UInt64) : L.beginBlock height mtp rate = M.beginBlock height mtp rate := by
  have hlap : ∀ who, L.Lapses Set.univ mtp who ↔ M.Lapses Set.univ mtp who := fun who => by
    unfold Ledger.Lapses
    rw [h.names]
  refine Ledger.ext h.activationHeight rfl rfl rfl ?_ ?_ ?_ rfl
  · funext n
    rw [Ledger.beginBlock_names, Ledger.beginBlock_names, h.names]
  · change L.commits.filter _ = M.commits.filter _
    rw [h.commits]
  · funext who
    change (L.settleDue Set.univ height mtp).muts who = (M.settleDue Set.univ height mtp).muts who
    by_cases hw : L.Lapses Set.univ mtp who
    · rw [Ledger.settleDue_lapse hw, Ledger.settleDue_lapse ((hlap who).mp hw), h.muts]
    · rw [Ledger.settleDue_noLapse hw, Ledger.settleDue_noLapse (fun hm => hw ((hlap who).mpr hm)),
        h.muts]

theorem SameRows.foldBlock {s t : SmState} (hs : WellKeyed s) (ht : WellKeyed t) (h : SameRows s t)
    (sha256 : Bytes → Hash256) (b : FoldBlock) :
    SameRows (foldBlock sha256 s b) (foldBlock sha256 t b) := by
  have ls := hs.tracks.foldBlock sha256 b
  have lt := ht.tracks.foldBlock sha256 b
  refine SameTables.sameRows ls.keyed lt.keyed ?_
  rw [ls.obs_eq, lt.obs_eq]
  unfold Ledger.foldBlock
  rw [beginBlock_of_sameTables (h.sameTables hs)]
  exact ⟨rfl, rfl, rfl, rfl⟩

theorem Agree.foldBlock {s t : SmState} (hs : WellKeyed s) (ht : WellKeyed t) (h : Agree s t)
    (sha256 : Bytes → Hash256) (b : FoldBlock) :
    Agree (foldBlock sha256 s b) (foldBlock sha256 t b) := by
  have ls := hs.tracks.foldBlock sha256 b
  have lt := ht.tracks.foldBlock sha256 b
  refine agree_of_sameButTypes ls.keyed lt.keyed ?_
  rw [ls.obs_eq, lt.obs_eq]
  refine Ledger.SameButTypes.foldl_applyTx sha256 ?_ b.txs
  unfold Ledger.SameButTypes
  rw [← Ledger.untyped_beginBlock, ← Ledger.untyped_beginBlock (obs t),
    beginBlock_of_sameTables (h.sameTables hs)]

/-- Agreement survives every sequence of blocks. -/
theorem Agree.foldBlocks {s t : SmState} (hs : WellKeyed s) (ht : WellKeyed t) (h : Agree s t)
    (sha256 : Bytes → Hash256) (bs : List FoldBlock) :
    Agree (foldBlocks sha256 s bs) (foldBlocks sha256 t bs) := by
  induction bs generalizing s t with
  | nil => exact h
  | cons b bs ih =>
    exact ih (hs.tracks.foldBlock sha256 b).keyed (ht.tracks.foldBlock sha256 b).keyed
      (h.foldBlock hs ht sha256 b)

/-! ### The digest -/

/-- Sorting permuted rows gives one list, when rows that tie in the sort order are equal. -/
theorem insertionSort_perm_eq {α : Type} (le : α → α → Prop) [DecidableRel le] [IsTrans α le]
    [Std.Total le] {l l' : List α} (p : l.Perm l')
    (hanti : ∀ a ∈ l, ∀ b ∈ l, le a b → le b a → a = b) :
    l.insertionSort le = l'.insertionSort le := by
  have pl := List.perm_insertionSort le l
  have pl' := (List.perm_insertionSort le l').trans p.symm
  refine List.Perm.eq_of_pairwise ?_ (List.pairwise_insertionSort le l)
    (List.pairwise_insertionSort le l') (pl.trans pl'.symm)
  intro a b ha hb hab hba
  exact hanti a (pl.mem_iff.mp ha) b (pl'.mem_iff.mp hb) hab hba

instance : IsTrans SmNameRow leNames := ⟨fun _ _ _ hab hbc => le_trans (α := Name) hab hbc⟩
instance : Std.Total leNames := ⟨fun _ _ => le_total (α := Name) _ _⟩
instance : IsTrans SmMut leMuts := ⟨fun _ _ _ hab hbc => le_trans (α := Bytes) hab hbc⟩
instance : Std.Total leMuts := ⟨fun _ _ => le_total (α := Bytes) _ _⟩

/-- The sort key of a commit. -/
def commitKey (c : SmCommit) : Bytes ×ₗ (ℤ ×ₗ ℕ) :=
  toLex (c.commitment.val, toLex (c.commitHeight, c.txIndex.toNat))

theorem leCommits_iff (x y : SmCommit) : leCommits x y ↔ commitKey x ≤ commitKey y := by
  unfold leCommits commitKey
  rw [Prod.Lex.toLex_le_toLex, Prod.Lex.toLex_le_toLex, UInt32.le_iff_toNat_le, Subtype.ext_iff]

instance : IsTrans SmCommit leCommits := ⟨fun _ _ _ hab hbc => by
  rw [leCommits_iff] at *
  exact le_trans hab hbc⟩
instance : Std.Total leCommits := ⟨fun _ _ => by
  rw [leCommits_iff, leCommits_iff]
  exact le_total _ _⟩

/-- Commit rows that tie in the digest's sort order are equal: their times agree. -/
def CommitsTieFree (l : List SmCommit) : Prop :=
  ∀ c ∈ l, ∀ c' ∈ l, c.commitment = c'.commitment → c.commitHeight = c'.commitHeight →
    c.txIndex = c'.txIndex → c.commitTime = c'.commitTime

theorem nameRecord_untyped (r : SmNameRow) : nameRecord (untyped r) = nameRecord r := rfl

theorem nameRecords_untyped (l : List SmNameRow) :
    (l.insertionSort leNames).map nameRecord
      = ((l.map untyped).insertionSort leNames).map nameRecord := by
  rw [← List.map_insertionSort (r := leNames) (s := leNames) untyped l fun _ _ _ _ => Iff.rfl,
    List.map_map]
  rfl

theorem Agree.digestPreimage {s t : SmState} (hs : WellKeyed s) (h : Agree s t)
    (hc : CommitsTieFree s.commits) : digestPreimage s = digestPreimage t := by
  have hnames : tableSection leNames nameRecord s.names = tableSection leNames nameRecord t.names := by
    unfold tableSection
    rw [nameRecords_untyped s.names, nameRecords_untyped t.names]
    rw [insertionSort_perm_eq leNames h.names fun a ha b hb hab hba =>
      (distinct_untyped.mpr hs.names).eq_of_mem _ ha hb (le_antisymm (α := Name) hab hba)]
    have hlen := h.names.length_eq
    rw [List.length_map, List.length_map] at hlen
    rw [hlen]
  have hcommits : tableSection leCommits commitRecord s.commits
      = tableSection leCommits commitRecord t.commits := by
    unfold tableSection
    rw [h.commits.length_eq, insertionSort_perm_eq leCommits h.commits]
    intro a ha b hb hab hba
    have hk := le_antisymm ((leCommits_iff a b).mp hab) ((leCommits_iff b a).mp hba)
    unfold commitKey at hk
    rw [toLex_inj, Prod.mk.injEq, toLex_inj, Prod.mk.injEq] at hk
    obtain ⟨h1, h2, h3⟩ := hk
    have h1' := Subtype.ext h1
    have h3' := UInt32.toNat_inj.mp h3
    have h4 := hc a ha b hb h1' h2 h3'
    cases a
    cases b
    simp_all
  have hmuts : tableSection leMuts mutRecord s.muts = tableSection leMuts mutRecord t.muts := by
    unfold tableSection
    rw [h.muts.length_eq, insertionSort_perm_eq leMuts h.muts]
    intro a ha b hb hab hba
    exact hs.muts.eq_of_mem _ ha hb (Subtype.ext (le_antisymm (α := Bytes) hab hba))
  unfold Fold.digestPreimage
  rw [hnames, hcommits, hmuts]

theorem Agree.digest_eq {s t : SmState} (hs : WellKeyed s) (h : Agree s t)
    (sha256 : Bytes → Hash256) (hc : CommitsTieFree s.commits) :
    smStateDigest sha256 s = smStateDigest sha256 t := by
  unfold smStateDigest digestedBytes
  rw [h.digestPreimage hs hc]

/-! ### Where commit rows cannot tie -/

/-- Every commit was there at the start, or was made in one of the blocks. -/
def CommitsFrom (C : Multiset SmCommit) (bs : List FoldBlock) (L : Ledger) : Prop :=
  ∀ c ∈ L.commits, c ∈ C ∨ ∃ b ∈ bs, c.commitHeight = b.height ∧ c.commitTime = b.mtp

theorem CommitsFrom.foldBlock {C : Multiset SmCommit} {bs : List FoldBlock} {L : Ledger}
    (h : CommitsFrom C bs L) (sha256 : Bytes → Hash256) {b : FoldBlock} (hb : b ∈ bs) :
    CommitsFrom C bs (L.foldBlock sha256 b) := by
  have hbegin : CommitsFrom C bs (L.beginBlock b.height b.mtp b.rate) :=
    fun c hc => h c (Multiset.mem_of_mem_filter hc)
  have hstep : ∀ (txs : List SmTx) (M : Ledger), M.height = b.height ∧ M.mtp = b.mtp ∧
      CommitsFrom C bs M → CommitsFrom C bs (txs.foldl (Ledger.applyTx sha256) M) := by
    intro txs
    induction txs with
    | nil => exact fun M hM => hM.2.2
    | cons tx txs ih =>
      intro M hM
      refine ih _ (Ledger.applyTx_induct sha256 tx
        (P := fun M => M.height = b.height ∧ M.mtp = b.mtp ∧ CommitsFrom C bs M) ?_ hM)
      rintro cx a L1 op L2 out - - hact ⟨hh, hm, hc⟩
      refine ⟨hact.clock.1.trans hh, hact.clock.2.1.trans hm, fun c hmem => ?_⟩
      rcases hact.commits with he | ⟨-, he⟩
      · exact hc c (he ▸ hmem)
      · rw [he, Multiset.mem_cons] at hmem
        rcases hmem with rfl | hmem
        · exact Or.inr ⟨b, hb, hh, hm⟩
        · exact hc c hmem
  exact hstep b.txs _ ⟨rfl, rfl, hbegin⟩

theorem commitsFrom_foldBlocks (sha256 : Bytes → Hash256) (C : Multiset SmCommit)
    (bs : List FoldBlock) {L : Ledger} (cs : List FoldBlock) (hcs : ∀ c ∈ cs, c ∈ bs)
    (h : CommitsFrom C bs L) : CommitsFrom C bs (L.foldBlocks sha256 cs) := by
  induction cs generalizing L with
  | nil => exact h
  | cons c cs ih =>
    exact ih (fun c' hc' => hcs c' (List.mem_cons_of_mem _ hc'))
      (h.foldBlock sha256 (hcs c (List.mem_cons_self ..)))

/-- Blocks of increasing heights above all commits leave no rows that tie and differ. -/
theorem commitsTieFree_foldBlocks {s : SmState} (hs : WellKeyed s) (sha256 : Bytes → Hash256)
    {bs : List FoldBlock} (htie : CommitsTieFree s.commits)
    (habove : ∀ c ∈ s.commits, ∀ b ∈ bs, c.commitHeight < b.height)
    (hup : bs.Pairwise fun b b' => b.height < b'.height) :
    CommitsTieFree (foldBlocks sha256 s bs).commits := by
  have ht := hs.tracks.foldBlocks sha256 bs
  have hfrom := commitsFrom_foldBlocks sha256 (s.commits : Multiset SmCommit) bs bs
    (fun _ hb => hb) (L := obs s) fun c hc => Or.inl hc
  have hmem : ∀ c ∈ (foldBlocks sha256 s bs).commits,
      c ∈ s.commits ∨ ∃ b ∈ bs, c.commitHeight = b.height ∧ c.commitTime = b.mtp := by
    intro c hc
    refine hfrom c ?_
    rw [ht.commits]
    exact hc
  have hinj : ∀ b ∈ bs, ∀ b' ∈ bs, b.height = b'.height → b = b' := by
    intro b hb b' hb' he
    have hn : (bs.map FoldBlock.height).Nodup := List.pairwise_map.mpr (hup.imp fun h => ne_of_lt h)
    exact List.inj_on_of_nodup_map hn hb hb' he
  intro c hc c' hc' hcom hh hti
  rcases hmem c hc with h1 | ⟨b, hb, hbh, hbt⟩
  · rcases hmem c' hc' with h2 | ⟨b', hb', hbh', -⟩
    · exact htie c h1 c' h2 hcom hh hti
    · have hlt := habove c h1 b' hb'
      omega
  · rcases hmem c' hc' with h2 | ⟨b', hb', hbh', hbt'⟩
    · have hlt := habove c' h2 b hb
      omega
    · rw [hbt, hbt', hinj b hb b' hb' (by omega)]

/-- Two states that agree still agree after any blocks applied to both; their digests are equal
where rows that tie in the commit sort order are equal, so wherever ties were absent to begin with
and blocks come in increasing heights above the commits. -/
theorem agree_foldBlocks (sha256 : Bytes → Hash256) {s t : SmState} (hs : WellKeyed s)
    (ht : WellKeyed t) (h : Agree s t) (bs : List FoldBlock) :
    Agree (foldBlocks sha256 s bs) (foldBlocks sha256 t bs) ∧
      (CommitsTieFree (foldBlocks sha256 s bs).commits →
        smStateDigest sha256 (foldBlocks sha256 s bs)
          = smStateDigest sha256 (foldBlocks sha256 t bs)) ∧
      (CommitsTieFree s.commits → (∀ c ∈ s.commits, ∀ b ∈ bs, c.commitHeight < b.height) →
        bs.Pairwise (fun b b' => b.height < b'.height) →
        smStateDigest sha256 (foldBlocks sha256 s bs)
          = smStateDigest sha256 (foldBlocks sha256 t bs)) := by
  have hagree := h.foldBlocks hs ht sha256 bs
  have hdigest : CommitsTieFree (foldBlocks sha256 s bs).commits →
      smStateDigest sha256 (foldBlocks sha256 s bs)
        = smStateDigest sha256 (foldBlocks sha256 t bs) :=
    hagree.digest_eq (hs.tracks.foldBlocks sha256 bs).keyed sha256
  exact ⟨hagree, hdigest, fun htie habove hup =>
    hdigest (commitsTieFree_foldBlocks hs sha256 htie habove hup)⟩

/-- A name, and two commits of one block by their transaction indices and times. -/
def twoCommits (ownerType : Byte) (c c' : UInt32 × ℤ) : SmState :=
  { smNew 0 with
    names := [{ name := [97], ownerType, leaseExpiry := 1000 }],
    commits := [⟨zeros 32, 1, c.1, c.2⟩, ⟨zeros 32, 1, c'.1, c'.2⟩] }

/-- SHA-256 on the preimages of two states whose commits tie. -/
def knownSha256 (b : Bytes) : Hash256 :=
  if b = digestPreimage (twoCommits 0 (0, 10) (0, 20)) then
    ⟨[138, 228, 148, 249, 25, 180, 81, 52, 94, 46, 107, 105, 37, 114, 61, 118, 244, 80, 14, 61,
    207, 194, 175, 212, 189, 227, 111, 201, 122, 206, 188, 132], rfl⟩
  else if b = digestPreimage (twoCommits 0 (0, 20) (0, 10)) then
    ⟨[127, 189, 9, 125, 61, 51, 49, 239, 209, 241, 61, 247, 150, 28, 168, 157, 23, 190, 137, 90,
    244, 152, 164, 137, 116, 123, 206, 121, 100, 68, 56, 133], rfl⟩
  else zeros 32

/-- The owner of the name makes a third commit and renews the name. -/
def commitAndRenew : SmTx where
  txindex := 0
  inputs := [⟨zeros 20, 0, true⟩]
  carriers := [⟨.ACTION, { op := 0x03, commitment := ⟨List.replicate 32 7, rfl⟩ }, 0, 0⟩,
    ⟨.ACTION, { op := 0x01, name := [97] }, 10, 1⟩]
  outs := []

theorem agree_foldBlocks_sample :
    let s := foldBlocks knownSha256 (twoCommits 0 (0, 10) (1, 10)) [⟨2, 30, 1, [commitAndRenew]⟩]
    let t := foldBlocks knownSha256 (twoCommits 1 (1, 10) (0, 10)) [⟨2, 30, 1, [commitAndRenew]⟩]
    (s.commits.length = 3 ∧ s.names.map SmNameRow.leaseExpiry = [24193000]) ∧
      Agree s t ∧ smStateDigest knownSha256 s = smStateDigest knownSha256 t := by
  have hacts :
      let s := foldBlocks knownSha256 (twoCommits 0 (0, 10) (1, 10)) [⟨2, 30, 1, [commitAndRenew]⟩]
      s.commits.length = 3 ∧ s.names.map SmNameRow.leaseExpiry = [24193000] := by
    decide +kernel
  have h := agree_foldBlocks knownSha256 (s := twoCommits 0 (0, 10) (1, 10))
    (t := twoCommits 1 (1, 10) (0, 10)) ⟨List.nodup_singleton _, List.nodup_nil⟩
    ⟨List.nodup_singleton _, List.nodup_nil⟩ ⟨rfl, by decide, by decide, by decide⟩
    [⟨2, 30, 1, [commitAndRenew]⟩]
  exact ⟨hacts, h.1, h.2.2 (by unfold CommitsTieFree; decide) (by decide) (by decide)⟩

set_option maxRecDepth 10000 in
/-- Two agreeing states whose commits tie on commitment, height and transaction index but differ
in time are serialized in table order, so their digests differ after a block. -/
theorem tied_commits_digest_ne :
    WellKeyed (twoCommits 0 (0, 10) (0, 20)) ∧ WellKeyed (twoCommits 0 (0, 20) (0, 10)) ∧
      Agree (twoCommits 0 (0, 10) (0, 20)) (twoCommits 0 (0, 20) (0, 10)) ∧
      smStateDigest knownSha256 (foldBlocks knownSha256 (twoCommits 0 (0, 10) (0, 20))
          [⟨2, 30, 1, []⟩])
        ≠ smStateDigest knownSha256 (foldBlocks knownSha256 (twoCommits 0 (0, 20) (0, 10))
          [⟨2, 30, 1, []⟩]) := by
  refine ⟨⟨List.nodup_singleton _, List.nodup_nil⟩, ⟨List.nodup_singleton _, List.nodup_nil⟩,
    ⟨rfl, by decide, by decide, by decide⟩, by decide⟩

end NamespaceIndexer
