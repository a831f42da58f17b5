import NamespaceIndexer.Ledger.Records

/-!
# What the digest pre-image tells of a state

The serialization reads back to the tables, names up to `owner_type`, so it
tells apart any two states that differ in them. What is hashed of it is cut to
the low 32 bits of its length, which loses the last rows of a state that takes
4 GiB or more.
-/

namespace NamespaceIndexer

open Fold Lib

/-- Same digested rows up to order. -/
structure SameContent (s t : SmState) : Prop where
  names : (s.names.map untyped).Perm (t.names.map untyped)
  commits : s.commits.Perm t.commits
  muts : s.muts.Perm t.muts

/-- States whose sort keys tell rows apart, held in the C types. -/
structure Digestible (s : SmState) : Prop where
  keyed : WellKeyed s
  tieFree : CommitsTieFree s.commits
  fits : Fits s

/-- The length of the serialization. -/
def preimageSize (s : SmState) : ℕ :=
  16 + (s.names.map fun r => 111 + r.name.length).sum + 52 * s.commits.length + 28 * s.muts.length

/-! ### Reading back -/

theorem digestPreimage_delimited : Delimited Fits digestPreimage fun s =>
    ((((), (s.names.insertionSort leNames).map untyped), (s.commits.insertionSort leCommits).map id),
      (s.muts.insertionSort leMuts).map id) := by
  have hmagic : Delimited Fits (fun _ => ([83, 77, 118, 49] : Bytes)) fun _ => () :=
    Delimited.of_length 4 (fun _ _ => rfl) fun _ _ _ _ _ => rfl
  have hnames := (tableSection_delimited leNames nameRecord_delimited).comp SmState.names fun _ => Fits.names
  have hcommits := (tableSection_delimited leCommits commitRecord_delimited).comp SmState.commits
    fun _ => Fits.commits
  have hmuts := (tableSection_delimited leMuts mutRecord_delimited).comp SmState.muts fun _ => Fits.muts
  exact ((hmagic.append hnames).append hcommits).append hmuts

theorem sameContent_of_sorted {s t : SmState}
    (h : ((((), (s.names.insertionSort leNames).map untyped),
        (s.commits.insertionSort leCommits).map id), (s.muts.insertionSort leMuts).map id)
      = ((((), (t.names.insertionSort leNames).map untyped),
        (t.commits.insertionSort leCommits).map id), (t.muts.insertionSort leMuts).map id)) :
    SameContent s t := by
  simp only [Prod.mk.injEq, true_and] at h
  obtain ⟨⟨hnames, hcommits⟩, hmuts⟩ := h
  have hc := perm_of_sorted leCommits hcommits
  have hm := perm_of_sorted leMuts hmuts
  rw [List.map_id, List.map_id] at hc hm
  exact ⟨perm_of_sorted leNames hnames, hc, hm⟩

theorem SameContent.digestPreimage_eq {s t : SmState} (hs : Digestible s) (h : SameContent s t) :
    digestPreimage s = digestPreimage t := by
  have hagree : Agree s { t with activationHeight := s.activationHeight } :=
    ⟨rfl, h.names, h.commits, h.muts⟩
  have heq := hagree.digestPreimage hs.keyed hs.tieFree
  exact heq

/-- The serialization identifies the rows. -/
theorem digestPreimage_eq_iff {s t : SmState} (hs : Digestible s) (ht : Fits t) :
    digestPreimage s = digestPreimage t ↔ SameContent s t :=
  ⟨fun h => sameContent_of_sorted (digestPreimage_delimited.inj hs.fits ht h),
    fun h => h.digestPreimage_eq hs⟩

/-! ### Lengths -/

theorem tableSection_length {α : Type} (le : α → α → Prop) [DecidableRel le] {record : α → Bytes}
    {size : α → ℕ} (hsize : ∀ r, (record r).length = size r) (rows : List α) :
    (tableSection le record rows).length = 4 + (rows.map size).sum := by
  have hfun : List.length ∘ record = size := funext hsize
  have hperm := (List.perm_insertionSort le rows).map size
  unfold tableSection bu32
  rw [List.length_append, length_leBytes, List.length_flatten, List.map_map, hfun, hperm.sum_eq]

theorem digestPreimage_length (s : SmState) : (digestPreimage s).length = preimageSize s := by
  unfold digestPreimage preimageSize
  simp only [List.length_append, tableSection_length leNames nameRecord_length,
    tableSection_length leCommits commitRecord_length, tableSection_length leMuts mutRecord_length,
    List.map_const', List.sum_replicate, smul_eq_mul, List.length_cons, List.length_nil]
  omega

theorem digestedBytes_of_short {s : SmState} (h : preimageSize s < 2 ^ 32) :
    digestedBytes s = digestPreimage s := by
  unfold digestedBytes
  rw [digestPreimage_length, Nat.mod_eq_of_lt h, ← digestPreimage_length, List.take_length]

/-- A state of less than 4 GiB is told from every other, be that of any size. -/
theorem digestedBytes_eq_iff {s t : SmState} (hs : Digestible s) (ht : Fits t)
    (hsize : preimageSize s < 2 ^ 32) : digestedBytes s = digestedBytes t ↔ SameContent s t := by
  constructor
  · intro h
    rw [digestedBytes_of_short hsize] at h
    exact sameContent_of_sorted (digestPreimage_delimited.eq_of_take hs.fits ht h)
  · intro h
    unfold digestedBytes
    rw [h.digestPreimage_eq hs]

/-! ### Rows past the cut -/

theorem tableSection_of_sorted {α : Type} {le : α → α → Prop} [DecidableRel le]
    {record : α → Bytes} {rows sorted : List α} (h : rows.insertionSort le = sorted) :
    tableSection le record rows = bu32 sorted.length ++ (sorted.map record).flatten := by
  have hlen := List.length_insertionSort le rows
  unfold tableSection
  rw [← hlen, h]

/-- Tails behind a common beginning are cut off when both are at least a wrap long. -/
theorem digestedBytes_eq_of_wrap {s t : SmState} {front x y : Bytes}
    (hs : digestPreimage s = front ++ x) (ht : digestPreimage t = front ++ y)
    (hmod : preimageSize s % 2 ^ 32 = preimageSize t % 2 ^ 32)
    (hcut : preimageSize s % 2 ^ 32 ≤ front.length) : digestedBytes s = digestedBytes t := by
  unfold digestedBytes
  rw [digestPreimage_length, digestPreimage_length, ← hmod, hs, ht,
    List.take_append_of_le_length hcut, List.take_append_of_le_length hcut]

/-- Stamps of as many owners as shift the length by a multiple of 2^32. -/
theorem exists_wrapMuts : ∃ muts : List SmMut, muts.length = 2 ^ 30 ∧
    RowTable.Distinct SmMut.owner muts ∧ TableFits MutFits muts := by
  have hlen : ((List.range (2 ^ 30)).map fun i =>
      (⟨⟨leBytes 20 i, length_leBytes ..⟩, 0⟩ : SmMut)).length = 2 ^ 30 := by
    rw [List.length_map, List.length_range]
  refine ⟨_, hlen, ?_, by rw [hlen]; norm_num, fun m hm => ?_⟩
  · unfold RowTable.Distinct
    rw [List.map_map]
    refine List.Nodup.map_on (fun i hi j hj h => ?_) List.nodup_range
    rw [List.mem_range] at hi hj
    exact leBytes_inj (n := 20) (by omega) (by omega) (congrArg Subtype.val h)
  · obtain ⟨i, -, rfl⟩ := List.mem_map.mp hm
    exact ⟨by norm_num, by norm_num⟩

/-- A large state without stamps is not told from the same state with a wrap of stamps. -/
theorem wrapMuts_undigested {s : SmState} (hs : Digestible s) (hmuts : s.muts = [])
    (hsize : 2 ^ 32 ≤ preimageSize s) : ∃ t, Digestible t ∧
      digestedBytes s = digestedBytes t ∧ ¬ SameContent s t := by
  obtain ⟨muts, hcount, hdistinct, hfits⟩ := exists_wrapMuts
  have hlen : preimageSize { s with muts } = preimageSize s + 7 * 2 ^ 32 := by
    unfold preimageSize
    simp only [hmuts, hcount, List.length_nil]
    omega
  refine ⟨{ s with muts }, ⟨⟨hs.keyed.names, hdistinct⟩, hs.tieFree, hs.fits.names,
    hs.fits.commits, hfits⟩, ?_, fun hc => ?_⟩
  · refine digestedBytes_eq_of_wrap rfl rfl (by rw [hlen]; omega) ?_
    have htotal := digestPreimage_length s
    have hlast := tableSection_length leMuts mutRecord_length s.muts
    unfold digestPreimage at htotal
    rw [List.length_append, hlast, hmuts] at htotal
    simp only [List.map_nil, List.sum_nil] at htotal
    omega
  · have hl := hc.muts.length_eq
    rw [hmuts, hcount] at hl
    simp at hl

/-- Only the owners of stamps matter to their order. -/
theorem sorted_of_owners {ms ms' : List SmMut} (howners : ms'.map SmMut.owner = ms.map SmMut.owner)
    (h : ms.Pairwise leMuts) : ms'.insertionSort leMuts = ms' := by
  have hown : (ms.map SmMut.owner).Pairwise fun x y => x.val ≤ y.val := List.pairwise_map.mpr h
  rw [← howners, List.pairwise_map] at hown
  exact List.Pairwise.insertionSort_eq hown

/-- A large state is not told from the same state with another height in its last stamp. -/
theorem lastMut_undigested {s : SmState} (hs : Digestible s) (hmuts : s.muts ≠ [])
    (hsize : 2 ^ 32 ≤ preimageSize s) : ∃ t, Digestible t ∧
      digestedBytes s = digestedBytes t ∧ ¬ SameContent s t := by
  have hperm := List.perm_insertionSort leMuts s.muts
  have hsorted := List.pairwise_insertionSort leMuts s.muts
  obtain ⟨front, m, hsort⟩ : ∃ front m, s.muts.insertionSort leMuts = front ++ [m] := by
    rcases List.eq_nil_or_concat (s.muts.insertionSort leMuts) with h | ⟨front, m, h⟩
    · rw [h] at hperm
      exact absurd hperm.symm.eq_nil hmuts
    · exact ⟨front, m, by rw [h, List.concat_eq_append]⟩
  rw [hsort] at hperm hsorted
  obtain ⟨height, hne, hheight⟩ : ∃ height : ℤ, height ≠ m.height ∧ IsInt64 height := by
    by_cases h0 : m.height = 0
    · exact ⟨1, by omega, by norm_num, by norm_num⟩
    · exact ⟨0, fun h => h0 h.symm, by norm_num, by norm_num⟩
  -- the same stamps with the new height in the last one
  obtain ⟨muts, hmuts'⟩ : ∃ muts, muts = front ++ [(⟨m.owner, height⟩ : SmMut)] := ⟨_, rfl⟩
  have howners : muts.map SmMut.owner = (front ++ [m]).map SmMut.owner := by simp [hmuts']
  have hlen : muts.length = s.muts.length := by
    rw [← hperm.length_eq, hmuts', List.length_append, List.length_append, List.length_singleton,
      List.length_singleton]
  have hfits : TableFits MutFits muts := by
    refine ⟨by rw [hlen]; exact hs.fits.muts.1, fun x hx => ?_⟩
    rw [hmuts', List.mem_append, List.mem_singleton] at hx
    rcases hx with hx | rfl
    · exact hs.fits.muts.2 x (hperm.mem_iff.mp (List.mem_append_left _ hx))
    · exact hheight
  have hdistinct : RowTable.Distinct SmMut.owner muts := by
    have hd := RowTable.Distinct.perm SmMut.owner hs.keyed.muts hperm.symm
    unfold RowTable.Distinct at hd ⊢
    rw [howners]
    exact hd
  have hsize' : preimageSize { s with muts } = preimageSize s := by
    unfold preimageSize
    rw [hlen]
  refine ⟨{ s with muts }, ⟨⟨hs.keyed.names, hdistinct⟩, hs.tieFree, hs.fits.names,
    hs.fits.commits, hfits⟩, ?_, fun hc => ?_⟩
  · have hpre : digestPreimage s = ([83, 77, 118, 49] ++ tableSection leNames nameRecord s.names ++
        tableSection leCommits commitRecord s.commits ++ bu32 s.muts.length ++
        (front.map mutRecord).flatten) ++ mutRecord m := by
      unfold digestPreimage
      rw [tableSection_of_sorted hsort, hperm.length_eq]
      simp
    refine digestedBytes_eq_of_wrap (y := mutRecord ⟨m.owner, height⟩) hpre ?_ (by rw [hsize']) ?_
    · unfold digestPreimage
      rw [tableSection_of_sorted (sorted_of_owners howners hsorted), hlen, hmuts']
      simp
    · have htotal := digestPreimage_length s
      rw [hpre, List.length_append, mutRecord_length] at htotal
      omega
  · have hp := hperm.trans hc.muts
    rw [hmuts', List.perm_append_left_iff, List.singleton_perm_singleton] at hp
    exact hne (congrArg SmMut.height hp).symm

/-- The bytes hashed tell a state apart from every other one exactly when its serialization is
shorter than 2^32 bytes. -/
theorem digest_identifies_iff {s : SmState} (hs : Digestible s) :
    (∀ t, Digestible t → (digestedBytes s = digestedBytes t ↔ SameContent s t)) ↔
      preimageSize s < 2 ^ 32 := by
  constructor
  · intro h
    by_contra hlarge
    have hsize : 2 ^ 32 ≤ preimageSize s := by omega
    have hclash : ∃ t, Digestible t ∧ digestedBytes s = digestedBytes t ∧ ¬ SameContent s t := by
      by_cases hmuts : s.muts = []
      · exact wrapMuts_undigested hs hmuts hsize
      · exact lastMut_undigested hs hmuts hsize
    obtain ⟨t, ht, heq, hne⟩ := hclash
    exact hne ((h t ht).mp heq)
  · intro hsize t ht
    exact digestedBytes_eq_iff hs ht.fits hsize

/-- A state of one commit, `n` times over. -/
def commitCopies (n : ℕ) (c : SmCommit) : SmState := { smNew 0 with commits := List.replicate n c }

theorem commitCopies_digestible {n : ℕ} {c : SmCommit} (hn : n < 2 ^ 31) (hc : CommitFits c) :
    Digestible (commitCopies n c) := by
  have hmem : ∀ x ∈ List.replicate n c, x = c := fun x hx => List.eq_of_mem_replicate hx
  refine ⟨⟨List.nodup_nil, List.nodup_nil⟩, fun x hx y hy _ _ _ => ?_,
    ⟨by simp [commitCopies, smNew], by simp [commitCopies, smNew]⟩, ⟨?_, fun x hx => ?_⟩,
    ⟨by simp [commitCopies, smNew], by simp [commitCopies, smNew]⟩⟩
  · rw [hmem x hx, hmem y hy]
  · show (List.replicate n c).length < 2 ^ 31
    rw [List.length_replicate]
    exact hn
  · rw [hmem x hx]
    exact hc

theorem commitCopies_preimage (n : ℕ) (c : SmCommit) :
    ∃ rest, digestPreimage (commitCopies (n + 1) c) =
      [83, 77, 118, 49] ++ bu32 0 ++ bu32 (n + 1) ++ c.commitment.val ++ rest := by
  have hsort : (List.replicate (n + 1) c).insertionSort leCommits = List.replicate (n + 1) c :=
    List.perm_replicate.mp (List.perm_insertionSort leCommits _)
  have hcommits : tableSection leCommits commitRecord (List.replicate (n + 1) c) = bu32 (n + 1) ++
      (commitRecord c ++ ((List.replicate n c).map commitRecord).flatten) := by
    rw [tableSection_of_sorted hsort, List.length_replicate, List.replicate_succ, List.map_cons,
      List.flatten_cons]
  show ∃ rest, [83, 77, 118, 49] ++ bu32 0 ++
    tableSection leCommits commitRecord (List.replicate (n + 1) c) ++ bu32 0 = _
  rw [hcommits]
  unfold commitRecord
  simp only [List.append_assoc]
  exact ⟨_, rfl⟩

/-- Of 82595525 commits the first twenty bytes are hashed, which hold no commit time. -/
theorem commitCopies_clash :
    Digestible (commitCopies 82595525 ⟨zeros 32, 0, 0, 0⟩) ∧
      Digestible (commitCopies 82595525 ⟨zeros 32, 0, 0, 1⟩) ∧
      digestedBytes (commitCopies 82595525 ⟨zeros 32, 0, 0, 0⟩)
        = digestedBytes (commitCopies 82595525 ⟨zeros 32, 0, 0, 1⟩) ∧
      ¬ SameContent (commitCopies 82595525 ⟨zeros 32, 0, 0, 0⟩)
        (commitCopies 82595525 ⟨zeros 32, 0, 0, 1⟩) := by
  have hsize : ∀ c, preimageSize (commitCopies 82595525 c) = 2 ^ 32 + 20 := by
    intro c
    show 16 + 0 + 52 * (List.replicate 82595525 c).length + 28 * 0 = 2 ^ 32 + 20
    rw [List.length_replicate]
    norm_num
  have hfits : ∀ t : ℤ, IsInt64 t → CommitFits ⟨zeros 32, 0, 0, t⟩ := fun _ ht =>
    ⟨⟨by norm_num, by norm_num⟩, ht⟩
  refine ⟨commitCopies_digestible (by norm_num) (hfits 0 ⟨by norm_num, by norm_num⟩),
    commitCopies_digestible (by norm_num) (hfits 1 ⟨by norm_num, by norm_num⟩), ?_, fun h => ?_⟩
  · obtain ⟨rest, hrest⟩ := commitCopies_preimage 82595524 ⟨zeros 32, 0, 0, 0⟩
    obtain ⟨rest', hrest'⟩ := commitCopies_preimage 82595524 ⟨zeros 32, 0, 0, 1⟩
    refine digestedBytes_eq_of_wrap hrest hrest' (by rw [hsize, hsize]) ?_
    rw [hsize]
    have hlen := (zeros 32).property
    simp [bu32]
    omega
  · have hmem : (⟨zeros 32, 0, 0, 0⟩ : SmCommit) ∈ List.replicate 82595525 ⟨zeros 32, 0, 0, 1⟩ :=
      h.commits.mem_iff.mp (List.mem_replicate.mpr ⟨by norm_num, rfl⟩)
    have heq := List.eq_of_mem_replicate hmem
    exact absurd (congrArg SmCommit.commitTime heq) (by norm_num)

theorem digest_identifies_iff_sample :
    Digestible (commitCopies 2 ⟨zeros 32, 0, 0, 0⟩) ∧
      (digestedBytes (commitCopies 2 ⟨zeros 32, 0, 0, 0⟩)
          = digestedBytes (commitCopies 2 ⟨zeros 32, 0, 0, 1⟩) ↔
        SameContent (commitCopies 2 ⟨zeros 32, 0, 0, 0⟩) (commitCopies 2 ⟨zeros 32, 0, 0, 1⟩)) :=
  have hfits : ∀ t : ℤ, IsInt64 t → CommitFits ⟨zeros 32, 0, 0, t⟩ := fun _ ht =>
    ⟨⟨by norm_num, by norm_num⟩, ht⟩
  have hs := commitCopies_digestible (n := 2) (by norm_num) (hfits 0 ⟨by norm_num, by norm_num⟩)
  ⟨hs, (digest_identifies_iff hs).mpr (by decide) _
    (commitCopies_digestible (by norm_num) (hfits 1 ⟨by norm_num, by norm_num⟩))⟩

end NamespaceIndexer
