import NamespaceIndexer.Daemon.Epochs
import NamespaceIndexer.Lib.Timeline
import NamespaceIndexer.Ledger.Refine

/-!
# What an update of `epochs` records

The owners of the state, at the height of the block and from there on; a state whose owners the
table has already is recorded again without a change.
-/

namespace NamespaceIndexer.Daemon

open Fold Lib

/-- One row for a name and a start. -/
abbrev Keyed (epochs : List Epoch) : Prop := Timeline.Distinct Epoch.name Epoch.startHeight epochs

/-- The owner on record. -/
def ownerOn (epochs : List Epoch) (name : Name) (height : ℤ) : Option H160 :=
  (lastEpoch epochs name height).bind Epoch.owner

/-- The owner in a state. -/
def ownerOf (names : List SmNameRow) (name : Name) : Option H160 :=
  (RowTable.lookup SmNameRow.name names name).map SmNameRow.owner

theorem smFindName_isSome {s : SmState} {name : Name} :
    (smFindName s name).isSome = (ownerOf s.names name).isSome := by
  unfold ownerOf smFindName
  rw [Option.isSome_map]
  cases h : RowTable.indexOf? SmNameRow.name s.names name with
  | none =>
    rw [(RowTable.indexOf?_none SmNameRow.name).mp h]
    rfl
  | some i =>
    have hne : RowTable.lookup SmNameRow.name s.names name ≠ none := by
      intro hno
      rw [(RowTable.indexOf?_none SmNameRow.name).mpr hno] at h
      cases h
    rw [Option.isSome_some, Option.isSome_iff_ne_none.mpr hne]

theorem lastEpoch_some {epochs : List Epoch} {name : Name} {height : ℤ} {e : Epoch}
    (h : lastEpoch epochs name height = some e) :
    e ∈ epochs ∧ e.name = name ∧ e.startHeight ≤ height := by
  have hlast : Timeline.last Epoch.name Epoch.startHeight epochs name height = some e := h
  obtain ⟨hmem, hn, hle, -⟩ := Timeline.last_some hlast
  exact ⟨hmem, hn, hle⟩

/-- Rows of `height` were written on top of a table that ends there. -/
structure WrittenAt (height : ℤ) (epochs epochs' : List Epoch) : Prop where
  keyed : Keyed epochs'
  upTo : ∀ e ∈ epochs', e.startHeight ≤ height
  before : ∀ name t, t < height → lastEpoch epochs' name t = lastEpoch epochs name t
  kept : ∀ e ∈ epochs, ∃ e' ∈ epochs', e'.name = e.name
  rows : ∀ e ∈ epochs', e ∈ epochs ∨ e.startHeight = height

section Write

variable {height : ℤ} {epochs : List Epoch}

theorem writtenAt_refl (hk : Keyed epochs) (hup : ∀ e ∈ epochs, e.startHeight ≤ height) :
    WrittenAt height epochs epochs :=
  ⟨hk, hup, fun _ _ _ => rfl, fun e he => ⟨e, he, rfl⟩, fun _ he => Or.inl he⟩

theorem WrittenAt.trans {epochs' epochs'' : List Epoch} (h : WrittenAt height epochs epochs')
    (h' : WrittenAt height epochs' epochs'') : WrittenAt height epochs epochs'' where
  keyed := h'.keyed
  upTo := h'.upTo
  before name t ht := (h'.before name t ht).trans (h.before name t ht)
  kept e he := by
    obtain ⟨e', he', hn⟩ := h.kept e he
    obtain ⟨e'', he'', hn'⟩ := h'.kept e' he'
    exact ⟨e'', he'', hn'.trans hn⟩
  rows e he := by
    rcases h'.rows e he with hx | hx
    · exact h.rows e hx
    · exact Or.inr hx

/-- One row put at the end of the table. -/
theorem writtenAt_put (hk : Keyed epochs) (hup : ∀ e ∈ epochs, e.startHeight ≤ height) (e : Epoch)
    (he : e.startHeight = height) :
    WrittenAt height epochs (epochPut epochs e) ∧
      lastEpoch (epochPut epochs e) e.name height = some e ∧
      ∀ name, name ≠ e.name → lastEpoch (epochPut epochs e) name height = lastEpoch epochs name height
    := by
  subst he
  refine ⟨⟨hk.put e, ?_, ?_, ?_, ?_⟩, hk.last_put le_rfl hup, fun name hn =>
    Timeline.last_put_of_ne (Or.inl hn.symm)⟩
  · intro e' he'
    rcases Timeline.mem_put.mp he' with ⟨hmem, -⟩ | rfl
    · exact hup e' hmem
    · exact le_rfl
  · exact fun name t ht => Timeline.last_put_of_ne (Or.inr ht)
  · intro e' he'
    by_cases hn : e'.name = e.name
    · exact ⟨e, Timeline.mem_put.mpr (Or.inr rfl), hn.symm⟩
    · exact ⟨e', Timeline.mem_put.mpr (Or.inl ⟨he', Or.inl hn⟩), rfl⟩
  · intro e' he'
    rcases Timeline.mem_put.mp he' with ⟨hmem, -⟩ | rfl
    · exact Or.inl hmem
    · exact Or.inr rfl

theorem recordOwner_writes (hk : Keyed epochs) (hup : ∀ e ∈ epochs, e.startHeight ≤ height)
    (r : SmNameRow) :
    WrittenAt height epochs (recordOwner height epochs r) ∧ ∀ name,
      ownerOn (recordOwner height epochs r) name height =
        if r.name = name then some r.owner else ownerOn epochs name height := by
  unfold recordOwner
  split
  · rename_i hsame
    refine ⟨writtenAt_refl hk hup, fun name => ?_⟩
    split
    · rename_i hn
      exact hn ▸ hsame
    · rfl
  · obtain ⟨hw, hself, hother⟩ :=
      writtenAt_put hk hup ⟨r.name, height, some r.owner, r.ownerType⟩ rfl
    refine ⟨hw, fun name => ?_⟩
    unfold ownerOn
    by_cases hn : r.name = name
    · subst hn
      rw [if_pos rfl, hself]
      rfl
    · rw [if_neg hn, hother name fun h => hn h.symm]

/-- The loop over the names. -/
theorem recordOwners_write (hk : Keyed epochs) (hup : ∀ e ∈ epochs, e.startHeight ≤ height)
    {rows : List SmNameRow} (hrows : RowTable.Distinct SmNameRow.name rows) :
    WrittenAt height epochs (rows.foldl (recordOwner height) epochs) ∧ ∀ name,
      ownerOn (rows.foldl (recordOwner height) epochs) name height =
        (ownerOf rows name).or (ownerOn epochs name height) := by
  induction rows generalizing epochs with
  | nil => exact ⟨writtenAt_refl hk hup, fun _ => rfl⟩
  | cons r rows ih =>
    obtain ⟨hr, hrest⟩ := (RowTable.distinct_cons SmNameRow.name r rows).mp hrows
    obtain ⟨hw, hown⟩ := recordOwner_writes hk hup r
    obtain ⟨hw', hown'⟩ := ih hw.keyed hw.upTo hrest
    refine ⟨hw.trans hw', fun name => ?_⟩
    rw [List.foldl_cons, hown', hown]
    unfold ownerOf
    rw [RowTable.lookup_cons]
    by_cases hn : r.name = name
    · subst hn
      rw [if_pos rfl, if_pos rfl, (RowTable.lookup_eq_none SmNameRow.name).mpr hr]
      rfl
    · rw [if_neg hn, if_neg hn]

theorem recordLapse_writes (hk : Keyed epochs) (hup : ∀ e ∈ epochs, e.startHeight ≤ height)
    (s : SmState) (e : Epoch) :
    WrittenAt height epochs (recordLapse s height epochs e) ∧ ∀ name,
      ownerOn (recordLapse s height epochs e) name height =
        if e.name = name ∧ ownerOf s.names name = none then none else ownerOn epochs name height := by
  unfold recordLapse
  rw [smFindName_isSome]
  split
  · rename_i hsome
    refine ⟨writtenAt_refl hk hup, fun name => ?_⟩
    rw [if_neg]
    rintro ⟨rfl, hnone⟩
    rw [hnone] at hsome
    cases hsome
  · rename_i hnone
    rw [Option.not_isSome_iff_eq_none] at hnone
    obtain ⟨hw, hself, hother⟩ := writtenAt_put hk hup ⟨e.name, height, none, 0⟩ rfl
    refine ⟨hw, fun name => ?_⟩
    unfold ownerOn
    by_cases hn : e.name = name
    · subst hn
      rw [if_pos ⟨rfl, hnone⟩, hself]
      rfl
    · rw [if_neg fun h => hn h.1, hother name fun h => hn h.symm]

/-- The loop over the open rows. -/
theorem recordLapses_write (hk : Keyed epochs) (hup : ∀ e ∈ epochs, e.startHeight ≤ height)
    (s : SmState) (es : List Epoch) :
    WrittenAt height epochs (es.foldl (recordLapse s height) epochs) ∧ ∀ name,
      ownerOn (es.foldl (recordLapse s height) epochs) name height =
        if (∃ e ∈ es, e.name = name) ∧ ownerOf s.names name = none then none
        else ownerOn epochs name height := by
  induction es generalizing epochs with
  | nil =>
    refine ⟨writtenAt_refl hk hup, fun name => ?_⟩
    rw [if_neg]
    · rfl
    · rintro ⟨⟨e, he, -⟩, -⟩
      cases he
  | cons e es ih =>
    obtain ⟨hw, hown⟩ := recordLapse_writes hk hup s e
    obtain ⟨hw', hown'⟩ := ih hw.keyed hw.upTo
    refine ⟨hw.trans hw', fun name => ?_⟩
    rw [List.foldl_cons, hown', hown]
    by_cases hnone : ownerOf s.names name = none
    · by_cases hes : ∃ e' ∈ es, e'.name = name
      · obtain ⟨e', he', hn⟩ := hes
        rw [if_pos ⟨⟨e', he', hn⟩, hnone⟩, if_pos ⟨⟨e', List.mem_cons_of_mem _ he', hn⟩, hnone⟩]
      · rw [if_neg fun h => hes h.1]
        by_cases hn : e.name = name
        · rw [if_pos ⟨hn, hnone⟩, if_pos ⟨⟨e, List.mem_cons_self .., hn⟩, hnone⟩]
        · rw [if_neg fun h => hn h.1, if_neg]
          rintro ⟨⟨e', he', hn'⟩, -⟩
          rcases List.mem_cons.mp he' with rfl | hmem
          · exact hn hn'
          · exact hes ⟨e', hmem, hn'⟩
    · rw [if_neg fun h => hnone h.2, if_neg fun h => hnone h.2, if_neg fun h => hnone h.2]

theorem openEpoch_iff (hk : Keyed epochs) {e : Epoch} (he : e ∈ epochs) :
    openEpoch epochs height e = true ↔
      e.owner.isSome = true ∧ lastEpoch epochs e.name height = some e := by
  unfold openEpoch
  rw [Bool.and_eq_true, Bool.and_eq_true, decide_eq_true_eq, decide_eq_true_eq]
  constructor
  · rintro ⟨⟨hopen, -⟩, hlast⟩
    obtain ⟨e', he', hs⟩ := Option.map_eq_some_iff.mp hlast
    obtain ⟨hmem, hn, -⟩ := lastEpoch_some he'
    refine ⟨hopen, ?_⟩
    rw [he', RowTable.Distinct.eq_of_mem _ hk hmem he (Prod.ext hn hs)]
  · rintro ⟨hopen, hlast⟩
    have hle := (lastEpoch_some hlast).2.2
    exact ⟨⟨hopen, hle⟩, by rw [hlast]; rfl⟩

/-- After the update the owners on record are the owners of the state. -/
theorem idxDbEpochsUpdate_writes (hk : Keyed epochs) (hup : ∀ e ∈ epochs, e.startHeight ≤ height)
    {s : SmState} (hs : RowTable.Distinct SmNameRow.name s.names) :
    WrittenAt height epochs (idxDbEpochsUpdate epochs s height) ∧ ∀ name,
      ownerOn (idxDbEpochsUpdate epochs s height) name height = ownerOf s.names name := by
  obtain ⟨hw, hown⟩ := recordOwners_write hk hup hs
  obtain ⟨hw', hown'⟩ := recordLapses_write hw.keyed hw.upTo s
    ((s.names.foldl (recordOwner height) epochs).filter
      (openEpoch (s.names.foldl (recordOwner height) epochs) height))
  refine ⟨hw.trans hw', fun name => ?_⟩
  refine (hown' name).trans ?_
  split
  · rename_i h
    exact h.2.symm
  · rename_i h
    rw [hown]
    cases hs' : ownerOf s.names name with
    | some o => rfl
    | none =>
      -- a name on record that the state lacks has an open row
      by_contra hopen
      have howner := hown name
      rw [hs'] at howner
      change ownerOn _ name height = ownerOn epochs name height at howner
      change ¬ ownerOn epochs name height = none at hopen
      rw [← howner] at hopen
      obtain ⟨o, ho⟩ := Option.ne_none_iff_exists'.mp hopen
      obtain ⟨e, he, heo⟩ := Option.bind_eq_some_iff.mp ho
      obtain ⟨hmem, hn, -⟩ := lastEpoch_some he
      refine h ⟨⟨e, List.mem_filter.mpr ⟨hmem, (openEpoch_iff hw.keyed hmem).mpr ⟨?_, ?_⟩⟩, hn⟩, hs'⟩
      · rw [heo]
        rfl
      · rw [hn]
        exact he

/-- The owners on record are written down again as they stand. -/
theorem idxDbEpochsUpdate_same (hk : Keyed epochs) {s : SmState}
    (hs : RowTable.Distinct SmNameRow.name s.names)
    (hsame : ∀ name, ownerOn epochs name height = ownerOf s.names name) :
    idxDbEpochsUpdate epochs s height = epochs := by
  have hnames : ∀ rows : List SmNameRow, (∀ r ∈ rows, r ∈ s.names) →
      rows.foldl (recordOwner height) epochs = epochs := by
    intro rows
    induction rows with
    | nil => exact fun _ => rfl
    | cons r rows ih =>
      intro hmem
      have hr : ownerOn epochs r.name height = some r.owner := by
        rw [hsame]
        unfold ownerOf
        rw [RowTable.lookup_of_mem SmNameRow.name hs (hmem r (List.mem_cons_self ..))]
        rfl
      have hone : recordOwner height epochs r = epochs := if_pos hr
      rw [List.foldl_cons, hone]
      exact ih fun r' hr' => hmem r' (List.mem_cons_of_mem _ hr')
  have hlapses : ∀ es : List Epoch, (∀ e ∈ es, e ∈ epochs ∧ openEpoch epochs height e = true) →
      es.foldl (recordLapse s height) epochs = epochs := by
    intro es
    induction es with
    | nil => exact fun _ => rfl
    | cons e es ih =>
      intro hmem
      obtain ⟨he, hopen⟩ := hmem e (List.mem_cons_self ..)
      obtain ⟨hsome, hlast⟩ := (openEpoch_iff hk he).mp hopen
      have hfound : (smFindName s e.name).isSome = true := by
        rw [smFindName_isSome, ← hsame]
        unfold ownerOn
        rw [hlast]
        exact hsome
      have hone : recordLapse s height epochs e = epochs := if_pos hfound
      rw [List.foldl_cons, hone]
      exact ih fun e' he' => hmem e' (List.mem_cons_of_mem _ he')
  unfold idxDbEpochsUpdate
  dsimp only
  rw [hnames s.names fun _ h => h]
  exact hlapses _ fun e he => List.mem_filter.mp he

end Write

/-- What `idx_db_owner_at` answers where the history starts at 0 and every row and every projected
name has a start above. -/
theorem idxDbOwnerAt_eq {epochs : List Epoch} {names : List SmNameRow}
    (hpos : ∀ e ∈ epochs, 0 < e.startHeight)
    (hnames : ∀ r ∈ names, ∃ e ∈ epochs, e.name = r.name) {height : ℤ} (hh : 0 ≤ height)
    (name : Name) :
    match ownerOn epochs name height with
    | some owner => ∃ type, idxDbOwnerAt epochs (some 0) names name height = .owned owner type
    | none => idxDbOwnerAt epochs (some 0) names name height = .unowned := by
  unfold ownerOn idxDbOwnerAt
  cases hl : lastEpoch epochs name height with
  | some e =>
    rw [Option.bind_some]
    cases ho : e.owner with
    | some owner =>
      refine ⟨e.ownerType, ?_⟩
      dsimp only
      rw [ho]
    | none =>
      dsimp only
      rw [ho]
  | none =>
    rw [Option.bind_none]
    dsimp only
    unfold beforeEpochs
    dsimp only
    rw [if_pos hh]
    split
    · rename_i start hstart
      obtain ⟨e, he, rfl⟩ := List.mem_map.mp (List.min?_eq_some_iff.mp hstart).1
      rw [List.mem_filter] at he
      rw [if_neg (ne_of_gt (hpos e he.1))]
    · rename_i hno
      rw [List.min?_eq_none_iff, List.map_eq_nil_iff, List.filter_eq_nil_iff] at hno
      have hlookup : RowTable.lookup SmNameRow.name names name = none := by
        rw [RowTable.lookup_eq_none]
        intro hmem
        obtain ⟨r, hr, rfl⟩ := List.mem_map.mp hmem
        obtain ⟨e, he, hn⟩ := hnames r hr
        exact hno e he (by simpa using hn)
      rw [hlookup]
      rfl

end NamespaceIndexer.Daemon
