import NamespaceIndexer.Ledger.Waterfill
import NamespaceIndexer.Ledger.Agreement
import NamespaceIndexer.Ledger.Payments

/-!
# What a bitmap selects

A bitmap action touches the names at its set bits in the actor's ascending list
and no others, whatever the removals do to the table on the way. With one bit
set it is the by-name action.
-/

namespace NamespaceIndexer

open Fold Lib

/-! ### Names in the table are valid -/

namespace Ledger

def NamesValid (L : Ledger) : Prop := ∀ n, L.names n ≠ none → smNameValid n = true

theorem Act.namesValid {sha256 : Bytes → Hash256} {tx : SmTx} {cx : SmTxCtx} {a : SmAction}
    {L L' : Ledger} {op : SmOp} {out : List Bool} (h : Act sha256 tx cx a L op L' out)
    (hL : L.NamesValid) : L'.NamesValid := by
  intro n hn
  by_cases habs : L.names n = none
  · obtain ⟨rfl, rfl⟩ := h.appears habs hn
    exact h.claim_best.1
  · exact hL n habs

theorem NamesValid.beginBlock {L : Ledger} (hL : L.NamesValid) (height mtp : ℤ) (rate : UInt64) :
    (L.beginBlock height mtp rate).NamesValid := by
  intro n hn
  rw [beginBlock_names] at hn
  refine hL n fun habs => hn ?_
  rw [habs]
  rfl

end Ledger

theorem Reachable.names_valid {sha256 : Bytes → Hash256} {activationHeight : UInt64} {s : SmState}
    (h : Reachable sha256 activationHeight s) : (obs s).NamesValid := by
  have hnew : (obs (smNew activationHeight)).NamesValid := fun n hn => absurd rfl hn
  induction h with
  | new => exact hnew
  | first _ =>
    have t := (wellKeyed_smNew activationHeight).tracks.smBeginBlock
    rw [(t _ _ _).obs_eq]
    exact hnew.beginBlock _ _ _
  | block reached _ _ ih =>
    rw [(reached.live.keyed.tracks.smBeginBlock _ _ _).obs_eq]
    exact ih.beginBlock _ _ _
  | tx reached ih =>
    rw [(reached.live.keyed.tracks.smApplyTx sha256 _).obs_eq]
    exact Ledger.applyTx_induct sha256 _ (fun _ _ hact hs => hact.namesValid hs) ih

/-! ### Rows from deeds -/

/-- A row is found by its deed. -/
theorem rowOf_eq_of_names {s' : SmState} {n : Name} {o : Option SmNameRow}
    (ho : ∀ r ∈ o, r.name = n) (h : (obs s').names n = o.map deed) : rowOf s' n = o := by
  change (rowOf s' n).map deed = o.map deed at h
  cases hr : rowOf s' n with
  | none =>
    rw [hr] at h
    exact (Option.map_eq_none_iff.mp h.symm).symm
  | some r =>
    rw [hr, Option.map_some] at h
    obtain ⟨r', rfl, hd⟩ := Option.map_eq_some_iff.mp h.symm
    have hn : r.name = n := RowTable.lookup_key SmNameRow.name hr
    rw [row_ext (hn.trans (ho r' rfl).symm) hd.symm]

theorem rowOf_name {s : SmState} {n : Name} : ∀ r ∈ rowOf s n, r.name = n :=
  fun _ hr => RowTable.lookup_key SmNameRow.name hr

/-! ### The selected names -/

/-- The names an identity controls, in ascending order. -/
def ownedNames (s : SmState) (who : H160) : List Name :=
  (smCollectOwned s who).map fun r => (s.row r).name

/-- Some set bit is at the position of `n`. -/
def Selected (s : SmState) (who : H160) (flags : Bytes) (n : Name) : Prop :=
  ∃ i, (ownedNames s who)[i]? = some n ∧ bitSet flags i = true

theorem mem_selectBitmap {α : Type} {flags : Bytes} {l : List α} {x : α} :
    x ∈ selectBitmap flags l ↔ ∃ i, l[i]? = some x ∧ bitSet flags i = true := by
  unfold selectBitmap
  simp only [List.mem_map, List.mem_filter, Prod.exists, List.mem_zipIdx_iff_getElem?]
  constructor
  · intro ⟨y, i, ⟨hi, hb⟩, hy⟩
    exact ⟨i, hy ▸ hi, hb⟩
  · intro ⟨i, hi, hb⟩
    exact ⟨x, i, ⟨hi, hb⟩, rfl⟩

theorem selected_iff {s : SmState} {who : H160} {flags : Bytes} {n : Name} :
    Selected s who flags n ↔ n ∈ selectBitmap flags (ownedNames s who) :=
  mem_selectBitmap.symm

/-- With one bit set the one name at it is selected. -/
theorem selectBitmap_single {α : Type} {flags : Bytes} {i : ℕ} {l : List α} {x : α}
    (hx : l[i]? = some x) (hf : ∀ j, bitSet flags j = true ↔ j = i) : selectBitmap flags l = [x] := by
  unfold selectBitmap
  have hfilter : l.zipIdx.filter (fun p => bitSet flags p.2) = [(x, i)] := by
    have hnd : (l.zipIdx.filter fun p => bitSet flags p.2).Nodup :=
      (List.nodup_zipIdx_map_snd l).of_map.filter _
    have hmem : ∀ p, p ∈ l.zipIdx.filter (fun p => bitSet flags p.2) ↔ p ∈ [(x, i)] := by
      intro ⟨y, j⟩
      rw [List.mem_filter, List.mem_zipIdx_iff_getElem?, hf, List.mem_singleton, Prod.mk.injEq]
      constructor
      · intro ⟨hy, hj⟩
        subst hj
        exact ⟨Option.some.inj (hy.symm.trans hx), rfl⟩
      · intro ⟨hy, hj⟩
        subst hj hy
        exact ⟨hx, rfl⟩
    have hp := (List.perm_ext_iff_of_nodup hnd (List.nodup_singleton (x, i))).mpr hmem
    exact List.perm_singleton.mp hp
  rw [hfilter]
  rfl

/-! ### TRANSFER and RELEASE -/

namespace Ledger

theorem transfer_names {L : Ledger} {cx : SmTxCtx} {a : SmAction} (ha : a.hasAnchor = true)
    (hok : L.anchorOk cx.actor a.anchor cx.height = true) (n : Name) :
    (L.transfer cx a).names n =
      if n ∈ selectBitmap a.flags (L.ownedList cx.actor) then (L.names n).map (Deed.give a.addr)
      else L.names n := by
  have hsel : (if (!a.hasAnchor) = true then L.ownedList cx.actor
      else selectBitmap a.flags (L.ownedList cx.actor))
      = selectBitmap a.flags (L.ownedList cx.actor) := by simp [ha]
  unfold transfer
  rw [if_neg (by simp [ha, hok])]
  simp only
  rw [hsel]
  split
  · rfl
  · rename_i hlocked
    split
    · rename_i hn
      cases hd : L.names n with
      | none => rfl
      | some d =>
        have hst : ¬ d.st = .OWNED := fun hst => hlocked ⟨n, hn, d, hd, hst⟩
        rw [Option.map_some, Deed.give, if_neg hst]
    · rfl

theorem release_names {L : Ledger} {cx : SmTxCtx} {a : SmAction} (ha : a.hasAnchor = true)
    (hok : L.anchorOk cx.actor a.anchor cx.height = true) (n : Name) :
    (L.release cx a).names n =
      if n ∈ selectBitmap a.flags (L.ownedList cx.actor) then
        (L.names n).filter fun d => d.st ≠ .OWNED
      else L.names n := by
  unfold release
  simp only [ha, hok, Bool.not_true, Bool.false_eq_true, if_false]
  split
  · rfl
  · rename_i hlocked
    split
    · rename_i hn
      cases hd : L.names n with
      | none => rfl
      | some d =>
        have hst : ¬ d.st = .OWNED := fun hst => hlocked ⟨n, hn, d, hd, hst⟩
        simp [Option.filter, hst]
    · rfl

end Ledger

/-- A gift of the row, if it is not locked. -/
def giftRow (addr : H160) (r : SmNameRow) : SmNameRow :=
  if r.st = .OWNED then { r with owner := addr, ownerType := 0 } else r

section Rows

variable {s : SmState} {cx : SmTxCtx} {a : SmAction}

theorem mem_ownedList_iff (hk : WellKeyed s) (who : H160) (flags : Bytes) (n : Name) :
    n ∈ selectBitmap flags ((obs s).ownedList who) ↔ Selected s who flags n := by
  rw [← hk.tracks.collectOwned]
  exact selected_iff.symm

theorem rowOf_smOpTransfer (hk : WellKeyed s) (ha : a.hasAnchor = true)
    (hok : anchorOk s cx.actor a.anchor cx.height = true) (n : Name) :
    (Selected s cx.actor a.flags n →
      rowOf (smOpTransfer s cx a) n = (rowOf s n).map (giftRow a.addr)) ∧
    (¬ Selected s cx.actor a.flags n → rowOf (smOpTransfer s cx a) n = rowOf s n) := by
  have t := hk.tracks.smOpTransfer cx a
  rw [hk.tracks.anchorOk] at hok
  have hnames := Ledger.transfer_names ha hok n
  rw [← t.obs_eq] at hnames
  constructor
  · intro hsel
    rw [if_pos ((mem_ownedList_iff hk _ _ _).mpr hsel)] at hnames
    refine rowOf_eq_of_names ?_ (hnames.trans ?_)
    · intro r hr
      obtain ⟨r', hr', rfl⟩ := Option.map_eq_some_iff.mp hr
      unfold giftRow
      split <;> exact rowOf_name r' hr'
    · change ((rowOf s n).map deed).map (Deed.give a.addr) = _
      rw [Option.map_map, Option.map_map]
      congr 1
      funext r
      simp only [Function.comp_apply, Deed.give, giftRow]
      split <;> rfl
  · intro hsel
    rw [if_neg (mt (mem_ownedList_iff hk _ _ _).mp hsel)] at hnames
    exact rowOf_eq_of_names rowOf_name hnames

theorem rowOf_smOpRelease (hk : WellKeyed s) (ha : a.hasAnchor = true)
    (hok : anchorOk s cx.actor a.anchor cx.height = true) (n : Name) :
    (Selected s cx.actor a.flags n →
      rowOf (smOpRelease s cx a) n = (rowOf s n).filter fun r => r.st ≠ .OWNED) ∧
    (¬ Selected s cx.actor a.flags n → rowOf (smOpRelease s cx a) n = rowOf s n) := by
  have t := hk.tracks.smOpRelease cx a
  rw [hk.tracks.anchorOk] at hok
  have hnames := Ledger.release_names ha hok n
  rw [← t.obs_eq] at hnames
  constructor
  · intro hsel
    rw [if_pos ((mem_ownedList_iff hk _ _ _).mpr hsel)] at hnames
    refine rowOf_eq_of_names ?_ (hnames.trans ?_)
    · intro r hr
      exact rowOf_name r (Option.filter_eq_some_iff.mp hr).1
    · change ((rowOf s n).map deed).filter _ = _
      rw [Option.filter_map]
      rfl
  · intro hsel
    rw [if_neg (mt (mem_ownedList_iff hk _ _ _).mp hsel)] at hnames
    exact rowOf_eq_of_names rowOf_name hnames

/-! ### RENEW -/

theorem mem_selectBitmap_rows (hk : WellKeyed s) {who : H160} {flags : Bytes} {r : ℕ}
    (hr : r < s.names.length) :
    r ∈ selectBitmap flags (smCollectOwned s who) ↔ Selected s who flags (s.row r).name := by
  rw [selected_iff, ownedNames, selectBitmap_map, List.mem_map]
  constructor
  · intro h
    exact ⟨r, h, rfl⟩
  · intro ⟨r', hr', hn⟩
    have hlt : r' < s.names.length :=
      (mem_smCollectOwned.mp ((selectBitmap_sublist flags _).subset hr')).1
    rw [← RowTable.index_inj SmNameRow.name hk.names (getElem?_row hlt) (getElem?_row hr) hn]
    exact hr'

theorem ownedNames_nodup (hk : WellKeyed s) (who : H160) : (ownedNames s who).Nodup :=
  hk.tracks.nodup_names (fun _ h => (mem_smCollectOwned.mp h).1) (smCollectOwned_nodup s who)

theorem ownedNames_sorted (hk : WellKeyed s) (who : H160) :
    (ownedNames s who).Pairwise (· < ·) := by
  have hle : (ownedNames s who).Pairwise (· ≤ ·) :=
    List.pairwise_map.mpr (smCollectOwned_sorted s who)
  exact (hle.and (ownedNames_nodup hk who)).imp fun h => lt_of_le_of_ne h.1 h.2

theorem mem_ownedNames (hk : WellKeyed s) (who : H160) (n : Name) :
    n ∈ ownedNames s who ↔ ∃ r, rowOf s n = some r ∧ r.holder = who := by
  unfold ownedNames
  rw [List.mem_map]
  constructor
  · intro ⟨r, hr, hn⟩
    obtain ⟨hlt, hh⟩ := mem_smCollectOwned.mp hr
    have hl := RowTable.lookup_of_getElem? SmNameRow.name hk.names (getElem?_row hlt)
    exact ⟨s.row r, hn ▸ hl, hh⟩
  · intro ⟨r, hr, hh⟩
    cases hf : smFindName s n with
    | none =>
      rw [rowOf, (RowTable.indexOf?_none SmNameRow.name).mp hf] at hr
      cases hr
    | some i =>
      obtain ⟨x, hx, hn, hl⟩ := RowTable.indexOf?_some SmNameRow.name hf
      have hi : s.row i = r := by
        have hrow : s.row i = x := by simp [SmState.row, List.getD_eq_getElem?_getD, hx]
        rw [hrow]
        exact Option.some.inj (hl.symm.trans hr)
      refine ⟨i, mem_smCollectOwned.mpr ⟨(List.getElem?_eq_some_iff.mp hx).1, ?_⟩, ?_⟩
      · rw [hi]
        exact hh
      · rw [hi]
        exact rowOf_name r hr

theorem rowOf_eq_find (s : SmState) (n : Name) : rowOf s n = (smFindName s n).map s.row := by
  cases hf : smFindName s n with
  | none => exact (RowTable.indexOf?_none SmNameRow.name).mp hf
  | some r => exact (rowOf_of_find hf).1

/-- If no row moves and none is renamed, a name's row is the row at its old place. -/
theorem rowOf_of_rows {s' : SmState} (hlen : s'.names.length = s.names.length)
    (hname : ∀ r, (s'.row r).name = (s.row r).name) (n : Name) :
    rowOf s' n = (smFindName s n).map s'.row := by
  have hkeys : s'.names.map SmNameRow.name = s.names.map SmNameRow.name := by
    refine List.ext_getElem (by simp [hlen]) fun i h1 h2 => ?_
    have hi := hname i
    rw [List.length_map] at h1 h2
    rw [List.getElem_map, List.getElem_map]
    simpa [SmState.row, List.getD_eq_getElem?_getD, h1, h2] using hi
  have hfind : smFindName s' n = smFindName s n := RowTable.indexOf?_congr SmNameRow.name hkeys n
  rw [rowOf_eq_find, hfind]

/-- The days that a selective renewal adds to the lease of `n`: its water-fill share among the
selected names. -/
def renewDays (s : SmState) (cx : SmTxCtx) (flags : Bytes) : Name → ℕ :=
  WaterFill.award id (fun n => headroomDays cx.mtp ((rowOf s n).elim 0 SmNameRow.leaseExpiry))
    (selectBitmap flags (ownedNames s cx.actor)) (rawT cx.carValue cx.rate)

theorem rowOf_smOpRenew (hk : WellKeyed s) (ha : a.hasAnchor = true)
    (hok : anchorOk s cx.actor a.anchor cx.height = true) (hflags : a.flags ≠ []) (n : Name) :
    (Selected s cx.actor a.flags n → rowOf (smOpRenew s cx a) n =
      (rowOf s n).map fun r => { r with
        leaseExpiry := r.leaseExpiry + renewDays s cx a.flags n * billingUnit }) ∧
    (¬ Selected s cx.actor a.flags n → rowOf (smOpRenew s cx a) n = rowOf s n) := by
  set sel := selectBitmap a.flags (smCollectOwned s cx.actor) with hsel
  have hrenew : smOpRenew s cx a = smWaterfill s cx.mtp cx.rate cx.carValue sel := by
    unfold smOpRenew
    simp [ha, hok, hflags, hsel]
  have hsub : sel.Sublist (smCollectOwned s cx.actor) := selectBitmap_sublist _ _
  have hlt : ∀ r ∈ sel, r < s.names.length := fun r h => (mem_smCollectOwned.mp (hsub.subset h)).1
  have hnd : (sel.map fun r => (s.row r).name).Nodup :=
    (ownedNames_nodup hk cx.actor).sublist (hsub.map _)
  have hrow := row_smWaterfill s cx.mtp cx.rate cx.carValue sel hlt hnd
  have hname : ∀ r, ((smOpRenew s cx a).row r).name = (s.row r).name := by
    intro r
    rw [hrenew, hrow]
    split <;> rfl
  have hlen : (smOpRenew s cx a).names.length = s.names.length := by
    rw [hrenew, names_length_smWaterfill]
  have hfind := rowOf_of_rows hlen hname n
  rw [hfind, rowOf_eq_find]
  cases hf : smFindName s n with
  | none => exact ⟨fun _ => rfl, fun _ => rfl⟩
  | some r =>
    obtain ⟨hr, hrl⟩ := rowOf_of_find hf
    have hn : (s.row r).name = n := rowOf_name _ hr
    have hmem : r ∈ sel ↔ Selected s cx.actor a.flags n := by
      rw [hsel, mem_selectBitmap_rows hk hrl, hn]
    simp only [Option.map_some, Option.some.injEq]
    rw [hrenew, hrow]
    constructor
    · intro hs
      rw [if_pos (hmem.mpr hs)]
      have hdays : daysOf s cx.mtp cx.rate cx.carValue sel r = renewDays s cx a.flags n := by
        have hcells : selectBitmap a.flags (ownedNames s cx.actor)
            = sel.map fun r => (s.row r).name := selectBitmap_map _ _ _
        unfold renewDays
        rw [hcells, ← hn, WaterFill.award_map]
        unfold daysOf
        refine WaterFill.award_congr ?_ ?_
        · intro r' hr'
          have hl := RowTable.lookup_of_getElem? SmNameRow.name hk.names (getElem?_row (hlt r' hr'))
          have hrow' : rowOf s (s.row r').name = some (s.row r') := hl
          simp [hrow']
        · exact hmem.mpr hs
      rw [hdays]
    · intro hs
      rw [if_neg (mt hmem.mp hs)]

/-! ### One bit and the name at it -/

/-- `find_mine` finds the rows of `sm_collect_owned` by their names. -/
theorem findMine_of_owned (hk : WellKeyed s) (hvalid : (obs s).NamesValid) {who : H160} {r : ℕ}
    (hr : r ∈ smCollectOwned s who) {b : SmAction} (hb : b.name = (s.row r).name) :
    findMine s who b = some r ∧ smFindName s b.name = some r := by
  obtain ⟨hlt, hh⟩ := mem_smCollectOwned.mp hr
  have hl := RowTable.lookup_of_getElem? SmNameRow.name hk.names (getElem?_row hlt)
  have hfind : smFindName s b.name = some r := by
    rw [hb]
    cases hf : smFindName s (s.row r).name with
    | none =>
      rw [(RowTable.indexOf?_none SmNameRow.name).mp hf] at hl
      cases hl
    | some k =>
      obtain ⟨x, hx, hn, -⟩ := RowTable.indexOf?_some SmNameRow.name hf
      rw [RowTable.index_inj SmNameRow.name hk.names hx (getElem?_row hlt) hn]
  have hlen : ¬ b.name.length < 1 := by
    have hne : (obs s).names b.name ≠ none := by
      rw [hb, ne_eq, obs_names_eq_none, rowOf, hl]
      exact Option.some_ne_none _
    have hv := hvalid _ hne
    intro hshort
    unfold smNameValid at hv
    simp [hshort] at hv
  refine ⟨?_, hfind⟩
  unfold findMine
  rw [if_neg hlen, hfind]
  simp only [hh, if_true]

/-- The bitmap action with only the bit of `n` set is the by-name action on `n`. -/
theorem byName_eq_bitmap (hk : WellKeyed s) (hvalid : (obs s).NamesValid) (ha : a.hasAnchor = true)
    (hok : anchorOk s cx.actor a.anchor cx.height = true) {i : ℕ} {n : Name}
    (hn : (ownedNames s cx.actor)[i]? = some n) (hf : ∀ j, bitSet a.flags j = true ↔ j = i)
    {b : SmAction} (hb : b.name = n) (haddr : b.addr = a.addr) :
    smOpRenewName s cx b = smOpRenew s cx a ∧ smOpTransferName s cx b = smOpTransfer s cx a ∧
      smOpReleaseName s cx b = smOpRelease s cx a := by
  unfold ownedNames at hn
  rw [List.getElem?_map, Option.map_eq_some_iff] at hn
  obtain ⟨r, hr, hrn⟩ := hn
  have hsel : selectBitmap a.flags (smCollectOwned s cx.actor) = [r] := selectBitmap_single hr hf
  obtain ⟨hmine, hfind⟩ := findMine_of_owned hk hvalid (List.mem_of_getElem? hr) (hb.trans hrn.symm)
  have hflags : a.flags ≠ [] := by
    intro hnil
    have hbit := (hf i).mpr rfl
    rw [hnil] at hbit
    cases hbit
  refine ⟨?_, ?_, ?_⟩
  · unfold smOpRenewName smOpRenew
    simp [hmine, ha, hok, hflags, hsel]
  · unfold smOpTransferName smOpTransfer
    simp only [hmine, ha, hok, hsel, haddr, Bool.not_true, Bool.and_false, Bool.false_eq_true,
      if_false, List.foldl_cons, List.foldl_nil, giveRow]
    by_cases hst : (s.row r).st = .OWNED
    · simp [hst]
    · simp [hst]
  · unfold smOpReleaseName smOpRelease
    have hrow : b.name = (s.row r).name := hb.trans hrn.symm
    simp only [hmine, ha, hok, hsel, Bool.not_true, Bool.false_eq_true, if_false]
    by_cases hst : (s.row r).st = .OWNED
    · simp [hst, releaseOne, ← hrow, hfind]
    · simp [hst]

end Rows

/-- The bitmap actions with an accepted anchor, on any state of a run: what they select, what they
do to it, and that they leave the rest; and the by-name actions are their one-bit cases. -/
theorem bitmap_selection {sha256 : Bytes → Hash256} {activationHeight : UInt64} {s : SmState}
    (reach : Reachable sha256 activationHeight s) (cx : SmTxCtx) (a : SmAction)
    (ha : a.hasAnchor = true) (hok : anchorOk s cx.actor a.anchor cx.height = true) :
    (ownedNames s cx.actor).Pairwise (· < ·) ∧
    (∀ n, n ∈ ownedNames s cx.actor ↔ ∃ r, rowOf s n = some r ∧ r.holder = cx.actor) ∧
    (a.flags ≠ [] → ∀ n,
      (Selected s cx.actor a.flags n → rowOf (smOpRenew s cx a) n =
        (rowOf s n).map fun r => { r with
          leaseExpiry := r.leaseExpiry + renewDays s cx a.flags n * billingUnit }) ∧
      (¬ Selected s cx.actor a.flags n → rowOf (smOpRenew s cx a) n = rowOf s n)) ∧
    (∀ n, (Selected s cx.actor a.flags n →
        rowOf (smOpTransfer s cx a) n = (rowOf s n).map (giftRow a.addr)) ∧
      (¬ Selected s cx.actor a.flags n → rowOf (smOpTransfer s cx a) n = rowOf s n)) ∧
    (∀ n, (Selected s cx.actor a.flags n →
        rowOf (smOpRelease s cx a) n = (rowOf s n).filter fun r => r.st ≠ .OWNED) ∧
      (¬ Selected s cx.actor a.flags n → rowOf (smOpRelease s cx a) n = rowOf s n)) ∧
    ∀ i n, (ownedNames s cx.actor)[i]? = some n → (∀ j, bitSet a.flags j = true ↔ j = i) →
      ∀ b : SmAction, b.name = n → b.addr = a.addr →
        smOpRenewName s cx b = smOpRenew s cx a ∧ smOpTransferName s cx b = smOpTransfer s cx a ∧
          smOpReleaseName s cx b = smOpRelease s cx a := by
  have hk := reach.live.keyed
  refine ⟨ownedNames_sorted hk cx.actor, mem_ownedNames hk cx.actor, ?_, ?_, ?_, ?_⟩
  · intro hflags n
    exact rowOf_smOpRenew hk ha hok hflags n
  · intro n
    exact rowOf_smOpTransfer hk ha hok n
  · intro n
    exact rowOf_smOpRelease hk ha hok n
  · intro i n hn hf b hb haddr
    exact byName_eq_bitmap hk reach.names_valid ha hok hn hf hb haddr

/-- The state after the short run. -/
def sampleEnd : SmState :=
  smApplyTx sampleSha256 (smBeginBlock (smApplyTx sampleSha256
    (smBeginBlock (smNew 0) 10 1000 28) sampleCommit) 11 2000 28) sampleClaim

theorem bitmap_selection_sample :
    let cx : SmTxCtx :=
      { height := 12, mtp := 2000, rate := 28, txindex := 0, actor := sampleActor, carValue := 10,
        outConsumed := [] }
    let a : SmAction := { op := 0x0A, hasAnchor := true, anchor := 11, flags := [1] }
    rowOf (smOpRelease sampleEnd cx a) [97] = none ∧
      smOpReleaseName sampleEnd cx { op := 0x0B, name := [97] } = smOpRelease sampleEnd cx a := by
  intro cx a
  have hreach : Reachable sampleSha256 0 sampleEnd :=
    .tx (.block (.tx (.first (by decide))) (by decide) (by decide))
  obtain ⟨-, -, -, -, hrelease, hname⟩ := bitmap_selection hreach cx a rfl (by decide +kernel)
  have hsel : Selected sampleEnd sampleActor [1] [97] := ⟨0, by decide +kernel, by decide⟩
  have hbits : ∀ j, bitSet [1] j = true ↔ j = 0 := by
    intro j
    unfold bitSet
    rcases Nat.lt_or_ge j 8 with hj | hj
    · interval_cases j <;> decide
    · have hdiv : 1 ≤ j / 8 := by omega
      rw [List.getElem?_eq_none (by simpa using hdiv)]
      simp only [Bool.false_eq_true, false_iff]
      omega
  refine ⟨((hrelease [97]).1 hsel).trans (by decide +kernel), ?_⟩
  exact (hname 0 [97] (by decide +kernel) hbits { op := 0x0B, name := [97] } rfl rfl).2.2

end NamespaceIndexer
