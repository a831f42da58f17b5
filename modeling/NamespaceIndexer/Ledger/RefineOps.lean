import NamespaceIndexer.Ledger.RefineLease

/-!
# Every handler implements its rule

A fold state that tracks a ledger still tracks it after a handler of the fold
on one side and the rule of the ledger on the other.
-/

namespace NamespaceIndexer

open Fold Lib

/-! ### Owned sets and bitmaps -/

theorem selectBitmap_sublist {α : Type} (flags : Bytes) (l : List α) :
    (selectBitmap flags l).Sublist l := by
  have h := (List.filter_sublist (p := fun p => bitSet flags p.2) (l := l.zipIdx)).map Prod.fst
  rw [List.zipIdx_map_fst] at h
  exact h

theorem selectBitmap_map {α β : Type} (flags : Bytes) (f : α → β) (l : List α) :
    selectBitmap flags (l.map f) = (selectBitmap flags l).map f := by
  unfold selectBitmap
  rw [List.zipIdx_map, List.filter_map, List.map_map, List.map_map]
  rfl

theorem mem_smCollectOwned {s : SmState} {who : H160} {r : ℕ} :
    r ∈ smCollectOwned s who ↔ r < s.names.length ∧ (s.row r).holder = who := by
  unfold smCollectOwned sortByName
  rw [List.mem_insertionSort, List.mem_filter, List.mem_range, decide_eq_true_iff]

theorem smCollectOwned_nodup (s : SmState) (who : H160) : (smCollectOwned s who).Nodup := by
  unfold smCollectOwned sortByName
  rw [(List.perm_insertionSort _ _).nodup_iff]
  exact List.Nodup.filter _ List.nodup_range

theorem smCollectOwned_sorted (s : SmState) (who : H160) :
    (smCollectOwned s who).Pairwise fun a b => (s.row a).name ≤ (s.row b).name := by
  have htrans : IsTrans ℕ fun a b => (s.row a).name ≤ (s.row b).name :=
    ⟨fun _ _ _ hab hbc => le_trans hab hbc⟩
  have htotal : Std.Total fun a b => (s.row a).name ≤ (s.row b).name := ⟨fun _ _ => le_total _ _⟩
  exact List.pairwise_insertionSort _ _

theorem sortByName_of_sorted {s : SmState} {rows : List ℕ}
    (h : rows.Pairwise fun a b => (s.row a).name ≤ (s.row b).name) : sortByName s rows = rows :=
  List.Pairwise.insertionSort_eq h

namespace Tracks

variable {s : SmState} {L : Ledger}

/-- `sm_collect_owned` lists the owned set in ascending order. -/
theorem collectOwned (t : Tracks s L) (who : H160) :
    (smCollectOwned s who).map (fun r => (s.row r).name) = L.ownedList who := by
  symm
  refine PartialMap.listing_eq ?_ ?_ ?_
  · rw [List.pairwise_map]
    exact smCollectOwned_sorted s who
  · exact t.nodup_names (fun r h => (mem_smCollectOwned.mp h).1) (smCollectOwned_nodup s who)
  · intro n
    rw [List.mem_map]
    constructor
    · rintro ⟨r, hr, rfl⟩
      obtain ⟨hlt, hh⟩ := mem_smCollectOwned.mp hr
      exact ⟨_, t.names_row hlt, hh⟩
    · rintro ⟨d, hd, hh⟩
      cases hf : smFindName s n with
      | none =>
        rw [t.find_none hf] at hd
        cases hd
      | some r =>
        obtain ⟨hlt, hn, hL⟩ := t.find_some hf
        rw [hL] at hd
        cases hd
        exact ⟨r, mem_smCollectOwned.mpr ⟨hlt, hh⟩, hn⟩

/-- Water-filling a part of the owned set, in its order. -/
theorem waterfill_owned (t : Tracks s L) (now : ℤ) (rate burn : UInt64) (who : H160)
    {rows : List ℕ} (h : rows.Sublist (smCollectOwned s who)) :
    Tracks (smWaterfill s now rate burn rows)
      (L.extend now rate burn (rows.map fun r => (s.row r).name)) := by
  have ht := t.waterfill now rate burn rows
    (fun r hr => (mem_smCollectOwned.mp (h.subset hr)).1)
    ((smCollectOwned_nodup s who).sublist h)
  rw [sortByName_of_sorted ((smCollectOwned_sorted s who).sublist h)] at ht
  exact ht

theorem waterfill_one (t : Tracks s L) (now : ℤ) (rate burn : UInt64) {r : ℕ}
    (hr : r < s.names.length) :
    Tracks (smWaterfill s now rate burn [r]) (L.extend now rate burn [(s.row r).name]) := by
  have ht := t.waterfill now rate burn [r] (fun r' h => by
    rw [List.mem_singleton.mp h]
    exact hr) (List.nodup_singleton r)
  rw [sortByName_of_sorted (List.pairwise_singleton _ _)] at ht
  exact ht

theorem smOpRenew (t : Tracks s L) (cx : SmTxCtx) (a : SmAction) :
    Tracks (Fold.smOpRenew s cx a) (L.renew cx a) := by
  have hall := t.waterfill_owned cx.mtp cx.rate cx.carValue cx.actor (List.Sublist.refl _)
  have hsel := t.waterfill_owned cx.mtp cx.rate cx.carValue cx.actor
    (selectBitmap_sublist a.flags (smCollectOwned s cx.actor))
  rw [← selectBitmap_map] at hsel
  rw [t.collectOwned] at hall hsel
  unfold Fold.smOpRenew Ledger.renew
  rw [t.anchorOk]
  split
  · exact hall
  · split
    · split
      · exact hall
      · exact hsel
    · exact t

/-! ### Gifts -/

theorem giveRow (t : Tracks s L) (addr : H160) {r : ℕ} (hr : r < s.names.length) :
    Tracks (Fold.giveRow addr s r)
      (L.withNames (PartialMap.modify L.names (s.row r).name (Deed.give addr))) := by
  have hn := t.names_row hr
  unfold Fold.giveRow
  by_cases hst : (s.row r).st = .OWNED
  · rw [if_neg (not_not.mpr hst)]
    have hset := t.setRow (r := r) (v := { s.row r with owner := addr, ownerType := 0 }) hr rfl
    have hd : deed { s.row r with owner := addr, ownerType := 0 } = (deed (s.row r)).give addr := by
      have hst' : (deed (s.row r)).st = .OWNED := hst
      unfold Deed.give
      rw [if_pos hst']
    unfold PartialMap.modify
    rw [hn, Option.map_some, ← hd]
    exact hset
  · rw [if_pos hst]
    have hd : (deed (s.row r)).give addr = deed (s.row r) := by
      have hst' : ¬ (deed (s.row r)).st = .OWNED := hst
      unfold Deed.give
      rw [if_neg hst']
    unfold PartialMap.modify
    rw [hn, Option.map_some, hd, ← hn, Function.update_eq_self]
    exact t

theorem giveRow_name (addr : H160) {r : ℕ} (hr : r < s.names.length) (r' : ℕ) :
    ((Fold.giveRow addr s r).row r').name = (s.row r').name ∧
      (Fold.giveRow addr s r).names.length = s.names.length := by
  unfold Fold.giveRow
  split
  · exact ⟨rfl, rfl⟩
  · refine ⟨?_, names_length_setRow _ _ _⟩
    by_cases h : r = r'
    · subst h
      rw [row_setRow_self hr]
    · rw [row_setRow_ne h]

theorem foldl_giveRow (t : Tracks s L) (addr : H160) {rows : List ℕ}
    (hr : ∀ r ∈ rows, r < s.names.length) :
    Tracks (rows.foldl (Fold.giveRow addr) s) (L.withNames
      ((rows.map fun r => ((s.row r).name, ())).foldl
        (fun f q => PartialMap.modify f q.1 (Deed.give addr)) L.names)) := by
  induction rows generalizing s L with
  | nil => exact t
  | cons r rows ih =>
    have hr0 := hr r List.mem_cons_self
    have hname := fun r' => (giveRow_name addr hr0 r').1
    have hstep := ih (t.giveRow addr hr0) fun r' hr' => by
      rw [(giveRow_name addr hr0 r').2]
      exact hr r' (List.mem_cons_of_mem _ hr')
    simp only [hname] at hstep
    exact hstep

theorem someUnlocked_iff (t : Tracks s L) {rows : List ℕ} (hr : ∀ r ∈ rows, r < s.names.length) :
    L.SomeUnlocked (rows.map fun r => (s.row r).name) ↔ ∃ r ∈ rows, (s.row r).st = .OWNED := by
  constructor
  · rintro ⟨n, hn, d, hd, hst⟩
    obtain ⟨r, hmem, rfl⟩ := List.mem_map.mp hn
    rw [t.names_row (hr r hmem)] at hd
    cases hd
    exact ⟨r, hmem, hst⟩
  · rintro ⟨r, hmem, hst⟩
    exact ⟨_, List.mem_map_of_mem hmem, _, t.names_row (hr r hmem), hst⟩

theorem smOpTransfer (t : Tracks s L) (cx : SmTxCtx) (a : SmAction) :
    Tracks (Fold.smOpTransfer s cx a) (L.transfer cx a) := by
  unfold Fold.smOpTransfer Ledger.transfer
  rw [t.anchorOk]
  split
  · exact t
  · simp only
    set sel := if (!a.hasAnchor) = true then smCollectOwned s cx.actor
      else selectBitmap a.flags (smCollectOwned s cx.actor) with hsel
    have hsub : sel.Sublist (smCollectOwned s cx.actor) := by
      rw [hsel]
      split
      · exact List.Sublist.refl _
      · exact selectBitmap_sublist _ _
    have hlt : ∀ r ∈ sel, r < s.names.length := fun r h =>
      (mem_smCollectOwned.mp (hsub.subset h)).1
    have hnames : (if (!a.hasAnchor) = true then L.ownedList cx.actor
        else selectBitmap a.flags (L.ownedList cx.actor)) = sel.map fun r => (s.row r).name := by
      rw [hsel, ← t.collectOwned]
      split
      · rfl
      · rw [selectBitmap_map]
    rw [hnames]
    have hfold := t.foldl_giveRow a.addr hlt
    have hnd := t.nodup_names hlt ((smCollectOwned_nodup s cx.actor).sublist hsub)
    rw [PartialMap.foldl_modify _ (fun _ => Deed.give a.addr) _
      (by rw [List.map_map]; exact hnd)] at hfold
    have hmap : (sel.map fun r => ((s.row r).name, ()))
        = (sel.map fun r => (s.row r).name).map fun n => (n, ()) := by
      rw [List.map_map]
      rfl
    have hgive : L.withNames (PartialMap.modifyAll (sel.map fun r => ((s.row r).name, ()))
        (fun _ => Deed.give a.addr) L.names) = L.giveAll a.addr (sel.map fun r => (s.row r).name) := by
      refine congrArg L.withNames (funext fun n => ?_)
      rw [hmap, PartialMap.modifyAll_const]
      by_cases hn : n ∈ sel.map fun r => (s.row r).name
      · rw [if_pos hn, if_pos hn]
      · rw [if_neg hn, if_neg hn]
    rw [hgive] at hfold
    have hiff := t.someUnlocked_iff hlt
    have hcount : (sel.countP fun r => (s.row r).st = .OWNED) > 0 ↔ ∃ r ∈ sel,
        (s.row r).st = .OWNED := by
      simp [List.countP_pos_iff]
    by_cases hm : L.SomeUnlocked (sel.map fun r => (s.row r).name)
    · rw [if_pos hm, if_pos (hcount.mpr (hiff.mp hm))]
      exact (hfold.bump _ _).bump _ _
    · rw [if_neg hm, if_neg (fun h => hm (hiff.mpr (hcount.mp h)))]
      -- nothing moved: every selected name is locked and the gift leaves it alone
      have hid : L.giveAll a.addr (sel.map fun r => (s.row r).name) = L := by
        refine (congrArg L.withNames (funext fun n => ?_)).trans (b := L.withNames L.names) rfl
        split
        · rename_i hn
          cases hd : L.names n with
          | none => rfl
          | some d =>
            have hst : ¬ d.st = .OWNED := fun hst => hm ⟨n, hn, d, hd, hst⟩
            rw [Option.map_some, Deed.give, if_neg hst]
        · rfl
      rw [hid] at hfold
      exact hfold

/-! ### By-name forms -/

theorem findMine_some (t : Tracks s L) {who : H160} {a : SmAction} {r : ℕ}
    (h : findMine s who a = some r) :
    r < s.names.length ∧ (s.row r).name = a.name ∧ L.mine who a = some (deed (s.row r)) := by
  unfold findMine at h
  split at h
  · cases h
  · rename_i hlen
    split at h
    · cases h
    · rename_i r' hf
      split at h
      · rename_i hh
        cases h
        obtain ⟨hlt, hn, hL⟩ := t.find_some hf
        refine ⟨hlt, hn, ?_⟩
        unfold Ledger.mine
        rw [if_neg hlen, hL, Option.filter_some, holder_deed, decide_eq_true hh, if_pos rfl]
      · cases h

theorem findMine_none (t : Tracks s L) {who : H160} {a : SmAction}
    (h : findMine s who a = none) : L.mine who a = none := by
  unfold findMine at h
  unfold Ledger.mine
  split at h
  · rename_i hlen
    rw [if_pos hlen]
  · rename_i hlen
    rw [if_neg hlen]
    split at h
    · rename_i hf
      rw [t.find_none hf, Option.filter_none]
    · rename_i r hf
      split at h
      · cases h
      · rename_i hh
        rw [(t.find_some hf).2.2, Option.filter_some, holder_deed, decide_eq_false hh,
          if_neg Bool.false_ne_true]

theorem smOpRenewName (t : Tracks s L) (cx : SmTxCtx) (a : SmAction) :
    Tracks (Fold.smOpRenewName s cx a) (L.renewName cx a) := by
  unfold Fold.smOpRenewName Ledger.renewName
  cases h : findMine s cx.actor a with
  | none =>
    rw [t.findMine_none h]
    exact t
  | some r =>
    obtain ⟨hlt, hn, hm⟩ := t.findMine_some h
    rw [hm]
    have hw := t.waterfill_one cx.mtp cx.rate cx.carValue hlt
    rw [hn] at hw
    exact hw

theorem smOpTransferName (t : Tracks s L) (cx : SmTxCtx) (a : SmAction) :
    Tracks (Fold.smOpTransferName s cx a) (L.transferName cx a) := by
  unfold Fold.smOpTransferName Ledger.transferName
  cases h : findMine s cx.actor a with
  | none =>
    rw [t.findMine_none h]
    exact t
  | some r =>
    obtain ⟨hlt, hn, hm⟩ := t.findMine_some h
    rw [hm]
    by_cases hst : (s.row r).st ≠ .OWNED
    · simp only [if_pos hst]
      exact t
    · simp only [if_neg hst]
      have hset := t.setRow (v := { s.row r with owner := a.addr, ownerType := 0 }) hlt rfl
      rw [show ({ s.row r with owner := a.addr, ownerType := 0 } : SmNameRow).name = a.name from hn]
        at hset
      exact (hset.bump _ _).bump _ _

theorem smOpReleaseName (t : Tracks s L) (cx : SmTxCtx) (a : SmAction) :
    Tracks (Fold.smOpReleaseName s cx a) (L.releaseName cx a) := by
  unfold Fold.smOpReleaseName Ledger.releaseName
  cases h : findMine s cx.actor a with
  | none =>
    rw [t.findMine_none h]
    exact t
  | some r =>
    obtain ⟨hlt, hn, hm⟩ := t.findMine_some h
    rw [hm]
    by_cases hst : (s.row r).st ≠ .OWNED
    · simp only [if_pos hst]
      exact t
    · simp only [if_neg hst]
      have hrem := t.remove hlt
      rw [hn] at hrem
      exact (hrem.bumpEv _).bump _ _

/-! ### Releases -/

theorem releaseOne (t : Tracks s L) (n : Name) : Tracks (Fold.releaseOne s n) (L.erase n) := by
  unfold Fold.releaseOne
  cases h : smFindName s n with
  | none =>
    have hL : L.erase n = L := by
      unfold Ledger.erase
      rw [← t.find_none h, Function.update_eq_self]
    rw [hL]
    exact t
  | some r =>
    obtain ⟨hlt, hn, -⟩ := t.find_some h
    have hrem := t.remove hlt
    rw [hn] at hrem
    exact hrem.bumpEv _

theorem foldl_releaseOne (t : Tracks s L) (rel : List Name) :
    Tracks (rel.foldl Fold.releaseOne s)
      (L.withNames fun n => if n ∈ rel then none else L.names n) := by
  induction rel generalizing s L with
  | nil => exact t
  | cons n rel ih =>
    have hstep := ih (t.releaseOne n)
    have hfun : (fun m => if m ∈ rel then none else (L.erase n).names m)
        = fun m => if m ∈ n :: rel then none else L.names m := by
      funext m
      rw [Ledger.erase_names, Function.update_apply]
      by_cases h1 : m ∈ rel
      · simp [h1]
      · by_cases h2 : m = n <;> simp [h1, h2]
    rw [hfun] at hstep
    exact hstep

theorem smOpRelease (t : Tracks s L) (cx : SmTxCtx) (a : SmAction) :
    Tracks (Fold.smOpRelease s cx a) (L.release cx a) := by
  unfold Fold.smOpRelease Ledger.release
  rw [t.anchorOk]
  split
  · exact t
  · split
    · exact t
    · simp only
      set sel := selectBitmap a.flags (smCollectOwned s cx.actor) with hsel
      have hsub : sel.Sublist (smCollectOwned s cx.actor) := selectBitmap_sublist _ _
      have hlt : ∀ r ∈ sel, r < s.names.length := fun r h =>
        (mem_smCollectOwned.mp (hsub.subset h)).1
      have hnames : selectBitmap a.flags (L.ownedList cx.actor)
          = sel.map fun r => (s.row r).name := by
        rw [hsel, ← t.collectOwned, selectBitmap_map]
      rw [hnames]
      set rel := (sel.filter fun r => (s.row r).st = .OWNED).map fun r => (s.row r).name with hrel
      have hfold := t.foldl_releaseOne rel
      have hdrop : (L.withNames fun n => if n ∈ rel then none else L.names n)
          = L.drop (sel.map fun r => (s.row r).name) := by
        refine congrArg L.withNames (funext fun n => ?_)
        have hmem : n ∈ rel ↔ ∃ r ∈ sel, (s.row r).st = .OWNED ∧ (s.row r).name = n := by
          rw [hrel]
          simp [List.mem_map, and_assoc]
        by_cases hn : n ∈ sel.map fun r => (s.row r).name
        · rw [if_pos hn]
          obtain ⟨r, hr, rfl⟩ := List.mem_map.mp hn
          rw [t.names_row (hlt r hr)]
          by_cases hst : (s.row r).st = .OWNED
          · rw [if_pos (hmem.mpr ⟨r, hr, hst, rfl⟩)]
            simp [Option.filter, hst]
          · rw [if_neg]
            · simp [Option.filter, hst]
            · intro h
              obtain ⟨r', hr', hst', he⟩ := hmem.mp h
              have hrr := RowTable.index_inj _ t.keyed.names (getElem?_row (hlt r' hr'))
                (getElem?_row (hlt r hr)) he
              rw [hrr] at hst'
              exact hst hst'
        · rw [if_neg hn, if_neg]
          intro h
          obtain ⟨r, hr, -, he⟩ := hmem.mp h
          exact hn (List.mem_map.mpr ⟨r, hr, he⟩)
      have hpos : rel.length > 0 ↔ L.SomeUnlocked (sel.map fun r => (s.row r).name) := by
        rw [t.someUnlocked_iff hlt, hrel, List.length_map, gt_iff_lt, List.length_pos_iff_exists_mem]
        simp
      by_cases hm : L.SomeUnlocked (sel.map fun r => (s.row r).name)
      · rw [if_pos hm, if_pos (hpos.mpr hm), ← hdrop]
        exact hfold.bump _ _
      · have h0 : ¬ rel.length > 0 := fun h => hm (hpos.mp h)
        have hnil : rel = [] := List.length_eq_zero_iff.mp (by omega)
        rw [if_neg hm, if_neg h0, hnil]
        exact t

end Tracks

end NamespaceIndexer
