import Mathlib.Tactic
import Mathlib.Data.List.Lex
import Mathlib.Data.List.Sigma

/-!
# Unordered row tables with a key

A table is a list of rows, each with a key, in no particular order. Rows are
found by a first-match scan, overwritten in place, appended, and removed by
moving the last row into the freed slot. With pairwise distinct keys a table
is, up to the order of its rows, the partial map `lookup`.
-/

namespace NamespaceIndexer.Lib.RowTable

variable {α κ : Type*} [DecidableEq κ] (key : α → κ)

/-- No two rows share a key. -/
def Distinct (l : List α) : Prop := (l.map key).Nodup

/-- First-match scan. -/
def lookup (l : List α) (k : κ) : Option α := l.find? fun r => key r = k

/-- Index of the first row with key `k`. -/
def indexOf? (l : List α) (k : κ) : Option ℕ := l.findIdx? fun r => key r = k

omit [DecidableEq κ] in
theorem distinct_nil : Distinct key ([] : List α) := List.nodup_nil

omit [DecidableEq κ] in
theorem Distinct.perm {l l' : List α} (h : Distinct key l) (p : l.Perm l') : Distinct key l' :=
  (p.map key).nodup_iff.mp h

omit [DecidableEq κ] in
theorem distinct_cons (r : α) (l : List α) :
    Distinct key (r :: l) ↔ key r ∉ l.map key ∧ Distinct key l := List.nodup_cons

omit [DecidableEq κ] in
theorem Distinct.eq_of_mem {l : List α} (h : Distinct key l) {a b : α} (ha : a ∈ l) (hb : b ∈ l)
    (hk : key a = key b) : a = b := List.inj_on_of_nodup_map h ha hb hk

@[simp] theorem lookup_nil (k : κ) : lookup key ([] : List α) k = none := rfl

theorem lookup_cons (r : α) (l : List α) (k : κ) :
    lookup key (r :: l) k = if key r = k then some r else lookup key l k := by
  unfold lookup
  rw [List.find?_cons]
  by_cases h : key r = k <;> simp [h]

theorem lookup_append (l m : List α) (k : κ) :
    lookup key (l ++ m) k = (lookup key l k).or (lookup key m k) := List.find?_append ..

theorem lookup_mem {l : List α} {k : κ} {r : α} (h : lookup key l k = some r) :
    r ∈ l ∧ key r = k := by
  unfold lookup at h
  exact ⟨List.mem_of_find?_eq_some h, by simpa using List.find?_some h⟩

theorem lookup_key {l : List α} {k : κ} {r : α} (h : lookup key l k = some r) : key r = k :=
  (lookup_mem key h).2

theorem lookup_eq_none {l : List α} {k : κ} : lookup key l k = none ↔ k ∉ l.map key := by
  simp [lookup, List.find?_eq_none]

theorem lookup_eq_some {l : List α} (h : Distinct key l) {k : κ} {r : α} :
    lookup key l k = some r ↔ r ∈ l ∧ key r = k := by
  refine ⟨lookup_mem key, fun ⟨hm, hk⟩ => ?_⟩
  cases hl : lookup key l k with
  | none =>
    refine absurd ?_ ((lookup_eq_none key).mp hl)
    exact hk ▸ List.mem_map_of_mem hm
  | some r' =>
    have hr := lookup_mem key hl
    rw [h.eq_of_mem key hr.1 hm (hr.2.trans hk.symm)]

theorem lookup_of_mem {l : List α} (h : Distinct key l) {r : α} (hm : r ∈ l) :
    lookup key l (key r) = some r := (lookup_eq_some key h).mpr ⟨hm, rfl⟩

/-- The scan does not see the order of the rows. -/
theorem lookup_perm {l l' : List α} (h : Distinct key l) (p : l.Perm l') (k : κ) :
    lookup key l k = lookup key l' k := by
  ext r
  rw [lookup_eq_some key h, lookup_eq_some key (h.perm key p), p.mem_iff]

/-- Tables with distinct keys and the same scans hold the same rows. -/
theorem perm_of_lookup {l l' : List α} (h : Distinct key l) (h' : Distinct key l')
    (e : ∀ k, lookup key l k = lookup key l' k) : l.Perm l' := by
  refine (List.perm_ext_iff_of_nodup (List.Nodup.of_map key h) (List.Nodup.of_map key h')).mpr ?_
  intro r
  constructor
  · intro hm
    have hl := lookup_of_mem key h hm
    rw [e] at hl
    exact (lookup_mem key hl).1
  · intro hm
    have hl := lookup_of_mem key h' hm
    rw [← e] at hl
    exact (lookup_mem key hl).1

/-! ### Row-wise rewriting -/

/-- Equal projections of two lookups of one key are equal rows, where key and projection make
the row. -/
theorem lookup_of_map_eq {β : Type*} {f : α → β} (hf : ∀ {r r' : α}, key r = key r' → f r = f r' → r = r')
    {l l' : List α} {k : κ} (h : (lookup key l k).map f = (lookup key l' k).map f) :
    lookup key l k = lookup key l' k := by
  cases h1 : lookup key l k with
  | none =>
    rw [h1, Option.map_none] at h
    exact (Option.map_eq_none_iff.mp h.symm).symm
  | some r =>
    cases h2 : lookup key l' k with
    | none => simp [h1, h2] at h
    | some r' =>
      have hk : key r = key r' := (lookup_key key h1).trans (lookup_key key h2).symm
      rw [h1, h2, Option.map_some, Option.map_some] at h
      exact congrArg some (hf hk (Option.some.inj h))

theorem lookup_map {l : List α} {f : α → α} (hf : ∀ r, key (f r) = key r) (k : κ) :
    lookup key (l.map f) k = (lookup key l k).map f := by
  induction l with
  | nil => rfl
  | cons r l ih =>
    rw [List.map_cons, lookup_cons, lookup_cons, hf, ih]
    by_cases h : key r = k <;> simp [h]

omit [DecidableEq κ] in
theorem distinct_map {l : List α} {f : α → α} (hf : ∀ r, key (f r) = key r) :
    Distinct key (l.map f) ↔ Distinct key l := by
  unfold Distinct
  rw [List.map_map]
  have he : key ∘ f = key := funext hf
  rw [he]

theorem lookup_filterMap {l : List α} {f : α → Option α} (h : Distinct key l)
    (hf : ∀ r r', f r = some r' → key r' = key r) (k : κ) :
    lookup key (l.filterMap f) k = (lookup key l k).bind f := by
  induction l with
  | nil => rfl
  | cons r l ih =>
    have hc := (distinct_cons key r l).mp h
    rw [lookup_cons]
    cases hr : f r with
    | none =>
      rw [List.filterMap_cons_none hr, ih hc.2]
      by_cases hk : key r = k
      · have hn : lookup key l k = none := (lookup_eq_none key).mpr (hk ▸ hc.1)
        rw [if_pos hk, hn, Option.bind_some, hr]
        rfl
      · rw [if_neg hk]
    | some r' =>
      rw [List.filterMap_cons_some hr, lookup_cons, hf r r' hr, ih hc.2]
      by_cases hk : key r = k
      · rw [if_pos hk, if_pos hk, Option.bind_some, hr]
      · rw [if_neg hk, if_neg hk]

omit [DecidableEq κ] in
theorem distinct_filterMap {l : List α} {f : α → Option α} (h : Distinct key l)
    (hf : ∀ r r', f r = some r' → key r' = key r) : Distinct key (l.filterMap f) := by
  have hs : ((l.filterMap f).map key).Sublist (l.map key) := by
    clear h
    induction l with
    | nil => exact List.Sublist.refl _
    | cons r l ih =>
      cases hr : f r with
      | none =>
        rw [List.filterMap_cons_none hr]
        exact ih.trans (List.sublist_cons_self _ _)
      | some r' =>
        rw [List.filterMap_cons_some hr, List.map_cons, List.map_cons, hf r r' hr]
        exact ih.cons_cons _
  exact List.Nodup.sublist hs h

/-! ### Writes through an index -/

theorem indexOf?_some {l : List α} {k : κ} {i : ℕ} (h : indexOf? key l k = some i) :
    ∃ r, l[i]? = some r ∧ key r = k ∧ lookup key l k = some r := by
  unfold indexOf? at h
  obtain ⟨hi, hp, hb⟩ := List.findIdx?_eq_some_iff_getElem.mp h
  refine ⟨l[i], List.getElem?_eq_getElem hi, by simpa using hp, ?_⟩
  unfold lookup
  rw [List.find?_eq_some_iff_getElem]
  exact ⟨hp, i, hi, rfl, fun j hj => by simpa using hb j hj⟩

theorem indexOf?_none {l : List α} {k : κ} : indexOf? key l k = none ↔ lookup key l k = none := by
  simp [indexOf?, lookup, List.findIdx?_eq_none_iff, List.find?_eq_none]

/-- Where a key is depends on the keys only. -/
theorem indexOf?_congr {l l' : List α} (h : l.map key = l'.map key) (k : κ) :
    indexOf? key l k = indexOf? key l' k := by
  have hmap : ∀ l : List α, indexOf? key l k = (l.map key).findIdx? fun x => x = k := by
    intro l
    unfold indexOf?
    rw [List.findIdx?_map]
    rfl
  rw [hmap, hmap, h]

theorem lookup_of_getElem? {l : List α} (h : Distinct key l) {i : ℕ} {r : α} (hi : l[i]? = some r) :
    lookup key l (key r) = some r := lookup_of_mem key h (List.mem_of_getElem? hi)

omit [DecidableEq κ] in
/-- Two slots with the same key are one slot. -/
theorem index_inj {l : List α} (h : Distinct key l) {i j : ℕ} {a b : α}
    (hi : l[i]? = some a) (hj : l[j]? = some b) (hk : key a = key b) : i = j := by
  have hlt : i < (l.map key).length := by
    rw [List.length_map]
    exact (List.getElem?_eq_some_iff.mp hi).1
  have hm : (l.map key)[i]? = (l.map key)[j]? := by
    rw [List.getElem?_map, List.getElem?_map, hi, hj, Option.map_some, Option.map_some, hk]
  exact (List.getElem?_inj hlt h).mp hm

omit [DecidableEq κ] in
theorem map_key_set {l : List α} {i : ℕ} {r r' : α} (hi : l[i]? = some r) (hk : key r' = key r) :
    (l.set i r').map key = l.map key := by
  obtain ⟨hi', rfl⟩ := List.getElem?_eq_some_iff.mp hi
  rw [List.map_set, hk]
  refine List.ext_getElem? fun j => ?_
  rw [List.getElem?_set]
  by_cases hj : i = j
  · subst hj
    simp [hi']
  · rw [if_neg hj]

omit [DecidableEq κ] in
theorem distinct_set {l : List α} (h : Distinct key l) {i : ℕ} {r r' : α} (hi : l[i]? = some r)
    (hk : key r' = key r) : Distinct key (l.set i r') := by
  unfold Distinct
  rw [map_key_set key hi hk]
  exact h

theorem lookup_set {l : List α} (h : Distinct key l) {i : ℕ} {r r' : α} (hi : l[i]? = some r)
    (hk : key r' = key r) (k : κ) :
    lookup key (l.set i r') k = if k = key r then some r' else lookup key l k := by
  have hd := distinct_set key h hi hk
  have hlt : i < l.length := (List.getElem?_eq_some_iff.mp hi).1
  by_cases hkk : k = key r
  · rw [if_pos hkk, hkk, ← hk]
    refine lookup_of_getElem? key hd (i := i) ?_
    rw [List.getElem?_set_self hlt]
  · rw [if_neg hkk]
    ext s
    rw [lookup_eq_some key hd, lookup_eq_some key h]
    constructor
    · rintro ⟨hm, hs⟩
      refine ⟨?_, hs⟩
      rcases List.mem_or_eq_of_mem_set hm with hm | hm
      · exact hm
      · exact absurd (by rw [← hs, hm, hk]) hkk
    · rintro ⟨hm, hs⟩
      refine ⟨?_, hs⟩
      obtain ⟨j, hj⟩ := List.mem_iff_getElem?.mp hm
      have hij : i ≠ j := by
        rintro rfl
        rw [hi] at hj
        exact hkk (by rw [← hs, Option.some.inj hj])
      refine List.mem_of_getElem? (i := j) ?_
      rw [List.getElem?_set_ne hij, hj]

/-- Overwriting the row that a scan finds, whether or not keys repeat behind it. -/
theorem lookup_set_indexOf {l : List α} {k : κ} {i : ℕ} {r' : α} (h : indexOf? key l k = some i)
    (hk : key r' = k) (k' : κ) :
    lookup key (l.set i r') k' = if k' = k then some r' else lookup key l k' := by
  induction l generalizing i with
  | nil => simp [indexOf?] at h
  | cons r l ih =>
    unfold indexOf? at h ih
    rw [List.findIdx?_cons] at h
    by_cases hr : key r = k
    · rw [decide_eq_true hr, if_pos rfl, Option.some.injEq] at h
      subst h
      rw [List.set_cons_zero, lookup_cons, lookup_cons, hk, hr]
      by_cases hk' : k' = k
      · rw [if_pos hk', if_pos hk'.symm]
      · rw [if_neg hk', if_neg (Ne.symm hk'), if_neg (Ne.symm hk')]
    · rw [decide_eq_false hr, if_neg Bool.false_ne_true, Option.map_eq_some_iff] at h
      obtain ⟨j, hj, rfl⟩ := h
      rw [List.set_cons_succ, lookup_cons, lookup_cons, ih hj]
      by_cases hk' : k' = k
      · rw [if_pos hk', if_neg (fun h => hr (h.trans hk')), if_pos hk']
      · rw [if_neg hk', if_neg hk']

/-! ### Removal by moving the last row -/

/-- `l[i] := l[n-1]` and forget the last slot. -/
def swapRemove (l : List α) (i : ℕ) : List α :=
  if i < l.length then
    match l.getLast? with
    | some z => (l.set i z).dropLast
    | none => l
  else l

omit [DecidableEq κ] in
/-- Swap removal is removal, up to order. -/
theorem swapRemove_perm (l : List α) (i : ℕ) : (swapRemove l i).Perm (l.eraseIdx i) := by
  unfold swapRemove
  split
  · rename_i hi
    rcases List.eq_nil_or_concat l with rfl | ⟨m, z, rfl⟩
    · simp at hi
    · simp only [List.concat_eq_append, List.getLast?_append, List.getLast?_singleton,
        Option.some_or]
      by_cases hm : i < m.length
      · rw [List.set_append_left _ _ hm, List.dropLast_concat, List.eraseIdx_append_of_lt_length hm]
        have h1 : (m.set i z).Perm (z :: m.eraseIdx i) := List.set_perm_cons_eraseIdx hm z
        exact h1.trans (List.perm_append_singleton z _).symm
      · have he : i = m.length := by
          simp at hi
          omega
        subst he
        rw [List.set_append_right _ _ (Nat.le_refl _), List.eraseIdx_append_of_length_le (Nat.le_refl _)]
        simp
  · rename_i hi
    rw [List.eraseIdx_of_length_le (by omega)]

omit [DecidableEq κ] in
/-- Removing the row after `p` only reorders the rows behind it. -/
theorem swapRemove_append (p : List α) (r : α) (q : List α) :
    ∃ q', q'.Perm q ∧ swapRemove (p ++ r :: q) p.length = p ++ q' := by
  unfold swapRemove
  rw [if_pos (by simp)]
  rcases List.eq_nil_or_concat q with rfl | ⟨q0, z, rfl⟩
  · exact ⟨[], List.Perm.refl _, by simp⟩
  · refine ⟨z :: q0, (List.perm_append_singleton z q0).symm.trans (by simp), ?_⟩
    have hlast : (p ++ r :: q0.concat z).getLast? = some z := by
      rw [List.concat_eq_append, ← List.cons_append, ← List.append_assoc, List.getLast?_concat]
    have hset : (p ++ r :: q0.concat z).set p.length z = (p ++ z :: q0) ++ [z] := by
      rw [List.set_append_right _ _ (Nat.le_refl _)]
      simp
    rw [hlast]
    simp only
    rw [hset, List.dropLast_concat]

omit [DecidableEq κ] in
theorem swapRemove_length {l : List α} {i : ℕ} (h : i < l.length) :
    (swapRemove l i).length = l.length - 1 := by
  rw [(swapRemove_perm l i).length_eq, List.length_eraseIdx_of_lt h]

omit [DecidableEq κ] in
theorem perm_cons_swapRemove {l : List α} {i : ℕ} {r : α} (hi : l[i]? = some r) :
    l.Perm (r :: swapRemove l i) := by
  obtain ⟨hi', rfl⟩ := List.getElem?_eq_some_iff.mp hi
  exact (List.getElem_cons_eraseIdx_perm hi').symm.trans ((swapRemove_perm l i).symm.cons _)

omit [DecidableEq κ] in
theorem distinct_swapRemove {l : List α} (h : Distinct key l) (i : ℕ) :
    Distinct key (swapRemove l i) := by
  refine Distinct.perm key ?_ (swapRemove_perm l i).symm
  exact List.Nodup.sublist ((List.eraseIdx_sublist l i).map key) h

theorem lookup_swapRemove {l : List α} (h : Distinct key l) {i : ℕ} {r : α} (hi : l[i]? = some r)
    (k : κ) : lookup key (swapRemove l i) k = if k = key r then none else lookup key l k := by
  have hp := perm_cons_swapRemove hi
  have hd := h.perm key hp
  rw [lookup_perm key h hp k, lookup_cons]
  by_cases hk : k = key r
  · rw [if_pos hk, hk]
    exact (lookup_eq_none key).mpr ((distinct_cons key r _).mp hd).1
  · rw [if_neg hk, if_neg (Ne.symm hk)]

/-! ### Appending a row -/

theorem distinct_append {l : List α} (h : Distinct key l) {r : α}
    (hr : lookup key l (key r) = none) : Distinct key (l ++ [r]) := by
  refine Distinct.perm key ?_ (List.perm_append_singleton r l).symm
  exact (distinct_cons key r l).mpr ⟨(lookup_eq_none key).mp hr, h⟩

theorem lookup_append_single {l : List α} {r : α} (hr : lookup key l (key r) = none) (k : κ) :
    lookup key (l ++ [r]) k = if k = key r then some r else lookup key l k := by
  rw [lookup_append, lookup_cons]
  by_cases hk : k = key r
  · rw [if_pos hk, if_pos hk.symm, hk, hr]
    rfl
  · rw [if_neg hk, if_neg (Ne.symm hk)]
    simp

end NamespaceIndexer.Lib.RowTable
