import NamespaceIndexer.Lib.PartialMap
import NamespaceIndexer.Lib.RowTable
import Mathlib.Data.List.AList

/-!
# Maps of programs

A map from keys to values, as the hash maps of programs are: read and changed by key, walked in
no order that matters, or along its keys in ascending order.
-/

namespace NamespaceIndexer.Lib

abbrev Dict (κ β : Type*) := AList fun _ : κ => β

namespace Dict

variable {κ β γ : Type*} [DecidableEq κ]

def get (m : Dict κ β) (k : κ) : Option β := AList.lookup k m

def insert (m : Dict κ β) (k : κ) (b : β) : Dict κ β := AList.insert k b m

def erase (m : Dict κ β) (k : κ) : Dict κ β := AList.erase k m

/-- Change the value at `k`, if there is one. -/
def modify (m : Dict κ β) (k : κ) (f : β → β) : Dict κ β :=
  match m.get k with
  | some b => m.insert k (f b)
  | none => m

/-- Change every value, key after key. -/
def modifyEach (m : Dict κ β) (f : β → β) : Dict κ β := m.keys.foldl (fun m k => m.modify k f) m

@[simp] theorem get_empty : (∅ : Dict κ β).get = fun _ => none := rfl

theorem get_insert (m : Dict κ β) (k : κ) (b : β) :
    (m.insert k b).get = Function.update m.get k (some b) := by
  funext n
  rw [Function.update_apply]
  split
  · rename_i hn
    subst hn
    exact AList.lookup_insert m
  · rename_i hn
    exact AList.lookup_insert_ne hn

theorem get_erase (m : Dict κ β) (k : κ) :
    (m.erase k).get = Function.update m.get k none := by
  funext n
  rw [Function.update_apply]
  split
  · rename_i hn
    subst hn
    exact AList.lookup_erase n m
  · rename_i hn
    exact AList.lookup_erase_ne hn

theorem get_modify (m : Dict κ β) (k : κ) (f : β → β) :
    (m.modify k f).get = PartialMap.modify m.get k f := by
  unfold modify PartialMap.modify
  cases h : m.get k with
  | none =>
    rw [Option.map_none, ← h, Function.update_eq_self, h]
  | some b =>
    rw [Option.map_some]
    exact get_insert m k (f b)

/-- Changes at distinct keys are one change of the map. -/
theorem get_foldl_modify {α : Type*} (z : List (κ × α)) (g : α → β → β) (m : Dict κ β)
    (hz : (z.map Prod.fst).Nodup) :
    (z.foldl (fun m p => m.modify p.1 (g p.2)) m).get = PartialMap.modifyAll z g m.get := by
  have hfold : (z.foldl (fun m p => m.modify p.1 (g p.2)) m).get
      = z.foldl (fun f p => PartialMap.modify f p.1 (g p.2)) m.get := by
    clear hz
    induction z generalizing m with
    | nil => rfl
    | cons p z ih => rw [List.foldl_cons, List.foldl_cons, ih, get_modify]
  rw [hfold, PartialMap.foldl_modify z g m.get hz]

theorem mem_keys {m : Dict κ β} {k : κ} : k ∈ m.keys ↔ ∃ b, m.get k = some b := by
  rw [← AList.mem_keys, ← AList.lookup_isSome, Option.isSome_iff_exists]
  rfl

/-- Each value is changed once. -/
theorem get_modifyEach (m : Dict κ β) (f : β → β) :
    (m.modifyEach f).get = fun k => (m.get k).map f := by
  have hfold := get_foldl_modify (m.keys.map fun k => (k, ())) (fun _ => f) m (by
    rw [List.map_map]
    exact (List.map_id' m.keys).symm ▸ m.keys_nodup)
  rw [List.foldl_map] at hfold
  unfold modifyEach
  rw [hfold]
  funext k
  rw [PartialMap.modifyAll_const]
  split
  · rfl
  · rename_i hk
    cases hb : m.get k with
    | none => rfl
    | some b => exact absurd (mem_keys.mpr ⟨b, hb⟩) hk

theorem get_of_mem {m : Dict κ β} {e : Sigma fun _ : κ => β} (h : e ∈ m.entries) :
    m.get e.1 = some e.2 := (AList.mem_lookup_iff (s := m)).mpr h

/-- The entries that pass a test, by key. -/
theorem mem_filter_keys {m : Dict κ β} {p : β → Bool} {k : κ} :
    k ∈ (m.entries.filter fun e => p e.2).map Sigma.fst ↔ ∃ b, m.get k = some b ∧ p b = true := by
  rw [List.mem_map]
  constructor
  · rintro ⟨e, he, rfl⟩
    obtain ⟨hmem, hp⟩ := List.mem_filter.mp he
    exact ⟨e.2, get_of_mem hmem, hp⟩
  · rintro ⟨b, hb, hp⟩
    exact ⟨⟨k, b⟩, List.mem_filter.mpr ⟨(AList.mem_lookup_iff (s := m)).mp hb, hp⟩, rfl⟩

omit [DecidableEq κ] in
theorem nodup_filter_keys (m : Dict κ β) (p : β → Bool) :
    ((m.entries.filter fun e => p e.2).map Sigma.fst).Nodup :=
  m.keys_nodup.sublist (List.filter_sublist.map _)

/-- A table that reads as the map holds its entries. -/
theorem perm_entries {α : Type*} (key : α → κ) (f : α → β) {l : List α}
    (hl : RowTable.Distinct key l) {m : Dict κ β}
    (h : m.get = fun k => (RowTable.lookup key l k).map f) :
    (l.map fun r => (⟨key r, f r⟩ : Sigma fun _ : κ => β)).Perm m.entries := by
  have hnodup : (l.map fun r => (⟨key r, f r⟩ : Sigma fun _ : κ => β)).Nodup := by
    refine List.Nodup.of_map Sigma.fst ?_
    rw [List.map_map]
    exact hl
  refine (List.perm_ext_iff_of_nodup hnodup (List.Nodup.of_map Sigma.fst m.keys_nodup)).mpr ?_
  rintro ⟨k, b⟩
  have hget : (⟨k, b⟩ : Sigma fun _ : κ => β) ∈ m.entries ↔ m.get k = some b :=
    (AList.mem_lookup_iff (s := m)).symm
  rw [hget, h, List.mem_map, Option.map_eq_some_iff]
  constructor
  · rintro ⟨r, hr, he⟩
    obtain ⟨rfl, hb⟩ := Sigma.mk.inj he
    exact ⟨r, RowTable.lookup_of_mem key hl hr, eq_of_heq hb⟩
  · rintro ⟨r, hr, rfl⟩
    obtain ⟨hmem, rfl⟩ := RowTable.lookup_mem key hr
    exact ⟨r, hmem, rfl⟩

end Dict

end NamespaceIndexer.Lib
