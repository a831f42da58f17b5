import Mathlib.Tactic
import Mathlib.Data.List.FinRange

/-!
# Hash tables with separate chains

A table is an array of chains. A row is pushed in front of the chain of its
slot, found by a first-match scan of one chain, and unlinked from it. A table
whose rows are all in the chains of their slots is, for these operations, the
list of its rows in any order.
-/

namespace NamespaceIndexer.Lib

variable {α : Type} {n : ℕ}

/-- The chain of each slot. -/
abbrev ChainTable (n : ℕ) (α : Type) := Fin n → List α

namespace ChainTable

def empty : ChainTable n α := fun _ => []

/-- The rows, slot by slot. -/
@[irreducible] def rows (t : ChainTable n α) : List α := (List.finRange n).flatMap t

def push (slot : α → Fin n) (t : ChainTable n α) (r : α) : ChainTable n α :=
  Function.update t (slot r) (r :: t (slot r))

/-- The first row of the chain that meets `p` is unlinked. -/
def unlink (t : ChainTable n α) (b : Fin n) (p : α → Bool) : ChainTable n α :=
  Function.update t b ((t b).eraseP p)

/-- Every row is in the chain of its slot. -/
def Placed (slot : α → Fin n) (t : ChainTable n α) : Prop := ∀ b, ∀ r ∈ t b, slot r = b

variable {slot : α → Fin n} {t : ChainTable n α}

theorem placed_empty : Placed slot (empty : ChainTable n α) :=
  fun _ _ hr => absurd hr List.not_mem_nil

theorem rows_empty : rows (empty : ChainTable n α) = [] := by
  simp [rows, empty]

theorem mem_rows {r : α} : r ∈ rows t ↔ ∃ b, r ∈ t b := by
  simp [rows]

theorem Placed.mem_rows (h : Placed slot t) {r : α} : r ∈ rows t ↔ r ∈ t (slot r) := by
  rw [ChainTable.mem_rows]
  constructor
  · rintro ⟨b, hb⟩
    rw [h b r hb]
    exact hb
  · exact fun hr => ⟨_, hr⟩

theorem chain_nodup (h : (rows t).Nodup) (b : Fin n) : (t b).Nodup := by
  unfold rows at h
  exact (List.nodup_flatMap.mp h).1 b (List.mem_finRange b)

/-- One chain, and the others. -/
theorem rows_perm (t : ChainTable n α) (b : Fin n) :
    (rows t).Perm (t b ++ ((List.finRange n).erase b).flatMap t) := by
  have hsplit := (List.perm_cons_erase (List.mem_finRange b)).flatMap_right t
  rw [List.flatMap_cons] at hsplit
  unfold rows
  exact hsplit

theorem rows_update_perm (t : ChainTable n α) (b : Fin n) (l : List α) :
    (rows (Function.update t b l)).Perm (l ++ ((List.finRange n).erase b).flatMap t) := by
  have hrest : ((List.finRange n).erase b).flatMap (Function.update t b l)
      = ((List.finRange n).erase b).flatMap t := by
    refine List.flatMap_congr fun x hx => ?_
    have hne : x ≠ b := fun h => by
      rw [h] at hx
      exact (List.nodup_finRange n).not_mem_erase hx
    rw [Function.update_of_ne hne]
  have hperm := rows_perm (Function.update t b l) b
  rw [hrest, Function.update_self] at hperm
  exact hperm

theorem rows_push_perm (r : α) : (rows (push slot t r)).Perm (r :: rows t) := by
  refine (rows_update_perm t (slot r) _).trans ?_
  rw [List.cons_append]
  exact List.Perm.cons r (rows_perm t (slot r)).symm

theorem Placed.push (h : Placed slot t) (r : α) : Placed slot (push slot t r) := by
  intro b x hx
  unfold ChainTable.push at hx
  by_cases hb : b = slot r
  · rw [hb, Function.update_self] at hx
    rcases List.mem_cons.mp hx with rfl | hx
    · exact hb.symm
    · rw [hb]
      exact h _ x hx
  · rw [Function.update_of_ne hb] at hx
    exact h b x hx

theorem Placed.unlink (h : Placed slot t) (b : Fin n) (p : α → Bool) :
    Placed slot (unlink t b p) := by
  intro b' x hx
  unfold ChainTable.unlink at hx
  by_cases hb : b' = b
  · rw [hb, Function.update_self] at hx
    rw [hb]
    exact h b x (List.mem_of_mem_eraseP hx)
  · rw [Function.update_of_ne hb] at hx
    exact h b' x hx

/-- The row that was unlinked. -/
theorem rows_unlink_perm {b : Fin n} {p : α → Bool} {r : α} (hr : r ∈ t b) (hp : p r = true)
    (huniq : ∀ x ∈ t b, p x = true → x = r) : (rows t).Perm (r :: rows (unlink t b p)) := by
  obtain ⟨a, l₁, l₂, -, ha, hsplit, herase⟩ := List.exists_of_eraseP hr hp
  have har : a = r := huniq a (by rw [hsplit]; simp) ha
  have hchain : (t b).Perm (r :: (t b).eraseP p) := by
    rw [herase, hsplit, har]
    exact List.perm_middle
  refine (rows_perm t b).trans ?_
  refine (hchain.append_right _).trans ?_
  rw [List.cons_append]
  exact List.Perm.cons r (rows_update_perm t b _).symm

/-- A scan of the chain of a key finds what a scan of all rows would. -/
theorem Placed.find?_eq_none (h : Placed slot t) {b : Fin n} {p : α → Bool}
    (hslot : ∀ r, p r = true → slot r = b) :
    (t b).find? p = none ↔ ∀ r ∈ rows t, ¬ p r = true := by
  rw [List.find?_eq_none]
  constructor
  · intro hnone r hr hp
    rw [h.mem_rows, hslot r hp] at hr
    exact hnone r hr hp
  · intro hnone r hr hp
    exact hnone r (ChainTable.mem_rows.mpr ⟨b, hr⟩) hp

theorem mem_rows_of_find? {b : Fin n} {p : α → Bool} {r : α} (h : (t b).find? p = some r) :
    r ∈ rows t ∧ p r = true :=
  ⟨mem_rows.mpr ⟨b, List.mem_of_find?_eq_some h⟩, List.find?_some h⟩

end ChainTable

end NamespaceIndexer.Lib
