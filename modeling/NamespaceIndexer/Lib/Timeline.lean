import NamespaceIndexer.Lib.RowTable

/-!
# Tables of changes

A row holds from its start until the next row of its key. What a key has at a time is its last row up
to there, so rows that start later, and rows of other keys, do not matter.
-/

namespace NamespaceIndexer.Lib.Timeline

variable {ρ κ : Type} [DecidableEq κ] (key : ρ → κ) (start : ρ → ℤ)

/-- A row takes the place of the one of its key and start. -/
def put (rows : List ρ) (e : ρ) : List ρ :=
  rows.filter (fun e' => key e' ≠ key e ∨ start e' ≠ start e) ++ [e]

/-- The row of a key with the greatest start up to `t`. -/
def last (rows : List ρ) (k : κ) (t : ℤ) : Option ρ :=
  let rows := rows.filter fun e => key e = k ∧ start e ≤ t
  match (rows.map start).max? with
  | none => none
  | some s => rows.find? fun e => start e = s

/-- One row for a key and a start. -/
abbrev Distinct (rows : List ρ) : Prop := RowTable.Distinct (fun e => (key e, start e)) rows

variable {key start} {rows : List ρ} {e : ρ} {k : κ} {t : ℤ}

theorem last_some (h : last key start rows k t = some e) : e ∈ rows ∧ key e = k ∧ start e ≤ t ∧
    ∀ e' ∈ rows, key e' = k → start e' ≤ t → start e' ≤ start e := by
  unfold last at h
  dsimp only at h
  split at h
  · cases h
  · rename_i s hs
    have hmem := List.mem_of_find?_eq_some h
    have hstart : start e = s := by simpa using List.find?_some h
    rw [List.mem_filter, decide_eq_true_eq] at hmem
    refine ⟨hmem.1, hmem.2.1, hmem.2.2, fun e' he' hk ht => ?_⟩
    rw [hstart]
    refine (List.max?_eq_some_iff.mp hs).2 _ (List.mem_map_of_mem ?_)
    exact List.mem_filter.mpr ⟨he', decide_eq_true ⟨hk, ht⟩⟩

theorem last_none : last key start rows k t = none ↔ ∀ e ∈ rows, key e = k → t < start e := by
  unfold last
  dsimp only
  split
  · rename_i hs
    rw [List.max?_eq_none_iff, List.map_eq_nil_iff, List.filter_eq_nil_iff] at hs
    refine ⟨fun _ e he hk => ?_, fun _ => rfl⟩
    have hno := hs e he
    rw [decide_eq_true_eq, not_and] at hno
    exact not_le.mp (hno hk)
  · rename_i s hs
    obtain ⟨e, he, rfl⟩ := List.mem_map.mp (List.max?_eq_some_iff.mp hs).1
    constructor
    · intro hnone
      have hno := List.find?_eq_none.mp hnone e he
      simp at hno
    · intro hall
      rw [List.mem_filter, decide_eq_true_eq] at he
      exact absurd (hall e he.1 he.2.1) (not_lt.mpr he.2.2)

/-- The last row, where no other of its key is as late. -/
theorem Distinct.last_eq (h : Distinct key start rows) (he : e ∈ rows) (ht : start e ≤ t)
    (hmax : ∀ e' ∈ rows, key e' = key e → start e' ≤ t → start e' ≤ start e) :
    last key start rows (key e) t = some e := by
  cases hl : last key start rows (key e) t with
  | none => exact absurd (last_none.mp hl e he rfl) (not_lt.mpr ht)
  | some e' =>
    obtain ⟨he', hk', ht', hmax'⟩ := last_some hl
    have hs := le_antisymm (hmax e' he' hk' ht') (hmax' e he rfl ht)
    rw [RowTable.Distinct.eq_of_mem _ h he' he (Prod.ext hk' hs)]

/-- Only the rows of the key up to the time matter. -/
theorem last_congr {rows' : List ρ} {t' : ℤ}
    (h : rows'.filter (fun e => key e = k ∧ start e ≤ t')
      = rows.filter fun e => key e = k ∧ start e ≤ t) :
    last key start rows' k t' = last key start rows k t := by
  unfold last
  rw [h]

theorem last_put_of_ne (h : key e ≠ k ∨ t < start e) :
    last key start (put key start rows e) k t = last key start rows k t := by
  apply last_congr
  have hout : ¬ (key e = k ∧ start e ≤ t) := by
    rintro ⟨hk, ht⟩
    rcases h with h | h
    · exact h hk
    · omega
  unfold put
  rw [List.filter_append, List.filter_filter, List.filter_singleton, decide_eq_false hout,
    cond_false, List.append_nil]
  refine List.filter_congr fun e' _ => ?_
  rw [← Bool.decide_and, decide_eq_decide]
  refine ⟨fun hx => hx.1, fun hx => ⟨hx, ?_⟩⟩
  by_contra hno
  rw [not_or, not_not, not_not] at hno
  exact hout ⟨hno.1 ▸ hx.1, hno.2 ▸ hx.2⟩

theorem mem_put {e' : ρ} :
    e' ∈ put key start rows e ↔ (e' ∈ rows ∧ (key e' ≠ key e ∨ start e' ≠ start e)) ∨ e' = e := by
  unfold put
  rw [List.mem_append, List.mem_filter, List.mem_singleton, decide_eq_true_eq]

theorem Distinct.put (h : Distinct key start rows) (e : ρ) :
    Distinct key start (put key start rows e) := by
  unfold Distinct RowTable.Distinct Timeline.put
  rw [List.map_append, List.nodup_append]
  refine ⟨List.Nodup.sublist (List.filter_sublist.map _) h, List.nodup_singleton _, ?_⟩
  intro a ha b hb hab
  obtain ⟨e', he', rfl⟩ := List.mem_map.mp ha
  rw [List.map_singleton, List.mem_singleton] at hb
  rw [List.mem_filter, decide_eq_true_eq] at he'
  rw [hb, Prod.mk.injEq] at hab
  rcases he'.2 with hx | hx
  · exact hx hab.1
  · exact hx hab.2

/-- A row at or after all others of its key is the last one from its start on. -/
theorem Distinct.last_put (h : Distinct key start rows) (ht : start e ≤ t)
    (hmax : ∀ e' ∈ rows, start e' ≤ start e) :
    last key start (Timeline.put key start rows e) (key e) t = some e := by
  refine (h.put e).last_eq (mem_put.mpr (Or.inr rfl)) ht fun e' he' _ _ => ?_
  rcases mem_put.mp he' with ⟨hmem, -⟩ | rfl
  · exact hmax e' hmem
  · exact le_refl _

/-- Until the next start nothing changes. -/
theorem last_later {t' : ℤ} (ht : t ≤ t') (h : ∀ e ∈ rows, start e ≤ t) :
    last key start rows k t' = last key start rows k t := by
  apply last_congr
  refine List.filter_congr fun e he => ?_
  have hle := h e he
  rw [decide_eq_decide]
  exact ⟨fun hx => ⟨hx.1, hle⟩, fun hx => ⟨hx.1, le_trans hle ht⟩⟩

/-- What starts after a cut is not seen before it. -/
theorem last_cut {cut : ℤ} (ht : t ≤ cut) :
    last key start (rows.filter fun e => start e ≤ cut) k t = last key start rows k t := by
  apply last_congr
  rw [List.filter_filter]
  refine List.filter_congr fun e _ => ?_
  rw [← Bool.decide_and, decide_eq_decide]
  exact ⟨fun hx => hx.1, fun hx => ⟨hx, le_trans hx.2 ht⟩⟩

end NamespaceIndexer.Lib.Timeline
