import NamespaceIndexer.Lib.Dict

/-!
# Reverse indices

A map with an index from tags to keys: which keys have a value with that tag. The index is kept by
hand, beside every write of the map; it inverts the map when it names every key under the tag of its
value and under no other.
-/

namespace NamespaceIndexer.Lib

/-- Sets of keys by tag; a set is a list without repetition, in order of insertion. -/
abbrev ReverseIndex (ι κ : Type*) := Dict ι (List κ)

namespace ReverseIndex

variable {ι κ β : Type*} [DecidableEq ι] [DecidableEq κ]

/-- The keys under a tag; a tag without a set has none. -/
def under (x : ReverseIndex ι κ) (i : ι) : List κ := (x.get i).getD []

def add (x : ReverseIndex ι κ) (i : ι) (k : κ) : ReverseIndex ι κ :=
  x.insert i (if k ∈ x.under i then x.under i else x.under i ++ [k])

def drop (x : ReverseIndex ι κ) (i : ι) (k : κ) : ReverseIndex ι κ :=
  x.insert i ((x.under i).filter (· ≠ k))

omit [DecidableEq κ] in
theorem under_insert (x : ReverseIndex ι κ) (i j : ι) (ks : List κ) :
    under (x.insert i ks) j = if j = i then ks else x.under j := by
  unfold under
  rw [Dict.get_insert, Function.update_apply]
  split <;> rfl

/-- The index inverts the tags of the map. -/
structure Inverts (x : ReverseIndex ι κ) (m : κ → Option β) (tag : β → ι) : Prop where
  nodup : ∀ i, (x.under i).Nodup
  mem : ∀ i k, k ∈ x.under i ↔ ∃ b, m k = some b ∧ tag b = i

namespace Inverts

variable {x : ReverseIndex ι κ} {m m' : κ → Option β} {tag : β → ι}

omit [DecidableEq κ] in
theorem empty : Inverts (∅ : ReverseIndex ι κ) (fun _ : κ => (none : Option β)) tag where
  nodup _ := List.nodup_nil
  mem i k := by
    constructor
    · intro hk
      cases hk
    · rintro ⟨b, hb, -⟩
      cases hb

omit [DecidableEq κ] in
/-- Writes that keep the tags keep the index. -/
theorem congr (h : Inverts x m tag) (hm : ∀ k, (m' k).map tag = (m k).map tag) :
    Inverts x m' tag where
  nodup := h.nodup
  mem i k := by
    rw [h.mem]
    have htag : ∀ f : κ → Option β, (∃ b, f k = some b ∧ tag b = i) ↔ (f k).map tag = some i :=
      fun f => Option.map_eq_some_iff.symm
    rw [htag m, htag m', hm]

/-- A key that is not there comes in. -/
theorem add (h : Inverts x m tag) {k : κ} (hk : m k = none) (b : β) :
    Inverts (x.add (tag b) k) (Function.update m k (some b)) tag := by
  have hfresh : ∀ i, k ∉ x.under i := by
    intro i hmem
    obtain ⟨c, hc, -⟩ := (h.mem i k).mp hmem
    rw [hk] at hc
    cases hc
  have hunder : ∀ i, (x.add (tag b) k).under i
      = if i = tag b then x.under (tag b) ++ [k] else x.under i := by
    intro i
    unfold ReverseIndex.add
    rw [under_insert, if_neg (hfresh _)]
  constructor
  · intro i
    rw [hunder]
    split
    · refine List.nodup_append.mpr ⟨h.nodup _, List.nodup_singleton k, ?_⟩
      rintro a ha c hc rfl
      rw [List.mem_singleton] at hc
      exact hfresh _ (hc ▸ ha)
    · exact h.nodup i
  · intro i n
    rw [hunder, Function.update_apply]
    by_cases hn : n = k
    · subst hn
      rw [if_pos rfl]
      by_cases hi : i = tag b
      · rw [if_pos hi]
        simp [hi]
      · rw [if_neg hi]
        refine iff_of_false (hfresh i) ?_
        rintro ⟨c, hc, rfl⟩
        rw [Option.some.inj hc] at hi
        exact hi rfl
    · rw [if_neg hn, ← h.mem]
      split
      · rename_i hi
        rw [hi, List.mem_append, List.mem_singleton, or_iff_left hn]
      · rfl

/-- A key goes out. -/
theorem drop (h : Inverts x m tag) {k : κ} {b : β} (hk : m k = some b) :
    Inverts (x.drop (tag b) k) (Function.update m k none) tag := by
  have hunder : ∀ i, (x.drop (tag b) k).under i
      = if i = tag b then (x.under (tag b)).filter (· ≠ k) else x.under i := by
    intro i
    unfold ReverseIndex.drop
    rw [under_insert]
  constructor
  · intro i
    rw [hunder]
    split
    · exact (h.nodup _).filter _
    · exact h.nodup i
  · intro i n
    rw [hunder, Function.update_apply]
    by_cases hn : n = k
    · subst hn
      rw [if_pos rfl]
      refine iff_of_false ?_ (by simp)
      split
      · simp
      · rename_i hi
        rw [h.mem]
        rintro ⟨c, hc, rfl⟩
        rw [hk] at hc
        rw [Option.some.inj hc] at hi
        exact hi rfl
    · rw [if_neg hn, ← h.mem]
      split
      · rename_i hi
        rw [hi, List.mem_filter, decide_eq_true_eq, and_iff_left hn]
      · rfl

/-- A key moves to the tag of its new value. -/
theorem move (h : Inverts x m tag) {k : κ} {b : β} (hk : m k = some b) (b' : β) :
    Inverts ((x.drop (tag b) k).add (tag b') k) (Function.update m k (some b')) tag := by
  have hgone : Function.update m k none k = none := Function.update_self ..
  have hmove := (h.drop hk).add hgone b'
  rwa [Function.update_idem] at hmove

end Inverts

end ReverseIndex

end NamespaceIndexer.Lib
