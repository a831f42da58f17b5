import Mathlib.Data.Finsupp.Basic
import Mathlib.Algebra.BigOperators.Finsupp.Basic
import Mathlib.Tactic

/-!
# Insertions and removals counted

A list of changes of a multiset, the net count that it leaves of each key, and sums over it in a
commutative group: they depend on the net counts only.
-/

namespace NamespaceIndexer.Lib.Changes

/-- An insertion or a removal. -/
structure Change (κ : Type*) where
  insert : Bool
  key : κ
  deriving DecidableEq

variable {κ ι : Type*}

def Change.map (f : κ → ι) (c : Change κ) : Change ι := ⟨c.insert, f c.key⟩

/-- One up or one down. -/
def Change.sign (c : Change κ) : ℤ := if c.insert then 1 else -1

@[simp] theorem sign_insert (k : κ) : Change.sign ⟨true, k⟩ = 1 := rfl

@[simp] theorem sign_remove (k : κ) : Change.sign ⟨false, k⟩ = -1 := rfl

@[simp] theorem sign_map (f : κ → ι) (c : Change κ) : (c.map f).sign = c.sign := rfl

/-- The net count of a key. -/
def net [DecidableEq κ] (cs : List (Change κ)) (k : κ) : ℤ :=
  (cs.map fun c => if c.key = k then c.sign else 0).sum

/-- A history of row changes that ends in the rows, in whatever order they stand. -/
inductive History : List (Change κ) → List κ → Prop
  | nil : History [] []
  | insert {cs : List (Change κ)} {rows rows' : List κ} (k : κ) (h : History cs rows)
      (hperm : rows'.Perm (k :: rows)) : History (cs ++ [⟨true, k⟩]) rows'
  | remove {cs : List (Change κ)} {rows rows' : List κ} (k : κ) (h : History cs rows)
      (hperm : rows.Perm (k :: rows')) : History (cs ++ [⟨false, k⟩]) rows'

/-- What a history ends in was inserted in it. -/
theorem History.mem {cs : List (Change κ)} {rows : List κ} (h : History cs rows) {k : κ}
    (hk : k ∈ rows) : ⟨true, k⟩ ∈ cs := by
  induction h with
  | nil => cases hk
  | insert k' h hperm ih =>
    rcases List.mem_cons.mp (hperm.mem_iff.mp hk) with rfl | hmem
    · simp
    · exact List.mem_append_left _ (ih hmem)
  | remove k' h hperm ih =>
    exact List.mem_append_left _ (ih (hperm.mem_iff.mpr (List.mem_cons_of_mem _ hk)))

section Sums

variable {G : Type*} [AddCommGroup G]

/-- The sum of `f` over the changes. -/
def signedSum (f : κ → G) (cs : List (Change κ)) : G := (cs.map fun c => c.sign • f c.key).sum

@[simp] theorem signedSum_nil (f : κ → G) : signedSum f [] = 0 := rfl

@[simp] theorem signedSum_cons (f : κ → G) (c : Change κ) (cs : List (Change κ)) :
    signedSum f (c :: cs) = c.sign • f c.key + signedSum f cs := by
  simp [signedSum]

theorem signedSum_append (f : κ → G) (cs ds : List (Change κ)) :
    signedSum f (cs ++ ds) = signedSum f cs + signedSum f ds := by
  simp [signedSum]

theorem signedSum_map (f : ι → G) (g : κ → ι) (cs : List (Change κ)) :
    signedSum f (cs.map (Change.map g)) = signedSum (fun k => f (g k)) cs := by
  induction cs with
  | nil => rfl
  | cons c cs ih =>
    rw [List.map_cons, signedSum_cons, signedSum_cons, ih]
    rfl

theorem signedSum_inserts (f : κ → G) (rows : List κ) :
    signedSum f (rows.map fun k => ⟨true, k⟩) = (rows.map f).sum := by
  induction rows with
  | nil => rfl
  | cons k rows ih =>
    rw [List.map_cons, signedSum_cons, ih, List.map_cons, List.sum_cons, sign_insert, one_smul]

/-- The sum over a history is the sum over the rows that it ends in. -/
theorem History.signedSum_eq (f : κ → G) {cs : List (Change κ)} {rows : List κ}
    (h : History cs rows) : signedSum f cs = (rows.map f).sum := by
  induction h with
  | nil => rfl
  | insert k h hperm ih =>
    rw [signedSum_append, ih, (hperm.map f).sum_eq, List.map_cons, List.sum_cons, signedSum_cons,
      signedSum_nil, add_zero, sign_insert, one_smul, add_comm]
  | remove k h hperm ih =>
    rw [signedSum_append, ih, (hperm.map f).sum_eq, List.map_cons, List.sum_cons, signedSum_cons,
      signedSum_nil, add_zero, sign_remove, neg_one_smul]
    abel

/-- The net counts as a function of finite support. -/
noncomputable def counts (cs : List (Change κ)) : κ →₀ ℤ :=
  (cs.map fun c => Finsupp.single c.key c.sign).sum

theorem counts_apply [DecidableEq κ] (cs : List (Change κ)) (k : κ) : counts cs k = net cs k := by
  induction cs with
  | nil => rfl
  | cons c cs ih =>
    have hcounts : counts (c :: cs) = Finsupp.single c.key c.sign + counts cs := by
      simp [counts]
    have hnet : net (c :: cs) k = (if c.key = k then c.sign else 0) + net cs k := by
      simp [net]
    rw [hcounts, hnet, Finsupp.add_apply, ih, Finsupp.single_apply]

theorem signedSum_eq_counts (f : κ → G) (cs : List (Change κ)) :
    signedSum f cs = (counts cs).sum fun k n => n • f k := by
  induction cs with
  | nil => simp [counts]
  | cons c cs ih =>
    have hcounts : counts (c :: cs) = Finsupp.single c.key c.sign + counts cs := by
      simp [counts]
    have hadd : ∀ k (m n : ℤ), (m + n) • f k = m • f k + n • f k := fun k m n => add_smul m n (f k)
    rw [signedSum_cons, hcounts, Finsupp.sum_add_index' (fun k => zero_smul ℤ (f k)) hadd,
      Finsupp.sum_single_index (zero_smul ℤ (f c.key)), ih]

/-- Sums over changes of the same net counts are equal. -/
theorem signedSum_eq_of_net [DecidableEq κ] (f : κ → G) {cs ds : List (Change κ)}
    (h : ∀ k, net cs k = net ds k) : signedSum f cs = signedSum f ds := by
  have hcounts : counts cs = counts ds := by
    ext k
    rw [counts_apply, counts_apply, h]
  rw [signedSum_eq_counts, signedSum_eq_counts, hcounts]

end Sums

end NamespaceIndexer.Lib.Changes
