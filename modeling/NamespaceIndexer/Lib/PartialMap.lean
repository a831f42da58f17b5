import Mathlib.Tactic

/-!
# Partial maps

A partial map is a function `κ → Option β`. The keys of a finite set have an
ascending listing; a fold of single-key changes over distinct keys is one
pointwise change.
-/

namespace NamespaceIndexer.Lib.PartialMap

/-! ### Ascending listing of a finite set -/

section Listing

variable {κ : Type*} [LinearOrder κ]

open Classical in
/-- The elements of `S` in ascending order, when `S` is finite. -/
noncomputable def listing (S : Set κ) : List κ :=
  if h : S.Finite then h.toFinset.sort (· ≤ ·) else []

/-- An ascending list with the elements of `S` is the listing of `S`. -/
theorem listing_eq {S : Set κ} {l : List κ} (hs : l.Pairwise (· ≤ ·)) (hn : l.Nodup)
    (hm : ∀ n, n ∈ l ↔ n ∈ S) : listing S = l := by
  have hfin : S.Finite := (l.toFinset.finite_toSet).subset fun n hS => by simpa using (hm n).mpr hS
  unfold listing
  rw [dif_pos hfin]
  have hset : hfin.toFinset = l.toFinset := by
    ext n
    simp [hm]
  rw [hset]
  have hp : (l.toFinset.sort (· ≤ ·)).Perm l := by
    refine (List.perm_ext_iff_of_nodup (Finset.sort_nodup _ _) hn).mpr fun n => ?_
    simp
  exact List.Perm.eq_of_pairwise (fun a b _ _ hab hba => le_antisymm hab hba)
    (Finset.pairwise_sort _ _) hs hp

theorem listing_nodup (S : Set κ) : (listing S).Nodup := by
  unfold listing
  split
  · exact Finset.sort_nodup _ _
  · exact List.nodup_nil

theorem listing_ascending (S : Set κ) : (listing S).Pairwise (· ≤ ·) := by
  unfold listing
  split
  · exact Finset.pairwise_sort _ _
  · exact List.Pairwise.nil

theorem mem_of_mem_listing {S : Set κ} {n : κ} (h : n ∈ listing S) : n ∈ S := by
  unfold listing at h
  split at h
  · simpa using h
  · simp at h

end Listing

/-! ### Folds of single-key changes -/

section Modify

variable {κ β γ : Type*} [DecidableEq κ]

/-- Apply `g` to the value at `k`, if there is one. -/
def modify (f : κ → Option γ) (k : κ) (g : γ → γ) : κ → Option γ :=
  Function.update f k ((f k).map g)

theorem modify_apply (f : κ → Option γ) (k : κ) (g : γ → γ) (n : κ) :
    modify f k g n = if n = k then (f n).map g else f n := by
  unfold modify
  by_cases h : n = k
  · subst h
    simp
  · simp [h]

/-- Change the value at every key that the association list `z` mentions. -/
def modifyAll (z : List (κ × β)) (g : β → γ → γ) (f : κ → Option γ) : κ → Option γ := fun n =>
  match z.lookup n with
  | some b => (f n).map (g b)
  | none => f n

theorem lookup_eq_none_of_notMem {z : List (κ × β)} {n : κ} (h : n ∉ z.map Prod.fst) :
    z.lookup n = none := by
  rw [List.lookup_eq_none_iff]
  intro p hp
  rw [bne_iff_ne]
  rintro rfl
  exact h (List.mem_map_of_mem hp)

theorem foldl_modify (z : List (κ × β)) (g : β → γ → γ) (f : κ → Option γ)
    (hz : (z.map Prod.fst).Nodup) :
    z.foldl (fun f p => modify f p.1 (g p.2)) f = modifyAll z g f := by
  induction z generalizing f with
  | nil => rfl
  | cons p z ih =>
    rw [List.map_cons, List.nodup_cons] at hz
    rw [List.foldl_cons, ih _ hz.2]
    funext n
    unfold modifyAll
    rw [modify_apply, List.lookup_cons]
    by_cases hn : n = p.1
    · rw [hn, lookup_eq_none_of_notMem hz.1]
      simp
    · have hb : (n == p.1) = false := by simpa using hn
      rw [if_neg hn, hb]

theorem modifyAll_const (l : List κ) (g : γ → γ) (f : κ → Option γ) (n : κ) :
    modifyAll (l.map fun k => (k, ())) (fun _ => g) f n
      = if n ∈ l then (f n).map g else f n := by
  unfold modifyAll
  induction l with
  | nil => rfl
  | cons k l ih =>
    rw [List.map_cons, List.lookup_cons]
    by_cases hn : n = k
    · subst hn
      simp
    · have hb : (n == k) = false := by simpa using hn
      rw [hb]
      simpa [hn] using ih

/-- A projection `u` of the values that forgets what `g` does to them can be applied first. -/
theorem modifyAll_map {u : γ → γ} {g : β → γ → γ} (hu : ∀ b v, u (g b (u v)) = u (g b v))
    (huu : ∀ v, u (u v) = u v) (z : List (κ × β)) (f : κ → Option γ) (n : κ) :
    (modifyAll z g (fun n => (f n).map u) n).map u = (modifyAll z g f n).map u := by
  unfold modifyAll
  cases hf : f n with
  | none => split <;> simp [hf]
  | some v => split <;> simp [hf, hu, huu]

/-- Values seen through `u`. -/
theorem modifyAll_image {δ : Type*} {u : γ → δ} {g : β → γ → γ} {g' : β → δ → δ}
    (hg : ∀ b v, g' b (u v) = u (g b v)) (z : List (κ × β)) (f : κ → Option γ) :
    modifyAll z g' (fun n => (f n).map u) = fun n => (modifyAll z g f n).map u := by
  funext n
  unfold modifyAll
  dsimp only
  split
  · cases f n with
    | none => rfl
    | some v => exact congrArg some (hg _ v)
  · rfl

/-- Amounts read through `u`. -/
theorem modifyAll_read {α : Type*} (u : α → β) (z : List (κ × α)) (g : β → γ → γ)
    (f : κ → Option γ) :
    modifyAll (z.map (Prod.map id u)) g f = modifyAll z (fun a => g (u a)) f := by
  funext n
  unfold modifyAll
  induction z with
  | nil => rfl
  | cons p z ih =>
    rw [List.map_cons, List.lookup_cons, List.lookup_cons]
    by_cases hn : n = p.1
    · simp [hn]
    · have hb : (n == p.1) = false := by simpa using hn
      simp only [Prod.map_fst, id_eq, hb]
      exact ih

theorem modifyAll_singleton (k : κ) (b : β) (g : β → γ → γ) (f : κ → Option γ) :
    modifyAll [(k, b)] g f = modify f k (g b) := by
  funext n
  unfold modifyAll
  rw [modify_apply, List.lookup_cons]
  by_cases hn : n = k
  · subst hn
    simp
  · have hb : (n == k) = false := by simpa using hn
    rw [if_neg hn, hb]
    rfl

theorem lookup_zip {ks : List κ} {bs : List ℕ} {n : κ} {b : ℕ} {bound : κ → ℕ}
    (h : (ks.zip bs).lookup n = some b) (hle : List.Forall₂ (· ≤ ·) bs (ks.map bound)) :
    n ∈ ks ∧ b ≤ bound n := by
  induction ks generalizing bs with
  | nil => simp at h
  | cons k ks ih =>
    cases bs with
    | nil => simp at h
    | cons c bs =>
      rw [List.map_cons, List.forall₂_cons] at hle
      rw [List.zip_cons_cons, List.lookup_cons] at h
      by_cases hk : n = k
      · subst hk
        rw [beq_self_eq_true, Option.some.injEq] at h
        subst h
        exact ⟨List.mem_cons_self, hle.1⟩
      · have hb : (n == k) = false := by simpa using hk
        rw [hb] at h
        have hrest := ih h hle.2
        exact ⟨List.mem_cons_of_mem _ hrest.1, hrest.2⟩

/-- Changes by bounded amounts: each key is left alone or changed within its bound. -/
theorem modifyAll_zip {ks : List κ} {bs : List ℕ} {bound : κ → ℕ} (g : ℕ → γ → γ)
    (f : κ → Option γ) (hle : List.Forall₂ (· ≤ ·) bs (ks.map bound)) (n : κ) :
    modifyAll (ks.zip bs) g f n = f n ∨
      n ∈ ks ∧ ∃ b ≤ bound n, modifyAll (ks.zip bs) g f n = (f n).map (g b) := by
  unfold modifyAll
  cases h : (ks.zip bs).lookup n with
  | none => exact Or.inl rfl
  | some b =>
    obtain ⟨hn, hb⟩ := lookup_zip h hle
    exact Or.inr ⟨hn, b, hb, rfl⟩

end Modify

end NamespaceIndexer.Lib.PartialMap
