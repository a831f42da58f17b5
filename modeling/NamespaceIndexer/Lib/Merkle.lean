import Mathlib.Tactic

/-!
# Merkle levels with padding by repetition

A level pairs neighbours and pairs an odd last item with itself, so that a list
and the list with its last item repeated have the same parents. A list in which
no supplied pair is equal is determined by its parents all the same.
-/

namespace NamespaceIndexer.Lib.Merkle

variable {α : Type} [DecidableEq α] (node : α → α → α)

/-- The pairs hashed at one level. -/
def pairs : List α → List (α × α)
  | [] => []
  | [a] => [(a, a)]
  | a :: b :: rest => (a, b) :: pairs rest

/-- Is one of the supplied pairs equal? -/
def mutated : List α → Bool
  | a :: b :: rest => a == b || mutated rest
  | _ => false

/-- The parents. -/
def level (l : List α) : List α := (pairs l).map fun p => node p.1 p.2

/-- A list without equal pairs is determined by its pairs, whatever its length. -/
theorem eq_of_pairs_eq (xs : List α) : ∀ ys : List α, mutated xs = false → mutated ys = false →
    pairs xs = pairs ys → xs = ys := by
  induction xs using pairs.induct with
  | case1 =>
    intro ys _ _ h
    match ys with
    | [] => rfl
    | [_] => cases h
    | _ :: _ :: _ => cases h
  | case2 a =>
    intro ys _ hm h
    match ys with
    | [] => cases h
    | [b] =>
      cases h
      rfl
    | b :: c :: rest =>
      -- the padded list would have its last two items equal
      have hb : a = b ∧ a = c := by simpa [pairs] using congrArg List.head? h
      obtain ⟨rfl, rfl⟩ := hb
      simp [mutated] at hm
  | case3 a b rest ih =>
    intro ys hx hy h
    simp only [mutated, Bool.or_eq_false_iff] at hx
    match ys with
    | [] => cases h
    | [c] =>
      have hc : a = c ∧ b = c := by simpa [pairs] using congrArg List.head? h
      obtain ⟨rfl, rfl⟩ := hc
      simp at hx
    | c :: d :: rest' =>
      simp only [mutated, Bool.or_eq_false_iff] at hy
      obtain ⟨hp, ht⟩ := List.cons.inj h
      cases hp
      rw [ih rest' hx.2 hy.2 ht]

theorem eq_of_map_eq {β γ : Type} {f : β → γ} {S : Set β} (hS : Set.InjOn f S) (xs : List β) :
    ∀ ys : List β, (∀ x ∈ xs, x ∈ S) → (∀ y ∈ ys, y ∈ S) → xs.map f = ys.map f → xs = ys := by
  induction xs with
  | nil =>
    intro ys _ _ h
    exact (List.map_eq_nil_iff.mp h.symm).symm
  | cons x xs ih =>
    intro ys hx hy h
    cases ys with
    | nil => cases h
    | cons y ys =>
      obtain ⟨hxy, ht⟩ := List.cons.inj h
      have he : x = y := hS (hx x List.mem_cons_self) (hy y List.mem_cons_self) hxy
      rw [he, ih ys (fun z hz => hx z (List.mem_cons_of_mem _ hz))
        (fun z hz => hy z (List.mem_cons_of_mem _ hz)) ht]

/-- Parents under a node function injective on the pairs of both lists. -/
theorem eq_of_level_eq {S : Set (α × α)} (hS : Set.InjOn (fun p : α × α => node p.1 p.2) S)
    {xs ys : List α} (hx : mutated xs = false) (hy : mutated ys = false)
    (hxs : ∀ p ∈ pairs xs, p ∈ S) (hys : ∀ p ∈ pairs ys, p ∈ S)
    (h : level node xs = level node ys) : xs = ys :=
  eq_of_pairs_eq xs ys hx hy (eq_of_map_eq hS _ _ hxs hys h)

/-- No level below the `p`-th holds an equal pair. -/
def Clean (l : List α) (p : ℕ) : Prop := ∀ j < p, mutated ((level node)^[j] l) = false

/-- The pairs hashed below the `p`-th level are all in `S`. -/
def Within (S : Set (α × α)) (l : List α) (p : ℕ) : Prop :=
  ∀ j < p, ∀ x ∈ pairs ((level node)^[j] l), x ∈ S

variable {node}

/-- Two trees that meet at some level meet at every level below it. -/
theorem eq_iterate {S : Set (α × α)} (hS : Set.InjOn (fun p : α × α => node p.1 p.2) S)
    {xs ys : List α} (p q : ℕ) (hx : Clean node xs p) (hy : Clean node ys (q + p))
    (hxs : Within node S xs p) (hys : Within node S ys (q + p))
    (h : (level node)^[p] xs = (level node)^[q + p] ys) : xs = (level node)^[q] ys := by
  induction p with
  | zero => exact h
  | succ p ih =>
    rw [← Nat.add_assoc, Function.iterate_succ_apply', Function.iterate_succ_apply'] at h
    have hp := eq_of_level_eq node hS (hx p (by omega)) (hy (q + p) (by omega))
      (hxs p (by omega)) (hys (q + p) (by omega)) h
    exact ih (fun j hj => hx j (by omega)) (fun j hj => hy j (by omega))
      (fun j hj => hxs j (by omega)) (fun j hj => hys j (by omega)) hp

/-- No item of `xs` is a node of the tree of height `q` over `ys`. -/
def Apart (node : α → α → α) (xs ys : List α) (q : ℕ) : Prop :=
  ∀ x ∈ xs, ∀ j < q, ∀ y ∈ pairs ((level node)^[j] ys), x ≠ node y.1 y.2

theorem eq_of_top_of_le {S : Set (α × α)} (hS : Set.InjOn (fun p : α × α => node p.1 p.2) S)
    {xs ys : List α} {p q : ℕ} (hle : p ≤ q) (hx : Clean node xs p) (hy : Clean node ys q)
    (hxs : Within node S xs p) (hys : Within node S ys q) (hne : xs ≠ [])
    (hapart : Apart node xs ys q) (h : (level node)^[p] xs = (level node)^[q] ys) : xs = ys := by
  obtain ⟨k, rfl⟩ : ∃ k, q = k + p := ⟨q - p, by omega⟩
  have hk := eq_iterate hS p k hx hy hxs hys h
  cases k with
  | zero => exact hk
  | succ k =>
    -- the tree over `ys` is taller, so the items of `xs` are nodes of it
    obtain ⟨x, hmem⟩ := List.exists_mem_of_ne_nil xs hne
    have hup : x ∈ (level node)^[k + 1] ys := hk ▸ hmem
    rw [Function.iterate_succ_apply'] at hup
    obtain ⟨y, hy', hxy⟩ := List.mem_map.mp hup
    exact (hapart x hmem k (by omega) y hy' hxy.symm).elim

/-- Two lists under one top are equal, whatever their lengths, if no item of one is a node over the
other. -/
theorem eq_of_top {S : Set (α × α)} (hS : Set.InjOn (fun p : α × α => node p.1 p.2) S)
    {xs ys : List α} {p q : ℕ} (hx : Clean node xs p) (hy : Clean node ys q)
    (hxs : Within node S xs p) (hys : Within node S ys q) (hxne : xs ≠ []) (hyne : ys ≠ [])
    (hxy : Apart node xs ys q) (hyx : Apart node ys xs p)
    (h : (level node)^[p] xs = (level node)^[q] ys) : xs = ys := by
  rcases Nat.le_total p q with hle | hle
  · exact eq_of_top_of_le hS hle hx hy hxs hys hxne hxy h
  · exact (eq_of_top_of_le hS hle hy hx hys hxs hyne hyx h.symm).symm

end NamespaceIndexer.Lib.Merkle
