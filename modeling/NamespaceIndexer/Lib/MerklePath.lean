import Mathlib.Tactic

/-!
# Climbing a hash tree

A path gives, level by level, the sibling and the side it stands on. What a climb hashed decides how
far two climbs to one root agree, when no two of those strings collide.
-/

namespace NamespaceIndexer.Lib.MerklePath

variable {D S Str : Type} (hash : Str → D) (pair : Bool → S → D → Str)

/-- The root a digest climbs to. -/
def climb : List (Bool × S) → D → D
  | [], d => d
  | (side, s) :: path, d => climb path (hash (pair side s d))

/-- The strings hashed on the way. -/
def inputs : List (Bool × S) → D → List Str
  | [], _ => []
  | (side, s) :: path, d => pair side s d :: inputs path (hash (pair side s d))

/-- No string of one list collides with a string of the other. -/
def Apart (xs ys : List Str) : Prop := ∀ x ∈ xs, ∀ y ∈ ys, hash x = hash y → x = y

variable {hash pair}

theorem Apart.mono {xs xs' ys ys' : List Str} (h : Apart hash xs ys) (hx : ∀ x ∈ xs', x ∈ xs)
    (hy : ∀ y ∈ ys', y ∈ ys) : Apart hash xs' ys' :=
  fun x hx' y hy' => h x (hx x hx') y (hy y hy')

theorem Apart.symm {xs ys : List Str} (h : Apart hash xs ys) : Apart hash ys xs :=
  fun y hy x hx heq => (h x hx y hy heq.symm).symm

theorem climb_append (p q : List (Bool × S)) (d : D) :
    climb hash pair (p ++ q) d = climb hash pair q (climb hash pair p d) := by
  induction p generalizing d with
  | nil => rfl
  | cons x p ih => exact ih _

theorem mem_inputs_append {p q : List (Bool × S)} {d : D} {x : Str} :
    x ∈ inputs hash pair (p ++ q) d ↔
      x ∈ inputs hash pair p d ∨ x ∈ inputs hash pair q (climb hash pair p d) := by
  induction p generalizing d with
  | nil => simp [inputs, climb]
  | cons y p ih =>
    show x ∈ _ :: inputs hash pair (p ++ q) _ ↔ x ∈ _ :: inputs hash pair p _ ∨ _
    rw [List.mem_cons, List.mem_cons, ih, or_assoc]
    exact Iff.rfl

/-- Two climbs on the same sides to one root start from the same digest. -/
theorem climb_inj (hpair : ∀ side s s' d d', pair side s d = pair side s' d' → d = d')
    {p q : List (Bool × S)} (hsides : p.map Prod.fst = q.map Prod.fst) {d e : D}
    (hapart : Apart hash (inputs hash pair p d) (inputs hash pair q e))
    (h : climb hash pair p d = climb hash pair q e) : d = e := by
  induction p generalizing q d e with
  | nil =>
    cases q with
    | nil => exact h
    | cons y q => cases hsides
  | cons x p ih =>
    cases q with
    | nil => cases hsides
    | cons y q =>
      obtain ⟨side, s⟩ := x
      obtain ⟨side', s'⟩ := y
      rw [List.map_cons, List.map_cons, List.cons.injEq] at hsides
      obtain ⟨hside, hsides⟩ := hsides
      have hside' : side = side' := hside
      subst hside'
      have hnext := ih hsides
        (hapart.mono (fun _ hx => List.mem_cons_of_mem _ hx)
          (fun _ hy => List.mem_cons_of_mem _ hy)) h
      have hstring := hapart _ (List.mem_cons_self ..) _ (List.mem_cons_self ..) hnext
      exact hpair side s s' d e hstring

/-- A climb of at least one level ends in the hash of a pair. -/
theorem climb_eq_hash {p : List (Bool × S)} (hp : p ≠ []) (d : D) :
    ∃ side s e, (side, s) ∈ p ∧ pair side s e ∈ inputs hash pair p d ∧
      climb hash pair p d = hash (pair side s e) := by
  induction p generalizing d with
  | nil => exact absurd rfl hp
  | cons x p ih =>
    obtain ⟨side, s⟩ := x
    by_cases hrest : p = []
    · subst hrest
      exact ⟨side, s, d, List.mem_cons_self .., List.mem_cons_self .., rfl⟩
    · obtain ⟨side', s', e, hmem, hinput, heq⟩ := ih hrest (hash (pair side s d))
      exact ⟨side', s', e, List.mem_cons_of_mem _ hmem, List.mem_cons_of_mem _ hinput, heq⟩

/-- Of two climbs to one root, the longer one passes the start of the shorter one, where its upper
levels are on the same sides. -/
theorem climb_meets (hpair : ∀ side s s' d d', pair side s d = pair side s' d' → d = d')
    {p q : List (Bool × S)} (hlen : p.length < q.length)
    (hsides : p.map Prod.fst = (q.drop (q.length - p.length)).map Prod.fst) {d e : D}
    (hapart : Apart hash (inputs hash pair p d) (inputs hash pair q e))
    (h : climb hash pair p d = climb hash pair q e) :
    ∃ side s e', (side, s) ∈ q ∧ pair side s e' ∈ inputs hash pair q e ∧
      d = hash (pair side s e') := by
  have hsplit := List.take_append_drop (q.length - p.length) q
  have hlower : q.take (q.length - p.length) ≠ [] := by
    intro hnil
    have hzero := congrArg List.length hnil
    rw [List.length_take, List.length_nil] at hzero
    omega
  rw [← hsplit, climb_append] at h
  have hstart := climb_inj hpair hsides (hapart.mono (fun _ hx => hx) (fun y hy => by
    rw [← hsplit]
    exact mem_inputs_append.mpr (Or.inr hy))) h
  obtain ⟨side, s, e', hmem, hinput, heq⟩ := climb_eq_hash hlower e
  refine ⟨side, s, e', List.mem_of_mem_take hmem, ?_, hstart.trans heq⟩
  rw [← hsplit]
  exact mem_inputs_append.mpr (Or.inl hinput)

end NamespaceIndexer.Lib.MerklePath
