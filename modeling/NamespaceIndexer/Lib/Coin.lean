import Mathlib.Tactic

/-!
# One coin in a table that follows a chain

A chain of blocks funds and spends a coin. A table holds a mark of the coin: what it is worth, where
it was funded, where it was last spent. A cut at a height takes out what lies above, and the blocks
that were kept are played again. The mark is true to the chain through all of this, as long as no
block funds the coin once it is spent.
-/

namespace NamespaceIndexer.Lib.Coin

variable {ν : Type}

inductive Event (ν : Type) where
  | fund (v : ν)
  | spend
deriving DecidableEq

/-- What the table holds of the coin. -/
structure Mark (ν : Type) where
  value : ν
  height : ℤ
  spent : Option ℤ

/-- A funding that is there already is left alone. -/
def act (height : ℤ) (m : Option (Mark ν)) : Event ν → Option (Mark ν)
  | .fund v => m.or (some ⟨v, height, none⟩)
  | .spend => m.map fun k => { k with spent := some height }

def pass (height : ℤ) (m : Option (Mark ν)) (es : List (Event ν)) : Option (Mark ν) :=
  es.foldl (act height) m

/-- Take out what lies above `top`. -/
def cut (top : ℤ) (m : Option (Mark ν)) : Option (Mark ν) :=
  (m.filter fun k => k.height ≤ top).map fun k =>
    { k with spent := k.spent.filter fun h => h ≤ top }

structure Block (ν : Type) where
  height : ℤ
  events : List (Event ν)
  kept : Bool

/-- No event puts the coin into the table or finds it there. -/
def Missed (height : ℤ) : Option (Mark ν) → List (Event ν) → Prop
  | _, [] => True
  | _, .fund _ :: _ => False
  | m, .spend :: es => m = none ∧ Missed height (act height m .spend) es

/-- The coin is funded before it is spent, and funded again only with the same value. `before` says
whether it has been spent. -/
def Orderly (height : ℤ) : Prop → Option (Mark ν) → List (Event ν) → Prop
  | _, _, [] => True
  | before, m, .fund v :: es =>
    (m = none → ¬before) ∧ (∀ k, m = some k → k.value = v) ∧
      Orderly height before (act height m (.fund v)) es
  | _, m, .spend :: es => Orderly height True (act height m .spend) es

/-- Some block of the chain spends the coin. -/
def Spent (chain : List (Block ν)) : Prop := ∃ b ∈ chain, .spend ∈ b.events

instance (chain : List (Block ν)) [DecidableEq ν] : Decidable (Spent chain) :=
  inferInstanceAs (Decidable (∃ b ∈ chain, .spend ∈ b.events))

instance decidableOrderly [DecidableEq ν] (height : ℤ) : (before : Prop) → [Decidable before] →
    (m : Option (Mark ν)) → (es : List (Event ν)) → Decidable (Orderly height before m es)
  | _, _, _, [] => inferInstanceAs (Decidable True)
  | before, _, m, .fund v :: es =>
    have := decidableOrderly height before (act height m (.fund v)) es
    have : Decidable (m = none) := decidable_of_iff _ Option.isNone_iff_eq_none
    inferInstanceAs (Decidable ((m = none → ¬before) ∧ (∀ k ∈ m, k.value = v) ∧
      Orderly height before (act height m (.fund v)) es))
  | _, _, m, .spend :: es => decidableOrderly height True (act height m .spend) es

/-- The mark is true to the chain. -/
structure Traces (m : Option (Mark ν)) (chain : List (Block ν)) : Prop where
  funded : ∀ b ∈ chain, ∀ v, .fund v ∈ b.events → ∃ k, m = some k ∧ k.value = v ∧ k.height ≤ b.height
  made : ∀ k, m = some k → ∃ b ∈ chain, b.height = k.height ∧ .fund k.value ∈ b.events
  spent : ∀ k h, m = some k → k.spent = some h → ∃ b ∈ chain, b.height = h ∧ .spend ∈ b.events
  seen : ∀ k, m = some k → ∀ b ∈ chain, .spend ∈ b.events → k.spent.isSome ∧ b.kept = true

theorem pass_append (height : ℤ) (m : Option (Mark ν)) (es es' : List (Event ν)) :
    pass height m (es ++ es') = pass height (pass height m es) es' := List.foldl_append

theorem missed_append {height : ℤ} {m : Option (Mark ν)} {es es' : List (Event ν)} :
    Missed height m (es ++ es') ↔ Missed height m es ∧ Missed height (pass height m es) es' := by
  induction es generalizing m with
  | nil => exact ⟨fun h => ⟨trivial, h⟩, fun h => h.2⟩
  | cons e es ih =>
    cases e with
    | fund v => exact ⟨fun h => h.elim, fun h => h.1.elim⟩
    | spend =>
      show m = none ∧ Missed height _ (es ++ es') ↔ (m = none ∧ Missed height _ es) ∧ _
      rw [ih, and_assoc]
      rfl

theorem traces_nil : Traces (none : Option (Mark ν)) [] where
  funded := fun b hb => absurd hb List.not_mem_nil
  made := fun k hk => by cases hk
  spent := fun k h hk => by cases hk
  seen := fun k hk => by cases hk

/-! ### A block is connected -/

section Connect

variable {chain : List (Block ν)} {m : Option (Mark ν)} {height : ℤ} {kept : Bool}
  {es : List (Event ν)}

theorem mem_snoc {b b' : Block ν} : b ∈ chain ++ [b'] ↔ b ∈ chain ∨ b = b' := by
  rw [List.mem_append, List.mem_singleton]

theorem Traces.empty (h : Traces m chain) : Traces m (chain ++ [⟨height, [], kept⟩]) where
  funded := by
    intro b hb v hv
    rcases mem_snoc.mp hb with hb | rfl
    · exact h.funded b hb v hv
    · cases hv
  made := by
    intro k hk
    obtain ⟨b, hb, hmade⟩ := h.made k hk
    exact ⟨b, mem_snoc.mpr (Or.inl hb), hmade⟩
  spent := by
    intro k hs hk hsp
    obtain ⟨b, hb, hspent⟩ := h.spent k hs hk hsp
    exact ⟨b, mem_snoc.mpr (Or.inl hb), hspent⟩
  seen := by
    intro k hk b hb hsp
    rcases mem_snoc.mp hb with hb | rfl
    · exact h.seen k hk b hb hsp
    · cases hsp

/-- A funding at the end of the last block. -/
theorem Traces.fund {v : ν} (h : Traces m (chain ++ [⟨height, es, kept⟩]))
    (hbelow : ∀ k, m = some k → k.height ≤ height)
    (hnew : m = none → ¬Spent (chain ++ [⟨height, es, kept⟩]))
    (hsame : ∀ k, m = some k → k.value = v) :
    Traces (act height m (.fund v)) (chain ++ [⟨height, es ++ [.fund v], kept⟩]) := by
  have hspend : ∀ b ∈ chain ++ [⟨height, es ++ [.fund v], kept⟩], .spend ∈ b.events →
      ∃ b' ∈ chain ++ [⟨height, es, kept⟩], b'.height = b.height ∧ b'.kept = b.kept ∧
        .spend ∈ b'.events := by
    intro b hb hsp
    rcases mem_snoc.mp hb with hb | rfl
    · exact ⟨b, mem_snoc.mpr (Or.inl hb), rfl, rfl, hsp⟩
    · refine ⟨_, mem_snoc.mpr (Or.inr rfl), rfl, rfl, ?_⟩
      simpa using hsp
  cases m with
  | none =>
    refine ⟨?_, ?_, ?_, ?_⟩
    · intro b hb w hw
      rcases mem_snoc.mp hb with hb | rfl
      · obtain ⟨k, hk, _⟩ := h.funded b (mem_snoc.mpr (Or.inl hb)) w hw
        cases hk
      · rcases List.mem_append.mp hw with hw | hw
        · obtain ⟨k, hk, _⟩ := h.funded _ (mem_snoc.mpr (Or.inr rfl)) w hw
          cases hk
        · rw [List.mem_singleton, Event.fund.injEq] at hw
          exact ⟨⟨v, height, none⟩, rfl, hw.symm, le_rfl⟩
    · intro k hk
      cases hk
      exact ⟨_, mem_snoc.mpr (Or.inr rfl), rfl, List.mem_append_right _ (List.mem_singleton.mpr rfl)⟩
    · intro k hs hk hsp
      cases hk
      cases hsp
    · intro k hk b hb hsp
      obtain ⟨b', hb', _, _, hsp'⟩ := hspend b hb hsp
      exact (hnew rfl ⟨b', hb', hsp'⟩).elim
  | some k0 =>
    show Traces (some k0) _
    refine ⟨?_, ?_, ?_, ?_⟩
    · intro b hb w hw
      rcases mem_snoc.mp hb with hb | rfl
      · exact h.funded b (mem_snoc.mpr (Or.inl hb)) w hw
      · rcases List.mem_append.mp hw with hw | hw
        · exact h.funded _ (mem_snoc.mpr (Or.inr rfl)) w hw
        · rw [List.mem_singleton, Event.fund.injEq] at hw
          exact ⟨k0, rfl, by rw [hw]; exact hsame k0 rfl, hbelow k0 rfl⟩
    · intro k hk
      obtain ⟨b, hb, hheight, hfund⟩ := h.made k hk
      rcases mem_snoc.mp hb with hb | rfl
      · exact ⟨b, mem_snoc.mpr (Or.inl hb), hheight, hfund⟩
      · exact ⟨_, mem_snoc.mpr (Or.inr rfl), hheight, List.mem_append_left _ hfund⟩
    · intro k hs hk hsp
      obtain ⟨b, hb, hheight, hspent⟩ := h.spent k hs hk hsp
      rcases mem_snoc.mp hb with hb | rfl
      · exact ⟨b, mem_snoc.mpr (Or.inl hb), hheight, hspent⟩
      · exact ⟨_, mem_snoc.mpr (Or.inr rfl), hheight, List.mem_append_left _ hspent⟩
    · intro k hk b hb hsp
      obtain ⟨b', hb', _, hkept, hsp'⟩ := hspend b hb hsp
      rw [← hkept]
      exact h.seen k hk b' hb' hsp'

/-- A spending at the end of the last block, which is kept if it finds the coin. -/
theorem Traces.spend (h : Traces m (chain ++ [⟨height, es, kept⟩]))
    (hkept : m.isSome → kept = true) :
    Traces (act height m .spend) (chain ++ [⟨height, es ++ [.spend], kept⟩]) := by
  have hback : ∀ k', act height m .spend = some k' →
      ∃ k, m = some k ∧ k' = { k with spent := some height } := by
    intro k' hk'
    obtain ⟨k, hk, rfl⟩ := Option.map_eq_some_iff.mp hk'
    exact ⟨k, hk, rfl⟩
  refine ⟨?_, ?_, ?_, ?_⟩
  · intro b hb v hv
    have hold : ∃ b' ∈ chain ++ [⟨height, es, kept⟩], b'.height = b.height ∧ .fund v ∈ b'.events := by
      rcases mem_snoc.mp hb with hb | rfl
      · exact ⟨b, mem_snoc.mpr (Or.inl hb), rfl, hv⟩
      · refine ⟨_, mem_snoc.mpr (Or.inr rfl), rfl, ?_⟩
        simpa using hv
    obtain ⟨b', hb', hheight, hv'⟩ := hold
    obtain ⟨k, rfl, hval, hle⟩ := h.funded b' hb' v hv'
    exact ⟨_, rfl, hval, by rw [← hheight]; exact hle⟩
  · intro k' hk'
    obtain ⟨k, hk, rfl⟩ := hback k' hk'
    obtain ⟨b, hb, hheight, hfund⟩ := h.made k hk
    rcases mem_snoc.mp hb with hb | rfl
    · exact ⟨b, mem_snoc.mpr (Or.inl hb), hheight, hfund⟩
    · exact ⟨_, mem_snoc.mpr (Or.inr rfl), hheight, List.mem_append_left _ hfund⟩
  · intro k' hs hk' hsp
    obtain ⟨k, hk, rfl⟩ := hback k' hk'
    cases hsp
    exact ⟨_, mem_snoc.mpr (Or.inr rfl), rfl, List.mem_append_right _ (List.mem_singleton.mpr rfl)⟩
  · intro k' hk' b hb hsp
    obtain ⟨k, hk, rfl⟩ := hback k' hk'
    refine ⟨rfl, ?_⟩
    rcases mem_snoc.mp hb with hb | rfl
    · exact (h.seen k hk b (mem_snoc.mpr (Or.inl hb)) hsp).2
    · exact hkept (by rw [hk]; rfl)

/-- The mark lies at or below the block that is being connected. -/
theorem act_below {e : Event ν} (h : ∀ k, m = some k → k.height ≤ height) :
    ∀ k, act height m e = some k → k.height ≤ height := by
  intro k hk
  cases e with
  | fund v =>
    cases m with
    | none =>
      cases hk
      exact le_rfl
    | some k0 => exact h k hk
  | spend =>
    obtain ⟨k0, hk0, rfl⟩ := Option.map_eq_some_iff.mp hk
    exact h k0 hk0

/-- The rest of a block, after what has been read of it. -/
theorem Traces.rest (es' : List (Event ν)) {before : Prop}
    (h : Traces m (chain ++ [⟨height, es, kept⟩])) (hbelow : ∀ k, m = some k → k.height ≤ height)
    (hbefore : Spent (chain ++ [⟨height, es, kept⟩]) → before)
    (hord : Orderly height before m es') (hkept : Missed height m es' ∨ kept = true) :
    Traces (pass height m es') (chain ++ [⟨height, es ++ es', kept⟩]) := by
  induction es' generalizing m es before with
  | nil =>
    rw [List.append_nil]
    exact h
  | cons e es' ih =>
    rw [show es ++ e :: es' = (es ++ [e]) ++ es' by rw [List.append_assoc]; rfl]
    cases e with
    | fund v =>
      obtain ⟨hnew, hsame, hord⟩ := hord
      have hkept' : kept = true := hkept.resolve_left id
      apply ih (h.fund hbelow (fun hm hs => hnew hm (hbefore hs)) hsame) (act_below hbelow) _ hord
        (Or.inr hkept')
      rintro ⟨b, hb, hsp⟩
      apply hbefore
      rcases mem_snoc.mp hb with hb | rfl
      · exact ⟨b, mem_snoc.mpr (Or.inl hb), hsp⟩
      · refine ⟨_, mem_snoc.mpr (Or.inr rfl), ?_⟩
        simpa using hsp
    | spend =>
      have hk : m.isSome → kept = true := by
        intro hm
        rcases hkept with ⟨rfl, _⟩ | hkept
        · cases hm
        · exact hkept
      have hkept' : Missed height (act height m .spend) es' ∨ kept = true := hkept.imp_left And.right
      exact ih (h.spend hk) (act_below hbelow) (fun _ => trivial) hord hkept'

/-- A block is connected above the chain. -/
theorem Traces.connect (h : Traces m chain) (habove : ∀ b ∈ chain, b.height < height)
    (hord : Orderly height (Spent chain) m es) (hkept : Missed height m es ∨ kept = true) :
    Traces (pass height m es) (chain ++ [⟨height, es, kept⟩]) := by
  have hbelow : ∀ k, m = some k → k.height ≤ height := by
    intro k hk
    obtain ⟨b, hb, hheight, _⟩ := h.made k hk
    rw [← hheight]
    exact (habove b hb).le
  have hspent : Spent (chain ++ [⟨height, [], kept⟩]) → Spent chain := by
    rintro ⟨b, hb, hsp⟩
    rcases mem_snoc.mp hb with hb | rfl
    · exact ⟨b, hb, hsp⟩
    · cases hsp
  exact h.empty.rest es hbelow hspent hord hkept

end Connect

/-! ### The chain is cut, and the kept blocks are played again -/

section Replay

variable {chain chain' : List (Block ν)} {m : Option (Mark ν)} {top : ℤ}

/-- Play blocks, given by their height and events. -/
def replay (m : Option (Mark ν)) (rows : List (ℤ × List (Event ν))) : Option (Mark ν) :=
  rows.foldl (fun m r => pass r.1 m r.2) m

theorem cut_eq_some {k : Mark ν} :
    cut top m = some k ↔ ∃ k0, m = some k0 ∧ k0.height ≤ top ∧
      k = { k0 with spent := k0.spent.filter fun h => h ≤ top } := by
  unfold cut
  rw [Option.map_eq_some_iff]
  constructor
  · rintro ⟨k0, hk0, rfl⟩
    obtain ⟨hm, hle⟩ := Option.filter_eq_some_iff.mp hk0
    exact ⟨k0, hm, of_decide_eq_true hle, rfl⟩
  · rintro ⟨k0, rfl, hle, rfl⟩
    exact ⟨k0, Option.filter_eq_some_iff.mpr ⟨rfl, decide_eq_true hle⟩, rfl⟩

/-- Played over a coin that is there, events touch only where it was last spent. -/
theorem pass_some (height : ℤ) (k : Mark ν) (es : List (Event ν)) :
    ∃ s, pass height (some k) es = some { k with spent := s } ∧
      (.spend ∈ es → s = some height) ∧ (.spend ∉ es → s = k.spent) := by
  induction es generalizing k with
  | nil => exact ⟨k.spent, rfl, fun h => absurd h List.not_mem_nil, fun _ => rfl⟩
  | cons e es ih =>
    cases e with
    | fund v =>
      obtain ⟨s, hs, h1, h2⟩ := ih k
      refine ⟨s, hs, fun h => h1 ?_, fun h => h2 ?_⟩
      · simpa using h
      · simpa using h
    | spend =>
      obtain ⟨s, hs, h1, h2⟩ := ih { k with spent := some height }
      refine ⟨s, hs, fun _ => ?_, fun h => absurd (List.mem_cons_self ..) h⟩
      by_cases hmem : .spend ∈ es
      · exact h1 hmem
      · exact h2 hmem

theorem pass_none {height : ℤ} {es : List (Event ν)} (h : ∀ v, .fund v ∉ es) :
    pass height none es = none := by
  induction es with
  | nil => rfl
  | cons e es ih =>
    have hrest : ∀ v, .fund v ∉ es := fun v hv => h v (List.mem_cons_of_mem _ hv)
    cases e with
    | fund v => exact absurd (List.mem_cons_self ..) (h v)
    | spend => exact ih hrest

theorem missed_none {height : ℤ} {es : List (Event ν)} (h : ∀ v, .fund v ∉ es) :
    Missed height none es := by
  induction es with
  | nil => trivial
  | cons e es ih =>
    have hrest : ∀ v, .fund v ∉ es := fun v hv => h v (List.mem_cons_of_mem _ hv)
    cases e with
    | fund v => exact absurd (List.mem_cons_self ..) (h v)
    | spend => exact ⟨rfl, ih hrest⟩

theorem replay_none {rows : List (ℤ × List (Event ν))} (h : ∀ r ∈ rows, ∀ v, .fund v ∉ r.2) :
    replay none rows = none := by
  induction rows with
  | nil => rfl
  | cons r rows ih =>
    show replay (pass r.1 none r.2) rows = none
    rw [pass_none (h r (List.mem_cons_self ..))]
    exact ih fun r' hr' => h r' (List.mem_cons_of_mem _ hr')

theorem replay_some (k : Mark ν) (rows : List (ℤ × List (Event ν))) :
    ∃ s, replay (some k) rows = some { k with spent := s } ∧
      ((∃ r ∈ rows, .spend ∈ r.2 ∧ s = some r.1) ∨ ((∀ r ∈ rows, .spend ∉ r.2) ∧ s = k.spent)) := by
  induction rows generalizing k with
  | nil => exact ⟨k.spent, rfl, Or.inr ⟨fun r hr => absurd hr List.not_mem_nil, rfl⟩⟩
  | cons r rows ih =>
    obtain ⟨s1, hs1, hin, hout⟩ := pass_some r.1 k r.2
    obtain ⟨s2, hs2, hlast⟩ := ih { k with spent := s1 }
    refine ⟨s2, ?_, ?_⟩
    · show replay (pass r.1 (some k) r.2) rows = _
      rw [hs1, hs2]
    · rcases hlast with ⟨r', hr', hsp, rfl⟩ | ⟨hnone, rfl⟩
      · exact Or.inl ⟨r', List.mem_cons_of_mem _ hr', hsp, rfl⟩
      · by_cases hmem : .spend ∈ r.2
        · exact Or.inl ⟨r, List.mem_cons_self .., hmem, hin hmem⟩
        · refine Or.inr ⟨?_, hout hmem⟩
          intro r' hr'
          rcases List.mem_cons.mp hr' with rfl | hr'
          · exact hmem
          · exact hnone r' hr'

/-- What is played again is what the blocks below the cut hold; every kept spending is among it. -/
theorem Traces.rollback (h : Traces m chain)
    (hcut : ∀ b, b ∈ chain' ↔ b ∈ chain ∧ b.height ≤ top) {rows : List (ℤ × List (Event ν))}
    (hrows : ∀ r ∈ rows, ∃ b ∈ chain', b.height = r.1 ∧ (.spend ∈ r.2 → .spend ∈ b.events) ∧
      ∀ v, .fund v ∈ r.2 → .fund v ∈ b.events)
    (hkept : ∀ b ∈ chain', b.kept = true → .spend ∈ b.events → ∃ r ∈ rows, .spend ∈ r.2) :
    Traces (replay (cut top m) rows) chain' := by
  have hfund : ∀ b ∈ chain', ∀ v, .fund v ∈ b.events →
      ∃ k, cut top m = some k ∧ k.value = v ∧ k.height ≤ b.height := by
    intro b hb v hv
    obtain ⟨hb, hle⟩ := (hcut b).mp hb
    obtain ⟨k, hk, hval, hbelow⟩ := h.funded b hb v hv
    exact ⟨_, cut_eq_some.mpr ⟨k, hk, hbelow.trans hle, rfl⟩, hval, hbelow⟩
  cases hm : cut top m with
  | none =>
    have hno : ∀ b ∈ chain', ∀ v, .fund v ∉ b.events := by
      intro b hb v hv
      obtain ⟨k, hk, _⟩ := hfund b hb v hv
      rw [hm] at hk
      cases hk
    rw [replay_none]
    · refine ⟨fun b hb v hv => (hno b hb v hv).elim, ?_, ?_, ?_⟩
      · intro k hk
        cases hk
      · intro k hs hk
        cases hk
      · intro k hk
        cases hk
    · intro r hr v hv
      obtain ⟨b, hb, _, _, hfunds⟩ := hrows r hr
      exact hno b hb v (hfunds v hv)
  | some k =>
    obtain ⟨k0, hk0, htop, rfl⟩ := cut_eq_some.mp hm
    obtain ⟨s, hs, hspent⟩ :=
      replay_some { k0 with spent := k0.spent.filter fun h => h ≤ top } rows
    rw [hs]
    refine ⟨?_, ?_, ?_, ?_⟩
    · intro b hb v hv
      obtain ⟨k, hk, hval, hle⟩ := hfund b hb v hv
      rw [hm, Option.some_inj] at hk
      subst hk
      exact ⟨_, rfl, hval, hle⟩
    · intro k hk
      cases hk
      obtain ⟨b, hb, hheight, hmade⟩ := h.made k0 hk0
      exact ⟨b, (hcut b).mpr ⟨hb, hheight.le.trans htop⟩, hheight, hmade⟩
    · intro k hs' hk hsp
      cases hk
      rcases hspent with ⟨r, hr, hmem, hr1⟩ | ⟨_, hold⟩
      · obtain ⟨b, hb, hheight, hspend, _⟩ := hrows r hr
        have hsp : s = some hs' := hsp
        rw [hr1, Option.some_inj] at hsp
        exact ⟨b, hb, hheight.trans hsp, hspend hmem⟩
      · have hsp : s = some hs' := hsp
        rw [hold] at hsp
        obtain ⟨hsp, hle⟩ := Option.filter_eq_some_iff.mp hsp
        obtain ⟨b, hb, hheight, hspend⟩ := h.spent k0 hs' hk0 hsp
        exact ⟨b, (hcut b).mpr ⟨hb, hheight.le.trans (of_decide_eq_true hle)⟩, hheight, hspend⟩
    · intro k hk b hb hsp
      cases hk
      obtain ⟨hmem, _⟩ := (hcut b).mp hb
      have hb' := (h.seen k0 hk0 b hmem hsp).2
      refine ⟨?_, hb'⟩
      obtain ⟨r, hr, hrsp⟩ := hkept b hb hb' hsp
      rcases hspent with ⟨r', _, _, rfl⟩ | ⟨hnone, _⟩
      · rfl
      · exact (hnone r hr hrsp).elim

end Replay

/-! ### What the table reports -/

/-- Unspent in the table with this value: funded with it in the chain, and nowhere spent. -/
theorem Traces.unspent {m : Option (Mark ν)} {chain : List (Block ν)} (h : Traces m chain) (v : ν) :
    (∃ k, m = some k ∧ k.value = v ∧ k.spent = none) ↔
      (∃ b ∈ chain, .fund v ∈ b.events) ∧ ¬Spent chain := by
  constructor
  · rintro ⟨k, hk, rfl, hsp⟩
    obtain ⟨b, hb, _, hfund⟩ := h.made k hk
    refine ⟨⟨b, hb, hfund⟩, ?_⟩
    rintro ⟨b', hb', hspend⟩
    have hseen := (h.seen k hk b' hb' hspend).1
    rw [hsp] at hseen
    cases hseen
  · rintro ⟨⟨b, hb, hfund⟩, hno⟩
    obtain ⟨k, hk, hval, _⟩ := h.funded b hb v hfund
    refine ⟨k, hk, hval, ?_⟩
    cases hsp : k.spent with
    | none => rfl
    | some hs =>
      obtain ⟨b', hb', _, hspend⟩ := h.spent k hs hk hsp
      exact (hno ⟨b', hb', hspend⟩).elim

end NamespaceIndexer.Lib.Coin
