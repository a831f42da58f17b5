import Mathlib.Logic.Relation
import Mathlib.Tactic

/-!
# Flooding over links

A node that comes by an item announces it on its links, but not on the one it came over; a node that
does not have it asks for it, and is sent it. Links keep the order of what is sent and are read at any
time. Every message ever sent is kept beside what is still to be read.
-/

namespace NamespaceIndexer.Lib.Flood

/-- The ends of links, each at a node. The other end may lie outside. -/
structure Links (N C : Type) where
  owner : C → N
  peer : C → Option C
  symm : ∀ {c d}, peer c = some d → peer d = some c

/-- Two nodes with a link between them. -/
def Links.Linked {N C : Type} (L : Links N C) (a b : N) : Prop :=
  ∃ c d, L.peer c = some d ∧ L.owner c = a ∧ L.owner d = b

/-! ### What is sent and what is to be read -/

/-- All that was ever sent from an end, and what has arrived at an end and is still to be read. -/
structure Wire (C M : Type) where
  sent : C → List M
  inbox : C → List M

namespace Wire

variable {N C M : Type} (L : Links N C) (w : Wire C M)

def empty : Wire C M := ⟨fun _ => [], fun _ => []⟩

/-- Each end sends what `out` says. -/
def post (out : C → List M) : Wire C M where
  sent c := w.sent c ++ out c
  inbox c := w.inbox c ++ ((L.peer c).map out).getD []

/-- Is nothing left to read at an end of a link between nodes? -/
def Quiet : Prop := ∀ c d, L.peer c = some d → w.inbox c = []

@[simp] theorem post_sent (out : C → List M) (c : C) : (w.post L out).sent c = w.sent c ++ out c := rfl

@[simp] theorem post_nil : w.post L (fun _ => []) = w := by
  have hnone : ∀ c, ((L.peer c).map fun _ => ([] : List M)).getD [] = [] := fun c => by
    cases L.peer c <;> rfl
  simp [post, hnone]

variable {L} in
theorem mem_post_inbox {out : C → List M} {d : C} {m : M} (h : m ∈ w.inbox d) :
    m ∈ (w.post L out).inbox d := List.mem_append_left _ h

variable {L} in
theorem post_inbox (out : C → List M) {c d : C} (h : L.peer d = some c) :
    (w.post L out).inbox d = w.inbox d ++ out c := by
  simp [post, h]

variable [DecidableEq C]

/-- At the end `r` the first message is read; `rest` is what is left. -/
def read (r : C) (rest : List M) : Wire C M := { w with inbox := Function.update w.inbox r rest }

@[simp] theorem read_sent (r : C) (rest : List M) : (w.read r rest).sent = w.sent := rfl

@[simp] theorem read_inbox_self (r : C) (rest : List M) : (w.read r rest).inbox r = rest :=
  Function.update_self ..

theorem read_inbox_of_ne {r c : C} (h : c ≠ r) (rest : List M) :
    (w.read r rest).inbox c = w.inbox c := Function.update_of_ne h ..

/-- Only the end `r` sends. -/
def only (r : C) (ms : List M) : C → List M := fun c => if c = r then ms else []

@[simp] theorem only_self (r : C) (ms : List M) : only r ms r = ms := if_pos rfl

variable {w}

theorem mem_read {r c : C} {m x : M} {rest : List M} (hm : w.inbox r = m :: rest)
    (hx : x ∈ w.inbox c) : (c = r ∧ x = m) ∨ x ∈ (w.read r rest).inbox c := by
  by_cases hc : c = r
  · subst hc
    rw [hm] at hx
    rw [read_inbox_self]
    exact (List.mem_cons.mp hx).imp_left fun h => ⟨rfl, h⟩
  · rw [read_inbox_of_ne _ hc]
    exact Or.inr hx

variable [DecidableEq M]

/-- A reading takes one message off the count. -/
theorem count_read {r : C} {m : M} {rest : List M} (hm : w.inbox r = m :: rest) (x : M) (c : C) :
    (w.inbox c).count x = ((w.read r rest).inbox c).count x + if c = r ∧ x = m then 1 else 0 := by
  by_cases hc : c = r
  · subst hc
    rw [hm, read_inbox_self, List.count_cons]
    by_cases hx : x = m
    · simp [hx]
    · simp [hx, Ne.symm hx]
  · rw [read_inbox_of_ne _ hc, if_neg fun h => hc h.1]
    rfl

end Wire

/-! ### The protocol -/

/-- What is said about an item. -/
inductive Msg (T : Type) where
  | announce (t : T)
  | request (t : T)
  | deliver (t : T)
  deriving DecidableEq

/-- The items that messages deliver. -/
def delivered {T : Type} (ms : List (Msg T)) : List T :=
  ms.filterMap fun m => match m with
    | .deliver t => some t
    | _ => none

@[simp] theorem delivered_append {T : Type} (ms ms' : List (Msg T)) :
    delivered (ms ++ ms') = delivered ms ++ delivered ms' := List.filterMap_append

theorem mem_delivered {T : Type} {ms : List (Msg T)} {t : T} : t ∈ delivered ms ↔ .deliver t ∈ ms := by
  unfold delivered
  rw [List.mem_filterMap]
  constructor
  · rintro ⟨m, hm, ht⟩
    cases m with
    | deliver x => exact Option.some.inj ht ▸ hm
    | announce | request => cases ht
  · exact fun h => ⟨_, h, rfl⟩

theorem delivered_nodup {T : Type} {ms : List (Msg T)} (h : ms.Nodup) : (delivered ms).Nodup := by
  refine h.filterMap fun m m' t ht ht' => ?_
  cases m <;> cases m' <;> simp_all

/-- The items of the nodes, and the links. -/
structure State (N C T : Type) where
  has : N → Set T
  wire : Wire C (Msg T)

section Protocol

variable {N C T : Type} [DecidableEq N] [DecidableEq C] (L : Links N C) (S : Set T)

def State.init : State N C T := ⟨fun _ => ∅, Wire.empty⟩

/-- The node `n` announces an item, but not at `skip`. -/
def told (n : N) (skip : Option C) (t : T) : C → List (Msg T) := fun c =>
  if L.owner c = n ∧ skip ≠ some c then [.announce t] else []

/-- A node comes by an item. -/
def gain (has : N → Set T) (n : N) (t : T) : N → Set T := Function.update has n (insert t (has n))

/-- What a node says to a message, except where it learns something from it. -/
def answer (has : Set T) [DecidablePred (· ∈ has)] : Msg T → List (Msg T)
  | .announce t => if t ∈ has then [] else [.request t]
  | .request t => if t ∈ has then [.deliver t] else []
  | .deliver _ => []

open Classical in
/-- An item of `S` is handed to a node, or a message is read at an end with another end. -/
inductive Step (st : State N C T) : State N C T → Prop where
  | submit {n t} (ht : t ∈ S) (hnew : t ∉ st.has n) :
      Step st ⟨gain st.has n t, st.wire.post L (told L n none t)⟩
  | reply {r s m rest} (hp : L.peer r = some s) (hm : st.wire.inbox r = m :: rest)
      (hold : ∀ t, m = .deliver t → t ∈ st.has (L.owner r)) :
      Step st ⟨st.has,
        (st.wire.read r rest).post L (Wire.only r (answer (st.has (L.owner r)) m))⟩
  | learn {r s t rest} (hp : L.peer r = some s) (hm : st.wire.inbox r = .deliver t :: rest)
      (hnew : t ∉ st.has (L.owner r)) :
      Step st ⟨gain st.has (L.owner r) t,
        (st.wire.read r rest).post L (told L (L.owner r) (some r) t)⟩

variable {L S} {st st' : State N C T}

@[simp] theorem mem_gain {has : N → Set T} {n a : N} {t x : T} :
    x ∈ gain has n t a ↔ (a = n ∧ x = t) ∨ x ∈ has a := by
  unfold gain
  by_cases ha : a = n
  · subst ha
    simp
  · simp [ha]

/-- No node loses an item. -/
theorem Step.has_mono (h : Step L S st st') (n : N) : st.has n ⊆ st'.has n := by
  intro x hx
  cases h with
  | submit | learn => exact mem_gain.mpr (Or.inr hx)
  | reply => exact hx

theorem mem_told {n : N} {skip : Option C} {t : T} {c : C} {m : Msg T} :
    m ∈ told L n skip t c ↔ (L.owner c = n ∧ skip ≠ some c) ∧ m = .announce t := by
  unfold told
  by_cases hc : L.owner c = n ∧ skip ≠ some c <;> simp [hc]

variable [DecidableEq T]

theorem count_told (n : N) (skip : Option C) (t x : T) (c : C) :
    (told L n skip t c).count (.announce x) =
      if (L.owner c = n ∧ skip ≠ some c) ∧ x = t then 1 else 0 := by
  unfold told
  by_cases hc : L.owner c = n ∧ skip ≠ some c
  · by_cases hx : x = t <;> simp [hc, hx, Ne.symm]
  · rw [if_neg hc, if_neg fun h => hc h.1]
    rfl

theorem count_told_of_ne {n : N} {skip : Option C} {t : T} {m : Msg T} (hm : m ≠ .announce t) (c : C) :
    (told L n skip t c).count m = 0 :=
  List.count_eq_zero.mpr fun h => hm (mem_told.mp h).2

/-! #### What an answer says -/

variable (has : Set T) [DecidablePred (· ∈ has)] (r c : C) (m : Msg T) (t : T)

omit [DecidableEq T] in
variable {has t} in
theorem answer_request (h : t ∈ has) : answer has (.request t) = [.deliver t] := if_pos h

omit [DecidableEq T] in
theorem announce_notMem_answer : .announce t ∉ Wire.only r (answer has m) c := by
  unfold Wire.only
  by_cases hc : c = r
  · cases m with
    | announce x | request x =>
      by_cases hx : x ∈ has <;> simp [hc, answer, hx]
    | deliver x => simp [hc, answer]
  · simp [hc]

theorem count_request_answer : (Wire.only r (answer has m) c).count (.request t) ≤
    if c = r ∧ .announce t = m then 1 else 0 := by
  unfold Wire.only
  by_cases hc : c = r
  · cases m with
    | announce x =>
      by_cases hx : x ∈ has <;> by_cases ht : t = x <;> simp [hc, answer, hx, ht, Ne.symm]
    | request x =>
      by_cases hx : x ∈ has <;> simp [hc, answer, hx]
    | deliver x => simp [hc, answer]
  · simp [hc]

theorem count_deliver_answer : (Wire.only r (answer has m) c).count (.deliver t) ≤
    if c = r ∧ .request t = m then 1 else 0 := by
  unfold Wire.only
  by_cases hc : c = r
  · cases m with
    | announce x =>
      by_cases hx : x ∈ has <;> simp [hc, answer, hx]
    | request x =>
      by_cases hx : x ∈ has <;> by_cases ht : t = x <;> simp [hc, answer, hx, ht, Ne.symm]
    | deliver x => simp [hc, answer]
  · simp [hc]

end Protocol

/-! ### What every step keeps -/

section Invariant

variable {N C T : Type} [DecidableEq T] (L : Links N C) (S : Set T)

/-- An item is asked for at most once for each time it was announced, and sent at most once for each
time it was asked for. -/
structure Bounds (st : State N C T) : Prop where
  held : ∀ n, st.has n ⊆ S
  announced : ∀ c t, .announce t ∈ st.wire.sent c → t ∈ st.has (L.owner c)
  once : ∀ c t, (st.wire.sent c).count (.announce t) ≤ 1
  asked : ∀ {c d}, L.peer c = some d → ∀ t,
    (st.wire.sent d).count (.request t) + (st.wire.inbox d).count (.announce t) ≤
      (st.wire.sent c).count (.announce t)
  answered : ∀ {c d}, L.peer c = some d → ∀ t,
    (st.wire.sent c).count (.deliver t) + (st.wire.inbox c).count (.request t) ≤
      (st.wire.sent d).count (.request t)
  arrived : ∀ {c d}, L.peer c = some d → ∀ t,
    (st.wire.inbox d).count (.deliver t) ≤ (st.wire.sent c).count (.deliver t)

/-- Moreover what the node at one end has is on its way to the node at the other. -/
structure Inv (st : State N C T) : Prop extends Bounds L S st where
  covered : ∀ {c d}, L.peer c = some d → ∀ t ∈ st.has (L.owner c),
    t ∈ st.has (L.owner d) ∨ .announce t ∈ st.wire.inbox d ∨ .request t ∈ st.wire.inbox c ∨
      .deliver t ∈ st.wire.inbox d

variable {L S} {st st' : State N C T}

theorem inv_init : Inv L S (State.init : State N C T) where
  held _ := Set.empty_subset S
  announced _ _ h := absurd h List.not_mem_nil
  once _ _ := Nat.zero_le 1
  asked _ _ := Nat.zero_le 0
  answered _ _ := Nat.zero_le 0
  arrived _ _ := Nat.zero_le 0
  covered _ _ h := h.elim

namespace Bounds

variable (h : Bounds L S st) {c d : C} {t : T}
include h

/-- What is announced to an end, its sender has. -/
theorem has_of_announce (hp : L.peer c = some d) (hm : .announce t ∈ st.wire.inbox d) :
    t ∈ st.has (L.owner c) := by
  have hle := h.asked hp t
  have hpos := List.count_pos_iff.mpr hm
  exact h.announced c t (List.count_pos_iff.mp (by omega))

/-- What is asked for at an end, its node has. -/
theorem has_of_request (hp : L.peer c = some d) (hm : .request t ∈ st.wire.inbox c) :
    t ∈ st.has (L.owner c) := by
  have hle := h.asked hp t
  have hle' := h.answered hp t
  have hpos := List.count_pos_iff.mpr hm
  exact h.announced c t (List.count_pos_iff.mp (by omega))

/-- What is sent to an end, its sender has. -/
theorem has_of_deliver (hp : L.peer c = some d) (hm : .deliver t ∈ st.wire.inbox d) :
    t ∈ st.has (L.owner c) := by
  have hle := h.asked hp t
  have hle' := h.answered hp t
  have hle'' := h.arrived hp t
  have hpos := List.count_pos_iff.mpr hm
  exact h.announced c t (List.count_pos_iff.mp (by omega))

/-- Nothing was announced that the node does not have. -/
theorem count_announce (hnew : t ∉ st.has (L.owner c)) :
    (st.wire.sent c).count (.announce t) = 0 :=
  List.count_eq_zero.mpr fun hm => hnew (h.announced c t hm)

/-- Over a link between nodes no message is sent twice. -/
theorem sent_nodup (hp : L.peer c = some d) : (st.wire.sent c).Nodup := by
  refine List.nodup_iff_count_le_one.mpr fun m => ?_
  cases m with
  | announce t => exact h.once c t
  | request t =>
    have hle := h.asked (L.symm hp) t
    have hone := h.once d t
    omega
  | deliver t =>
    have hle := h.asked hp t
    have hle' := h.answered hp t
    have hone := h.once c t
    omega

/-- All that is said over a link between nodes is about items of `S`. -/
theorem sent_mem (hp : L.peer c = some d) {m : Msg T} (hm : m ∈ st.wire.sent c) :
    ∃ t ∈ S, m = .announce t ∨ m = .request t ∨ m = .deliver t := by
  have hpos := List.count_pos_iff.mpr hm
  cases m with
  | announce t => exact ⟨t, h.held _ (h.announced c t hm), Or.inl rfl⟩
  | request t =>
    have hle := h.asked (L.symm hp) t
    have hd : .announce t ∈ st.wire.sent d := List.count_pos_iff.mp (by omega)
    exact ⟨t, h.held _ (h.announced d t hd), Or.inr (Or.inl rfl)⟩
  | deliver t =>
    have hle := h.asked hp t
    have hle' := h.answered hp t
    have hc : .announce t ∈ st.wire.sent c := List.count_pos_iff.mp (by omega)
    exact ⟨t, h.held _ (h.announced c t hc), Or.inr (Or.inr rfl)⟩

/-- What is asked for and not answered has not been sent. -/
theorem notMem_delivered (hp : L.peer c = some d) (hm : .request t ∈ st.wire.inbox c) :
    t ∉ delivered (st.wire.sent c) := fun hin => by
  have hle := h.asked hp t
  have hle' := h.answered hp t
  have hone := h.once c t
  have hpos := List.count_pos_iff.mpr hm
  have hpos' := List.count_pos_iff.mpr (mem_delivered.mp hin)
  omega

variable [DecidableEq C]

theorem read {r : C} {m : Msg T} {rest : List (Msg T)} (hm : st.wire.inbox r = m :: rest) :
    Bounds L S ⟨st.has, st.wire.read r rest⟩ where
  held := h.held
  announced := h.announced
  once := h.once
  asked {c d} hp t := by
    have hle := h.asked hp t
    have hread := Wire.count_read hm (.announce t) d
    dsimp only [Wire.read_sent]
    omega
  answered {c d} hp t := by
    have hle := h.answered hp t
    have hread := Wire.count_read hm (.request t) c
    dsimp only [Wire.read_sent]
    omega
  arrived {c d} hp t := by
    have hle := h.arrived hp t
    have hread := Wire.count_read hm (.deliver t) d
    dsimp only [Wire.read_sent]
    omega

/-- A node comes by an item that it did not have, and announces it. -/
theorem gained [DecidableEq N] {n : N} {skip : Option C} (ht : t ∈ S) (hnew : t ∉ st.has n) :
    Bounds L S ⟨gain st.has n t, st.wire.post L (told L n skip t)⟩ where
  held a x hx := by
    rcases mem_gain.mp hx with ⟨-, rfl⟩ | hx
    · exact ht
    · exact h.held a hx
  announced c x hx := by
    rcases List.mem_append.mp hx with hx | hx
    · exact mem_gain.mpr (Or.inr (h.announced c x hx))
    · obtain ⟨⟨hc, -⟩, hm⟩ := mem_told.mp hx
      exact mem_gain.mpr (Or.inl ⟨hc, Msg.announce.inj hm⟩)
  once c x := by
    rw [Wire.post_sent, List.count_append, count_told]
    by_cases hc : (L.owner c = n ∧ skip ≠ some c) ∧ x = t
    · have hzero := h.count_announce (c := c) (t := x) (by rw [hc.1.1, hc.2]; exact hnew)
      rw [if_pos hc]
      omega
    · have hone := h.once c x
      rw [if_neg hc]
      omega
  asked hp x := by
    have hle := h.asked hp x
    rw [Wire.post_sent, Wire.post_sent, Wire.post_inbox _ _ (L.symm hp), List.count_append,
      List.count_append, List.count_append, count_told_of_ne (by simp)]
    omega
  answered hp x := by
    have hle := h.answered hp x
    rw [Wire.post_sent, Wire.post_sent, Wire.post_inbox _ _ hp, List.count_append,
      List.count_append, List.count_append, count_told_of_ne (by simp), count_told_of_ne (by simp)]
    omega
  arrived hp x := by
    have hle := h.arrived hp x
    rw [Wire.post_sent, Wire.post_inbox _ _ (L.symm hp), List.count_append, List.count_append,
      count_told_of_ne (by simp)]
    omega

/-- A message is read and answered. -/
theorem replied {r : C} {m : Msg T} {rest : List (Msg T)} (hm : st.wire.inbox r = m :: rest)
    (has : Set T) [DecidablePred (· ∈ has)] :
    Bounds L S ⟨st.has, (st.wire.read r rest).post L (Wire.only r (answer has m))⟩ where
  held := h.held
  announced c x hx := by
    rcases List.mem_append.mp hx with hx | hx
    · exact h.announced c x hx
    · exact absurd hx (announce_notMem_answer has r c m x)
  once c x := by
    have hone := h.once c x
    have hnone := List.count_eq_zero.mpr (announce_notMem_answer has r c m x)
    rw [Wire.post_sent, List.count_append, Wire.read_sent]
    omega
  asked {c d} hp x := by
    have hle := h.asked hp x
    have hread := Wire.count_read hm (.announce x) d
    have hnone := List.count_eq_zero.mpr (announce_notMem_answer has r c m x)
    have hask := count_request_answer has r d m x
    rw [Wire.post_sent, Wire.post_sent, Wire.post_inbox _ _ (L.symm hp), List.count_append,
      List.count_append, List.count_append, Wire.read_sent]
    omega
  answered {c d} hp x := by
    have hle := h.answered hp x
    have hread := Wire.count_read hm (.request x) c
    have hgive := count_deliver_answer has r c m x
    rw [Wire.post_sent, Wire.post_sent, Wire.post_inbox _ _ hp, List.count_append,
      List.count_append, List.count_append, Wire.read_sent]
    omega
  arrived {c d} hp x := by
    have hle := h.arrived hp x
    have hread := Wire.count_read hm (.deliver x) d
    rw [Wire.post_sent, Wire.post_inbox _ _ (L.symm hp), List.count_append, List.count_append,
      Wire.read_sent]
    omega

end Bounds

variable [DecidableEq N] [DecidableEq C]

/-- What a node comes by is announced at all its ends but `skip`; only messages that delivered it
there have been read. -/
theorem Inv.covered_gained (h : Inv L S st) {n : N} {t : T} {skip : Option C} {w : Wire C (Msg T)}
    (hskip : ∀ {c d}, skip = some c → L.peer c = some d → t ∈ st.has (L.owner d))
    (hw : ∀ {d m}, m ∈ st.wire.inbox d → (L.owner d = n ∧ m = .deliver t) ∨ m ∈ w.inbox d) {c d : C}
    (hp : L.peer c = some d) (x : T) (hx : x ∈ gain st.has n t (L.owner c)) :
    x ∈ gain st.has n t (L.owner d) ∨ .announce x ∈ (w.post L (told L n skip t)).inbox d ∨
      .request x ∈ (w.post L (told L n skip t)).inbox c ∨
      .deliver x ∈ (w.post L (told L n skip t)).inbox d := by
  rcases mem_gain.mp hx with ⟨hc, rfl⟩ | hx
  · by_cases hs : skip = some c
    · exact Or.inl (mem_gain.mpr (Or.inr (hskip hs hp)))
    · rw [Wire.post_inbox _ _ (L.symm hp)]
      exact Or.inr (Or.inl (List.mem_append_right _ (mem_told.mpr ⟨⟨hc, hs⟩, rfl⟩)))
  · rcases h.covered hp x hx with hd | hd | hd | hd
    · exact Or.inl (mem_gain.mpr (Or.inr hd))
    · rcases hw hd with ⟨-, hm⟩ | hd
      · cases hm
      · exact Or.inr (Or.inl (Wire.mem_post_inbox _ hd))
    · rcases hw hd with ⟨-, hm⟩ | hd
      · cases hm
      · exact Or.inr (Or.inr (Or.inl (Wire.mem_post_inbox _ hd)))
    · rcases hw hd with ⟨hn, hm⟩ | hd
      · exact Or.inl (mem_gain.mpr (Or.inl ⟨hn, Msg.deliver.inj hm⟩))
      · exact Or.inr (Or.inr (Or.inr (Wire.mem_post_inbox _ hd)))

omit [DecidableEq N] in
/-- What an answer takes from an inbox it puts into the one opposite, or the node has it. -/
theorem Inv.covered_replied (h : Inv L S st) {r s : C} {m : Msg T} {rest : List (Msg T)}
    (hrs : L.peer r = some s) (hm : st.wire.inbox r = m :: rest)
    (hold : ∀ t, m = .deliver t → t ∈ st.has (L.owner r))
    [DecidablePred (· ∈ st.has (L.owner r))] {c d : C} (hp : L.peer c = some d) (x : T)
    (hx : x ∈ st.has (L.owner c)) :
    let w := (st.wire.read r rest).post L (Wire.only r (answer (st.has (L.owner r)) m))
    x ∈ st.has (L.owner d) ∨ .announce x ∈ w.inbox d ∨ .request x ∈ w.inbox c ∨
      .deliver x ∈ w.inbox d := by
  intro w
  rcases h.covered hp x hx with hd | hd | hd | hd
  · exact Or.inl hd
  · rcases Wire.mem_read hm hd with ⟨rfl, rfl⟩ | hd
    · by_cases hhas : x ∈ st.has (L.owner d)
      · exact Or.inl hhas
      · refine Or.inr (Or.inr (Or.inl ?_))
        rw [Wire.post_inbox _ _ hp]
        exact List.mem_append_right _ (by simp [answer, hhas])
    · exact Or.inr (Or.inl (Wire.mem_post_inbox _ hd))
  · rcases Wire.mem_read hm hd with ⟨rfl, rfl⟩ | hd
    · refine Or.inr (Or.inr (Or.inr ?_))
      rw [Wire.post_inbox _ _ (L.symm hp)]
      exact List.mem_append_right _ (by simp [answer, hx])
    · exact Or.inr (Or.inr (Or.inl (Wire.mem_post_inbox _ hd)))
  · rcases Wire.mem_read hm hd with ⟨rfl, rfl⟩ | hd
    · exact Or.inl (hold x rfl)
    · exact Or.inr (Or.inr (Or.inr (Wire.mem_post_inbox _ hd)))

/-- A step keeps the invariant. -/
theorem Step.inv (hs : Step L S st st') (h : Inv L S st) : Inv L S st' := by
  classical
  cases hs with
  | submit ht hnew =>
    exact { h.toBounds.gained ht hnew with
      covered := h.covered_gained (fun hn => by cases hn) Or.inr }
  | reply hp hm hold =>
    exact { h.toBounds.replied hm _ with covered := h.covered_replied hp hm hold }
  | @learn r s t rest hp hm hnew =>
    have hmem : .deliver t ∈ st.wire.inbox r := by rw [hm]; exact List.mem_cons_self
    have hsender := h.has_of_deliver (L.symm hp) hmem
    refine { (h.toBounds.read hm).gained (h.held _ hsender) hnew with
      covered := h.covered_gained (fun hc hd => ?_) fun hx => ?_ }
    · rw [← Option.some.inj hc, hp] at hd
      exact Option.some.inj hd ▸ hsender
    · exact (Wire.mem_read hm hx).imp_left fun hx => ⟨by rw [hx.1], hx.2⟩

/-- The invariant holds along every run. -/
theorem Inv.run (h : Inv L S st) (hs : Relation.ReflTransGen (Step L S) st st') : Inv L S st' := by
  induction hs with
  | refl => exact h
  | tail _ hstep ih => exact hstep.inv ih

omit [DecidableEq T] in
/-- No node loses an item along a run. -/
theorem has_mono (hs : Relation.ReflTransGen (Step L S) st st') (n : N) : st.has n ⊆ st'.has n := by
  induction hs with
  | refl => exact subset_rfl
  | tail _ hstep ih => exact ih.trans (hstep.has_mono n)

omit [DecidableEq N] [DecidableEq C] in
/-- With nothing left to read, nodes that links connect have the same items. -/
theorem Inv.same (h : Inv L S st) (hq : st.wire.Quiet L) {a b : N}
    (hab : Relation.ReflTransGen L.Linked a b) : st.has a ⊆ st.has b := by
  induction hab with
  | refl => exact subset_rfl
  | tail _ hlink ih =>
    obtain ⟨c, d, hp, rfl, rfl⟩ := hlink
    refine ih.trans fun t ht => ?_
    rcases h.covered hp t ht with hd | hd | hd | hd
    · exact hd
    · simp [hq d c (L.symm hp)] at hd
    · simp [hq c d hp] at hd
    · simp [hq d c (L.symm hp)] at hd

end Invariant

end NamespaceIndexer.Lib.Flood
