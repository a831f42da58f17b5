import Mathlib.Tactic
import Mathlib.Data.List.DropRight

/-!
# Tables in key order

A table with a primary key is the list of its rows in key order. Writing a row
replaces the one with its key; cutting at a key keeps the rows up to it.
-/

namespace NamespaceIndexer.Lib.OrderedTable

variable {α κ : Type*} [LinearOrder κ] (key : α → κ)

/-- Rows in strict key order. -/
def Ordered (t : List α) : Prop := t.Pairwise fun a b => key a < key b

/-- The row with key `k`. -/
def find? (t : List α) (k : κ) : Option α := t.find? fun r => key r = k

/-- Insert or replace. -/
def put (r : α) (t : List α) : List α :=
  t.filter (fun x => key x < key r) ++ r :: t.filter fun x => key r < key x

/-- The rows up to key `k`. -/
def upTo (k : κ) (t : List α) : List α := t.filter fun x => key x ≤ k

/-- The rows below key `k`. -/
def below (k : κ) (t : List α) : List α := t.filter fun x => key x < k

theorem mem_put {r x : α} {t : List α} :
    x ∈ put key r t ↔ x = r ∨ (x ∈ t ∧ key x ≠ key r) := by
  unfold put
  simp only [List.mem_append, List.mem_cons, List.mem_filter, decide_eq_true_eq]
  constructor
  · rintro (h | h | h)
    · exact Or.inr ⟨h.1, ne_of_lt h.2⟩
    · exact Or.inl h
    · exact Or.inr ⟨h.1, ne_of_gt h.2⟩
  · rintro (h | ⟨h, hne⟩)
    · exact Or.inr (Or.inl h)
    · rcases lt_or_gt_of_ne hne with hlt | hgt
      · exact Or.inl ⟨h, hlt⟩
      · exact Or.inr (Or.inr ⟨h, hgt⟩)

theorem mem_upTo {k : κ} {x : α} {t : List α} : x ∈ upTo key k t ↔ x ∈ t ∧ key x ≤ k := by
  simp [upTo]

theorem mem_below {k : κ} {x : α} {t : List α} : x ∈ below key k t ↔ x ∈ t ∧ key x < k := by
  simp [below]

theorem Ordered.put {t : List α} (h : Ordered key t) (r : α) : Ordered key (put key r t) := by
  unfold Ordered OrderedTable.put
  rw [List.pairwise_append, List.pairwise_cons]
  refine ⟨h.filter _, ⟨fun x hx => ?_, h.filter _⟩, fun x hx y hy => ?_⟩
  · exact of_decide_eq_true (List.mem_filter.mp hx).2
  · have hxr : key x < key r := of_decide_eq_true (List.mem_filter.mp hx).2
    rcases List.mem_cons.mp hy with rfl | hy
    · exact hxr
    · exact hxr.trans (of_decide_eq_true (List.mem_filter.mp hy).2)

theorem Ordered.upTo {t : List α} (h : Ordered key t) (k : κ) : Ordered key (upTo key k t) :=
  h.filter _

theorem Ordered.below {t : List α} (h : Ordered key t) (k : κ) : Ordered key (below key k t) :=
  h.filter _

theorem Ordered.eq_of_mem {t : List α} (h : Ordered key t) {a b : α} (ha : a ∈ t) (hb : b ∈ t)
    (hk : key a = key b) : a = b := by
  have hn : (t.map key).Nodup := List.pairwise_map.mpr (h.imp fun hlt => ne_of_lt hlt)
  exact List.inj_on_of_nodup_map hn ha hb hk

theorem find?_some {t : List α} {k : κ} {r : α} (h : find? key t k = some r) :
    r ∈ t ∧ key r = k := by
  unfold find? at h
  exact ⟨List.mem_of_find?_eq_some h, by simpa using List.find?_some h⟩

theorem Ordered.find?_eq_some {t : List α} (h : Ordered key t) {k : κ} {r : α} :
    find? key t k = some r ↔ r ∈ t ∧ key r = k := by
  refine ⟨find?_some key, fun ⟨hm, hk⟩ => ?_⟩
  cases hf : find? key t k with
  | none =>
    have hnot := List.find?_eq_none.mp hf r hm
    exact absurd (decide_eq_true hk) hnot
  | some r' =>
    have hr := find?_some key hf
    rw [h.eq_of_mem key hr.1 hm (hr.2.trans hk.symm)]

theorem Ordered.find?_put {t : List α} (h : Ordered key t) (r : α) (k : κ) :
    find? key (OrderedTable.put key r t) k = if key r = k then some r else find? key t k := by
  by_cases hk : key r = k
  · rw [if_pos hk, (h.put key r).find?_eq_some]
    exact ⟨(mem_put key).mpr (Or.inl rfl), hk⟩
  · rw [if_neg hk]
    refine Option.ext fun x => ?_
    rw [(h.put key r).find?_eq_some, h.find?_eq_some, mem_put]
    constructor
    · rintro ⟨rfl | hx, hxk⟩
      · exact absurd hxk hk
      · exact ⟨hx.1, hxk⟩
    · rintro ⟨hx, hxk⟩
      exact ⟨Or.inr ⟨hx, fun he => hk (he.symm.trans hxk)⟩, hxk⟩

theorem Ordered.find?_upTo {t : List α} (h : Ordered key t) {k k' : κ} (hk : k ≤ k') :
    find? key (OrderedTable.upTo key k' t) k = find? key t k := by
  refine Option.ext fun x => ?_
  rw [(h.upTo key k').find?_eq_some, h.find?_eq_some, mem_upTo]
  constructor
  · rintro ⟨⟨hx, -⟩, hxk⟩
    exact ⟨hx, hxk⟩
  · rintro ⟨hx, rfl⟩
    exact ⟨⟨hx, hk⟩, rfl⟩

/-- A row above every other one is appended. -/
theorem put_of_above {r : α} {t : List α} (h : ∀ x ∈ t, key x < key r) : put key r t = t ++ [r] := by
  unfold put
  rw [List.filter_eq_self.mpr fun x hx => decide_eq_true (h x hx),
    List.filter_eq_nil_iff.mpr fun x hx => by simpa using le_of_lt (h x hx)]

/-- A row written above the cut is not seen below it. -/
theorem upTo_put {r : α} {t : List α} {k : κ} (h : k < key r) :
    upTo key k (put key r t) = upTo key k t := by
  unfold upTo put
  have hup : (t.filter fun x => key r < key x).filter (fun x => key x ≤ k) = [] := by
    refine List.filter_eq_nil_iff.mpr fun x hx => ?_
    have hlt : key r < key x := of_decide_eq_true (List.mem_filter.mp hx).2
    simpa using h.trans hlt
  have hlow : (t.filter fun x => key x < key r).filter (fun x => key x ≤ k)
      = t.filter fun x => key x ≤ k := by
    rw [List.filter_filter]
    refine List.filter_congr fun x _ => ?_
    rw [Bool.and_eq_left_iff_imp]
    simpa using fun hx => lt_of_le_of_lt hx h
  rw [List.filter_append, List.filter_cons_of_neg (by simpa using h), hup, hlow, List.append_nil]

/-- A row written at the cut is the last one below it. -/
theorem upTo_put_self {r : α} {t : List α} :
    upTo key (key r) (put key r t) = below key (key r) t ++ [r] := by
  unfold upTo put below
  have hup : (t.filter fun x => key r < key x).filter (fun x => key x ≤ key r) = [] := by
    refine List.filter_eq_nil_iff.mpr fun x hx => ?_
    have hlt : key r < key x := of_decide_eq_true (List.mem_filter.mp hx).2
    simpa using hlt
  have hlow : (t.filter fun x => key x < key r).filter (fun x => key x ≤ key r)
      = t.filter fun x => key x < key r := by
    rw [List.filter_filter]
    refine List.filter_congr fun x _ => ?_
    rw [Bool.and_eq_right_iff_imp]
    simpa using fun hx => le_of_lt hx
  rw [List.filter_append, List.filter_cons_of_pos (by simp), hup, hlow]

theorem upTo_upTo {t : List α} {k k' : κ} (h : k ≤ k') :
    upTo key k (upTo key k' t) = upTo key k t := by
  unfold upTo
  rw [List.filter_filter]
  refine List.filter_congr fun x _ => ?_
  rw [Bool.and_eq_left_iff_imp]
  simpa using fun hx => le_trans hx h

theorem upTo_eq_self {t : List α} {k : κ} (h : ∀ x ∈ t, key x ≤ k) : upTo key k t = t :=
  List.filter_eq_self.mpr fun x hx => decide_eq_true (h x hx)

/-- A table is its rows up to a key, and then those above it. -/
theorem Ordered.upTo_append_above {t : List α} (h : Ordered key t) (k : κ) :
    OrderedTable.upTo key k t ++ t.filter (fun x => k < key x) = t := by
  induction t with
  | nil => rfl
  | cons a t ih =>
    obtain ⟨ha, ht⟩ := List.pairwise_cons.mp h
    by_cases hk : key a ≤ k
    · rw [OrderedTable.upTo, List.filter_cons_of_pos (by simpa using hk),
        List.filter_cons_of_neg (by simpa using hk)]
      exact congrArg (a :: ·) (ih ht)
    · have hak : k < key a := not_le.mp hk
      have hup : OrderedTable.upTo key k (a :: t) = [] := by
        refine List.filter_eq_nil_iff.mpr fun x hx => ?_
        rcases List.mem_cons.mp hx with rfl | hx
        · simpa using hak
        · simpa using hak.trans (ha x hx)
      rw [hup, List.nil_append, List.filter_eq_self]
      intro x hx
      rcases List.mem_cons.mp hx with rfl | hx
      · exact decide_eq_true hak
      · exact decide_eq_true (hak.trans (ha x hx))

theorem upTo_append (k : κ) (t u : List α) : upTo key k (t ++ u) = upTo key k t ++ upTo key k u :=
  List.filter_append ..

theorem below_append (k : κ) (t u : List α) :
    below key k (t ++ u) = below key k t ++ below key k u := List.filter_append ..

theorem below_eq_self {t : List α} {k : κ} (h : ∀ x ∈ t, key x < k) : below key k t = t :=
  List.filter_eq_self.mpr fun x hx => decide_eq_true (h x hx)

theorem below_eq_nil {t : List α} {k : κ} (h : ∀ x ∈ t, k ≤ key x) : below key k t = [] :=
  List.filter_eq_nil_iff.mpr fun x hx => by simpa using h x hx

theorem below_below {t : List α} {k k' : κ} (h : k ≤ k') :
    below key k (below key k' t) = below key k t := by
  unfold below
  rw [List.filter_filter]
  refine List.filter_congr fun x _ => ?_
  rw [Bool.and_eq_left_iff_imp]
  simpa using fun hx => lt_of_lt_of_le hx h

/-- Popping rows off the end until one is below `k` leaves the rows below `k`. -/
theorem Ordered.rdropWhile_eq {t : List α} (h : Ordered key t) (k : κ) :
    t.rdropWhile (fun x => decide (k ≤ key x)) = OrderedTable.below key k t := by
  induction t using List.reverseRecOn with
  | nil => rfl
  | append_singleton t r ih =>
    obtain ⟨ht, -, hr⟩ := List.pairwise_append.mp h
    rw [below_append]
    by_cases hk : k ≤ key r
    · rw [List.rdropWhile_concat_pos _ _ _ (by simpa using hk), ih ht,
        below_eq_nil (t := [r]) key (by simpa using hk), List.append_nil]
    · have hlt : ∀ x ∈ t, key x < k := fun x hx =>
        (hr x hx r (List.mem_singleton_self r)).trans (not_le.mp hk)
      rw [List.rdropWhile_concat_neg _ _ _ (by simpa using hk), below_eq_self key hlt,
        below_eq_self (t := [r]) key (by simpa using hk)]

end NamespaceIndexer.Lib.OrderedTable
