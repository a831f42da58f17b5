import Mathlib.Tactic

/-!
# Hashes by blocks

A compression function folds the blocks of a padded message into a state. A streaming hasher holds
the state after the whole blocks and the rest of the message, short of a block.
-/

namespace NamespaceIndexer.Lib.BlockHash

theorem octet_lt (v : ℕ) : v % 256 < 256 := Nat.mod_lt v (by decide)

/-- The lowest byte of a number. -/
def octet (v : ℕ) : Fin 256 := ⟨v % 256, octet_lt v⟩

variable {σ α : Type*}

/-- The blocks of length `n` of a message, without what is left of it. -/
def blocks (n : ℕ) (m : List α) : List (List α) :=
  (List.range (m.length / n)).map fun i => (m.drop (i * n)).take n

theorem blocks_of_short {n : ℕ} {m : List α} (h : m.length < n) : blocks n m = [] := by
  unfold blocks
  rw [Nat.div_eq_of_lt h]
  rfl

theorem blocks_append {n : ℕ} (hn : 0 < n) {b : List α} (hb : b.length = n) (m : List α) :
    blocks n (b ++ m) = b :: blocks n m := by
  have hlen : (b ++ m).length / n = m.length / n + 1 := by
    rw [List.length_append, hb, Nat.add_comm, Nat.add_div_right _ hn]
  unfold blocks
  rw [hlen, List.range_succ_eq_map, List.map_cons, List.map_map]
  refine congrArg₂ List.cons ?_ (List.map_congr_left fun i _ => ?_)
  · rw [Nat.zero_mul, List.drop_zero, ← hb, List.take_left]
  · have hdrop : (i + 1) * n = b.length + i * n := by
      rw [hb, Nat.succ_mul, Nat.add_comm]
    change ((b ++ m).drop ((i + 1) * n)).take n = _
    rw [hdrop, List.drop_length_add_append]

variable (compress : σ → List α → σ) (n : ℕ)

/-- The state after the blocks of a message. -/
def absorb (s : σ) (m : List α) : σ := (blocks n m).foldl compress s

variable {n}

theorem absorb_of_short (s : σ) {m : List α} (h : m.length < n) : absorb compress n s m = s := by
  unfold absorb
  rw [blocks_of_short h]
  rfl

theorem absorb_block (hn : 0 < n) (s : σ) {b : List α} (hb : b.length = n) (m : List α) :
    absorb compress n s (b ++ m) = absorb compress n (compress s b) m := by
  unfold absorb
  rw [blocks_append hn hb]
  rfl

/-- One block after whole blocks. -/
theorem absorb_single (hn : 0 < n) (s : σ) {b : List α} (hb : b.length = n) :
    absorb compress n s b = compress s b := by
  have hblock := absorb_block compress hn s hb []
  rwa [List.append_nil, absorb_of_short compress _ (m := []) hn] at hblock

theorem absorb_append (hn : 0 < n) (s : σ) {a : List α} (ha : n ∣ a.length) (m : List α) :
    absorb compress n s (a ++ m) = absorb compress n (absorb compress n s a) m := by
  obtain ⟨k, hk⟩ := ha
  induction k generalizing a s with
  | zero =>
    rw [Nat.mul_zero, List.length_eq_zero_iff] at hk
    rw [hk, List.nil_append, absorb_of_short compress s (m := []) hn]
  | succ k ih =>
    have hfront : (a.take n).length = n := by
      rw [List.length_take, hk, Nat.mul_succ]
      omega
    have hback : (a.drop n).length = n * k := by
      rw [List.length_drop, hk, Nat.mul_succ]
      omega
    have ha : a ++ m = a.take n ++ (a.drop n ++ m) := by
      rw [← List.append_assoc, List.take_append_drop]
    rw [ha, absorb_block compress hn s hfront, ih _ hback, ← absorb_block compress hn s hfront,
      List.take_append_drop]

/-! ### Streaming -/

/-- The state and the rest that a hasher holds of the message `m`. -/
structure Holds (init : σ) (m : List α) (s : σ) (rest : List α) : Prop where
  short : rest.length < n
  whole : ∃ done, m = done ++ rest ∧ n ∣ done.length ∧ s = absorb compress n init done

namespace Holds

variable {compress} {init s : σ} {m rest : List α}

theorem start (hn : 0 < n) (init : σ) : Holds compress (n := n) init [] init [] where
  short := hn
  whole := ⟨[], rfl, Nat.dvd_zero n, (absorb_of_short compress init (m := []) hn).symm⟩

/-- The next value where there is room for it. -/
theorem push (h : Holds compress (n := n) init m s rest) {a : α} (hroom : rest.length + 1 < n) :
    Holds compress (n := n) init (m ++ [a]) s (rest ++ [a]) where
  short := by
    rw [List.length_append, List.length_singleton]
    exact hroom
  whole := by
    obtain ⟨done, rfl, hdone, hs⟩ := h.whole
    exact ⟨done, List.append_assoc .., hdone, hs⟩

/-- The next value that completes a block. -/
theorem fill (h : Holds compress (n := n) init m s rest) {a : α} (hfull : rest.length + 1 = n) :
    Holds compress (n := n) init (m ++ [a]) (compress s (rest ++ [a])) [] where
  short := by
    rw [List.length_nil]
    omega
  whole := by
    obtain ⟨done, rfl, hdone, rfl⟩ := h.whole
    have hn : 0 < n := by omega
    have hblock : (rest ++ [a]).length = n := by
      rw [List.length_append, List.length_singleton, hfull]
    refine ⟨done ++ (rest ++ [a]), by rw [List.append_nil, List.append_assoc], ?_, ?_⟩
    · rw [List.length_append, hblock]
      exact hdone.add (Nat.dvd_refl n)
    · rw [absorb_append compress hn init hdone, absorb_single compress hn _ hblock]

theorem length_mod (h : Holds compress (n := n) init m s rest) : m.length % n = rest.length := by
  obtain ⟨done, rfl, ⟨k, hk⟩, -⟩ := h.whole
  rw [List.length_append, hk, Nat.mul_add_mod, Nat.mod_eq_of_lt h.short]

/-- Whole blocks that end the message. -/
theorem absorb_tail (h : Holds compress (n := n) init m s rest) (hn : 0 < n) (tail : List α) :
    absorb compress n init (m ++ tail) = absorb compress n s (rest ++ tail) := by
  obtain ⟨done, rfl, hdone, rfl⟩ := h.whole
  rw [List.append_assoc, absorb_append compress hn init hdone]

end Holds

/-! ### Padding -/

variable (n) in
/-- How many zeros come between the mark and a length field of `w` values. -/
def zerosFor (w len : ℕ) : ℕ := (n - (len + 1 + w) % n) % n

variable (n) in
/-- A message, a mark, zeros and a length field, in whole blocks. -/
def pad (mark zero : α) (field m : List α) : List α :=
  m ++ mark :: (List.replicate (zerosFor n field.length m.length) zero ++ field)

namespace Holds

variable {compress} {init s : σ} {m rest field : List α}

theorem zerosFor_eq (h : Holds compress (n := n) init m s rest) (w : ℕ) :
    zerosFor n w m.length = (n - (rest.length + 1 + w) % n) % n := by
  have hmod : (m.length + 1 + w) % n = (rest.length + 1 + w) % n := by
    have hrest : m.length ≡ rest.length [MOD n] :=
      h.length_mod.trans (Nat.mod_eq_of_lt h.short).symm
    exact (hrest.add_right 1).add_right w
  unfold zerosFor
  rw [hmod]

/-- The length field fits in the block that is under way. -/
theorem finish (h : Holds compress (n := n) init m s rest) (mark zero : α)
    (hroom : rest.length + 1 + field.length ≤ n) :
    absorb compress n init (pad n mark zero field m)
      = compress s (rest ++ mark :: (List.replicate (n - (rest.length + 1 + field.length)) zero ++ field)) := by
  have hn : 0 < n := by omega
  have hzeros : zerosFor n field.length m.length = n - (rest.length + 1 + field.length) := by
    rw [h.zerosFor_eq]
    rcases Nat.eq_or_lt_of_le hroom with heq | hlt
    · rw [heq, Nat.mod_self, Nat.sub_zero, Nat.mod_self, Nat.sub_self]
    · rw [Nat.mod_eq_of_lt hlt, Nat.mod_eq_of_lt (by omega)]
  unfold pad
  rw [h.absorb_tail hn, hzeros]
  refine absorb_single compress hn s ?_
  simp
  omega

/-- The length field goes to a block of its own. -/
theorem finish_two (h : Holds compress (n := n) init m s rest) (mark zero : α)
    (hfield : field.length < n) (hroom : n < rest.length + 1 + field.length) :
    absorb compress n init (pad n mark zero field m)
      = compress (compress s (rest ++ mark :: List.replicate (n - (rest.length + 1)) zero))
          (List.replicate (n - field.length) zero ++ field) := by
  have hshort := h.short
  have hn : 0 < n := by omega
  have hzeros : zerosFor n field.length m.length
      = n - (rest.length + 1) + (n - field.length) := by
    have hmod : (rest.length + 1 + field.length) % n = rest.length + 1 + field.length - n := by
      rw [Nat.mod_eq_sub_mod hroom.le, Nat.mod_eq_of_lt (by omega)]
    rw [h.zerosFor_eq, hmod, Nat.mod_eq_of_lt (by omega)]
    omega
  have hfirst : (rest ++ mark :: List.replicate (n - (rest.length + 1)) zero).length = n := by
    simp
    omega
  have hsplit : rest ++ mark :: (List.replicate (n - (rest.length + 1) + (n - field.length)) zero ++ field)
      = (rest ++ mark :: List.replicate (n - (rest.length + 1)) zero)
        ++ (List.replicate (n - field.length) zero ++ field) := by
    simp only [List.replicate_add, List.append_assoc, List.cons_append]
  unfold pad
  rw [h.absorb_tail hn, hzeros, hsplit, absorb_block compress hn s hfirst]
  refine absorb_single compress hn _ ?_
  simp
  omega

end Holds

end NamespaceIndexer.Lib.BlockHash
