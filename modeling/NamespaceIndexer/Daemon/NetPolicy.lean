import NamespaceIndexer.Daemon.Branch

/-!
# Local policy against abuse (`net_policy.c`)

The count at the start of an inventory, and the budget of a connection for what it asks for: at most so
many blocks and bytes in a window that starts with the first body sent after the last one ended.
-/

namespace NamespaceIndexer.Daemon

open Fold Lib

def idxMaxInvSz : ℕ := 50000
def idxGetdataWindowS : ℤ := 10
def idxGetdataBlocks : ℕ := 16
def idxGetdataBytes : ℕ := 16 * 1024 * 1024
def idxGetdataItems : ℕ := 128

/-! ### Counts -/

/-- `net_policy_read_count`: the count, and the bytes behind it. -/
def netPolicyReadCount (pl : Bytes) : Option (ℕ × Bytes) :=
  match pl with
  | [] => none
  | c :: rest =>
    if c = 0xFD then if pl.length < 3 then none else some (leVal (rest.take 2), rest.drop 2)
    else if 0xFE ≤ c.val then none
    else some (c.val, rest)

/-- Counts that `put_varint` writes in at most three bytes are read back. -/
theorem netPolicyReadCount_putVarint {v : ℕ} (hv : v ≤ 0xFFFF) (rest : Bytes) :
    netPolicyReadCount (putVarint v ++ rest) = some (v, rest) := by
  unfold putVarint
  by_cases hsmall : v < 0xFD
  · have hval : (Fin.ofNat 256 v).val = v := Nat.mod_eq_of_lt (by omega)
    have hne : Fin.ofNat 256 v ≠ 0xFD := fun h => by
      have h' := congrArg Fin.val h
      rw [hval] at h'
      change v = 253 at h'
      omega
    rw [if_pos hsmall]
    change netPolicyReadCount (Fin.ofNat 256 v :: rest) = _
    rw [netPolicyReadCount, if_neg hne, hval, if_neg (by omega)]
  · rw [if_neg hsmall, if_pos hv]
    have hlen : (leBytes 2 v).length = 2 := length_leBytes 2 v
    have htake : (leBytes 2 v ++ rest).take 2 = leBytes 2 v := by
      rw [List.take_append_of_le_length (by omega), List.take_of_length_le (by omega)]
    have hdrop : (leBytes 2 v ++ rest).drop 2 = rest := by
      rw [List.drop_append_of_le_length (by omega), List.drop_of_length_le (by omega)]
      rfl
    rw [List.cons_append, netPolicyReadCount, if_pos rfl,
      if_neg (by rw [List.length_cons, List.length_append]; omega), htake, hdrop, leVal_leBytes,
      Nat.mod_eq_of_lt (by omega)]

/-! ### The budget of a connection -/

/-- `gd_blocks`, `gd_bytes` and `gd_win_t`. -/
structure GdBudget where
  gdBlocks : ℕ := 0
  gdBytes : ℕ := 0
  gdWinT : ℤ := 0

/-- A new window, where there is none or the last one is over. -/
def GdBudget.window (g : GdBudget) (now : ℤ) : GdBudget :=
  if g.gdWinT = 0 ∨ idxGetdataWindowS ≤ now - g.gdWinT then ⟨0, 0, now⟩ else g

/-- `net_policy_getdata_ok`. -/
def netPolicyGetdataOk (g : GdBudget) (now : ℤ) (addBlocks addBytes : ℕ) : GdBudget × Bool :=
  let g := g.window now
  if addBlocks ≠ 0 ∧ idxGetdataBlocks < g.gdBlocks + addBlocks then (g, false)
  else if addBytes ≠ 0 ∧ idxGetdataBytes < g.gdBytes + addBytes then (g, false)
  else ({ g with gdBlocks := g.gdBlocks + addBlocks, gdBytes := g.gdBytes + addBytes }, true)

/-- `net_policy_getdata_items_ok`. -/
def netPolicyGetdataItemsOk (examined : ℕ) : Bool := examined < idxGetdataItems

/-- A body of a few bytes is refused only where the window has already served many. -/
theorem netPolicyGetdataOk_of_le {g : GdBudget} (now : ℤ) {addBytes : ℕ}
    (h : g.gdBytes + addBytes ≤ idxGetdataBytes) :
    (netPolicyGetdataOk g now 0 addBytes).2 = true ∧
      (netPolicyGetdataOk g now 0 addBytes).1.gdBytes ≤ g.gdBytes + addBytes := by
  have hwin : (g.window now).gdBytes ≤ g.gdBytes := by
    unfold GdBudget.window
    by_cases hw : g.gdWinT = 0 ∨ idxGetdataWindowS ≤ now - g.gdWinT <;> simp [hw]
  have hok : netPolicyGetdataOk g now 0 addBytes =
      ({ g.window now with gdBlocks := (g.window now).gdBlocks + 0,
                           gdBytes := (g.window now).gdBytes + addBytes }, true) := by
    unfold netPolicyGetdataOk
    rw [if_neg (by simp), if_neg (by omega)]
  rw [hok]
  exact ⟨rfl, Nat.add_le_add_right hwin _⟩

/-! #### Ten seconds -/

/-- In the ten seconds from `a` on, `b` blocks and `y` bytes have been sent so far: no more than the
window has counted, or no more than it and a full one before it. -/
structure Spent (a : ℤ) (g : GdBudget) (b y : ℕ) : Prop where
  blocks : g.gdBlocks ≤ idxGetdataBlocks
  bytes : g.gdBytes ≤ idxGetdataBytes
  fresh : g.gdWinT = 0 → b = 0 ∧ y = 0
  sent : (b ≤ g.gdBlocks ∧ y ≤ g.gdBytes) ∨
    (a ≤ g.gdWinT ∧ b ≤ idxGetdataBlocks + g.gdBlocks ∧ y ≤ idxGetdataBytes + g.gdBytes)

namespace Spent

variable {a now : ℤ} {g : GdBudget} {b y : ℕ}

theorem start (a : ℤ) : Spent a {} 0 0 where
  blocks := Nat.zero_le _
  bytes := Nat.zero_le _
  fresh _ := ⟨rfl, rfl⟩
  sent := Or.inl ⟨le_rfl, le_rfl⟩

theorem le (h : Spent a g b y) : b ≤ 2 * idxGetdataBlocks ∧ y ≤ 2 * idxGetdataBytes := by
  have hb := h.blocks
  have hy := h.bytes
  rcases h.sent with hs | hs <;> omega

/-- A window that starts in the ten seconds follows one that started before them. -/
theorem window (h : Spent a g b y) (hpos : 0 < now) (hlate : now < a + idxGetdataWindowS)
    (hearly : now < a → b = 0 ∧ y = 0) : Spent a (g.window now) b y := by
  unfold GdBudget.window
  by_cases hw : g.gdWinT = 0 ∨ idxGetdataWindowS ≤ now - g.gdWinT
  · rw [if_pos hw]
    have hold : b ≤ g.gdBlocks ∧ y ≤ g.gdBytes ∨ b = 0 ∧ y = 0 := by
      rcases hw with hw | hw
      · exact Or.inr (h.fresh hw)
      · rcases h.sent with hs | hs
        · exact Or.inl hs
        · omega
    have hb := h.blocks
    have hy := h.bytes
    refine ⟨Nat.zero_le _, Nat.zero_le _, fun hz => absurd hz (by simpa using hpos.ne'), ?_⟩
    by_cases ha : now < a
    · have hnone := hearly ha
      exact Or.inl ⟨by simp [hnone.1], by simp [hnone.2]⟩
    · refine Or.inr ⟨not_lt.mp ha, ?_, ?_⟩
      · change b ≤ idxGetdataBlocks + 0
        omega
      · change y ≤ idxGetdataBytes + 0
        omega
  · rw [if_neg hw]
    exact h

theorem window_ne_zero (hpos : 0 < now) : (g.window now).gdWinT ≠ 0 := by
  unfold GdBudget.window
  by_cases hw : g.gdWinT = 0 ∨ idxGetdataWindowS ≤ now - g.gdWinT
  · rw [if_pos hw]
    exact hpos.ne'
  · rw [if_neg hw]
    exact fun h => hw (Or.inl h)

/-- A call of `net_policy_getdata_ok`; where it allows a body, this is sent. -/
theorem getdataOk (h : Spent a g b y) (hpos : 0 < now) (hlate : now < a + idxGetdataWindowS)
    (hearly : now < a → b = 0 ∧ y = 0) (addBlocks addBytes : ℕ) :
    match netPolicyGetdataOk g now addBlocks addBytes with
    | (g', true) => Spent a g' (b + addBlocks) (y + addBytes) ∧ Spent a g' b y
    | (g', false) => Spent a g' b y := by
  have hwin := h.window hpos hlate hearly
  have hset := window_ne_zero (g := g) hpos
  unfold netPolicyGetdataOk
  dsimp only
  by_cases hblocks : addBlocks ≠ 0 ∧ idxGetdataBlocks < (g.window now).gdBlocks + addBlocks
  · rw [if_pos hblocks]
    exact hwin
  · rw [if_neg hblocks]
    by_cases hbytes : addBytes ≠ 0 ∧ idxGetdataBytes < (g.window now).gdBytes + addBytes
    · rw [if_pos hbytes]
      exact hwin
    · rw [if_neg hbytes]
      have hb := hwin.blocks
      have hy := hwin.bytes
      have hb' : (g.window now).gdBlocks + addBlocks ≤ idxGetdataBlocks := by omega
      have hy' : (g.window now).gdBytes + addBytes ≤ idxGetdataBytes := by omega
      constructor
      · refine ⟨hb', hy', fun hz => absurd hz hset, ?_⟩
        rcases hwin.sent with hs | hs
        · exact Or.inl ⟨Nat.add_le_add_right hs.1 _, Nat.add_le_add_right hs.2 _⟩
        · exact Or.inr ⟨hs.1, by dsimp only; omega, by dsimp only; omega⟩
      · refine ⟨hb', hy', fun hz => absurd hz hset, ?_⟩
        rcases hwin.sent with hs | hs
        · exact Or.inl ⟨hs.1.trans (Nat.le_add_right _ _), hs.2.trans (Nat.le_add_right _ _)⟩
        · exact Or.inr ⟨hs.1, by dsimp only; omega, by dsimp only; omega⟩

end Spent

end NamespaceIndexer.Daemon
