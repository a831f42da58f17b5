import NamespaceIndexer.Fold.Encode

/-!
# The codec against the action registry

A layout pairs an action with the body it is written as. Decoder, encoder,
registry and the well-formedness of actions are each compared with the layouts.
-/

namespace NamespaceIndexer.Fold

/-- The opcodes whose body is one name. -/
def byNameOps : List Byte := [0x01, 0x08, 0x09, 0x0B, 0x0D]

/-- An action and its body. -/
inductive LaidOut : SmAction → Bytes → Prop
  | commit (commitment : Hash256) : LaidOut { op := 0x03, commitment } commitment.val
  | claim (salt : Fixed 32) {name : Name} (hn : smNameValid name) :
      LaidOut { op := 0x04, salt, name } (salt.val ++ name)
  | renewAll : LaidOut { op := 0x05 } []
  | renew {anchor : UInt64} {flags : Bytes} (ha : anchor.toNat < 2 ^ 40)
      (hf : flags.length ≤ flagsMax) :
      LaidOut { op := 0x05, hasAnchor := true, anchor, flags } (wr5 anchor ++ flags)
  | transferAll (addr : H160) : LaidOut { op := 0x06, addr } addr.val
  | transfer (addr : H160) {anchor : UInt64} {flags : Bytes} (ha : anchor.toNat < 2 ^ 40)
      (h1 : 1 ≤ flags.length) (hf : flags.length ≤ flagsXferMax) :
      LaidOut { op := 0x06, addr, hasAnchor := true, anchor, flags }
        (addr.val ++ (wr5 anchor ++ flags))
  | sell (price : UInt64) (window : UInt32) {name : Name} (hn : smNameValid name) :
      LaidOut { op := 0x07, price, window, name } (wr64 price ++ (wr32 window ++ name))
  | byName {op : Byte} (hop : op ∈ byNameOps) {name : Name} (hn : smNameValid name) :
      LaidOut { op, name } name
  | transferName (addr : H160) {name : Name} (hn : smNameValid name) :
      LaidOut { op := 0x02, addr, name } (addr.val ++ name)
  | release {anchor : UInt64} {flags : Bytes} (ha : anchor.toNat < 2 ^ 40)
      (h1 : 1 ≤ flags.length) (hf : flags.length ≤ flagsMax) :
      LaidOut { op := 0x0A, hasAnchor := true, anchor, flags } (wr5 anchor ++ flags)
  | sellTo (price : UInt64) (addr : H160) {name : Name} (hn : smNameValid name) :
      LaidOut { op := 0x0C, price, addr, name } (wr64 price ++ (addr.val ++ name))
  | as (asIndex : Byte) : LaidOut { op := 0x0E, asIndex } [asIndex]
  | trade (idxA idxB : Byte) {name nameB : Name} (hn : smNameValid name)
      (hnB : smNameValid nameB) :
      LaidOut { op := 0x0F, idxA, idxB, name, nameB } (idxA :: idxB :: (name ++ 0x2C :: nameB))

/-- The length windows of the decoder and the encoder. -/
theorem not_outside_iff {n lo hi : ℕ} :
    ¬(decide (n < lo) || decide (n > hi)) = true ↔ lo ≤ n ∧ n ≤ hi := by
  simp

/-! ### Names -/

theorem smNameValid_length {name : Name} (h : smNameValid name) :
    1 ≤ name.length ∧ name.length ≤ 32 := by
  unfold smNameValid at h
  split at h
  · cases h
  · rename_i hlen
    exact not_outside_iff.mp hlen

/-- No valid name holds a comma. -/
theorem comma_notMem {name : Name} (h : smNameValid name) : (0x2C : Byte) ∉ name := by
  intro hmem
  unfold smNameValid at h
  split at h
  · cases h
  · split at h
    · cases h
    · rename_i hall
      simp only [Bool.not_eq_true, Bool.not_eq_false', List.all_eq_true] at hall
      have hbyte : nameByteOk 0x2C = true := hall _ hmem
      revert hbyte
      decide

theorem decodeName_eq_some {a a' : SmAction} {name : Name} :
    decodeName a name = some a' ↔ smNameValid name ∧ a' = { a with name } := by
  unfold decodeName
  split
  · rename_i h
    rw [Option.some_inj]
    exact ⟨fun h' => ⟨h, h'.symm⟩, fun h' => h'.2.symm⟩
  · rename_i h
    exact ⟨fun h' => (Option.some_ne_none _ h'.symm).elim, fun h' => (h h'.1).elim⟩

/-- The one comma splits the body of a TRADE where the encoder joined it. -/
theorem idxOf_comma {name nameB : Name} (hn : smNameValid name) :
    (name ++ 0x2C :: nameB).idxOf (0x2C : Byte) = name.length := by
  rw [List.idxOf_append_of_notMem (comma_notMem hn), List.idxOf_cons_self, Nat.add_zero]

theorem count_comma {name nameB : Name} (hn : smNameValid name) (hnB : smNameValid nameB) :
    (name ++ 0x2C :: nameB).count (0x2C : Byte) = 1 := by
  rw [List.count_append, List.count_cons_self, List.count_eq_zero.mpr (comma_notMem hn),
    List.count_eq_zero.mpr (comma_notMem hnB)]

/-- A body with one comma is what stands before it, the comma and what stands after it. -/
theorem split_at_comma {body : Bytes} (h : body.count (0x2C : Byte) = 1) :
    body.take (body.idxOf 0x2C) ++ 0x2C :: body.drop (body.idxOf 0x2C + 1) = body := by
  have hmem : (0x2C : Byte) ∈ body := List.count_pos_iff.mp (by omega)
  have hlt : body.idxOf (0x2C : Byte) < body.length := List.idxOf_lt_length_of_mem hmem
  have hget : body[body.idxOf (0x2C : Byte)] = 0x2C := List.getElem_idxOf hlt
  have hcons := List.drop_eq_getElem_cons hlt
  rw [hget] at hcons
  rw [← hcons, List.take_append_drop]

/-! ### The decoder -/

theorem decodeAction_of_laidOut {a : SmAction} {b : Bytes} (h : LaidOut a b) :
    decodeAction b a.op = some a := by
  cases h with
  | commit c =>
    have hop : SmOp.ofByte? 0x03 = some .COMMIT := rfl
    have hc : copyFrom 32 c.val = c := by simpa using copyFrom_append 32 c []
    simp [decodeAction, hop, c.property, hc]
  | claim salt hn =>
    have hop : SmOp.ofByte? 0x04 = some .CLAIM := rfl
    have hlen := smNameValid_length hn
    have hs := salt.property
    simp only [decodeAction, hop, copyFrom_append]
    rw [if_neg (by simp; omega), List.drop_left' hs, decodeName_eq_some]
    exact ⟨hn, rfl⟩
  | renewAll => rfl
  | @renew anchor flags ha hf =>
    have hop : SmOp.ofByte? 0x05 = some .RENEW := rfl
    have hd : (wr5 anchor ++ flags).drop 5 = flags := List.drop_left' (length_wr5 anchor)
    simp only [decodeAction, hop, rd5_wr5 ha, hd]
    cases flags with
    | nil => simp
    | cons x xs =>
      simp only [flagsMax] at hf
      simp at hf
      simp; omega
  | transferAll addr =>
    have hop : SmOp.ofByte? 0x06 = some .TRANSFER := rfl
    have hc : copyFrom 20 addr.val = addr := by simpa using copyFrom_append 20 addr []
    simp [decodeAction, hop, addr.property, hc]
  | @transfer addr anchor flags ha h1 hf =>
    have hop : SmOp.ofByte? 0x06 = some .TRANSFER := rfl
    have haddr := addr.property
    have hd : (addr.val ++ (wr5 anchor ++ flags)).drop 20 = wr5 anchor ++ flags :=
      List.drop_left' haddr
    have hd5 : (addr.val ++ (wr5 anchor ++ flags)).drop 25 = flags := by
      rw [← List.append_assoc]
      exact List.drop_left' (by simp [haddr])
    simp only [flagsXferMax, flagsMax] at hf
    simp only [decodeAction, hop, hd, hd5, rd5_wr5 ha, copyFrom_append]
    rw [if_neg (by simp; omega), if_pos (by simp; omega)]
  | @sell price window name hn =>
    have hop : SmOp.ofByte? 0x07 = some .SELL := rfl
    have hlen := smNameValid_length hn
    have hd8 : (wr64 price ++ (wr32 window ++ name)).drop 8 = wr32 window ++ name :=
      List.drop_left' (length_wr64 price)
    have hd12 : (wr64 price ++ (wr32 window ++ name)).drop 12 = name := by
      rw [← List.append_assoc]
      exact List.drop_left' (by simp)
    simp only [decodeAction, hop, hd8, hd12, rd64_wr64, rd32_wr32]
    rw [if_neg (by simp; omega), decodeName_eq_some]
    exact ⟨hn, rfl⟩
  | @byName op hop name hn =>
    have hlen := smNameValid_length hn
    have hlen' : ¬(b.length < 1 || b.length > 32) = true := not_outside_iff.mpr hlen
    simp only [byNameOps, List.mem_cons, List.not_mem_nil, or_false] at hop
    rcases hop with rfl | rfl | rfl | rfl | rfl <;>
      simp only [decodeAction, SmOp.ofByte?, if_neg hlen', decodeName, if_pos hn]
  | transferName addr hn =>
    have hop : SmOp.ofByte? 0x02 = some .TRANSFER_NAME := rfl
    have hlen := smNameValid_length hn
    have haddr := addr.property
    simp only [decodeAction, hop, copyFrom_append]
    rw [if_neg (by simp; omega), List.drop_left' haddr, decodeName_eq_some]
    exact ⟨hn, rfl⟩
  | @release anchor flags ha h1 hf =>
    have hop : SmOp.ofByte? 0x0A = some .RELEASE := rfl
    have hd : (wr5 anchor ++ flags).drop 5 = flags := List.drop_left' (length_wr5 anchor)
    simp only [flagsMax] at hf
    simp only [decodeAction, hop, rd5_wr5 ha, hd]
    rw [if_neg (by simp; omega)]
  | @sellTo price addr name hn =>
    have hop : SmOp.ofByte? 0x0C = some .SELL_TO := rfl
    have hlen := smNameValid_length hn
    have haddr := addr.property
    have hd8 : (wr64 price ++ (addr.val ++ name)).drop 8 = addr.val ++ name :=
      List.drop_left' (length_wr64 price)
    have hd28 : (wr64 price ++ (addr.val ++ name)).drop 28 = name := by
      rw [← List.append_assoc]
      exact List.drop_left' (by simp [haddr])
    simp only [decodeAction, hop, hd8, hd28, rd64_wr64, copyFrom_append]
    rw [if_neg (by simp; omega), decodeName_eq_some]
    exact ⟨hn, rfl⟩
  | as k => rfl
  | @trade idxA idxB name nameB hn hnB =>
    have hop : SmOp.ofByte? 0x0F = some .TRADE := rfl
    have hlen := smNameValid_length hn
    have hlenB := smNameValid_length hnB
    have hbody : (idxA :: idxB :: (name ++ 0x2C :: nameB)).drop 2 = name ++ 0x2C :: nameB := rfl
    have htail : (name ++ 0x2C :: nameB).drop (name.length + 1) = nameB := by
      have hs : name ++ 0x2C :: nameB = (name ++ [0x2C]) ++ nameB := by simp
      rw [hs]
      exact List.drop_left' (by simp)
    simp only [decodeAction, hop, hbody, idxOf_comma hn, count_comma hn hnB, List.take_left', htail]
    rw [if_neg (by simp; omega)]
    simp [hn, hnB]

/-- The wire byte of an opcode. -/
def SmOp.toByte : SmOp → Byte
  | .RENEW_NAME => 0x01
  | .TRANSFER_NAME => 0x02
  | .COMMIT => 0x03
  | .CLAIM => 0x04
  | .RENEW => 0x05
  | .TRANSFER => 0x06
  | .SELL => 0x07
  | .RESERVE => 0x08
  | .SETTLE => 0x09
  | .RELEASE => 0x0A
  | .RELEASE_NAME => 0x0B
  | .SELL_TO => 0x0C
  | .PAY => 0x0D
  | .AS => 0x0E
  | .TRADE => 0x0F

theorem SmOp.ofByte?_eq_some {op : Byte} {o : SmOp} : SmOp.ofByte? op = some o ↔ op = o.toByte := by
  constructor
  · intro h
    unfold SmOp.ofByte? at h
    split at h <;> cases h <;> rfl
  · rintro rfl
    cases o <;> rfl

theorem LaidOut.of_eq {a : SmAction} {b b' : Bytes} (h : LaidOut a b) (hb : b = b') :
    LaidOut a b' := hb ▸ h

/-- A body that is one name and nothing else. -/
theorem laidOut_of_byName {b : Bytes} {op : Byte} {a : SmAction} (hop : op ∈ byNameOps)
    (h : (if b.length < 1 || b.length > 32 then none else decodeName { op } b) = some a) :
    LaidOut a b := by
  split at h
  · cases h
  · obtain ⟨hn, rfl⟩ := decodeName_eq_some.mp h
    exact .byName hop hn

/-- Whatever the decoder accepts is laid out as the registry says. -/
theorem laidOut_of_decodeAction {b : Bytes} {op : Byte} {a : SmAction}
    (h : decodeAction b op = some a) : LaidOut a b := by
  unfold decodeAction at h
  cases ho : SmOp.ofByte? op with
  | none =>
    simp only [ho] at h
    cases h
  | some o =>
    have hop : op = o.toByte := SmOp.ofByte?_eq_some.mp ho
    simp only [ho] at h
    subst hop
    cases o with
    | RENEW_NAME => exact laidOut_of_byName (by decide) h
    | RELEASE_NAME => exact laidOut_of_byName (by decide) h
    | RESERVE => exact laidOut_of_byName (by decide) h
    | SETTLE => exact laidOut_of_byName (by decide) h
    | PAY => exact laidOut_of_byName (by decide) h
    | COMMIT =>
      simp only at h
      split at h
      · cases h
      · rename_i hlen
        have hlen : b.length = 32 := by simpa using hlen
        cases h
        refine (LaidOut.commit (copyFrom 32 b)).of_eq ?_
        rw [copyFrom_val hlen.ge, List.take_of_length_le hlen.le]
    | CLAIM =>
      simp only at h
      split at h
      · cases h
      · rename_i hlen
        have hlen := not_outside_iff.mp hlen
        obtain ⟨hn, rfl⟩ := decodeName_eq_some.mp h
        refine (LaidOut.claim (copyFrom 32 b) hn).of_eq ?_
        rw [copyFrom_val (by omega), List.take_append_drop]
    | RENEW =>
      simp only [beq_iff_eq] at h
      split at h
      · rename_i hlen
        cases h
        exact LaidOut.renewAll.of_eq (List.eq_nil_of_length_eq_zero hlen).symm
      · split at h
        · rename_i hlen
          cases h
          have hnil : ([] : Bytes).length ≤ flagsMax := Nat.zero_le _
          refine (LaidOut.renew (rd5_lt hlen.ge) hnil).of_eq ?_
          rw [wr5_rd5 hlen.ge, List.take_of_length_le hlen.le, List.append_nil]
        · split at h
          · rename_i hlen
            have hlen : 6 ≤ b.length ∧ b.length ≤ bodyMax := by simpa using hlen
            cases h
            have hf : (b.drop 5).length ≤ flagsMax := by
              rw [List.length_drop, flagsMax]
              omega
            refine (LaidOut.renew (rd5_lt (by omega)) hf).of_eq ?_
            rw [wr5_rd5 (by omega), List.take_append_drop]
          · cases h
    | TRANSFER =>
      simp only [beq_iff_eq] at h
      split at h
      · rename_i hlen
        cases h
        refine (LaidOut.transferAll (copyFrom 20 b)).of_eq ?_
        rw [copyFrom_val hlen.ge, List.take_of_length_le hlen.le]
      · split at h
        · rename_i hlen
          have hlen : 26 ≤ b.length ∧ b.length ≤ bodyMax := by simpa using hlen
          cases h
          have h5 : 5 ≤ (b.drop 20).length := by
            rw [List.length_drop]
            omega
          have h1 : 1 ≤ (b.drop 25).length := by
            rw [List.length_drop]
            omega
          have hf : (b.drop 25).length ≤ flagsXferMax := by
            rw [List.length_drop, flagsXferMax, flagsMax]
            omega
          refine (LaidOut.transfer (copyFrom 20 b) (rd5_lt h5) h1 hf).of_eq ?_
          have hd : b.drop 25 = (b.drop 20).drop 5 := by rw [List.drop_drop]
          rw [copyFrom_val (by omega), wr5_rd5 h5, hd, List.take_append_drop,
            List.take_append_drop]
        · cases h
    | SELL =>
      simp only at h
      split at h
      · cases h
      · rename_i hlen
        have hlen := not_outside_iff.mp hlen
        obtain ⟨hn, rfl⟩ := decodeName_eq_some.mp h
        refine (LaidOut.sell (rd64 b) (rd32 (b.drop 8)) hn).of_eq ?_
        have h4 : 4 ≤ (b.drop 8).length := by
          rw [List.length_drop]
          omega
        have hd : b.drop 12 = (b.drop 8).drop 4 := by rw [List.drop_drop]
        rw [wr64_rd64 (by omega), wr32_rd32 h4, hd, List.take_append_drop, List.take_append_drop]
    | TRANSFER_NAME =>
      simp only at h
      split at h
      · cases h
      · rename_i hlen
        have hlen := not_outside_iff.mp hlen
        obtain ⟨hn, rfl⟩ := decodeName_eq_some.mp h
        refine (LaidOut.transferName (copyFrom 20 b) hn).of_eq ?_
        rw [copyFrom_val (by omega), List.take_append_drop]
    | RELEASE =>
      simp only at h
      split at h
      · cases h
      · rename_i hlen
        have hlen := not_outside_iff.mp hlen
        cases h
        have h1 : 1 ≤ (b.drop 5).length := by
          rw [List.length_drop]
          omega
        have hf : (b.drop 5).length ≤ flagsMax := by
          rw [List.length_drop, flagsMax]
          omega
        refine (LaidOut.release (rd5_lt (by omega)) h1 hf).of_eq ?_
        rw [wr5_rd5 (by omega), List.take_append_drop]
    | SELL_TO =>
      simp only at h
      split at h
      · cases h
      · rename_i hlen
        have hlen := not_outside_iff.mp hlen
        obtain ⟨hn, rfl⟩ := decodeName_eq_some.mp h
        refine (LaidOut.sellTo (rd64 b) (copyFrom 20 (b.drop 8)) hn).of_eq ?_
        have h20 : 20 ≤ (b.drop 8).length := by
          rw [List.length_drop]
          omega
        have hd : b.drop 28 = (b.drop 8).drop 20 := by rw [List.drop_drop]
        rw [wr64_rd64 (by omega), copyFrom_val h20, hd, List.take_append_drop,
          List.take_append_drop]
    | AS =>
      simp only at h
      split at h
      · cases h
      · rename_i hlen
        obtain ⟨k, rfl⟩ := List.length_eq_one_iff.mp (by simpa using hlen)
        cases h
        exact .as k
    | TRADE =>
      simp only at h
      split at h
      · cases h
      · split at h
        · cases h
        · rename_i hcount
          have hcount : (b.drop 2).count 0x2C = 1 := by simpa using hcount
          split at h
          · cases h
          · split at h
            · cases h
            · rename_i hlen _ hn hnB
              have hlen : 5 ≤ b.length := by simpa using hlen
              have hn : smNameValid ((b.drop 2).take ((b.drop 2).idxOf 0x2C)) := by simpa using hn
              have hnB : smNameValid ((b.drop 2).drop ((b.drop 2).idxOf 0x2C + 1)) := by
                simpa using hnB
              cases h
              refine (LaidOut.trade (b.getD 0 0) (b.getD 1 0) hn hnB).of_eq ?_
              match b, hlen with
              | x :: y :: body, _ => exact congrArg (x :: y :: ·) (split_at_comma hcount)

/-- The decoder keeps the opcode it was given. -/
theorem op_of_decodeAction {b : Bytes} {op : Byte} {a : SmAction} (h : decodeAction b op = some a) :
    a.op = op := by
  simp only [decodeAction, decodeName] at h
  repeat' split at h
  all_goals cases h
  all_goals rfl

/-! ### The encoder -/

theorem encodeName_of_valid {header : Bytes} {name : Name} (hn : smNameValid name) :
    encodeName header name = header ++ name := by
  unfold encodeName
  rw [if_neg (not_outside_iff.mpr (smNameValid_length hn))]

theorem smEncodeAction_of_laidOut {a : SmAction} {b : Bytes} (h : LaidOut a b) :
    smEncodeAction a = actionHeader a.op ++ b := by
  cases h with
  | commit => rfl
  | claim salt hn =>
    have hop : SmOp.ofByte? 0x04 = some .CLAIM := rfl
    simp only [smEncodeAction, hop, encodeName_of_valid hn, List.append_assoc]
  | renewAll => rfl
  | @renew anchor flags ha hf =>
    have hop : SmOp.ofByte? 0x05 = some .RENEW := rfl
    cases flags with
    | nil => simp [smEncodeAction, hop]
    | cons x xs =>
      have hf : xs.length + 1 ≤ flagsMax := hf
      simp [smEncodeAction, hop, hf]
  | transferAll => rfl
  | @transfer addr anchor flags ha h1 hf =>
    have hop : SmOp.ofByte? 0x06 = some .TRANSFER := rfl
    simp [smEncodeAction, hop, h1, hf]
  | sell price window hn =>
    have hop : SmOp.ofByte? 0x07 = some .SELL := rfl
    simp only [smEncodeAction, hop, encodeName_of_valid hn, List.append_assoc]
  | byName hop hn =>
    simp only [byNameOps, List.mem_cons, List.not_mem_nil, or_false] at hop
    rcases hop with rfl | rfl | rfl | rfl | rfl <;>
      simp only [smEncodeAction, SmOp.ofByte?, encodeName_of_valid hn]
  | transferName addr hn =>
    have hop : SmOp.ofByte? 0x02 = some .TRANSFER_NAME := rfl
    simp only [smEncodeAction, hop, encodeName_of_valid hn, List.append_assoc]
  | @release anchor flags ha h1 hf =>
    have hop : SmOp.ofByte? 0x0A = some .RELEASE := rfl
    simp only [smEncodeAction, hop]
    rw [if_neg (not_outside_iff.mpr ⟨h1, hf⟩), List.append_assoc]
  | sellTo price addr hn =>
    have hop : SmOp.ofByte? 0x0C = some .SELL_TO := rfl
    simp only [smEncodeAction, hop, encodeName_of_valid hn, List.append_assoc]
  | as => rfl
  | @trade idxA idxB name nameB hn hnB =>
    have hop : SmOp.ofByte? 0x0F = some .TRADE := rfl
    have hlen := smNameValid_length hn
    have hlenB := smNameValid_length hnB
    simp only [smEncodeAction, hop]
    rw [if_neg (by simp only [Bool.or_eq_true, decide_eq_true_eq]; omega)]
    simp

end NamespaceIndexer.Fold
