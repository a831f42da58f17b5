import NamespaceIndexer.Fold.Registry

/-!
# The payload decoders of the ports (`wire.py`, `decode.ts`)

The Python and the TypeScript decoder beside the daemon's, each action in the port's own terms.
-/

namespace NamespaceIndexer.Daemon

open Fold

/-! ### Names -/

/-- The name check of the ports, over their test of a byte. -/
def portName (nameByte : Byte → Bool) (b : Bytes) : Bool :=
  if ¬ (1 ≤ b.length ∧ b.length ≤ 32) then false
  else if b.any fun ch => !nameByte ch then false
  else if b.getD 0 0 = 45 ∨ b.getD (b.length - 1) 0 = 45 then false
  else if 4 ≤ b.length ∧ b.getD 2 0 = 45 ∧ b.getD 3 0 = 45 then false
  else true

namespace Py

/-- `_NAME_BYTES`: a to z, 0 to 9 and the hyphen. -/
def nameBytes : List Byte :=
  (List.range' 97 26 ++ List.range' 48 10 ++ [45]).map fun c => Fin.ofNat 256 c

/-- `valid_name`. -/
def validName : Bytes → Bool := portName fun ch => decide (ch ∈ nameBytes)

end Py

namespace Ts

/-- `isNameByte`. -/
def isNameByte (c : Byte) : Bool :=
  (0x61 ≤ c && c ≤ 0x7A) || (0x30 ≤ c && c ≤ 0x39) || c == 0x2D

/-- `validName`. -/
def validName : Bytes → Bool := portName isNameByte

end Ts

theorem portName_eq {nameByte : Byte → Bool} (h : ∀ c, nameByte c = nameByteOk c) (b : Bytes) :
    portName nameByte b = smNameValid b := by
  have hfun : nameByte = nameByteOk := funext h
  unfold portName smNameValid
  by_cases hlen : 1 ≤ b.length ∧ b.length ≤ 32
  · have hwindow : ¬ (decide (b.length < 1) || decide (b.length > nameMax)) = true :=
      not_outside_iff.mpr hlen
    have hany : (b.any fun ch => !nameByteOk ch) = !b.all nameByteOk := by
      rw [List.all_eq_not_any_not, Bool.not_not]
    have hfirst : b[0]? = some (b.getD 0 0) := by
      rw [List.getD_eq_getElem?_getD, List.getElem?_eq_getElem (by omega), Option.getD_some]
    have hlast : b.getLast? = some (b.getD (b.length - 1) 0) := by
      rw [List.getLast?_eq_getElem?, List.getD_eq_getElem?_getD,
        List.getElem?_eq_getElem (by omega), Option.getD_some]
    rw [if_neg (not_not.mpr hlen), if_neg hwindow, hfun, hany, hfirst, hlast]
    by_cases hfour : 4 ≤ b.length
    · have hthird : b[2]? = some (b.getD 2 0) := by
        rw [List.getD_eq_getElem?_getD, List.getElem?_eq_getElem (by omega), Option.getD_some]
      have hfourth : b[3]? = some (b.getD 3 0) := by
        rw [List.getD_eq_getElem?_getD, List.getElem?_eq_getElem (by omega), Option.getD_some]
      rw [hthird, hfourth]
      simp only [Bool.or_eq_true, Bool.and_eq_true, beq_iff_eq, Option.some.injEq,
        decide_eq_true_eq, ge_iff_le, and_assoc]
    · simp only [Bool.or_eq_true, Bool.and_eq_true, beq_iff_eq, Option.some.injEq,
        decide_eq_true_eq, ge_iff_le, hfour, false_and]
  · have hwindow : (decide (b.length < 1) || decide (b.length > nameMax)) = true := by
      by_contra hc
      exact hlen (not_outside_iff.mp hc)
    rw [if_pos hlen, if_pos hwindow]

theorem Py.validName_eq (b : Bytes) : Py.validName b = smNameValid b :=
  portName_eq (by decide +kernel) b

theorem Ts.validName_eq (b : Bytes) : Ts.validName b = smNameValid b :=
  portName_eq (fun _ => rfl) b

/-! ### Decoders -/

/-- The `mode` of a bitmap action. -/
inductive Mode where
  | all | allSafe | selective
  deriving DecidableEq

namespace Py

/-- The dict of an action: `none` where a key is absent. -/
structure Info where
  op : Byte
  mode : Option Mode := none
  commitment : Option Bytes := none
  salt : Option Bytes := none
  name : Option Bytes := none
  anchor : Option ℕ := none
  flags : Option Bytes := none
  target : Option Bytes := none
  price : Option ℕ := none
  window : Option ℕ := none
  buyer : Option Bytes := none
  index : Option Byte := none
  idxA : Option Byte := none
  idxB : Option Byte := none
  nameA : Option Bytes := none
  nameB : Option Bytes := none
  deriving DecidableEq

/-- `_decode_action`, with `info["op"]` set. -/
def decodeAction (op : Byte) (b : Bytes) : Option Info :=
  let bl := b.length
  match SmOp.ofByte? op with
  | some .COMMIT => if bl ≠ 32 then none else some { op, commitment := some (b.take 32) }
  | some .CLAIM =>
    if ¬ (33 ≤ bl ∧ bl ≤ 64) then none
    else
      let name := b.drop 32
      if !validName name then none else some { op, salt := some (b.take 32), name := some name }
  | some .RENEW =>
    if bl = 0 then some { op, mode := some .all }
    else if bl = 5 then some { op, mode := some .allSafe, anchor := some (leVal (b.take 5)) }
    else if 6 ≤ bl ∧ bl ≤ bodyMax then
      some { op, mode := some .selective, anchor := some (leVal (b.take 5)),
                 flags := some (b.drop 5) }
    else none
  | some .TRANSFER =>
    if bl = 20 then some { op, mode := some .all, target := some (b.take 20) }
    else if 26 ≤ bl ∧ bl ≤ bodyMax then
      some { op, mode := some .selective, target := some (b.take 20),
                 anchor := some (leVal ((b.drop 20).take 5)), flags := some (b.drop 25) }
    else none
  | some .SELL =>
    if ¬ (13 ≤ bl ∧ bl ≤ 44) then none
    else
      let name := b.drop 12
      if !validName name then none
      else some { op, price := some (leVal (b.take 8)),
                      window := some (leVal ((b.drop 8).take 4)), name := some name }
  | some .RENEW_NAME | some .RELEASE_NAME | some .RESERVE | some .SETTLE | some .PAY =>
    if ¬ (1 ≤ bl ∧ bl ≤ 32) then none
    else if !validName b then none else some { op, name := some b }
  | some .TRANSFER_NAME =>
    if ¬ (21 ≤ bl ∧ bl ≤ 52) then none
    else
      let name := b.drop 20
      if !validName name then none else some { op, target := some (b.take 20), name := some name }
  | some .RELEASE =>
    if ¬ (6 ≤ bl ∧ bl ≤ bodyMax) then none
    else some { op, anchor := some (leVal (b.take 5)), flags := some (b.drop 5) }
  | some .SELL_TO =>
    if ¬ (29 ≤ bl ∧ bl ≤ 60) then none
    else
      let name := b.drop 28
      if !validName name then none
      else some { op, price := some (leVal (b.take 8)), buyer := some ((b.drop 8).take 20),
                      name := some name }
  | some .AS => if bl ≠ 1 then none else some { op, index := some (b.getD 0 0) }
  | some .TRADE =>
    if bl < 5 then none
    else
      let rest := b.drop 2
      if rest.count 0x2C ≠ 1 then none
      else
        let i := rest.idxOf 0x2C
        let nameA := rest.take i
        let nameB := rest.drop (i + 1)
        if !validName nameA || !validName nameB then none
        else some { op, idxA := some (b.getD 0 0), idxB := some (b.getD 1 0),
                        nameA := some nameA, nameB := some nameB }
  | none => none

/-- `decode_payload`; `none` is `IGNORE`. -/
def decodePayload (payload : Bytes) : Option Info :=
  if 4 ≤ payload.length ∧ payload.take 3 = [0xFF, 0x50, 0x4E] then
    let op := payload.getD 3 0
    if ¬ (1 ≤ op.val ∧ op.val ≤ 15) then none else decodeAction op (payload.drop 4)
  else none

end Py

namespace Ts

/-- `Action`. -/
inductive Action where
  | COMMIT (commitment : Bytes)
  | CLAIM (salt name : Bytes)
  | RENEW (mode : Mode) (anchor : ℕ) (flags : Bytes)
  | TRANSFER (mode : Mode) (target : Bytes) (anchor : ℕ) (flags : Bytes)
  | SELL (price window : ℕ) (name : Bytes)
  | BY_NAME (op : Byte) (name : Bytes)
  | TRANSFER_NAME (target name : Bytes)
  | RELEASE (anchor : ℕ) (flags : Bytes)
  | SELL_TO (price : ℕ) (buyer name : Bytes)
  | AS (index : Byte)
  | TRADE (idxA idxB : Byte) (nameA nameB : Bytes)
  deriving DecidableEq

/-- `rdLE`. -/
def rdLE (b : Bytes) (off n : ℕ) : ℕ := leVal ((b.drop off).take n)

/-- The loop over the commas: how many, and where the last one is. -/
def scanCommas (rest : Bytes) : ℕ × ℤ :=
  rest.zipIdx.foldl (fun s x => if x.1 = 0x2C then (s.1 + 1, (x.2 : ℤ)) else s) (0, -1)

/-- `decodeAction`. -/
def decodeAction (payload : Bytes) : Option Action :=
  let op := payload.getD 3 0
  let b := payload.drop 4
  let bl := b.length
  match SmOp.ofByte? op with
  | some .COMMIT => if bl ≠ 32 then none else some (.COMMIT (b.take 32))
  | some .CLAIM =>
    if bl < 33 ∨ 64 < bl then none
    else
      let name := b.drop 32
      if !validName name then none else some (.CLAIM (b.take 32) name)
  | some .RENEW =>
    if bl = 0 then some (.RENEW .all 0 [])
    else if bl = 5 then some (.RENEW .allSafe (rdLE b 0 5) [])
    else if 6 ≤ bl ∧ bl ≤ bodyMax then some (.RENEW .selective (rdLE b 0 5) (b.drop 5))
    else none
  | some .TRANSFER =>
    if bl = 20 then some (.TRANSFER .all (b.take 20) 0 [])
    else if 26 ≤ bl ∧ bl ≤ bodyMax then
      some (.TRANSFER .selective (b.take 20) (rdLE b 20 5) (b.drop 25))
    else none
  | some .SELL =>
    if bl < 13 ∨ 44 < bl then none
    else
      let name := b.drop 12
      if !validName name then none else some (.SELL (rdLE b 0 8) (rdLE b 8 4) name)
  | some .RENEW_NAME | some .RELEASE_NAME | some .RESERVE | some .SETTLE | some .PAY =>
    if bl < 1 ∨ 32 < bl then none
    else if !validName b then none else some (.BY_NAME op b)
  | some .TRANSFER_NAME =>
    if bl < 21 ∨ 52 < bl then none
    else
      let name := b.drop 20
      if !validName name then none else some (.TRANSFER_NAME (b.take 20) name)
  | some .RELEASE =>
    if bl < 6 ∨ bodyMax < bl then none else some (.RELEASE (rdLE b 0 5) (b.drop 5))
  | some .SELL_TO =>
    if bl < 29 ∨ 60 < bl then none
    else
      let name := b.drop 28
      if !validName name then none
      else some (.SELL_TO (rdLE b 0 8) ((b.drop 8).take 20) name)
  | some .AS => if bl ≠ 1 then none else some (.AS (b.getD 0 0))
  | some .TRADE =>
    if bl < 5 then none
    else
      let rest := b.drop 2
      let commas := scanCommas rest
      if commas.1 ≠ 1 then none
      else
        let nameA := rest.take commas.2.toNat
        let nameB := rest.drop (commas.2 + 1).toNat
        if !validName nameA || !validName nameB then none
        else some (.TRADE (b.getD 0 0) (b.getD 1 0) nameA nameB)
  | none => none

/-- `decodePayload`; `none` is `IGNORE`. -/
def decodePayload (payload : Bytes) : Option Action :=
  if 4 ≤ payload.length ∧ payload.getD 0 0 = 0xFF ∧ payload.getD 1 0 = 0x50 ∧
      payload.getD 2 0 = 0x4E ∧ 0x01 ≤ (payload.getD 3 0).val ∧ (payload.getD 3 0).val ≤ 0x0F then
    decodeAction payload
  else none

end Ts

/-! ### The same action -/

/-- The mode of a RENEW or TRANSFER of the daemon. -/
def modeOf (a : SmAction) : Mode :=
  if !a.hasAnchor then .all else if a.flags = [] then .allSafe else .selective

/-- The daemon's action as the Python dict. -/
def pyInfo (a : SmAction) : Option Py.Info :=
  let op := a.op
  match SmOp.ofByte? op with
  | some .COMMIT => some { op, commitment := some a.commitment.val }
  | some .CLAIM => some { op, salt := some a.salt.val, name := some a.name }
  | some .RENEW =>
    match modeOf a with
    | .all => some { op, mode := some .all }
    | .allSafe => some { op, mode := some .allSafe, anchor := some a.anchor.toNat }
    | .selective =>
      some { op, mode := some .selective, anchor := some a.anchor.toNat, flags := some a.flags }
  | some .TRANSFER =>
    if !a.hasAnchor then some { op, mode := some .all, target := some a.addr.val }
    else some { op, mode := some .selective, target := some a.addr.val,
                    anchor := some a.anchor.toNat, flags := some a.flags }
  | some .SELL =>
    some { op, price := some a.price.toNat, window := some a.window.toNat, name := some a.name }
  | some .RENEW_NAME | some .RELEASE_NAME | some .RESERVE | some .SETTLE | some .PAY =>
    some { op, name := some a.name }
  | some .TRANSFER_NAME => some { op, target := some a.addr.val, name := some a.name }
  | some .RELEASE => some { op, anchor := some a.anchor.toNat, flags := some a.flags }
  | some .SELL_TO =>
    some { op, price := some a.price.toNat, buyer := some a.addr.val, name := some a.name }
  | some .AS => some { op, index := some a.asIndex }
  | some .TRADE => some { op, idxA := some a.idxA, idxB := some a.idxB, nameA := some a.name,
                              nameB := some a.nameB }
  | none => none

/-- The daemon's action as the TypeScript value. -/
def tsAction (a : SmAction) : Option Ts.Action :=
  match SmOp.ofByte? a.op with
  | some .COMMIT => some (.COMMIT a.commitment.val)
  | some .CLAIM => some (.CLAIM a.salt.val a.name)
  | some .RENEW => some (.RENEW (modeOf a) a.anchor.toNat a.flags)
  | some .TRANSFER => some (.TRANSFER (modeOf a) a.addr.val a.anchor.toNat a.flags)
  | some .SELL => some (.SELL a.price.toNat a.window.toNat a.name)
  | some .RENEW_NAME | some .RELEASE_NAME | some .RESERVE | some .SETTLE | some .PAY =>
    some (.BY_NAME a.op a.name)
  | some .TRANSFER_NAME => some (.TRANSFER_NAME a.addr.val a.name)
  | some .RELEASE => some (.RELEASE a.anchor.toNat a.flags)
  | some .SELL_TO => some (.SELL_TO a.price.toNat a.addr.val a.name)
  | some .AS => some (.AS a.asIndex)
  | some .TRADE => some (.TRADE a.idxA a.idxB a.name a.nameB)
  | none => none

/-- A body that ends in a name, in the ports' form and in the daemon's. -/
theorem named_eq {α : Type} {f : SmAction → Option α} {a : SmAction} {name : Name} {v : α} {lo hi n : ℕ}
    (h : lo ≤ n → n ≤ hi → f { a with name } = some v) :
    (if ¬ (lo ≤ n ∧ n ≤ hi) then none else if (!smNameValid name) = true then none else some v)
      = (if (decide (n < lo) || decide (n > hi)) = true then none else decodeName a name).bind f := by
  by_cases hlen : lo ≤ n ∧ n ≤ hi
  · rw [if_neg (not_not.mpr hlen), if_neg (not_outside_iff.mpr hlen), decodeName]
    cases smNameValid name
    · rfl
    · exact (h hlen.1 hlen.2).symm
  · rw [if_pos hlen, if_pos (by by_contra hc; exact hlen (not_outside_iff.mp hc))]
    rfl

/-- The Python decoder of bodies is the daemon's. -/
theorem Py.decodeAction_eq (op : Byte) (b : Bytes) :
    Py.decodeAction op b = (Fold.decodeAction b op).bind pyInfo := by
  cases ho : SmOp.ofByte? op with
  | none => simp only [Py.decodeAction, Fold.decodeAction, ho, Option.bind_none]
  | some o =>
    simp only [Py.decodeAction, Fold.decodeAction, ho, Py.validName_eq]
    cases o with
    | COMMIT =>
      by_cases hlen : b.length = 32
      · simp [hlen, pyInfo, ho, copyFrom_val hlen.ge]
      · simp [hlen]
    | CLAIM =>
      refine named_eq fun hlo _ => ?_
      simp only [pyInfo, ho, copyFrom_val (show 32 ≤ b.length by omega)]
    | RENEW =>
      by_cases h0 : b.length = 0
      · simp [h0, pyInfo, ho, modeOf]
      by_cases h5 : b.length = 5
      · simp [h5, pyInfo, ho, modeOf, toNat_rd5 h5.ge]
      by_cases h6 : 6 ≤ b.length ∧ b.length ≤ bodyMax
      · have hflags : b.drop 5 ≠ [] := List.ne_nil_of_length_pos (by rw [List.length_drop]; omega)
        simp [h0, h5, h6, pyInfo, ho, modeOf, hflags, toNat_rd5 (show 5 ≤ b.length by omega)]
      · simp [h0, h5, h6]
    | TRANSFER =>
      by_cases h20 : b.length = 20
      · simp [h20, pyInfo, ho, copyFrom_val h20.ge]
      by_cases h26 : 26 ≤ b.length ∧ b.length ≤ bodyMax
      · have hdrop : 5 ≤ (b.drop 20).length := by
          rw [List.length_drop]
          omega
        simp [h20, h26, pyInfo, ho, copyFrom_val (show 20 ≤ b.length by omega), toNat_rd5 hdrop]
      · simp [h20, h26]
    | SELL =>
      refine named_eq fun hlo _ => ?_
      have hdrop : 4 ≤ (b.drop 8).length := by
        rw [List.length_drop]
        omega
      simp only [pyInfo, ho, toNat_rd64 (show 8 ≤ b.length by omega), toNat_rd32 hdrop]
    | RENEW_NAME => exact named_eq fun _ _ => by simp only [pyInfo, ho]
    | RELEASE_NAME => exact named_eq fun _ _ => by simp only [pyInfo, ho]
    | RESERVE => exact named_eq fun _ _ => by simp only [pyInfo, ho]
    | SETTLE => exact named_eq fun _ _ => by simp only [pyInfo, ho]
    | PAY => exact named_eq fun _ _ => by simp only [pyInfo, ho]
    | TRANSFER_NAME =>
      refine named_eq fun hlo _ => ?_
      simp only [pyInfo, ho, copyFrom_val (show 20 ≤ b.length by omega)]
    | RELEASE =>
      dsimp only
      by_cases hlen : 6 ≤ b.length ∧ b.length ≤ bodyMax
      · rw [if_neg (not_not.mpr hlen), if_neg (not_outside_iff.mpr hlen)]
        simp [pyInfo, ho, toNat_rd5 (show 5 ≤ b.length by omega)]
      · rw [if_pos hlen, if_pos (by by_contra hc; exact hlen (not_outside_iff.mp hc))]
        rfl
    | SELL_TO =>
      refine named_eq fun hlo _ => ?_
      have hdrop : 20 ≤ (b.drop 8).length := by
        rw [List.length_drop]
        omega
      simp only [pyInfo, ho, toNat_rd64 (show 8 ≤ b.length by omega), copyFrom_val hdrop]
    | AS =>
      by_cases hlen : b.length = 1
      · obtain ⟨x, rfl⟩ := List.length_eq_one_iff.mp hlen
        simp [pyInfo, ho]
      · simp [hlen]
    | TRADE =>
      by_cases hlen : b.length < 5
      · simp [hlen]
      rw [if_neg hlen, if_neg hlen]
      by_cases hcount : (b.drop 2).count 0x2C = 1
      · rw [if_neg (not_not.mpr hcount), if_neg (not_not.mpr hcount)]
        cases hA : smNameValid ((b.drop 2).take ((b.drop 2).idxOf 0x2C)) <;>
          cases hB : smNameValid ((b.drop 2).drop ((b.drop 2).idxOf 0x2C + 1)) <;>
          simp [pyInfo, ho]
      · rw [if_pos hcount, if_pos hcount]
        rfl

theorem not_window_iff {n lo hi : ℕ} : n < lo ∨ hi < n ↔ ¬ (lo ≤ n ∧ n ≤ hi) := by
  omega

/-- The loop counts the commas and, if there is one, stands on it. -/
theorem Ts.scanCommas_go (rest : Bytes) (k : ℕ) (s : ℕ × ℤ) :
    ((rest.zipIdx k).foldl (fun s x => if x.1 = (0x2C : Byte) then (s.1 + 1, (x.2 : ℤ)) else s) s).1
        = s.1 + rest.count 0x2C ∧
      (rest.count 0x2C = 0 → ((rest.zipIdx k).foldl
        (fun s x => if x.1 = (0x2C : Byte) then (s.1 + 1, (x.2 : ℤ)) else s) s).2 = s.2) ∧
      (rest.count 0x2C = 1 → ((rest.zipIdx k).foldl
        (fun s x => if x.1 = (0x2C : Byte) then (s.1 + 1, (x.2 : ℤ)) else s) s).2
          = (k + rest.idxOf 0x2C : ℕ)) := by
  induction rest generalizing k s with
  | nil => simp
  | cons c rest ih =>
    simp only [List.zipIdx_cons, List.foldl_cons]
    by_cases hc : c = 0x2C
    · obtain ⟨hcount, hnone, -⟩ := ih (k + 1) (s.1 + 1, (k : ℤ))
      rw [if_pos hc, hc, List.count_cons_self, List.idxOf_cons_self]
      refine ⟨by rw [hcount]; omega, by omega, fun h => ?_⟩
      exact hnone (by omega)
    · obtain ⟨hcount, hnone, hone⟩ := ih (k + 1) s
      rw [if_neg hc, List.count_cons_of_ne hc, List.idxOf_cons_ne _ hc]
      refine ⟨hcount, hnone, fun h => ?_⟩
      rw [hone h]
      omega

theorem Ts.scanCommas_spec (rest : Bytes) :
    (scanCommas rest).1 = rest.count 0x2C ∧
      (rest.count 0x2C = 1 → (scanCommas rest).2 = (rest.idxOf 0x2C : ℕ)) := by
  obtain ⟨hcount, -, hone⟩ := scanCommas_go rest 0 (0, -1)
  rw [Nat.zero_add] at hcount
  refine ⟨hcount, fun h => ?_⟩
  have hpos := hone h
  rw [Nat.zero_add] at hpos
  exact hpos

/-- The TypeScript decoder of bodies is the daemon's. -/
theorem Ts.decodeAction_eq (payload : Bytes) :
    Ts.decodeAction payload
      = (Fold.decodeAction (payload.drop 4) (payload.getD 3 0)).bind tsAction := by
  unfold Ts.decodeAction
  generalize payload.getD 3 0 = op
  generalize payload.drop 4 = b
  cases ho : SmOp.ofByte? op with
  | none => simp only [Fold.decodeAction, ho, Option.bind_none]
  | some o =>
    simp only [Fold.decodeAction, ho, Ts.validName_eq, not_window_iff]
    cases o with
    | COMMIT =>
      by_cases hlen : b.length = 32
      · simp [hlen, tsAction, ho, copyFrom_val hlen.ge]
      · simp [hlen]
    | CLAIM =>
      refine named_eq fun hlo _ => ?_
      simp only [tsAction, ho, copyFrom_val (show 32 ≤ b.length by omega)]
    | RENEW =>
      by_cases h0 : b.length = 0
      · simp [h0, tsAction, ho, modeOf]
      by_cases h5 : b.length = 5
      · simp [h5, tsAction, ho, modeOf, toNat_rd5 h5.ge, rdLE]
      by_cases h6 : 6 ≤ b.length ∧ b.length ≤ bodyMax
      · have hflags : b.drop 5 ≠ [] := List.ne_nil_of_length_pos (by rw [List.length_drop]; omega)
        simp [h0, h5, h6, tsAction, ho, modeOf, hflags, rdLE,
          toNat_rd5 (show 5 ≤ b.length by omega)]
      · simp [h0, h5, h6]
    | TRANSFER =>
      by_cases h20 : b.length = 20
      · simp [h20, tsAction, ho, modeOf, copyFrom_val h20.ge]
      by_cases h26 : 26 ≤ b.length ∧ b.length ≤ bodyMax
      · have hflags : b.drop 25 ≠ [] :=
          List.ne_nil_of_length_pos (by rw [List.length_drop]; omega)
        have hdrop : 5 ≤ (b.drop 20).length := by
          rw [List.length_drop]
          omega
        simp [h20, h26, tsAction, ho, modeOf, hflags, copyFrom_val (show 20 ≤ b.length by omega),
          toNat_rd5 hdrop, rdLE]
      · simp [h20, h26]
    | SELL =>
      refine named_eq fun hlo _ => ?_
      have hdrop : 4 ≤ (b.drop 8).length := by
        rw [List.length_drop]
        omega
      simp only [tsAction, ho, toNat_rd64 (show 8 ≤ b.length by omega), toNat_rd32 hdrop, rdLE,
        List.drop_zero]
    | RENEW_NAME => exact named_eq fun _ _ => by simp only [tsAction, ho]
    | RELEASE_NAME => exact named_eq fun _ _ => by simp only [tsAction, ho]
    | RESERVE => exact named_eq fun _ _ => by simp only [tsAction, ho]
    | SETTLE => exact named_eq fun _ _ => by simp only [tsAction, ho]
    | PAY => exact named_eq fun _ _ => by simp only [tsAction, ho]
    | TRANSFER_NAME =>
      refine named_eq fun hlo _ => ?_
      simp only [tsAction, ho, copyFrom_val (show 20 ≤ b.length by omega)]
    | RELEASE =>
      dsimp only
      by_cases hlen : 6 ≤ b.length ∧ b.length ≤ bodyMax
      · rw [if_neg (not_not.mpr hlen), if_neg (not_outside_iff.mpr hlen)]
        simp [tsAction, ho, toNat_rd5 (show 5 ≤ b.length by omega), rdLE]
      · rw [if_pos hlen, if_pos (by by_contra hc; exact hlen (not_outside_iff.mp hc))]
        rfl
    | SELL_TO =>
      refine named_eq fun hlo _ => ?_
      have hdrop : 20 ≤ (b.drop 8).length := by
        rw [List.length_drop]
        omega
      simp only [tsAction, ho, toNat_rd64 (show 8 ≤ b.length by omega), copyFrom_val hdrop, rdLE,
        List.drop_zero]
    | AS =>
      by_cases hlen : b.length = 1
      · obtain ⟨x, rfl⟩ := List.length_eq_one_iff.mp hlen
        simp [tsAction, ho]
      · simp [hlen]
    | TRADE =>
      obtain ⟨hcommas, hpos⟩ := Ts.scanCommas_spec (b.drop 2)
      by_cases hlen : b.length < 5
      · simp [hlen]
      rw [if_neg hlen, if_neg hlen, hcommas]
      by_cases hcount : (b.drop 2).count 0x2C = 1
      · have hnext : (((b.drop 2).idxOf 0x2C : ℕ) + 1 : ℤ).toNat = (b.drop 2).idxOf 0x2C + 1 := by
          omega
        rw [if_neg (not_not.mpr hcount), if_neg (not_not.mpr hcount), hpos hcount, Int.toNat_natCast,
          hnext]
        cases hA : smNameValid ((b.drop 2).take ((b.drop 2).idxOf 0x2C)) <;>
          cases hB : smNameValid ((b.drop 2).drop ((b.drop 2).idxOf 0x2C + 1)) <;>
          simp [tsAction, ho]
      · rw [if_pos hcount, if_pos hcount]
        rfl

/-! ### Payloads -/

/-- `sm_decode_payload`; `none` is `IGNORE`. -/
def daemonAction (payload : Bytes) : Option SmAction :=
  match smDecodePayload payload with
  | (.ACTION, a) => some a
  | (.IGNORE, _) => none

theorem daemonAction_magic (op : Byte) (b : Bytes) :
    daemonAction (0xFF :: 0x50 :: 0x4E :: op :: b) = Fold.decodeAction b op := by
  simp only [daemonAction, smDecodePayload]
  cases Fold.decodeAction b op <;> rfl

theorem daemonAction_of_not {payload : Bytes}
    (h : ¬ ∃ op b, payload = 0xFF :: 0x50 :: 0x4E :: op :: b) : daemonAction payload = none := by
  unfold daemonAction smDecodePayload
  split
  · rename_i heq
    split at heq
    · rename_i op b
      exact absurd ⟨op, b, rfl⟩ h
    · exact absurd heq (by simp)
  · rfl

theorem prefix_iff (payload : Bytes) :
    (∃ op b, payload = 0xFF :: 0x50 :: 0x4E :: op :: b) ↔
      4 ≤ payload.length ∧ payload.getD 0 0 = 0xFF ∧ payload.getD 1 0 = 0x50 ∧
        payload.getD 2 0 = 0x4E := by
  constructor
  · rintro ⟨op, b, rfl⟩
    exact ⟨by simp, rfl, rfl, rfl⟩
  · match payload with
    | x :: y :: z :: op :: b =>
      rintro ⟨-, hx, hy, hz⟩
      have hx' : x = 0xFF := hx
      have hy' : y = 0x50 := hy
      have hz' : z = 0x4E := hz
      exact ⟨op, b, by rw [hx', hy', hz']⟩
    | [] | [_] | [_, _] | [_, _, _] =>
      intro h
      exact absurd h.1 (by simp)

theorem ofByte?_isSome (op : Byte) : (SmOp.ofByte? op).isSome ↔ 1 ≤ op.val ∧ op.val ≤ 15 := by
  revert op
  decide +kernel

theorem decodeAction_outside {op : Byte} (h : ¬ (1 ≤ op.val ∧ op.val ≤ 15)) (b : Bytes) :
    Fold.decodeAction b op = none := by
  have hnone : SmOp.ofByte? op = none := by
    rw [← ofByte?_isSome] at h
    exact Option.not_isSome_iff_eq_none.mp h
  simp only [Fold.decodeAction, hnone]

theorem Py.decodePayload_eq (payload : Bytes) :
    Py.decodePayload payload = (daemonAction payload).bind pyInfo := by
  by_cases h : ∃ op b, payload = 0xFF :: 0x50 :: 0x4E :: op :: b
  · obtain ⟨op, b, rfl⟩ := h
    rw [daemonAction_magic, Py.decodePayload, if_pos ⟨by simp, rfl⟩]
    have hop : (0xFF :: 0x50 :: 0x4E :: op :: b : Bytes).getD 3 0 = op := rfl
    simp only [hop]
    by_cases hrange : 1 ≤ op.val ∧ op.val ≤ 15
    · rw [if_neg (not_not.mpr hrange)]
      exact Py.decodeAction_eq op b
    · rw [if_pos hrange, decodeAction_outside hrange]
      rfl
  · rw [daemonAction_of_not h]
    have hnot : ¬ (4 ≤ payload.length ∧ payload.take 3 = [0xFF, 0x50, 0x4E]) := by
      rintro ⟨hlen, htake⟩
      have hsplit := List.take_append_drop 3 payload
      rw [htake] at hsplit
      match hrest : payload.drop 3 with
      | [] =>
        have hz := congrArg List.length hrest
        rw [List.length_drop, List.length_nil] at hz
        omega
      | op :: b =>
        rw [hrest] at hsplit
        exact h ⟨op, b, hsplit.symm⟩
    rw [Py.decodePayload, if_neg hnot]
    rfl

theorem Ts.decodePayload_eq (payload : Bytes) :
    Ts.decodePayload payload = (daemonAction payload).bind tsAction := by
  by_cases h : ∃ op b, payload = 0xFF :: 0x50 :: 0x4E :: op :: b
  · obtain ⟨op, b, rfl⟩ := h
    have hop : (0xFF :: 0x50 :: 0x4E :: op :: b : Bytes).getD 3 0 = op := rfl
    rw [daemonAction_magic, Ts.decodePayload, hop]
    by_cases hrange : 1 ≤ op.val ∧ op.val ≤ 15
    · rw [if_pos ⟨by simp, rfl, rfl, rfl, hrange⟩]
      exact Ts.decodeAction_eq (0xFF :: 0x50 :: 0x4E :: op :: b)
    · rw [if_neg fun hc => hrange hc.2.2.2.2, decodeAction_outside hrange]
      rfl
  · rw [daemonAction_of_not h, Ts.decodePayload, if_neg fun hc => h ((prefix_iff payload).mpr
      ⟨hc.1, hc.2.1, hc.2.2.1, hc.2.2.2.1⟩)]
    rfl

/-- Every decoded action has its dict and its value. -/
theorem views_isSome {b : Bytes} {op : Byte} {a : SmAction}
    (h : Fold.decodeAction b op = some a) : (pyInfo a).isSome ∧ (tsAction a).isSome := by
  have hop := op_of_decodeAction h
  cases ho : SmOp.ofByte? op with
  | none =>
    rw [decodeAction, ho] at h
    exact absurd h (by simp)
  | some o =>
    unfold pyInfo tsAction
    rw [hop]
    simp only [ho]
    cases o with
    | RENEW => cases modeOf a <;> exact ⟨rfl, rfl⟩
    | TRANSFER => cases a.hasAnchor <;> exact ⟨rfl, rfl⟩
    | _ => exact ⟨rfl, rfl⟩

theorem decodeAction_of_daemonAction {payload : Bytes} {a : SmAction}
    (h : daemonAction payload = some a) :
    ∃ op b, payload = 0xFF :: 0x50 :: 0x4E :: op :: b ∧ Fold.decodeAction b op = some a := by
  by_cases hpre : ∃ op b, payload = 0xFF :: 0x50 :: 0x4E :: op :: b
  · obtain ⟨op, b, rfl⟩ := hpre
    rw [daemonAction_magic] at h
    exact ⟨op, b, rfl, h⟩
  · rw [daemonAction_of_not hpre] at h
    exact absurd h (by simp)

/-- What the daemon decodes is well formed. -/
theorem smDecodePayload_cases (payload : Bytes) :
    ((smDecodePayload payload).1 ≠ .ACTION ∧ daemonAction payload = none) ∨
      ((smDecodePayload payload).1 = .ACTION ∧ WellFormed (smDecodePayload payload).2 ∧
        daemonAction payload = some (smDecodePayload payload).2) := by
  rcases hpair : smDecodePayload payload with ⟨kind, a⟩
  cases kind with
  | ACTION =>
    have haction : daemonAction payload = some a := by
      unfold daemonAction
      rw [hpair]
    obtain ⟨op, b, -, hdec⟩ := decodeAction_of_daemonAction haction
    exact Or.inr ⟨rfl, wellFormed_of_laidOut (laidOut_of_decodeAction hdec), haction⟩
  | IGNORE =>
    refine Or.inl ⟨SmCarKind.noConfusion, ?_⟩
    unfold daemonAction
    rw [hpair]

theorem pyView_isSome {payload : Bytes} {a : SmAction} (h : daemonAction payload = some a) :
    (pyInfo a).isSome := by
  obtain ⟨op, b, -, hdec⟩ := decodeAction_of_daemonAction h
  exact (views_isSome hdec).1

theorem tsView_isSome {payload : Bytes} {a : SmAction} (h : daemonAction payload = some a) :
    (tsAction a).isSome := by
  obtain ⟨op, b, -, hdec⟩ := decodeAction_of_daemonAction h
  exact (views_isSome hdec).2

/-- Of the long payloads the bitmap actions alone are actions. -/
theorem decodeAction_long {b : Bytes} {op : Byte} (hlong : 76 < b.length)
    (hmax : b.length ≤ bodyMax) :
    (Fold.decodeAction b op).isSome ↔ op ∈ ([0x05, 0x06, 0x0A] : List Byte) := by
  constructor
  · intro h
    obtain ⟨a, ha⟩ := Option.isSome_iff_exists.mp h
    have hop := op_of_decodeAction ha
    have hlaid := laidOut_of_decodeAction ha
    rw [← hop]
    cases hlaid with
    | renewAll => simp at hlong
    | renew => simp
    | transferAll => simp
    | transfer => simp
    | release => simp
    | commit c =>
      have hc := c.property
      omega
    | claim salt hn =>
      have hname := smNameValid_length hn
      have hsalt := salt.property
      rw [List.length_append] at hlong
      omega
    | sell price window hn =>
      have hname := smNameValid_length hn
      rw [List.length_append, List.length_append, length_wr64, length_wr32] at hlong
      omega
    | byName hmem hn =>
      have hname := smNameValid_length hn
      omega
    | transferName addr hn =>
      have hname := smNameValid_length hn
      have haddr := addr.property
      rw [List.length_append] at hlong
      omega
    | sellTo price addr hn =>
      have hname := smNameValid_length hn
      have haddr := addr.property
      rw [List.length_append, List.length_append, length_wr64] at hlong
      omega
    | as => simp at hlong
    | trade idxA idxB hn hnB =>
      have hname := smNameValid_length hn
      have hnameB := smNameValid_length hnB
      rw [List.length_cons, List.length_cons, List.length_append, List.length_cons] at hlong
      omega
  · intro h
    simp only [List.mem_cons, List.not_mem_nil, or_false] at h
    rcases h with rfl | rfl | rfl
    · have hop : SmOp.ofByte? 0x05 = some .RENEW := rfl
      simp only [Fold.decodeAction, hop, beq_iff_eq]
      rw [if_neg (by omega), if_neg (by omega), if_pos (by simp; omega)]
      rfl
    · have hop : SmOp.ofByte? 0x06 = some .TRANSFER := rfl
      simp only [Fold.decodeAction, hop, beq_iff_eq]
      rw [if_neg (by omega), if_pos (by simp; omega)]
      rfl
    · have hop : SmOp.ofByte? 0x0A = some .RELEASE := rfl
      simp only [Fold.decodeAction, hop]
      rw [if_neg (by simp; omega)]
      rfl

end NamespaceIndexer.Daemon
