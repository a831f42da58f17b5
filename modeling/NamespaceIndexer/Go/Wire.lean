import NamespaceIndexer.Go.State
import NamespaceIndexer.Daemon.Ports

/-!
# The Go port: wire decoder (`wire.go`)

The decoder of payloads, and that it reads every payload as the daemon's does.
-/

namespace NamespaceIndexer.Go

open Fold Daemon

/-! ### The decoder -/

/-- A decoded action; the fields its opcode does not use keep their defaults. -/
structure Carrier where
  opcode : Byte
  commit : Hash256 := zeros 32
  salt : Fixed 32 := zeros 32
  name : Name := []
  price : UInt64 := 0
  window : UInt32 := 0
  target : H160 := zeros 20
  buyer : H160 := zeros 20
  anchor : ℤ := -1
  flags : Option Bytes := none
  hasAnchor : Bool := false
  asIndex : ℤ := -1
  idxA : ℤ := -1
  idxB : ℤ := -1
  nameA : Name := []
  nameB : Name := []
  deriving DecidableEq

/-- The charset of `validName`. -/
def nameByte (c : Byte) : Bool := (97 ≤ c && c ≤ 122) || (48 ≤ c && c ≤ 57) || c == 45

/-- `validName`. -/
def validName : Bytes → Bool := portName nameByte

def leU32 (b : Bytes) : UInt32 := UInt32.ofNat (leVal (b.take 4))
def leU64 (b : Bytes) : UInt64 := UInt64.ofNat (leVal (b.take 8))
def leU40 (b : Bytes) : ℤ := leVal (b.take 5)

/-- The loop over the commas of a TRADE: where the last one is, and how many there are. -/
def scanCommas (rest : Bytes) : ℤ × ℕ :=
  rest.zipIdx.foldl (fun s x => if x.1 = 0x2C then ((x.2 : ℤ), s.2 + 1) else s) (-1, 0)

/-- `decodeAction`; `none` is `IGNORE`. -/
def decodeAction (payload : Bytes) : Option Carrier :=
  let opcode := payload.getD 3 0
  let body := payload.drop 4
  let bl := body.length
  let c : Carrier := { opcode }
  if opcode < 0x01 ∨ opcode > 0x0F then none
  else
    match SmOp.ofByte? opcode with
    | some .COMMIT => if bl ≠ 32 then none else some { c with commit := copyFrom 32 body }
    | some .CLAIM =>
      if bl < 33 ∨ bl > 64 then none
      else
        let nm := body.drop 32
        if !validName nm then none else some { c with salt := copyFrom 32 body, name := nm }
    | some .RENEW =>
      if bl = 0 then some c
      else if bl = 5 then some { c with hasAnchor := true, anchor := leU40 body }
      else if bl ≥ 6 ∧ bl ≤ bodyMax then
        some { c with hasAnchor := true, anchor := leU40 body, flags := some (body.drop 5) }
      else none
    | some .TRANSFER =>
      if bl = 20 then some { c with target := copyFrom 20 body }
      else if bl ≥ 26 ∧ bl ≤ bodyMax then
        some { c with target := copyFrom 20 body, hasAnchor := true,
                      anchor := leU40 (body.drop 20), flags := some (body.drop 25) }
      else none
    | some .SELL =>
      if bl < 13 ∨ bl > 44 then none
      else
        let nm := body.drop 12
        if !validName nm then none
        else some { c with price := leU64 body, window := leU32 (body.drop 8), name := nm }
    | some .RENEW_NAME | some .RELEASE_NAME | some .RESERVE | some .SETTLE | some .PAY =>
      if bl < 1 ∨ bl > 32 then none
      else if !validName body then none else some { c with name := body }
    | some .TRANSFER_NAME =>
      if bl < 21 ∨ bl > 52 then none
      else
        let nm := body.drop 20
        if !validName nm then none else some { c with target := copyFrom 20 body, name := nm }
    | some .RELEASE =>
      if bl < 6 ∨ bl > bodyMax then none
      else some { c with hasAnchor := true, anchor := leU40 body, flags := some (body.drop 5) }
    | some .SELL_TO =>
      if bl < 29 ∨ bl > 60 then none
      else
        let nm := body.drop 28
        if !validName nm then none
        else some { c with price := leU64 body, buyer := copyFrom 20 (body.drop 8), name := nm }
    | some .AS => if bl ≠ 1 then none else some { c with asIndex := (body.getD 0 0).val }
    | some .TRADE =>
      if bl < 5 then none
      else
        let rest := body.drop 2
        let commas := scanCommas rest
        if commas.2 ≠ 1 then none
        else
          let nameA := rest.take commas.1.toNat
          let nameB := rest.drop (commas.1 + 1).toNat
          if !validName nameA || !validName nameB then none
          else some { c with idxA := (body.getD 0 0).val, idxB := (body.getD 1 0).val, nameA, nameB }
    | none => none

/-- `decode`; `none` is `IGNORE`. -/
def decode (payload : Bytes) : Option Carrier :=
  if 4 ≤ payload.length ∧ payload.getD 0 0 = 0xFF ∧ payload.getD 1 0 = 0x50 ∧
      payload.getD 2 0 = 0x4E then
    decodeAction payload
  else none

/-! ### The same action -/

/-- The fields that the Go decoder sets for opcode `op`, from the daemon's action. -/
def carrierOf (op : SmOp) (a : SmAction) : Carrier :=
  let c : Carrier := { opcode := a.op }
  match op with
  | .COMMIT => { c with commit := a.commitment }
  | .CLAIM => { c with salt := a.salt, name := a.name }
  | .RENEW | .TRANSFER | .RELEASE =>
    { c with target := a.addr, hasAnchor := a.hasAnchor,
             anchor := if a.hasAnchor then (a.anchor.toNat : ℤ) else -1,
             flags := if a.flags = [] then none else some a.flags }
  | .SELL => { c with price := a.price, window := a.window, name := a.name }
  | .RENEW_NAME | .RELEASE_NAME | .RESERVE | .SETTLE | .PAY => { c with name := a.name }
  | .TRANSFER_NAME => { c with target := a.addr, name := a.name }
  | .SELL_TO => { c with price := a.price, buyer := a.addr, name := a.name }
  | .AS => { c with asIndex := a.asIndex.val }
  | .TRADE => { c with idxA := a.idxA.val, idxB := a.idxB.val, nameA := a.name, nameB := a.nameB }

/-- The daemon's action as the Go value. -/
def goCarrier (a : SmAction) : Option Carrier := (SmOp.ofByte? a.op).map fun op => carrierOf op a

theorem validName_eq (b : Bytes) : validName b = smNameValid b := portName_eq (fun _ => rfl) b

/-- The loop counts the commas and, if there is one, stands on it. -/
theorem scanCommas_eq (rest : Bytes) :
    scanCommas rest = ((Ts.scanCommas rest).2, (Ts.scanCommas rest).1) := by
  have hgo : ∀ (l : List (Byte × ℕ)) (n : ℕ) (i : ℤ),
      l.foldl (fun s x => if x.1 = (0x2C : Byte) then ((x.2 : ℤ), s.2 + 1) else s) (i, n)
        = ((l.foldl (fun s x => if x.1 = (0x2C : Byte) then (s.1 + 1, (x.2 : ℤ)) else s) (n, i)).2,
          (l.foldl (fun s x => if x.1 = (0x2C : Byte) then (s.1 + 1, (x.2 : ℤ)) else s) (n, i)).1) := by
    intro l
    induction l with
    | nil => exact fun n i => rfl
    | cons x l ih =>
      intro n i
      simp only [List.foldl_cons]
      split
      · exact ih (n + 1) x.2
      · exact ih n i
  exact hgo rest.zipIdx 0 (-1)

theorem goCarrier_of {a : SmAction} {op : SmOp} (h : SmOp.ofByte? a.op = some op) :
    goCarrier a = some (carrierOf op a) := by
  rw [goCarrier, h, Option.map_some]

/-- The Go decoder of bodies is the daemon's. -/
theorem decodeAction_eq (payload : Bytes) :
    decodeAction payload
      = (Fold.decodeAction (payload.drop 4) (payload.getD 3 0)).bind goCarrier := by
  unfold decodeAction
  generalize payload.getD 3 0 = op
  generalize payload.drop 4 = b
  dsimp only
  by_cases hrange : op < 0x01 ∨ op > 0x0F
  · rw [if_pos hrange, decodeAction_outside, Option.bind_none]
    rintro ⟨hlo, hhi⟩
    rcases hrange with h | h
    · have h' : op.val < 1 := h
      omega
    · have h' : 15 < op.val := h
      omega
  rw [if_neg hrange]
  cases ho : SmOp.ofByte? op with
  | none => simp only [Fold.decodeAction, ho, Option.bind_none]
  | some o =>
    simp only [Fold.decodeAction, ho, validName_eq, gt_iff_lt, not_window_iff]
    cases o with
    | COMMIT =>
      by_cases hlen : b.length = 32
      · simp [hlen, goCarrier, carrierOf, ho]
      · simp [hlen]
    | CLAIM => exact named_eq fun hlo _ => by simp only [goCarrier, carrierOf, ho, Option.map_some]
    | RENEW =>
      by_cases h0 : b.length = 0
      · simp [h0, goCarrier, carrierOf, ho]
      by_cases h5 : b.length = 5
      · simp [h5, goCarrier, carrierOf, ho, toNat_rd5 h5.ge, leU40]
      by_cases h6 : 6 ≤ b.length ∧ b.length ≤ bodyMax
      · have hflags : b.drop 5 ≠ [] := List.ne_nil_of_length_pos (by rw [List.length_drop]; omega)
        simp [h0, h5, h6, goCarrier, carrierOf, ho, hflags, leU40,
          toNat_rd5 (show 5 ≤ b.length by omega)]
      · simp [h0, h5, h6]
    | TRANSFER =>
      by_cases h20 : b.length = 20
      · simp [h20, goCarrier, carrierOf, ho]
      by_cases h26 : 26 ≤ b.length ∧ b.length ≤ bodyMax
      · have hflags : b.drop 25 ≠ [] :=
          List.ne_nil_of_length_pos (by rw [List.length_drop]; omega)
        have hdrop : 5 ≤ (b.drop 20).length := by
          rw [List.length_drop]
          omega
        simp [h20, h26, goCarrier, carrierOf, ho, hflags, toNat_rd5 hdrop, leU40]
      · simp [h20, h26]
    | SELL =>
      refine named_eq fun _ _ => ?_
      simp only [goCarrier, carrierOf, ho, Option.map_some, leU64, leU32, rd64, rd32]
    | RENEW_NAME => exact named_eq fun _ _ => by simp only [goCarrier, carrierOf, ho, Option.map_some]
    | RELEASE_NAME => exact named_eq fun _ _ => by simp only [goCarrier, carrierOf, ho, Option.map_some]
    | RESERVE => exact named_eq fun _ _ => by simp only [goCarrier, carrierOf, ho, Option.map_some]
    | SETTLE => exact named_eq fun _ _ => by simp only [goCarrier, carrierOf, ho, Option.map_some]
    | PAY => exact named_eq fun _ _ => by simp only [goCarrier, carrierOf, ho, Option.map_some]
    | TRANSFER_NAME => exact named_eq fun _ _ => by simp only [goCarrier, carrierOf, ho, Option.map_some]
    | RELEASE =>
      dsimp only
      by_cases hlen : 6 ≤ b.length ∧ b.length ≤ bodyMax
      · have hflags : b.drop 5 ≠ [] := List.ne_nil_of_length_pos (by rw [List.length_drop]; omega)
        rw [if_neg (not_not.mpr hlen), if_neg (not_outside_iff.mpr hlen)]
        simp [goCarrier, carrierOf, ho, hflags, leU40, toNat_rd5 (show 5 ≤ b.length by omega)]
      · rw [if_pos hlen, if_pos (by by_contra hc; exact hlen (not_outside_iff.mp hc))]
        rfl
    | SELL_TO =>
      refine named_eq fun _ _ => ?_
      simp only [goCarrier, carrierOf, ho, Option.map_some, leU64, rd64]
    | AS =>
      by_cases hlen : b.length = 1
      · obtain ⟨x, rfl⟩ := List.length_eq_one_iff.mp hlen
        simp [goCarrier, carrierOf, ho]
      · simp [hlen]
    | TRADE =>
      obtain ⟨hcommas, hpos⟩ := Ts.scanCommas_spec (b.drop 2)
      by_cases hlen : b.length < 5
      · simp [hlen]
      rw [if_neg hlen, if_neg hlen, scanCommas_eq]
      dsimp only
      rw [hcommas]
      by_cases hcount : (b.drop 2).count 0x2C = 1
      · have hnext : (((b.drop 2).idxOf 0x2C : ℕ) + 1 : ℤ).toNat = (b.drop 2).idxOf 0x2C + 1 := by
          omega
        rw [if_neg (not_not.mpr hcount), if_neg (not_not.mpr hcount), hpos hcount, Int.toNat_natCast,
          hnext]
        cases hA : smNameValid ((b.drop 2).take ((b.drop 2).idxOf 0x2C)) <;>
          cases hB : smNameValid ((b.drop 2).drop ((b.drop 2).idxOf 0x2C + 1)) <;>
          simp [goCarrier, carrierOf, ho]
      · rw [if_pos hcount, if_pos hcount]
        rfl

/-- The Go decoder reads every payload as the daemon's does. -/
theorem decode_eq (payload : Bytes) : decode payload = (daemonAction payload).bind goCarrier := by
  by_cases h : ∃ op b, payload = 0xFF :: 0x50 :: 0x4E :: op :: b
  · obtain ⟨op, b, rfl⟩ := h
    rw [daemonAction_magic, decode, if_pos ⟨by simp, rfl, rfl, rfl⟩]
    exact decodeAction_eq (0xFF :: 0x50 :: 0x4E :: op :: b)
  · rw [daemonAction_of_not h, decode, if_neg fun hc => h ((prefix_iff payload).mpr hc)]
    rfl

end NamespaceIndexer.Go
