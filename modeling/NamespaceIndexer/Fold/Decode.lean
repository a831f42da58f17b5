import NamespaceIndexer.Fold.State

/-!
# Wire payload codec (`decode.c`)
-/

namespace NamespaceIndexer.Fold

/-- The little-endian value of a byte string. -/
def leVal : Bytes → ℕ
  | [] => 0
  | b :: bs => b.val + 256 * leVal bs

def rd32 (b : Bytes) : UInt32 := UInt32.ofNat (leVal (b.take 4))
def rd64 (b : Bytes) : UInt64 := UInt64.ofNat (leVal (b.take 8))
def rd5 (b : Bytes) : UInt64 := UInt64.ofNat (leVal (b.take 5))

/-- The body of an action that is a valid name and nothing else but `a`. -/
def decodeName (a : SmAction) (name : Name) : Option SmAction :=
  if smNameValid name then some { a with name } else none

/-- `decode_action` on the bytes after the opcode; `none` is its `return 0`. -/
def decodeAction (b : Bytes) (op : Byte) : Option SmAction :=
  let a : SmAction := { op }
  match SmOp.ofByte? op with
  | some .COMMIT => if b.length ≠ 32 then none else some { a with commitment := copyFrom 32 b }
  | some .CLAIM =>
    if b.length < 33 || b.length > 64 then none
    else decodeName { a with salt := copyFrom 32 b } (b.drop 32)
  | some .RENEW =>
    if b.length == 0 then some a
    else if b.length == 5 then some { a with hasAnchor := true, anchor := rd5 b }
    else if 6 ≤ b.length && b.length ≤ bodyMax then
      some { a with hasAnchor := true, anchor := rd5 b, flags := b.drop 5 }
    else none
  | some .TRANSFER =>
    if b.length == 20 then some { a with addr := copyFrom 20 b }
    else if 26 ≤ b.length && b.length ≤ bodyMax then
      some { a with addr := copyFrom 20 b, hasAnchor := true, anchor := rd5 (b.drop 20),
                    flags := b.drop 25 }
    else none
  | some .SELL =>
    if b.length < 13 || b.length > 44 then none
    else decodeName { a with price := rd64 b, window := rd32 (b.drop 8) } (b.drop 12)
  | some .RENEW_NAME | some .RELEASE_NAME | some .RESERVE | some .SETTLE | some .PAY =>
    if b.length < 1 || b.length > 32 then none else decodeName a b
  | some .TRANSFER_NAME =>
    if b.length < 21 || b.length > 52 then none
    else decodeName { a with addr := copyFrom 20 b } (b.drop 20)
  | some .RELEASE =>
    if b.length < 6 || b.length > bodyMax then none
    else some { a with hasAnchor := true, anchor := rd5 b, flags := b.drop 5 }
  | some .SELL_TO =>
    if b.length < 29 || b.length > 60 then none
    else decodeName { a with price := rd64 b, addr := copyFrom 20 (b.drop 8) } (b.drop 28)
  | some .AS => if b.length ≠ 1 then none else some { a with asIndex := b.headD 0 }
  | some .TRADE =>
    if b.length < 5 then none
    else
      let body := b.drop 2
      let comma := body.idxOf 0x2C
      if body.count 0x2C ≠ 1 then none
      else if !smNameValid (body.take comma) then none
      else if !smNameValid (body.drop (comma + 1)) then none
      else some { a with idxA := b.getD 0 0, idxB := b.getD 1 0, name := body.take comma,
                         nameB := body.drop (comma + 1) }
  | none => none

/-- `sm_decode_payload`: the kind, and the action of an `ACTION`. -/
def smDecodePayload (payload : Bytes) : SmCarKind × SmAction :=
  match payload with
  | 0xFF :: 0x50 :: 0x4E :: op :: b =>
    match decodeAction b op with
    | some a => (.ACTION, a)
    | none => (.IGNORE, {})
  | _ => (.IGNORE, {})

end NamespaceIndexer.Fold
