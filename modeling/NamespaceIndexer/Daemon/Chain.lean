import NamespaceIndexer.Fold.Apply
import NamespaceIndexer.Fold.Decode
import NamespaceIndexer.Lib.Reader

/-!
# Block decoding (`chain.c`) and the transaction adapter (`adapter.c`)

A cursor is a reader: its error flag is failure. SHA-256 and the attribution of
an input (`idx_attribute`, signature checks) are parameters.
-/

namespace NamespaceIndexer.Daemon

open Fold Lib

/-- The cursor over a byte buffer. -/
abbrev Cur (α : Type) := Reader Byte α

variable (sha256 : Bytes → Hash256)

def curTake (n : ℕ) : Cur Bytes := Reader.take n

/-- `cur_u8`, `cur_u16`, `cur_u32`: `n` little-endian bytes. -/
def curLe (n : ℕ) : Cur ℕ := do
  let b ← curTake n
  pure (leVal b)

/-- `cur_i64`. -/
def curI64 : Cur ℤ := do
  let v ← curLe 8
  pure (i64 (UInt64.ofNat v))

/-- `cur_varint`. -/
def curVarint : Cur ℕ := do
  let b ← curLe 1
  if b < 0xFD then pure b
  else if b = 0xFD then curLe 2
  else if b = 0xFE then curLe 4
  else curLe 8

/-- Are the next two bytes the SegWit marker? -/
def curMarker : Cur Bool := fun s => some (s.take 2 == [0x00, 0x01], s)

/-- `idx_sha256d`. -/
def idxSha256d (data : Bytes) : Hash256 := sha256 (sha256 data).val

/-- `idx_script_payee`: the P2PKH and P2SH templates. -/
def idxScriptPayee (spk : Bytes) : Option (H160 × Byte) :=
  if spk.length = 25 ∧ spk.take 3 = [0x76, 0xA9, 0x14] ∧ spk.drop 23 = [0x88, 0xAC] then
    some (copyFrom 20 (spk.drop 3), 0)
  else if spk.length = 23 ∧ spk.take 2 = [0xA9, 0x14] ∧ spk.drop 22 = [0x87] then
    some (copyFrom 20 (spk.drop 2), 1)
  else none

/-- The single push after `OP_RETURN`: its length, where it starts, and the least length its
opcode may carry. -/
def pushSpan (spk : Bytes) : Option (ℕ × ℕ × ℕ) :=
  match spk.drop 1 with
  | [] => none
  | op :: rest =>
    if 0x01 ≤ op.val ∧ op.val ≤ 0x4B then some (op.val, 2, 1)
    else if op = 0x4C then
      if rest.length < 1 then none else some (leVal (rest.take 1), 3, 76)
    else if op = 0x4D then
      if rest.length < 2 then none else some (leVal (rest.take 2), 4, 256)
    else none

/-- `idx_op_return_payload`. -/
def idxOpReturnPayload (spk : Bytes) : Option Bytes :=
  if spk.head? ≠ some 0x6A then none
  else if spk.length = 1 then some []
  else
    match pushSpan spk with
    | none => none
    | some (len, off, least) =>
      if len < least then none
      else if len = 0 ∨ len > carrierMax then none
      else if off + len ≠ spk.length then none
      else some (spk.drop off)

structure IdxIn where
  prevout : Bytes
  scriptsig : Bytes

structure IdxOut where
  value : ℤ
  spk : Bytes
  vout : ℕ

structure IdxTx where
  raw : Bytes
  txid : Hash256
  ins : List IdxIn
  outs : List IdxOut

def curIn : Cur IdxIn := do
  let prevout ← curTake 36
  let slen ← curVarint
  let scriptsig ← curTake slen
  let _ ← curLe 4
  pure ⟨prevout, scriptsig⟩

def curOut : Cur (ℤ × Bytes) := do
  let value ← curI64
  let slen ← curVarint
  let spk ← curTake slen
  pure (value, spk)

/-- The fields of `parse_tx`. -/
def curTx : Cur (List IdxIn × List (ℤ × Bytes)) := do
  let _ ← curLe 4
  let segwit ← curMarker
  Reader.require (!segwit)
  let vin ← curVarint
  Reader.require (vin != 0 && vin ≤ 100000)
  let ins ← Reader.replicate curIn vin
  let vout ← curVarint
  Reader.require (vout ≤ 100000)
  let outs ← Reader.replicate curOut vout
  let _ ← curLe 4
  pure (ins, outs)

/-- `parse_tx`: the transaction and the bytes after it. -/
def parseTx (s : Bytes) : Option (IdxTx × Bytes) :=
  match curTx s with
  | none => none
  | some ((ins, outs), r) =>
    let raw := s.take (s.length - r.length)
    some (⟨raw, idxSha256d sha256 raw, ins,
      outs.zipIdx.map fun o => ⟨o.1.1, o.1.2, o.2⟩⟩, r)

/-- The vin count of `tx_skip`, after its SegWit test. -/
def skipVin : Cur (Bool × ℕ) := do
  let segwit ← curMarker
  let _ ← curTake (if segwit then 2 else 0)
  let vin ← curVarint
  Reader.require (vin != 0 && vin ≤ 100000)
  pure (segwit, vin)

def skipIn : Cur Unit := do
  let _ ← curTake 36
  let s ← curVarint
  let _ ← curTake s
  let _ ← curLe 4
  pure ()

def skipOut : Cur Unit := do
  let _ ← curTake 8
  let s ← curVarint
  let _ ← curTake s
  pure ()

def skipItem : Cur Unit := do
  let s ← curVarint
  let _ ← curTake s
  pure ()

def skipWitness : Cur Unit := do
  let items ← curVarint
  Reader.require (items ≤ 1000)
  let _ ← Reader.replicate skipItem items
  pure ()

/-- `tx_skip`. -/
def txSkip : Cur Unit := do
  let _ ← curLe 4
  let (segwit, vin) ← skipVin
  let _ ← Reader.replicate skipIn vin
  let vout ← curVarint
  Reader.require (vout ≤ 100000)
  let _ ← Reader.replicate skipOut vout
  let _ ← Reader.replicate skipWitness (if segwit then vin else 0)
  let _ ← curLe 4
  pure ()

/-- A merkle branch of at most 64 nodes, and its index. -/
def skipBranch : Cur Unit := do
  let n ← curVarint
  Reader.require (n ≤ 64)
  let _ ← curTake (n * 32)
  let _ ← curLe 4
  pure ()

/-- `auxpow_skip`. -/
def auxpowSkip : Cur Unit := do
  txSkip
  let _ ← curTake 32
  skipBranch
  skipBranch
  let _ ← curTake 80
  pure ()

/-- One level of `merkle_root`: the parents, and whether a supplied pair was equal. -/
def merkleLevel : List Hash256 → List Hash256 × Bool
  | [] => ([], false)
  | [a] => ([idxSha256d sha256 (a.val ++ a.val)], false)
  | a :: b :: rest =>
    let (up, mutated) := merkleLevel rest
    (idxSha256d sha256 (a.val ++ b.val) :: up, a == b || mutated)

/-- `merkle_root`, with the mutation flag; `fuel` bounds the levels. -/
def merkleRoot : ℕ → List Hash256 → Option Hash256 × Bool
  | _, [] => (none, false)
  | _, [a] => (some a, false)
  | 0, _ => (none, false)
  | fuel + 1, ids =>
    let (up, mutated) := merkleLevel sha256 ids
    let (root, mutated') := merkleRoot fuel up
    (root, mutated || mutated')

structure IdxBlockMeta where
  version : ℕ
  time : ℕ
  bits : ℕ
  nonce : ℕ
  prev : Bytes
  merkle : Bytes
  blockHash : Hash256
  blockBytes : ℤ
  coinbaseOutTotal : ℤ
  nTx : ℕ
  merkleOk : Bool

/-- The little-endian 32-bit field at `off`. -/
def le32At (b : Bytes) (off : ℕ) : ℕ := leVal ((b.drop off).take 4)

/-- The transaction loop: what was parsed before the end or the first failure, and the bytes after
the last one. -/
def parseTxs : ℕ → Bytes → List IdxTx × Option Bytes
  | 0, s => ([], some s)
  | n + 1, s =>
    match parseTx sha256 s with
    | none => ([], none)
    | some (tx, r) =>
      let (txs, e) := parseTxs n r
      (tx :: txs, e)

/-- The transaction count, after the header and the AuxPoW if there is one. -/
def curCount (version : ℕ) : Cur ℕ := do
  if version / 0x100 % 2 = 1 then auxpowSkip
  curVarint

/-- `idx_parse_block`: the transactions handed to the callback, and the metadata on success. -/
def idxParseBlock (raw : Bytes) : List IdxTx × Option IdxBlockMeta :=
  if raw.length < 80 then ([], none)
  else
    let hdr := raw.take 80
    let version := le32At hdr 0
    match curCount version (raw.drop 80) with
    | none => ([], none)
    | some (ntx, r) =>
      if ntx > 1000000 || ntx > raw.length / 60 + 1 then ([], none)
      else
        match parseTxs sha256 ntx r with
        | (txs, none) => (txs, none)
        | (txs, some _) =>
          let (root, mutated) := merkleRoot sha256 txs.length (txs.map IdxTx.txid)
          let merkle := (hdr.drop 36).take 32
          (txs, some
            { version
              time := le32At hdr 68
              bits := le32At hdr 72
              nonce := le32At hdr 76
              prev := (hdr.drop 4).take 32
              merkle
              blockHash := idxSha256d sha256 hdr
              blockBytes := (txs.map fun tx => (tx.raw.length : ℤ)).sum
              coinbaseOutTotal := ((txs.head?.map IdxTx.outs).getD [] |>.map IdxOut.value).sum
              nTx := ntx
              merkleOk := !mutated && root.map Subtype.val == some merkle })

/-! ### The adapter -/

variable (idxAttribute : Bytes → ℕ → Option (H160 × Byte))

/-- The name-action carrier in an output, if there is one. -/
def outCarrier (o : IdxOut) : Option SmCarrier :=
  match idxOpReturnPayload o.spk with
  | none => none
  | some payload =>
    match smDecodePayload payload with
    | (.ACTION, act) => some ⟨.ACTION, act, UInt64.ofInt o.value, o.vout⟩
    | (.IGNORE, _) => none

/-- The spendable output, if it is one. -/
def outPayee (o : IdxOut) : Option SmOut :=
  match idxOpReturnPayload o.spk with
  | some _ => none
  | none => (idxScriptPayee o.spk).map fun p => ⟨p.1, p.2, UInt64.ofInt o.value, o.vout⟩

/-- The carrier names input `k`, which is then attributed. -/
def names (a : SmAction) (k : ℕ) : Bool :=
  match SmOp.ofByte? a.op with
  | some .AS => a.asIndex.val == k
  | some .TRADE => a.idxA.val == k || a.idxB.val == k
  | _ => false

/-- The input slot `k`: attributed if it is `vin[0]` or named, else zero. -/
def inputSlot (tx : IdxTx) (carriers : List SmCarrier) (k : ℕ) : SmInput :=
  if k ≠ 0 ∧ !carriers.any (fun car => names car.act k) then ⟨zeros 20, 0, false⟩
  else
    match idxAttribute tx.raw k with
    | some (identity, type) => ⟨identity, type, true⟩
    | none => ⟨zeros 20, 0, false⟩

/-- `idx_adapt_tx` up to its call of `sm_apply_tx`; `none` when no output carries an action. -/
def idxAdaptTx (tx : IdxTx) (txindex : UInt32) : Option SmTx :=
  let carriers := tx.outs.filterMap outCarrier
  if carriers.isEmpty then none
  else some
    { txindex
      inputs := (List.range tx.ins.length).map (inputSlot idxAttribute tx carriers)
      carriers
      outs := tx.outs.filterMap outPayee }

/-- The adapted transactions of a parsed list. -/
def adaptTxs (txs : List IdxTx) : List SmTx :=
  txs.zipIdx.filterMap fun t => idxAdaptTx idxAttribute t.1 (UInt32.ofNat t.2)

end NamespaceIndexer.Daemon
