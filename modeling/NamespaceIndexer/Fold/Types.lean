import Mathlib.Tactic
import Mathlib.Data.List.Lex

/-!
# Data types of the fold (`sm.h`)

Actions, transactions, rows and the fold state, field by field. Fixed-width
unsigned fields that the code adds, subtracts or casts are `UInt32`/`UInt64`;
signed 64-bit times and heights are `ℤ`. A C string `char name[33]` with its
`name_len` is the list of its bytes. A `uint8_t x[n]` is a byte list of length
`n`.
-/

namespace NamespaceIndexer.Fold

abbrev Byte := Fin 256
abbrev Bytes := List Byte

instance neZero_byte : NeZero 256 := ⟨by decide⟩

/-- `uint8_t x[n]`. -/
abbrev Fixed (n : ℕ) := {b : Bytes // b.length = n}

/-- The all-zero array (`memset(x, 0, n)`). -/
def zeros (n : ℕ) : Fixed n := ⟨List.replicate n 0, List.length_replicate⟩

/-- `memcpy(x, b, n)` into a zeroed array. -/
def copyFrom (n : ℕ) (b : Bytes) : Fixed n :=
  ⟨(b ++ List.replicate n 0).take n, by simp⟩

abbrev H160 := Fixed 20
abbrev Hash256 := Fixed 32
abbrev Name := Bytes

/-- The cast `(int64_t)x`. -/
def i64 (x : UInt64) : ℤ := x.toInt64.toInt

theorem i64_eq_toNat {x : UInt64} (h : x.toNat < 2 ^ 63) : i64 x = x.toNat := by
  unfold i64
  exact BitVec.toInt_eq_toNat_of_lt (by change 2 * x.toNat < _; omega)

/-! ### Protocol constants -/

def koinuPerDoge : ℕ := 100000000
def dustFloor : UInt64 := 1
def leaseQuantum : ℕ := 2419200
def billingUnit : ℕ := 86400
def maxLease : ℤ := 31536000
def commitExpiry : ℤ := 18000
def reserveWindow : ℤ := 18000
def directWindow : ℤ := 7200
def reorgBuffer : ℤ := 7200
def reserveBurnBps : ℕ := 50
def reservePayBps : ℕ := 50
def maxAnchorAge : ℤ := 1024
def sellPriceFloor : UInt64 := 3 * dustFloor
def nameMax : ℕ := 32
def carrierMax : ℕ := 9996
def bodyMax : ℕ := carrierMax - 4

/-! ### Opcodes -/

/-- The opcode registry, `0x01 … 0x0F`. -/
inductive SmOp where
  | RENEW_NAME | TRANSFER_NAME | COMMIT | CLAIM | RENEW | TRANSFER | SELL | RESERVE | SETTLE
  | RELEASE | RELEASE_NAME | SELL_TO | PAY | AS | TRADE
  deriving DecidableEq, Repr

/-- The opcode a wire byte selects; `none` is the `default:` branch of a `switch`. -/
def SmOp.ofByte? : Byte → Option SmOp
  | 0x01 => some .RENEW_NAME
  | 0x02 => some .TRANSFER_NAME
  | 0x03 => some .COMMIT
  | 0x04 => some .CLAIM
  | 0x05 => some .RENEW
  | 0x06 => some .TRANSFER
  | 0x07 => some .SELL
  | 0x08 => some .RESERVE
  | 0x09 => some .SETTLE
  | 0x0A => some .RELEASE
  | 0x0B => some .RELEASE_NAME
  | 0x0C => some .SELL_TO
  | 0x0D => some .PAY
  | 0x0E => some .AS
  | 0x0F => some .TRADE
  | _ => none

/-! ### The abstract transaction -/

/-- One decoded action; which fields matter depends on `op`, the rest are zero. -/
structure SmAction where
  op : Byte := 0
  name : Name := []
  nameB : Name := []
  commitment : Hash256 := zeros 32
  salt : Fixed 32 := zeros 32
  addr : H160 := zeros 20
  price : UInt64 := 0
  window : UInt32 := 0
  hasAnchor : Bool := false
  anchor : UInt64 := 0
  flags : Bytes := []
  asIndex : Byte := 0
  idxA : Byte := 0
  idxB : Byte := 0
  deriving DecidableEq

inductive SmCarKind where
  | ACTION | IGNORE
  deriving DecidableEq, Repr

/-- One `OP_RETURN` output, in vout order. -/
structure SmCarrier where
  kind : SmCarKind
  act : SmAction
  value : UInt64
  vout : ℕ
  deriving DecidableEq

/-- One spendable output, in vout order. -/
structure SmOut where
  h160 : H160
  type : Byte
  value : UInt64
  vout : ℕ
  deriving DecidableEq

/-- One input: its identity (`inputs[i]`) with its flag (`in_sighash_all[i]`). -/
structure SmInput where
  h160 : H160
  type : Byte
  sighashAll : Bool
  deriving DecidableEq

structure SmTx where
  txindex : UInt32
  inputs : List SmInput
  carriers : List SmCarrier
  outs : List SmOut
  deriving DecidableEq

/-! ### Fold state -/

inductive SmNameState where
  | OWNED | LISTED | OFFERED | RESERVED
  deriving DecidableEq, Repr

/-- A row of the name table; the market fields are used by the three sale states. -/
structure SmNameRow where
  name : Name
  owner : H160 := zeros 20
  ownerType : Byte := 0
  leaseExpiry : ℤ := 0
  st : SmNameState := .OWNED
  seller : H160 := zeros 20
  sellerType : Byte := 0
  price : UInt64 := 0
  offerExpiry : ℤ := 0
  buyer : H160 := zeros 20
  burnLeg : UInt64 := 0
  payLeg : UInt64 := 0
  reserveExpiry : ℤ := 0
  deriving DecidableEq

instance : Inhabited SmNameRow := ⟨{ name := [] }⟩

structure SmCommit where
  commitment : Hash256
  commitHeight : ℤ
  txIndex : UInt32
  commitTime : ℤ
  deriving DecidableEq

structure SmMut where
  owner : H160
  height : ℤ
  deriving DecidableEq

/-- A name minted in the current block, with the priority that won it. -/
structure SmClaimWin where
  name : Name
  commitHeight : ℤ
  commitTxIndex : UInt32
  owner : H160
  deriving DecidableEq

/-- Coverage event counters; no handler reads one. -/
inductive SmEv where
  | CLAIM_MINT | CLAIM_DISPLACE | WATERFILL_CAP | WATERFILL_FORFEIT | RESERVE_WIN | RESERVE_CLAMP
  | SETTLE_OK | PAY_OK | TRADE_OK | LAPSE | RELEASE_NAME | AS_DROP | SELL_OK | SELLTO_OK
  deriving DecidableEq

structure SmState where
  activationHeight : UInt64
  curHeight : ℤ := 0
  curMtp : ℤ := 0
  curRate : UInt64 := 0
  names : List SmNameRow := []
  commits : List SmCommit := []
  muts : List SmMut := []
  claimsc : List SmClaimWin := []
  ev : SmEv → ℕ := fun _ => 0

/-- Per-transaction working context: the acting identity, the current carrier, and which
outputs are consumed. -/
structure SmTxCtx where
  height : ℤ
  mtp : ℤ
  rate : UInt64
  txindex : UInt32
  actor : H160 := zeros 20
  actorType : Byte := 0
  actorValid : Bool := false
  carValue : UInt64 := 0
  carVout : ℕ := 0
  outConsumed : List Bool

end NamespaceIndexer.Fold
