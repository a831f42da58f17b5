import NamespaceIndexer.Daemon.Attrib

/-!
# Context-free transaction validation (`txcheck.c`)
-/

namespace NamespaceIndexer.Daemon

open Fold Lib

def txMinSize : ℕ := 61
def txMaxSize : ℕ := 100000
def txMaxScriptsig : ℕ := 1650
def txDustLimit : ℤ := 1000000
def txRelayCarrierMax : ℕ := 80
def txMaxMoney : ℤ := 10000000000 * 100000000

/-- The length of a push and what follows its length field; opcodes up to `OP_16` that carry no
data push nothing. -/
def pushField (op : Byte) (rest : Bytes) : Option (ℕ × Bytes) :=
  if op.val < 0x4C then some (op.val, rest)
  else if op = 0x4C then
    if rest.length < 1 then none else some (leVal (rest.take 1), rest.drop 1)
  else if op = 0x4D then
    if rest.length < 2 then none else some (leVal (rest.take 2), rest.drop 2)
  else if op = 0x4E then
    if rest.length < 4 then none else some (leVal (rest.take 4), rest.drop 4)
  else some (0, rest)

/-- `script_push_only`; every opcode takes one byte of the `fuel` at least. -/
def scriptPushOnly : ℕ → Bytes → Bool
  | _, [] => true
  | 0, _ => false
  | fuel + 1, op :: rest =>
    if op.val > 0x60 then false
    else
      match pushField op rest with
      | none => false
      | some (len, rest) =>
        if len > rest.length then false else scriptPushOnly fuel (rest.drop len)

/-- A null prevout. -/
def nullPrevout (prevout : Bytes) : Bool :=
  prevout.take 32 == (zeros 32).val && leVal ((prevout.drop 32).take 4) == 0xFFFFFFFF

/-- Does a later input spend the outpoint of an earlier one? -/
def duplicateInput (ins : List IdxIn) : Bool := !decide ((ins.map IdxIn.prevout).Nodup)

def checkIn (i : IdxIn) : Except String Unit :=
  if i.scriptsig.length > txMaxScriptsig then .error "scriptSig too large"
  else if !scriptPushOnly i.scriptsig.length i.scriptsig then .error "scriptSig not push-only"
  else .ok ()

/-- One output: the running total with it. -/
def checkOut (total : ℤ) (o : IdxOut) : Except String ℤ :=
  if o.value < 0 ∨ o.value > txMaxMoney then .error "output value out of range"
  else if total + o.value < 0 ∨ total + o.value > txMaxMoney then
    .error "output total out of range"
  else if (idxScriptPayee o.spk).isSome then
    if o.value < txDustLimit then .error "dust output" else .ok (total + o.value)
  else
    match idxOpReturnPayload o.spk with
    | some d =>
      if d.length > txRelayCarrierMax then .error "carrier past relay datacarriersize"
      else .ok (total + o.value)
    | none => .error "nonstandard scriptPubKey"

variable (sha256 : Bytes → Hash256)

/-- `txcheck_stateless`: the reason for a refusal, or the parsed transaction. -/
def txcheckStateless (raw : Bytes) : Except String IdxTx :=
  if raw.length < txMinSize then .error "tx too small"
  else if raw.length > txMaxSize then .error "tx exceeds 100KB"
  else
    match idxTxParse sha256 raw with
    | none => .error "malformed/segwit tx"
    | some tx =>
      if tx.ins.length < 1 then .error "no inputs"
      else if tx.outs.length < 1 then .error "no outputs"
      else if tx.ins.length = 1 ∧ tx.ins.any (fun i => nullPrevout i.prevout) then
        .error "coinbase tx"
      else if duplicateInput tx.ins then .error "duplicate input"
      else do
        tx.ins.forM checkIn
        let _ ← tx.outs.foldlM checkOut 0
        pure tx

variable {sha256}

/-- What an accepted transaction is known to be. -/
theorem txcheckStateless_ok {raw : Bytes} {tx : IdxTx} (h : txcheckStateless sha256 raw = .ok tx) :
    idxTxParse sha256 raw = some tx ∧ raw.length ≤ txMaxSize ∧
      (tx.ins.map IdxIn.prevout).Nodup := by
  unfold txcheckStateless at h
  split at h
  · cases h
  split at h
  · cases h
  cases hp : idxTxParse sha256 raw with
  | none =>
    rw [hp] at h
    cases h
  | some tx' =>
    simp only [hp] at h
    split at h
    · cases h
    split at h
    · cases h
    split at h
    · cases h
    split at h
    · cases h
    · rename_i hsize _ _ _ hdup
      have hnodup : (tx'.ins.map IdxIn.prevout).Nodup := by
        simpa [duplicateInput] using hdup
      have htx : tx' = tx := by
        cases hin : tx'.ins.forM checkIn with
        | error e =>
          rw [hin] at h
          cases h
        | ok u =>
          cases hout : tx'.outs.foldlM checkOut 0 with
          | error e =>
            rw [hin, hout] at h
            cases h
          | ok total =>
            rw [hin, hout] at h
            cases h
            rfl
      subst htx
      exact ⟨rfl, not_lt.mp hsize, hnodup⟩

end NamespaceIndexer.Daemon
