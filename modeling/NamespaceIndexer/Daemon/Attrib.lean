import NamespaceIndexer.Daemon.Chain
import NamespaceIndexer.Fold.Encode
import NamespaceIndexer.Lib.Cursor

/-!
# Transaction parsing for attribution (`attrib.c`)

`tx_parse` walks the transaction by an `int` position. A sum that leaves `int`, or a read outside
the buffer, is a fault. `ScriptLen` and `stride` describe the format it walks.
-/

namespace NamespaceIndexer.Daemon

open Fold Lib Lib.Cursor

variable (sha256 : Bytes → Hash256) (raw : Bytes) (n : ℤ)

def aMaxIn : ℕ := 256
def aMaxOut : ℕ := 512
def uint64Max : ℕ := 2 ^ 64 - 1

/-- The cast `(int)`. -/
@[irreducible] def toInt (v : ℕ) : ℤ := (v : ℤ).bmod (2 ^ 32)

/-- Outside the range of `int`. -/
def Overflows (v : ℤ) : Prop := v < -2147483648 ∨ 2147483648 ≤ v

instance (v : ℤ) : Decidable (Overflows v) := inferInstanceAs (Decidable (_ ∨ _))

structure AIn where
  outpoint : Bytes
  ss : ℤ
  sslen : ℤ
  seq : ℕ

structure AOut where
  value : UInt64
  spk : ℤ
  spklen : ℤ

structure ATx where
  version : ℕ
  ins : List AIn
  outs : List AOut
  locktime : ℕ

/-- Is `pos + k` at most `n`? -/
def aFits (k : ℤ) : Lib.Cursor Bool := fun pos =>
  if Overflows (pos + k) then .error .fault else .ok (decide (pos + k ≤ n), pos)

/-- The `k` bytes at the position, which moves past them. -/
def aBytes (k : ℕ) : Lib.Cursor Bytes := fun pos =>
  if 0 ≤ pos ∧ pos + k ≤ raw.length then .ok ((raw.drop pos.toNat).take k, pos + k)
  else .error .fault

/-- `k` bytes, if they are there. -/
def aTake (k : ℕ) : Lib.Cursor Bytes := do
  let fits ← aFits n k
  if fits then aBytes raw k else refuse

/-- The little-endian tail of a count. -/
def rdLe (k : ℕ) : Lib.Cursor ℕ := do
  let fits ← aFits n k
  if fits then
    let b ← aBytes raw k
    pure (leVal b)
  else pure uint64Max

def aMore : Lib.Cursor Bool := fun pos => .ok (decide (pos < n), pos)

/-- `rd_varint`. -/
def rdVarint : Lib.Cursor ℕ := do
  let more ← aMore n
  if more then
    let b ← aBytes raw 1
    if leVal b < 0xFD then pure (leVal b)
    else if leVal b = 0xFD then rdLe raw n 2
    else if leVal b = 0xFE then rdLe raw n 4
    else rdLe raw n 8
  else pure uint64Max

/-- Move the position by `d`, which may be negative; where it stood. -/
def aMove (d : ℤ) : Lib.Cursor ℤ := fun pos => .ok (pos, pos + d)

/-- A script: where it starts, and its length. -/
def aScript : Lib.Cursor (ℤ × ℤ) := do
  let sl ← rdVarint raw n
  if sl = uint64Max then refuse
  else
    let fits ← aFits n (toInt sl)
    if fits then
      let at_ ← aMove (toInt sl)
      pure (at_, toInt sl)
    else refuse

def aIn : Lib.Cursor AIn := do
  let outpoint ← aTake raw n 36
  let ss ← aScript raw n
  let seq ← aTake raw n 4
  pure ⟨outpoint, ss.1, ss.2, leVal seq⟩

def aOut : Lib.Cursor AOut := do
  let v ← aTake raw n 8
  let spk ← aScript raw n
  pure ⟨UInt64.ofNat (leVal v), spk.1, spk.2⟩

def aEnd : Lib.Cursor Bool := fun pos => .ok (decide (pos = n), pos)

/-- The fields of `tx_parse` after the version. -/
def aFields : Lib.Cursor (List AIn × List AOut × ℕ) := do
  let nin ← rdVarint raw n
  if nin = 0 ∨ aMaxIn < nin then refuse
  else
    let ins ← Cursor.replicate (aIn raw n) nin
    let nout ← rdVarint raw n
    if aMaxOut < nout then refuse
    else
      let outs ← Cursor.replicate (aOut raw n) nout
      let locktime ← aTake raw n 4
      let whole ← aEnd n
      if whole then pure (ins, outs, leVal locktime) else refuse

/-- `tx_parse`. -/
def txParse : Except Stop ATx :=
  if n < 10 then .error .refuse
  else if (raw.drop 4).take 2 == [0x00, 0x01] then .error .refuse
  else
    match aFields raw n 4 with
    | .error e => .error e
    | .ok ((ins, outs, locktime), _) => .ok ⟨leVal (raw.take 4), ins, outs, locktime⟩

/-- `idx_tx_parse`. -/
def idxTxParse : Option IdxTx :=
  match parseTx sha256 raw with
  | some (tx, []) => some tx
  | _ => none

/-! ### When both see the same -/

/-- Both hold the same outpoint and scriptSig. -/
def AIn.Sees (a : AIn) (i : IdxIn) : Prop :=
  a.outpoint = i.prevout ∧ a.sslen = i.scriptsig.length ∧
    (raw.drop a.ss.toNat).take a.sslen.toNat = i.scriptsig

/-- Both hold the same value and script. -/
def AOut.Sees (a : AOut) (o : ℤ × Bytes) : Prop :=
  i64 a.value = o.1 ∧ a.spklen = o.2.length ∧
    (raw.drop a.spk.toNat).take a.spklen.toNat = o.2

/-- Value and script. -/
def IdxOut.paid (o : IdxOut) : ℤ × Bytes := (o.value, o.spk)

/-- Both accept and see the same, or both refuse. -/
def SeeAlike : Except Stop ATx → Option IdxTx → Prop
  | .ok t, some tx =>
    List.Forall₂ (AIn.Sees raw) t.ins tx.ins ∧
      List.Forall₂ (AOut.Sees raw) t.outs (tx.outs.map IdxOut.paid)
  | .error .refuse, none => True
  | _, _ => False

/-- The two parsers agree on `raw`: `idx_attribute` hands its length over as an `int`. -/
def Agree : Prop := SeeAlike raw (txParse raw (toInt raw.length)) (idxTxParse sha256 raw)

/-! ### The lengths a parse meets -/

/-- Version and input count, within the cap of `tx_parse`. -/
def curHead : Cur ℕ := do
  let _ ← curLe 4
  let segwit ← curMarker
  Reader.require (!segwit)
  let vin ← curVarint
  Reader.require (vin != 0 && vin ≤ aMaxIn)
  pure vin

/-- The length field of the `j`-th scriptSig. -/
def scriptSigLen (j : ℕ) : Cur ℕ := do
  let vin ← curHead
  Reader.require (j < vin)
  let _ ← Reader.replicate curIn j
  let _ ← curTake 36
  curVarint

/-- The length field of the `j`-th output script. -/
def spkLen (j : ℕ) : Cur ℕ := do
  let vin ← curHead
  let _ ← Reader.replicate curIn vin
  let vout ← curVarint
  Reader.require (vout ≤ aMaxOut && j < vout)
  let _ ← Reader.replicate curOut j
  let _ ← curTake 8
  curVarint

/-- Some script length met runs past the range of `int`, or the bytes themselves nearly do. -/
def Wide : Prop :=
  2147483648 ≤ raw.length + 36 ∨
    ∃ j sl s, (scriptSigLen j raw = some (sl, s) ∨ spkLen j raw = some (sl, s)) ∧
      2147483648 ≤ place raw s + sl

/-! ### The format with signed lengths -/

/-- A field of the format. -/
inductive Field where
  | fixed (k : ℕ)
  | script

def inFields : List Field := [.fixed 36, .script, .fixed 4]
def outFields : List Field := [.fixed 8, .script]

/-- Where a field ends, its length a signed `int`. -/
def stride : Field → ℤ → Except Stop ℤ
  | .fixed k, p =>
    if Overflows (p + k) then .error .fault
    else if n < p + k then .error .refuse
    else if p < 0 then .error .fault
    else .ok (p + k)
  | .script, p =>
    match rdVarint raw n p with
    | .error e => .error e
    | .ok (sl, o) =>
      if sl = uint64Max then .error .refuse
      else if Overflows (o + toInt sl) then .error .fault
      else if n < o + toInt sl then .error .refuse
      else .ok (o + toInt sl)

def strides : List Field → ℤ → Except Stop ℤ
  | [], p => .ok p
  | f :: fs, p => do
    let q ← stride raw n f p
    strides fs q

/-- `count` items, of at least `lo` and at most `hi`. -/
def strideItems (lo hi : ℕ) (fields : List Field) (p : ℤ) : Except Stop ℤ := do
  let (count, o) ← rdVarint raw n p
  if count < lo ∨ hi < count then .error .refuse
  else strides raw n (List.replicate count fields).flatten o

/-- Where the format ends, its lengths signed. -/
def signedEnd : Except Stop ℤ := do
  let p ← strideItems raw n 1 aMaxIn inFields 4
  let q ← strideItems raw n 0 aMaxOut outFields p
  stride raw n (.fixed 4) q

/-- The format does not fit the first `n` bytes. -/
def Misfits : Prop :=
  n < 10 ∨ (raw.drop 4).take 2 = [0x00, 0x01] ∨ signedEnd raw n = .error .refuse ∨
    ∃ p, signedEnd raw n = .ok p ∧ p ≠ n

/-! ### `tx_parse` walks the signed format -/

/-- Where a walk ends. -/
def ends {α : Type} (r : Except Stop (α × ℤ)) : Except Stop ℤ := r.map Prod.snd

section Ends

variable {raw n} {α β : Type}

theorem ends_bind {w : Lib.Cursor α} {f : α → Lib.Cursor β} {p : ℤ} {g : ℤ → Except Stop ℤ}
    (h : ∀ a q, w p = .ok (a, q) → ends (f a q) = g q) :
    ends ((w >>= f) p) = ends (w p) >>= g := by
  cases hw : w p with
  | error e =>
    rw [bind_error hw]
    rfl
  | ok x =>
    rw [bind_ok hw]
    exact h x.1 x.2 hw

theorem ends_aBytes {k : ℕ} {p : ℤ} (hn : n ≤ raw.length) (h : p + k ≤ n) :
    ends (aBytes raw k p) = if p < 0 then .error .fault else .ok (p + k) := by
  unfold aBytes
  by_cases hp : p < 0
  · rw [if_pos hp, if_neg (by omega)]
    rfl
  · rw [if_neg hp, if_pos (by omega)]
    rfl

theorem ends_aTake {k : ℕ} {p : ℤ} (hn : n ≤ raw.length) :
    ends (aTake raw n k p) = stride raw n (.fixed k) p := by
  unfold aTake
  simp only [stride]
  by_cases ho : Overflows (p + k)
  · have hfits : aFits n k p = .error .fault := if_pos ho
    rw [bind_error hfits, if_pos ho]
    rfl
  · have hfits : aFits n k p = .ok (decide (p + k ≤ n), p) := if_neg ho
    rw [bind_ok hfits, if_neg ho]
    by_cases hk : p + k ≤ n
    · rw [if_pos (decide_eq_true hk), if_neg (by omega)]
      exact ends_aBytes hn hk
    · rw [if_neg (by simp [hk]), if_pos (by omega)]
      rfl

theorem ends_aScript {p : ℤ} : ends (aScript raw n p) = stride raw n .script p := by
  unfold aScript
  simp only [stride]
  cases hv : rdVarint raw n p with
  | error e =>
    rw [bind_error hv]
    rfl
  | ok x =>
    obtain ⟨sl, o⟩ := x
    rw [bind_ok hv]
    show ends ((if sl = uint64Max then refuse else _ : Lib.Cursor _) o) = _
    by_cases hsl : sl = uint64Max
    · rw [if_pos hsl]
      exact (if_pos hsl).symm
    · rw [if_neg hsl]
      simp only [if_neg hsl]
      by_cases ho : Overflows (o + toInt sl)
      · have hfits : aFits n (toInt sl) o = .error .fault := if_pos ho
        rw [bind_error hfits, if_pos ho]
        rfl
      · have hfits : aFits n (toInt sl) o = .ok (decide (o + toInt sl ≤ n), o) := if_neg ho
        rw [bind_ok hfits, if_neg ho]
        by_cases hk : o + toInt sl ≤ n
        · rw [if_pos (decide_eq_true hk), if_neg (by omega)]
          rfl
        · rw [if_neg (by simp [hk]), if_pos (by omega)]
          rfl

theorem ends_aIn {p : ℤ} (hn : n ≤ raw.length) :
    ends (aIn raw n p) = strides raw n inFields p := by
  unfold aIn
  rw [ends_bind (g := strides raw n [.script, .fixed 4]), ends_aTake hn]
  · rfl
  · intro a q _
    rw [ends_bind (g := strides raw n [.fixed 4]), ends_aScript]
    · rfl
    · intro b r _
      rw [ends_bind (g := strides raw n []), ends_aTake hn]
      · rfl
      · intro c t _
        rfl

theorem ends_aOut {p : ℤ} (hn : n ≤ raw.length) :
    ends (aOut raw n p) = strides raw n outFields p := by
  unfold aOut
  rw [ends_bind (g := strides raw n [.script]), ends_aTake hn]
  · rfl
  · intro a q _
    rw [ends_bind (g := strides raw n []), ends_aScript]
    · rfl
    · intro b r _
      rfl

theorem strides_append (fs gs : List Field) (p : ℤ) :
    strides raw n (fs ++ gs) p = strides raw n fs p >>= strides raw n gs := by
  induction fs generalizing p with
  | nil => rfl
  | cons f fs ih =>
    show stride raw n f p >>= strides raw n (fs ++ gs) = _
    show _ = (stride raw n f p >>= strides raw n fs) >>= strides raw n gs
    rw [bind_assoc]
    congr
    funext q
    exact ih q

theorem ends_replicate {w : Lib.Cursor α} {fs : List Field}
    (h : ∀ p, ends (w p) = strides raw n fs p) (k : ℕ) (p : ℤ) :
    ends (Cursor.replicate w k p) = strides raw n (List.replicate k fs).flatten p := by
  induction k generalizing p with
  | zero => rfl
  | succ k ih =>
    rw [List.replicate_succ, List.flatten_cons, strides_append, ← h]
    apply ends_bind
    intro a q _
    rw [← ih q]
    have hpure : ends (Cursor.replicate w k q) = ends (Cursor.replicate w k q) >>= pure :=
      (bind_pure _).symm
    rw [hpure]
    apply ends_bind
    intro as t _
    rfl

/-- The last check: the walk covers the bytes. -/
def whole (n p : ℤ) : Except Stop ℤ := if p = n then .ok p else .error .refuse

theorem ends_outs {p : ℤ} (hn : n ≤ raw.length) {f : ℕ → Lib.Cursor α} {g : ℤ → Except Stop ℤ}
    {h : List AOut → Lib.Cursor α} (hf : ∀ nout, f nout = if aMaxOut < nout then refuse
      else Cursor.replicate (aOut raw n) nout >>= h)
    (hg : ∀ as q, ends (h as q) = g q) :
    ends ((rdVarint raw n >>= f) p) = strideItems raw n 0 aMaxOut outFields p >>= g := by
  unfold strideItems
  cases hv : rdVarint raw n p with
  | error e =>
    rw [bind_error hv]
    rfl
  | ok x =>
    obtain ⟨nout, o⟩ := x
    rw [bind_ok hv, hf]
    show _ = (if nout < 0 ∨ aMaxOut < nout then Except.error Stop.refuse else _) >>= g
    by_cases hc : aMaxOut < nout
    · rw [if_pos hc, if_pos (Or.inr hc)]
      rfl
    · rw [if_neg hc, if_neg (by omega), ← ends_replicate (fun p => ends_aOut hn)]
      exact ends_bind fun as q _ => hg as q

theorem ends_aFields (hn : n ≤ raw.length) :
    ends (aFields raw n 4) = signedEnd raw n >>= whole n := by
  have hlast : ∀ (ins : List AIn) (outs : List AOut) (q : ℤ),
      ends ((do
        let locktime ← aTake raw n 4
        let all ← aEnd n
        if all then pure (ins, outs, leVal locktime) else refuse : Lib.Cursor _) q) =
        stride raw n (.fixed 4) q >>= whole n := by
    intro ins outs q
    rw [ends_bind (g := whole n), ends_aTake hn]
    intro lock t _
    rw [bind_ok (q := t) (a := decide (t = n)) rfl]
    unfold whole
    by_cases ht : t = n
    · rw [if_pos (decide_eq_true ht), if_pos ht]
      rfl
    · rw [if_neg (by simp [ht]), if_neg ht]
      rfl
  unfold aFields signedEnd
  rw [bind_assoc]
  unfold strideItems
  cases hv : rdVarint raw n 4 with
  | error e =>
    rw [bind_error hv]
    rfl
  | ok x =>
    obtain ⟨nin, o⟩ := x
    rw [bind_ok hv]
    show _ = (if nin < 1 ∨ aMaxIn < nin then Except.error Stop.refuse else _) >>= _
    by_cases hc : nin = 0 ∨ aMaxIn < nin
    · rw [if_pos hc, if_pos (by omega)]
      rfl
    · rw [if_neg hc, if_neg (by omega), ← ends_replicate (fun p => ends_aIn hn)]
      apply ends_bind
      intro ins q _
      rw [bind_assoc]
      exact ends_outs hn (fun nout => rfl) (hlast ins)

/-- `tx_parse` refuses the strings the signed format does not fit, and no others. -/
theorem txParse_refuse (hn : n ≤ raw.length) :
    txParse raw n = .error .refuse ↔ Misfits raw n := by
  unfold txParse Misfits
  by_cases h10 : n < 10
  · rw [if_pos h10]
    exact ⟨fun _ => Or.inl h10, fun _ => rfl⟩
  rw [if_neg h10]
  by_cases hw : (raw.drop 4).take 2 = [0x00, 0x01]
  · rw [if_pos (by simpa using hw)]
    exact ⟨fun _ => Or.inr (Or.inl hw), fun _ => rfl⟩
  rw [if_neg (by simpa using hw)]
  have hends : ends (aFields raw n 4) = signedEnd raw n >>= whole n := ends_aFields hn
  have hleft : ∀ r : Except Stop ((List AIn × List AOut × ℕ) × ℤ),
      (match r with
        | .error e => .error e
        | .ok ((ins, outs, locktime), _) => .ok (⟨leVal (raw.take 4), ins, outs, locktime⟩ : ATx))
          = (.error .refuse : Except Stop ATx) ↔ ends r = .error .refuse := by
    intro r
    cases r with
    | error e =>
      show Except.error e = Except.error Stop.refuse ↔ Except.error e = Except.error Stop.refuse
      rw [Except.error.injEq, Except.error.injEq]
    | ok x =>
      constructor
      · intro h
        cases h
      · intro h
        cases h
  rw [hleft, hends]
  cases hs : signedEnd raw n with
  | error e =>
    show Except.error e = Except.error Stop.refuse ↔ _
    simp only [h10, hw, false_or, Except.error.injEq, reduceCtorEq, false_and, exists_const,
      or_false]
  | ok p =>
    show whole n p = Except.error Stop.refuse ↔ _
    unfold whole
    by_cases hp : p = n
    · simp [h10, hw, hp]
    · simp [h10, hw, hp]

end Ends

end NamespaceIndexer.Daemon
