import NamespaceIndexer.Daemon.Scripts
import NamespaceIndexer.Fold.Digest

/-!
# The signature hash (`legacy_sighash`, `legacySighash`)

Both sides serialize the transaction with the signing script in one input and no script in the
others, and hash the bytes twice.
-/

namespace NamespaceIndexer.Daemon

open Fold Lib

/-- An input of `ATx`. -/
structure SigIn where
  outpoint : Fixed 36
  ss : Bytes
  seq : UInt32
deriving DecidableEq

/-- An output of `ATx`. -/
structure SigOut where
  value : UInt64
  spk : Bytes
deriving DecidableEq

/-- `ATx`, its scripts as bytes. -/
structure SigTx where
  version : UInt32
  ins : List SigIn
  outs : List SigOut
  locktime : UInt32
deriving DecidableEq

/-! ### The daemon -/

def putU32le (v : UInt32) : Bytes := leBytes 4 v.toNat
def putU64le (v : UInt64) : Bytes := leBytes 8 v.toNat

/-- `put_varint` of `attrib.c`. -/
def putVarint64 (v : UInt64) : Bytes :=
  if v < 0xFD then [Fin.ofNat 256 v.toNat]
  else if v ≤ 0xFFFF then [0xFD, Fin.ofNat 256 v.toNat, Fin.ofNat 256 (v.toNat / 256)]
  else if v ≤ 0xFFFFFFFF then 0xFE :: putU32le v.toUInt32
  else 0xFF :: putU64le v

/-- The script of input `i` while input `k` is signed. -/
def putScript (scriptCode : Bytes) (signed : Bool) : Bytes :=
  if signed then putVarint64 (.ofNat scriptCode.length) ++ scriptCode else putVarint64 0

def putIn (k : ℕ) (scriptCode : Bytes) (i : SigIn × ℕ) : Bytes :=
  i.1.outpoint.val ++ putScript scriptCode (i.2 = k) ++ putU32le i.1.seq

def putOut (o : SigOut) : Bytes :=
  putU64le o.value ++ putVarint64 (.ofNat o.spk.length) ++ o.spk

/-- The buffer of `legacy_sighash`. -/
def sighashBytes (t : SigTx) (k : ℕ) (scriptCode : Bytes) : Bytes :=
  putU32le t.version ++ putVarint64 (.ofNat t.ins.length) ++
    (t.ins.zipIdx.map (putIn k scriptCode)).flatten ++ putVarint64 (.ofNat t.outs.length) ++
    (t.outs.map putOut).flatten ++ putU32le t.locktime ++ putU32le 0x00000001

/-- `sha256d`. -/
def sha256d (sha256 : Bytes → Hash256) (b : Bytes) : Hash256 := sha256 (sha256 b).val

/-- `legacy_sighash`. -/
def legacySighash (sha256 : Bytes → Hash256) (t : SigTx) (k : ℕ) (scriptCode : Bytes) : Hash256 :=
  sha256d sha256 (sighashBytes t k scriptCode)

/-! ### The Go port -/

/-- `rawTx`: the fields of the inputs in lists of their own. -/
structure Go.RawTx where
  version : UInt32
  vin : List Bytes
  vout : List (UInt64 × Bytes)
  locktime : UInt32
  prevTxid : List (Fixed 32)
  prevVout : List UInt32
  seq : List UInt32

/-- The transaction as `parseTx` stores it. -/
def Go.RawTx.of (t : SigTx) : Go.RawTx where
  version := t.version
  vin := t.ins.map (·.ss)
  vout := t.outs.map fun o => (o.value, o.spk)
  locktime := t.locktime
  prevTxid := t.ins.map fun i => copyFrom 32 i.outpoint.val
  prevVout := t.ins.map fun i => rd32 (i.outpoint.val.drop 32)
  seq := t.ins.map (·.seq)

/-- `appendU32` to an empty slice. -/
def Go.appendU32 (v : UInt32) : Bytes :=
  [Fin.ofNat 256 v.toNat, Fin.ofNat 256 (v >>> 8).toNat, Fin.ofNat 256 (v >>> 16).toNat,
    Fin.ofNat 256 (v >>> 24).toNat]

/-- `appendU64` to an empty slice. -/
def Go.appendU64 (v : UInt64) : Bytes :=
  (List.range 8).map fun i => Fin.ofNat 256 (v >>> UInt64.ofNat (8 * i)).toNat

/-- `appendVarint` to an empty slice. -/
def Go.appendVarint (v : UInt64) : Bytes :=
  if v < 0xFD then [Fin.ofNat 256 v.toNat]
  else if v ≤ 0xFFFF then [0xFD, Fin.ofNat 256 v.toNat, Fin.ofNat 256 (v >>> 8).toNat]
  else if v ≤ 0xFFFFFFFF then
    [0xFE, Fin.ofNat 256 v.toNat, Fin.ofNat 256 (v >>> 8).toNat, Fin.ofNat 256 (v >>> 16).toNat,
      Fin.ofNat 256 (v >>> 24).toNat]
  else [0xFF] ++ Go.appendU64 v

/-- The buffer of `legacySighash`. -/
def Go.sighashBytes (t : Go.RawTx) (k : ℕ) (scriptCode : Bytes) : Bytes :=
  Go.appendU32 t.version ++ Go.appendVarint (.ofNat t.vin.length) ++
    ((List.range t.vin.length).map fun i =>
      (t.prevTxid.getD i (zeros 32)).val ++ Go.appendU32 (t.prevVout.getD i 0) ++
        (if i = k then Go.appendVarint (.ofNat scriptCode.length) ++ scriptCode
          else Go.appendVarint 0) ++
        Go.appendU32 (t.seq.getD i 0)).flatten ++
    Go.appendVarint (.ofNat t.vout.length) ++
    (t.vout.map fun o =>
      Go.appendU64 o.1 ++ Go.appendVarint (.ofNat o.2.length) ++ o.2).flatten ++
    Go.appendU32 t.locktime ++ [0x01, 0x00, 0x00, 0x00]

/-- `legacySighash`. -/
def Go.legacySighash (sha256 : Bytes → Hash256) (t : Go.RawTx) (k : ℕ) (scriptCode : Bytes) :
    Hash256 :=
  sha256 (sha256 (Go.sighashBytes t k scriptCode)).val

/-! ### The same bytes -/

theorem appendU32_eq (v : UInt32) : Go.appendU32 v = putU32le v := by
  simp [Go.appendU32, putU32le, leBytes, Nat.shiftRight_eq_div_pow, Nat.div_div_eq_div_mul]

theorem appendU64_eq (v : UInt64) : Go.appendU64 v = putU64le v := by
  simp [Go.appendU64, putU64le, leBytes, List.range_succ, Nat.shiftRight_eq_div_pow,
    Nat.div_div_eq_div_mul]

theorem appendVarint_eq (v : UInt64) : Go.appendVarint v = putVarint64 v := by
  unfold Go.appendVarint putVarint64
  by_cases h1 : v < 0xFD
  · rw [if_pos h1, if_pos h1]
  rw [if_neg h1, if_neg h1]
  by_cases h2 : v ≤ 0xFFFF
  · rw [if_pos h2, if_pos h2]
    simp [Nat.shiftRight_eq_div_pow]
  rw [if_neg h2, if_neg h2]
  by_cases h4 : v ≤ 0xFFFFFFFF
  · have hval : v.toNat % 4294967296 = v.toNat := by
      rw [UInt64.le_iff_toNat_le] at h4
      exact Nat.mod_eq_of_lt (Nat.lt_succ_of_le h4)
    rw [if_pos h4, if_pos h4]
    simp [putU32le, leBytes, Nat.shiftRight_eq_div_pow, Nat.div_div_eq_div_mul, hval]
  · rw [if_neg h4, if_neg h4, appendU64_eq]
    rfl

/-- The outpoint comes back from the two fields Go keeps it in. -/
theorem outpoint_split (o : Fixed 36) :
    (copyFrom 32 o.val).val ++ putU32le (rd32 (o.val.drop 32)) = o.val := by
  have hlen : (o.val.drop 32).length = 4 := by
    rw [List.length_drop, o.property]
  have htake : (o.val.drop 32).take 4 = o.val.drop 32 := List.take_of_length_le (by omega)
  have hback := leBytes_leVal (o.val.drop 32)
  rw [hlen] at hback
  unfold putU32le
  rw [toNat_rd32 (by omega), htake, hback, copyFrom_val (by rw [o.property]; omega),
    List.take_append_drop]

theorem goSighashBytes_eq (t : SigTx) (k : ℕ) (sc : Bytes) :
    Go.sighashBytes (Go.RawTx.of t) k sc = sighashBytes t k sc := by
  have hins : (List.range t.ins.length).map (fun i =>
      ((t.ins.map fun i => copyFrom 32 i.outpoint.val).getD i (zeros 32)).val ++
        putU32le ((t.ins.map fun i => rd32 (i.outpoint.val.drop 32)).getD i 0) ++
        (if i = k then putVarint64 (.ofNat sc.length) ++ sc else putVarint64 0) ++
        putU32le ((t.ins.map (·.seq)).getD i 0)) = t.ins.zipIdx.map (putIn k sc) := by
    apply List.ext_getElem
    · simp
    · intro i h1 h2
      have hi : i < t.ins.length := by simpa using h1
      rw [List.getElem_map, List.getElem_map, List.getElem_range, List.getElem_zipIdx,
        List.getD_eq_getElem _ _ (by simpa using hi), List.getD_eq_getElem _ _ (by simpa using hi),
        List.getD_eq_getElem _ _ (by simpa using hi), List.getElem_map, List.getElem_map,
        List.getElem_map, outpoint_split]
      simp [putIn, putScript]
  unfold Go.sighashBytes sighashBytes
  simp only [Go.RawTx.of, appendU32_eq, appendVarint_eq, appendU64_eq, List.length_map, hins,
    List.map_map]
  rfl

theorem legacySighash_eq (sha256 : Bytes → Hash256) (t : SigTx) (k : ℕ) (sc : Bytes) :
    Go.legacySighash sha256 (Go.RawTx.of t) k sc = legacySighash sha256 t k sc := by
  unfold Go.legacySighash
  rw [goSighashBytes_eq]
  rfl

/-! ### Where the signing script stands -/

/-- The inputs that are not signed do not depend on the signing script. -/
theorem putIns_other {ins : List SigIn} {j k : ℕ} (h : k < j) (sc sc' : Bytes) :
    (ins.zipIdx j).map (putIn k sc) = (ins.zipIdx j).map (putIn k sc') := by
  apply List.map_congr_left
  intro i hi
  have hne : ¬ i.2 = k := by
    have hle := List.le_snd_of_mem_zipIdx hi
    omega
  simp [putIn, putScript, hne]

theorem putIns_split (ins : List SigIn) {j k : ℕ} (h : j ≤ k ∧ k < j + ins.length) :
    ∃ before behind, ∀ sc, ((ins.zipIdx j).map (putIn k sc)).flatten
      = before ++ putScript sc true ++ behind := by
  induction ins generalizing j with
  | nil =>
    rw [List.length_nil] at h
    omega
  | cons i ins ih =>
    rw [List.length_cons] at h
    by_cases hk : j = k
    · refine ⟨i.outpoint.val,
        putU32le i.seq ++ ((ins.zipIdx (j + 1)).map (putIn k [])).flatten, fun sc => ?_⟩
      rw [List.zipIdx_cons, List.map_cons, List.flatten_cons, putIns_other (by omega) sc []]
      simp [putIn, hk]
    · obtain ⟨before, behind, hsplit⟩ := ih (j := j + 1) (by omega)
      refine ⟨putIn k [] (i, j) ++ before, behind, fun sc => ?_⟩
      have hfirst : putIn k sc (i, j) = putIn k [] (i, j) := by simp [putIn, putScript, hk]
      rw [List.zipIdx_cons, List.map_cons, List.flatten_cons, hsplit, hfirst]
      simp only [List.append_assoc]

theorem sighashBytes_split {t : SigTx} {k : ℕ} (h : k < t.ins.length) :
    ∃ before behind, ∀ sc, sighashBytes t k sc = before ++ putScript sc true ++ behind := by
  obtain ⟨before, behind, hsplit⟩ := putIns_split t.ins (j := 0) (k := k) (by omega)
  refine ⟨putU32le t.version ++ putVarint64 (.ofNat t.ins.length) ++ before,
    behind ++ putVarint64 (.ofNat t.outs.length) ++ (t.outs.map putOut).flatten ++
      putU32le t.locktime ++ putU32le 0x00000001, fun sc => ?_⟩
  unfold sighashBytes
  rw [hsplit]
  simp only [List.append_assoc]

/-- Signing scripts of different lengths below 253 are hashed from different bytes. -/
theorem sighashBytes_ne {t : SigTx} {k : ℕ} (h : k < t.ins.length) {sc sc' : Bytes}
    (hlen : sc.length < 0xFD) (hlen' : sc'.length < 0xFD) (hne : sc.length ≠ sc'.length) :
    sighashBytes t k sc ≠ sighashBytes t k sc' := by
  obtain ⟨before, behind, hsplit⟩ := sighashBytes_split h
  have hscript : ∀ {sc : Bytes}, sc.length < 0xFD →
      (putScript sc true).length = sc.length + 1 := by
    intro sc hsc
    have hsmall : UInt64.ofNat sc.length < 0xFD := by
      rw [UInt64.lt_iff_toNat_lt, UInt64.toNat_ofNat']
      exact lt_of_le_of_lt (Nat.mod_le _ _) hsc
    simp only [putScript, if_true, putVarint64, if_pos hsmall, List.length_append,
      List.length_singleton]
    omega
  intro heq
  rw [hsplit, hsplit] at heq
  have hlens := congrArg List.length heq
  simp only [List.length_append, hscript hlen, hscript hlen'] at hlens
  omega

end NamespaceIndexer.Daemon
