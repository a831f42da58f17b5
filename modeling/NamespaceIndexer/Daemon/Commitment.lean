import NamespaceIndexer.Daemon.Parsers
import NamespaceIndexer.Daemon.Sighash
import NamespaceIndexer.Daemon.TxFormat
import NamespaceIndexer.Ledger.Records

/-!
# What the signature hash commits to (`attrib.c`)

The parts of the bytes that `legacy_sighash` hashes mark their own ends, so that the bytes give them
back. The scripts are blank in all inputs but one: where the signing script stands is the input.
-/

namespace NamespaceIndexer.Daemon

open Fold Lib

/-! ### The transaction that is hashed -/

/-- The `len` bytes at `pos`; `put` of a negative length is a fault. -/
def rawSlice (raw : Bytes) (pos len : ℤ) : Except Stop Bytes :=
  if 0 ≤ pos ∧ 0 ≤ len ∧ pos + len ≤ raw.length then .ok ((raw.drop pos.toNat).take len.toNat)
  else .error .fault

def AIn.sigIn (raw : Bytes) (i : AIn) : SigIn where
  outpoint := copyFrom 36 i.outpoint
  ss := (raw.drop i.ss.toNat).take i.sslen.toNat
  seq := .ofNat i.seq

def AOut.sigOut (raw : Bytes) (o : AOut) : Except Stop SigOut := do
  let spk ← rawSlice raw o.spk o.spklen
  pure ⟨o.value, spk⟩

def sigOuts (raw : Bytes) : List AOut → Except Stop (List SigOut)
  | [] => .ok []
  | o :: os => do
    let out ← o.sigOut raw
    let outs ← sigOuts raw os
    pure (out :: outs)

/-- What `legacy_sighash` reads of a parsed transaction. -/
def ATx.sigTx (raw : Bytes) (t : ATx) : Except Stop SigTx := do
  let outs ← sigOuts raw t.outs
  pure ⟨.ofNat t.version, t.ins.map (AIn.sigIn raw), outs, .ofNat t.locktime⟩

/-- `tx_parse`, with the scripts it points to. -/
def parseSigTx (raw : Bytes) (n : ℤ) : Except Stop SigTx := do
  let t ← txParse raw n
  t.sigTx raw

/-- Its counts and lengths are `int`s. -/
structure SigTx.Fits (t : SigTx) : Prop where
  ins : t.ins.length < 2147483648
  outs : t.outs.length < 2147483648
  spk : ∀ o ∈ t.outs, o.spk.length < 2147483648

/-! ### Parts that mark their ends -/

theorem countBytes_putVarint64 (v : UInt64) : CountBytes v.toNat (putVarint64 v) := by
  have hv := v.toNat_lt
  unfold putVarint64
  by_cases h1 : v < 0xFD
  · rw [if_pos h1]
    have hlt : v.toNat < 253 := UInt64.lt_iff_toNat_lt.mp h1
    refine Or.inl ⟨rfl, ?_, hlt⟩
    rw [leVal_one]
    exact Nat.mod_eq_of_lt (by omega)
  rw [if_neg h1]
  right
  by_cases h2 : v ≤ 0xFFFF
  · rw [if_pos h2]
    have hle : v.toNat ≤ 65535 := UInt64.le_iff_toNat_le.mp h2
    exact ⟨leBytes 2 v.toNat, (leVal_leBytes 2 _).trans (Nat.mod_eq_of_lt (by omega)),
      Or.inl ⟨rfl, rfl⟩⟩
  rw [if_neg h2]
  by_cases h4 : v ≤ 0xFFFFFFFF
  · rw [if_pos h4]
    have hle : v.toNat ≤ 4294967295 := UInt64.le_iff_toNat_le.mp h4
    refine ⟨putU32le v.toUInt32, ?_, Or.inr (Or.inl ⟨rfl, rfl⟩)⟩
    rw [putU32le, leVal_leBytes, UInt64.toNat_toUInt32]
    omega
  · rw [if_neg h4]
    exact ⟨putU64le v, (leVal_leBytes 8 _).trans (Nat.mod_eq_of_lt (by omega)),
      Or.inr (Or.inr ⟨rfl, rfl⟩)⟩

section Parts

variable {α : Type} {P : α → Prop}

theorem delimited_varint (p : α → UInt64) : Delimited P (fun a => putVarint64 (p a)) p := by
  intro a b x y _ _ h
  have hread : ∀ (v : UInt64) (z : Bytes), curVarint (putVarint64 v ++ z) = some (v.toNat, z) :=
    fun v z => (reads_curVarint _ _ z).mpr ⟨_, countBytes_putVarint64 v, rfl⟩
  have heq := hread (p a) x
  rw [h, hread] at heq
  obtain ⟨hv, hxy⟩ := Prod.mk.inj (Option.some.inj heq)
  exact ⟨UInt64.toNat_inj.mp hv.symm, hxy.symm⟩

theorem delimited_u32le (p : α → UInt32) : Delimited P (fun a => putU32le (p a)) p :=
  Delimited.of_length 4 (fun _ _ => length_leBytes ..) fun a b _ _ h =>
    UInt32.toNat_inj.mp (leBytes_inj (p a).toNat_lt (p b).toNat_lt h)

theorem delimited_u64le (p : α → UInt64) : Delimited P (fun a => putU64le (p a)) p :=
  delimited_bu64 p

/-- A length, and as many bytes. -/
theorem delimited_counted (p : α → Bytes) (hp : ∀ a, P a → (p a).length < 2147483648) :
    Delimited P (fun a => putVarint64 (.ofNat (p a).length) ++ p a) p := by
  apply (delimited_varint fun a => UInt64.ofNat (p a).length).append_of
  intro a b x y ha hb hlen h
  have ha := hp a ha
  have hb := hp b hb
  have hlens := congrArg UInt64.toNat hlen
  rw [UInt64.toNat_ofNat', UInt64.toNat_ofNat', Nat.mod_eq_of_lt (by omega),
    Nat.mod_eq_of_lt (by omega)] at hlens
  exact List.append_inj h hlens

end Parts

theorem putOut_delimited : Delimited (fun o : SigOut => o.spk.length < 2147483648) putOut id := by
  have hparts := (delimited_u64le SigOut.value).append (delimited_counted SigOut.spk fun _ h => h)
  intro a b x y ha hb h
  simp only [putOut, List.append_assoc] at h
  obtain ⟨hfields, hrest⟩ := hparts a b x y ha hb (by simpa only [List.append_assoc] using h)
  obtain ⟨hvalue, hspk⟩ := Prod.mk.inj hfields
  cases a
  cases b
  dsimp only at hvalue hspk
  rw [id, id, hvalue, hspk]
  exact ⟨rfl, hrest⟩

/-- An input with the script that stands in it. -/
def putSigned (i : SigIn × Bytes) : Bytes :=
  i.1.outpoint.val ++ (putVarint64 (.ofNat i.2.length) ++ i.2) ++ putU32le i.1.seq

theorem putSigned_delimited :
    Delimited (fun i : SigIn × Bytes => i.2.length < 2147483648) putSigned
      fun i => ((i.1.outpoint, i.2), i.1.seq) :=
  ((delimited_fixed fun i : SigIn × Bytes => i.1.outpoint).append
    (delimited_counted (fun i : SigIn × Bytes => i.2) fun _ h => h)).append
    (delimited_u32le fun i : SigIn × Bytes => i.1.seq)

/-- The script of each input while input `k` is signed. -/
def signedIns (ins : List SigIn) (k : ℕ) (sc : Bytes) : List (SigIn × Bytes) :=
  ins.zipIdx.map fun i => (i.1, if i.2 = k then sc else [])

theorem putIns_signed (ins : List SigIn) (k : ℕ) (sc : Bytes) :
    ins.zipIdx.map (putIn k sc) = (signedIns ins k sc).map putSigned := by
  rw [signedIns, List.map_map]
  apply List.map_congr_left
  intro i _
  by_cases hk : i.2 = k
  · simp [putIn, putScript, putSigned, hk]
  · simp [putIn, putScript, putSigned, hk]

theorem signedIns_fits {ins : List SigIn} {k : ℕ} {sc : Bytes} (h : sc.length < 2147483648) :
    ∀ i ∈ signedIns ins k sc, i.2.length < 2147483648 := by
  intro i hi
  obtain ⟨j, -, rfl⟩ := List.mem_map.mp hi
  dsimp only
  split
  · exact h
  · exact Nat.two_pow_pos 31

/-- The one script that is not blank tells which input is signed, and with what. -/
theorem signedIns_inj {ins ins' : List SigIn} {k k' : ℕ} {sc sc' : Bytes} (hk : k < ins.length)
    (hsc : sc ≠ [])
    (h : (signedIns ins k sc).map (fun i => ((i.1.outpoint, i.2), i.1.seq))
      = (signedIns ins' k' sc').map fun i => ((i.1.outpoint, i.2), i.1.seq)) :
    k = k' ∧ sc = sc' ∧
      ins.map (fun i => (i.outpoint, i.seq)) = ins'.map fun i => (i.outpoint, i.seq) := by
  have hfields : ∀ (ins : List SigIn) k sc, ((signedIns ins k sc).map fun i =>
      ((i.1.outpoint, i.2), i.1.seq)).map (fun f => (f.1.1, f.2))
        = ins.map fun i => (i.outpoint, i.seq) := by
    intro ins k sc
    rw [signedIns, List.map_map, List.map_map]
    exact (List.map_map (l := ins.zipIdx) (f := Prod.fst)
      (g := fun i : SigIn => (i.outpoint, i.seq))).symm.trans (by rw [List.zipIdx_map_fst])
  have hscript : ∀ (ins : List SigIn) k sc j, (((signedIns ins k sc).map fun i =>
      ((i.1.outpoint, i.2), i.1.seq)).map (fun f => f.1.2))[j]?
        = ins[j]?.map fun _ => if j = k then sc else [] := by
    intro ins k sc j
    rw [signedIns, List.map_map, List.map_map, List.getElem?_map, List.getElem?_zipIdx,
      Option.map_map]
    simp only [Function.comp_def, Nat.zero_add]
  have hk' := hscript ins k sc k
  rw [h, hscript, List.getElem?_eq_getElem hk, Option.map_some, if_pos rfl] at hk'
  obtain ⟨_, -, hblank⟩ := Option.map_eq_some_iff.mp hk'
  have hsame : k = k' := by
    by_contra hne
    rw [if_neg hne] at hblank
    exact hsc hblank.symm
  rw [if_pos hsame] at hblank
  refine ⟨hsame, hblank.symm, ?_⟩
  rw [← hfields ins k sc, h, hfields]

/-! ### The hashed bytes -/

theorem sighashBytes_inj {t t' : SigTx} (ht : t.Fits) (ht' : t'.Fits) {k k' : ℕ}
    (hk : k < t.ins.length) {sc sc' : Bytes} (hsc : sc ≠ []) (hlen : sc.length < 2147483648)
    (hlen' : sc'.length < 2147483648) (h : sighashBytes t k sc = sighashBytes t' k' sc') :
    k = k' ∧ sc = sc' ∧ t.version = t'.version ∧
      t.ins.map (fun i => (i.outpoint, i.seq)) = t'.ins.map (fun i => (i.outpoint, i.seq)) ∧
      t.outs = t'.outs ∧ t.locktime = t'.locktime := by
  have hcount : ∀ {m n : ℕ}, m < 2147483648 → n < 2147483648 →
      UInt64.ofNat m = UInt64.ofNat n → m = n := by
    intro m n hm hn heq
    have hnat := congrArg UInt64.toNat heq
    rwa [UInt64.toNat_ofNat', UInt64.toNat_ofNat', Nat.mod_eq_of_lt (by omega),
      Nat.mod_eq_of_lt (by omega)] at hnat
  have hu32 := delimited_u32le (P := fun _ => True) (id : UInt32 → UInt32)
  have hvarint := delimited_varint (P := fun _ => True) (id : UInt64 → UInt64)
  simp only [sighashBytes, List.append_assoc, putIns_signed] at h
  obtain ⟨hversion, h⟩ := hu32 _ _ _ _ trivial trivial h
  obtain ⟨hnin, h⟩ := hvarint _ _ _ _ trivial trivial h
  have hins : (signedIns t.ins k sc).length = (signedIns t'.ins k' sc').length := by
    simp only [signedIns, List.length_map, List.length_zipIdx]
    exact hcount ht.ins ht'.ins hnin
  obtain ⟨hsigned, h⟩ := putSigned_delimited.flatten hins (signedIns_fits hlen)
    (signedIns_fits hlen') h
  obtain ⟨hnout, h⟩ := hvarint _ _ _ _ trivial trivial h
  obtain ⟨houts, h⟩ := putOut_delimited.flatten (hcount ht.outs ht'.outs hnout) ht.spk ht'.spk h
  obtain ⟨hlock, -⟩ := hu32 _ _ _ _ trivial trivial h
  obtain ⟨hkk, hscsc, hfields⟩ := signedIns_inj hk hsc hsigned
  rw [List.map_id, List.map_id] at houts
  exact ⟨hkk, hscsc, hversion, hfields, houts, hlock⟩

/-! ### Parsed transactions -/

section Parsed

variable {raw : Bytes} {n : ℤ}

theorem aOut_spklen {p q : ℤ} {o : AOut} (h : aOut raw n p = .ok (o, q)) :
    o.spklen < 2147483648 := by
  obtain ⟨v, _, -, h⟩ := Cursor.bind_eq_ok.mp h
  obtain ⟨spk, _, hspk, h⟩ := Cursor.bind_eq_ok.mp h
  obtain ⟨rfl, -⟩ := Cursor.pure_eq_ok.mp h
  obtain ⟨sl, _, -, hspk⟩ := Cursor.bind_eq_ok.mp hspk
  split at hspk
  · cases hspk
  obtain ⟨fits, _, -, hspk⟩ := Cursor.bind_eq_ok.mp hspk
  split at hspk
  · obtain ⟨at_, _, -, hspk⟩ := Cursor.bind_eq_ok.mp hspk
    obtain ⟨rfl, -⟩ := Cursor.pure_eq_ok.mp hspk
    exact toInt_lt sl
  · cases hspk

theorem txParse_fits {t : ATx} (h : txParse raw n = .ok t) :
    t.ins.length ≤ aMaxIn ∧ t.outs.length ≤ aMaxOut ∧ ∀ o ∈ t.outs, o.spklen < 2147483648 := by
  unfold txParse at h
  split at h
  · cases h
  split at h
  · cases h
  split at h
  · cases h
  rename_i ins outs locktime q hfields
  cases h
  obtain ⟨nin, _, -, hfields⟩ := Cursor.bind_eq_ok.mp hfields
  split at hfields
  · cases hfields
  rename_i hnin
  obtain ⟨ins', _, hins, hfields⟩ := Cursor.bind_eq_ok.mp hfields
  obtain ⟨nout, _, -, hfields⟩ := Cursor.bind_eq_ok.mp hfields
  split at hfields
  · cases hfields
  rename_i hnout
  obtain ⟨outs', _, houts, hfields⟩ := Cursor.bind_eq_ok.mp hfields
  obtain ⟨lock, _, -, hfields⟩ := Cursor.bind_eq_ok.mp hfields
  obtain ⟨whole, _, -, hfields⟩ := Cursor.bind_eq_ok.mp hfields
  split at hfields
  · obtain ⟨hvals, -⟩ := Cursor.pure_eq_ok.mp hfields
    cases hvals
    have hlins := Cursor.length_of_replicate hins
    have hlouts := Cursor.length_of_replicate houts
    refine ⟨?_, ?_, ?_⟩
    · dsimp only
      omega
    · dsimp only
      omega
    · exact Cursor.forall_of_replicate (fun _ _ _ => aOut_spklen) houts
  · cases hfields

theorem sigOuts_ok {os : List AOut} {outs : List SigOut} (h : sigOuts raw os = .ok outs) :
    List.Forall₂ (fun o out => o.sigOut raw = .ok out) os outs := by
  induction os generalizing outs with
  | nil =>
    cases h
    exact .nil
  | cons o os ih =>
    cases hout : o.sigOut raw with
    | error e =>
      rw [sigOuts, hout] at h
      cases h
    | ok out =>
      cases hrest : sigOuts raw os with
      | error e =>
        rw [sigOuts, hout, hrest] at h
        cases h
      | ok rest =>
        rw [sigOuts, hout, hrest] at h
        cases h
        exact .cons hout (ih hrest)

theorem length_sigOut {o : AOut} {out : SigOut} (h : o.sigOut raw = .ok out) :
    out.spk.length ≤ o.spklen.toNat := by
  unfold AOut.sigOut rawSlice at h
  split at h
  · cases h
    exact List.length_take_le _ _
  · cases h

theorem parseSigTx_fits {t : SigTx} (h : parseSigTx raw n = .ok t) : t.Fits := by
  unfold parseSigTx at h
  cases hparse : txParse raw n with
  | error e =>
    rw [hparse] at h
    cases h
  | ok a =>
    rw [hparse] at h
    obtain ⟨hins, houts, hspk⟩ := txParse_fits hparse
    have hsig : a.sigTx raw = .ok t := h
    unfold ATx.sigTx at hsig
    cases hos : sigOuts raw a.outs with
    | error e =>
      rw [hos] at hsig
      cases hsig
    | ok outs =>
      rw [hos] at hsig
      cases hsig
      have hall := sigOuts_ok hos
      unfold aMaxIn at hins
      unfold aMaxOut at houts
      refine ⟨by simp only [List.length_map]; omega, by rw [← hall.length_eq]; omega, ?_⟩
      intro out (hout : out ∈ outs)
      obtain ⟨i, hi, rfl⟩ := List.getElem_of_mem hout
      have hsig := hall.get (hall.length_eq ▸ hi) hi
      have hlen := length_sigOut hsig
      have hbound := hspk _ (List.get_mem a.outs ⟨i, hall.length_eq ▸ hi⟩)
      simp only [List.get_eq_getElem] at hlen hbound
      omega

end Parsed

/-- The bytes that are hashed tell the input that is signed, the signing script, the version, the
outpoints with their sequences, the outputs and the locktime. -/
theorem sighashBytes_commits {raw raw' : Bytes} {n n' : ℤ} {t t' : SigTx}
    (ht : parseSigTx raw n = .ok t) (ht' : parseSigTx raw' n' = .ok t') {k k' : ℕ}
    (hk : k < t.ins.length) {sc sc' : Bytes} (hsc : sc ≠ []) (hlen : sc.length < 2147483648)
    (hlen' : sc'.length < 2147483648) (h : sighashBytes t k sc = sighashBytes t' k' sc') :
    k = k' ∧ sc = sc' ∧ t.version = t'.version ∧
      t.ins.map (fun i => (i.outpoint, i.seq)) = t'.ins.map (fun i => (i.outpoint, i.seq)) ∧
      t.outs = t'.outs ∧ t.locktime = t'.locktime :=
  sighashBytes_inj (parseSigTx_fits ht) (parseSigTx_fits ht') hk hsc hlen hlen' h

/-- One input, with the scriptSig `op`, and no outputs. -/
def bareTx (op : Byte) : Bytes :=
  [1, 0, 0, 0, 1] ++ List.replicate 36 0 ++ [1, op, 255, 255, 255, 255, 0, 0, 0, 0, 0]

/-- The scriptSigs are not hashed. -/
theorem sighashBytes_commits_bareTx :
    ∃ t t', parseSigTx (bareTx 0x51) 52 = .ok t ∧ parseSigTx (bareTx 0x52) 52 = .ok t' ∧ t ≠ t' ∧
      sighashBytes t 0 [0xAC] = sighashBytes t' 0 [0xAC] ∧ t.version = t'.version ∧
      t.outs = t'.outs ∧ t.locktime = t'.locktime := by
  have hparse : parseSigTx (bareTx 0x51) 52
      = .ok ⟨1, [⟨zeros 36, [0x51], 4294967295⟩], [], 0⟩ := by with_unfolding_all rfl
  have hparse' : parseSigTx (bareTx 0x52) 52
      = .ok ⟨1, [⟨zeros 36, [0x52], 4294967295⟩], [], 0⟩ := by with_unfolding_all rfl
  obtain ⟨-, -, hversion, -, houts, hlock⟩ := @sighashBytes_commits _ _ _ _ _ _
    hparse hparse' 0 0 (by decide) [0xAC] [0xAC] (by decide) (by decide) (by decide) rfl
  exact ⟨_, _, hparse, hparse', by decide, rfl, hversion, houts, hlock⟩

end NamespaceIndexer.Daemon
