import NamespaceIndexer.Daemon.Chain

/-!
# Proof of work (`pow.c`)

A target and a cumulative work are numbers below `2 ^ 256`. The scrypt hash of a header is a
parameter.
-/

namespace NamespaceIndexer.Daemon

open Fold Lib

/-- `bits_to_target`. -/
def bitsToTarget (bits : ℕ) : Option ℕ :=
  let exp := bits / 2 ^ 24
  let mant := bits % 2 ^ 23
  if bits / 2 ^ 23 % 2 = 1 then none
  else if mant = 0 then none
  else if exp ≤ 3 then
    let mant := mant / 2 ^ (8 * (3 - exp))
    if mant = 0 then none else some mant
  else if 32 < exp then none
  else some (mant * 2 ^ (8 * (exp - 3)))

/-- `target_to_bits`. -/
def targetToBits (t : ℕ) : ℕ :=
  if t = 0 then 0
  else
    let size := t.log2 / 8 + 1
    let mant := if 3 ≤ size then t / 2 ^ (8 * (size - 3)) else t * 2 ^ (8 * (3 - size))
    if mant / 2 ^ 23 % 2 = 1 then (size + 1) * 2 ^ 24 + mant / 2 ^ 8
    else size * 2 ^ 24 + mant

/-- `idx_pow_work`: `(~target) / (target + 1) + 1`. -/
def idxPowWork (bits : ℕ) : ℕ :=
  match bitsToTarget bits with
  | none => 0
  | some target => (2 ^ 256 - 1 - target) / (target + 1) + 1

/-- `idx_pow_work_add`, in 256 bits. -/
def idxPowWorkAdd (acc add : ℕ) : ℕ := (acc + add) % 2 ^ 256

/-- `idx_pow_next_bits`: the Digishield retarget. -/
def idxPowNextBits (prevBits : ℕ) (prevTime prevprevTime : ℤ) (powlimit : ℕ) : ℕ :=
  let actual := prevTime - prevprevTime
  let modulated := 60 + (actual - 60).tdiv 8
  let modulated := if modulated < 45 then 45 else modulated
  let modulated := if modulated > 90 then 90 else modulated
  match bitsToTarget prevBits, bitsToTarget powlimit with
  | some prev, some lim => targetToBits (min (prev * modulated.toNat / 60) lim)
  | _, _ => 0

example : idxPowNextBits 0x1a009a69 1000060 1000000 0x1e0fffff = 0x1a009a69 := by decide

/-! ### AuxPoW -/

/-- `pc_varint`: an eight-byte count is an error. -/
def pcVarint : Cur ℕ := do
  let b ← curLe 1
  Reader.require (b != 0xFF)
  if b < 0xFD then pure b
  else if b = 0xFD then curLe 2
  else curLe 4

/-- An input of the parent coinbase, with its script. -/
def pcIn : Cur Bytes := do
  let _ ← curTake 36
  let sl ← pcVarint
  Reader.require (sl ≤ 100000)
  let s ← curTake sl
  let _ ← curTake 4
  pure s

def pcOut : Cur Unit := do
  let _ ← curTake 8
  let sl ← pcVarint
  Reader.require (sl ≤ 100000)
  let _ ← curTake sl
  pure ()

def pcItem : Cur Unit := do
  let wl ← pcVarint
  Reader.require (wl ≤ 100000)
  let _ ← curTake wl
  pure ()

def pcWitness : Cur Unit := do
  let items ← pcVarint
  Reader.require (items ≤ 100000)
  let _ ← Reader.replicate pcItem items
  pure ()

/-- The inputs and outputs of the parent coinbase: the script of its first input. -/
def pcBody (vin : ℕ) : Cur Bytes := do
  let scripts ← Reader.replicate pcIn vin
  let vout ← pcVarint
  Reader.require (vout ≤ 10000)
  let _ ← Reader.replicate pcOut vout
  pure (scripts.head?.getD [])

/-- A merkle branch, as its `n` nodes lie in the message. -/
structure PcBranch where
  n : ℕ
  nodes : Bytes
  index : ℕ

def pcBranch (max : ℕ) : Cur PcBranch := do
  let n ← pcVarint
  Reader.require (n ≤ max)
  let nodes ← curTake (n * 32)
  let index ← curLe 4
  pure ⟨n, nodes, index⟩

/-- What lies between a merged-mined header and the transactions. -/
structure AuxPow where
  script : Bytes
  cbHash : Hash256
  mb : PcBranch
  chb : PcBranch
  parent : Bytes

variable (sha256 idxPowHash : Bytes → Hash256)

/-- Is there a SegWit marker, the vin count, and its bytes. A first count of zero is the marker; a
flag and the count follow. -/
def pcVin : Cur (Bool × ℕ × Bytes) := do
  let first ← Reader.span pcVarint
  if first.1 = 0 then do
    let _ ← curTake 1
    let vin ← Reader.span pcVarint
    pure (true, vin)
  else pure (false, first)

/-- The parent coinbase. Its hash leaves out the SegWit marker and the witness. -/
def pcCoinbase : Cur (Bytes × Hash256) := do
  let version ← curTake 4
  let (segwit, vin, vinBytes) ← pcVin
  Reader.require (vin != 0 && vin ≤ 1000)
  let body ← Reader.span (pcBody vin)
  let _ ← Reader.replicate pcWitness (if segwit then vin else 0)
  let locktime ← curTake 4
  pure (body.1, idxSha256d sha256 (version ++ vinBytes ++ body.2 ++ locktime))

def pcAuxpow : Cur AuxPow := do
  let cb ← pcCoinbase sha256
  let _ ← curTake 32
  let mb ← pcBranch 64
  let chb ← pcBranch 30
  let parent ← curTake 80
  pure ⟨cb.1, cb.2, mb, chb, parent⟩

/-- `branch_apply`. -/
def branchApply : ℕ → Bytes → ℕ → Hash256 → Hash256
  | 0, _, _, h => h
  | n + 1, branch, index, h =>
    let node := branch.take 32
    branchApply n (branch.drop 32) (index / 2)
      (idxSha256d sha256 (if index % 2 = 1 then node ++ h.val else h.val ++ node))

/-- Where `pat` first occurs in `s`. -/
def findBytes (pat s : Bytes) : Option ℕ :=
  (List.range s.length).find? fun i => pat.isPrefixOf (s.drop i)

def mmHeader : Bytes := [0xFA, 0xBE, 0x6D, 0x6D]

/-- The slot of our chain, drawn from the nonce. -/
def auxSlot (nonce auxChainId : ℕ) : ℕ :=
  let rand := (nonce * 1103515245 + 12345) % 2 ^ 32
  let rand := (rand + auxChainId) % 2 ^ 32
  (rand * 1103515245 + 12345) % 2 ^ 32

/-- Is the aux root committed in the parent coinbase, in our slot? -/
def auxCommitted (script auxBe : Bytes) (ncb chIndex auxChainId : ℕ) : Bool :=
  match findBytes auxBe script with
  | none => false
  | some root =>
    (match findBytes mmHeader script with
      | some head => (findBytes mmHeader (script.drop (head + 1))).isNone && head + 4 == root
      | none => root ≤ 20) &&
    (root + 32 + 8 ≤ script.length && le32At script (root + 32) == 2 ^ ncb &&
      chIndex == auxSlot (le32At script (root + 36)) auxChainId % 2 ^ ncb)

structure PowParams where
  powlimit : ℕ
  auxChainId : ℕ

/-- The checks on an AuxPoW for the header `hdr`. -/
def auxpowOk (pp : PowParams) (hdr : Bytes) (target : ℕ) (a : AuxPow) : Bool :=
  let root := branchApply sha256 a.mb.n a.mb.nodes 0 a.cbHash
  let aux := branchApply sha256 a.chb.n a.chb.nodes a.chb.index (idxSha256d sha256 hdr)
  a.mb.index == 0 && le32At a.parent 0 / 2 ^ 16 != pp.auxChainId &&
    root.val == (a.parent.drop 36).take 32 &&
    auxCommitted a.script aux.val.reverse a.chb.n a.chb.index pp.auxChainId &&
    leVal (idxPowHash a.parent).val ≤ target

/-- Was the block mined on its own header? -/
def DirectMined (hdr : Bytes) : Prop := le32At hdr 0 / 0x100 % 2 = 0

instance (hdr : Bytes) : Decidable (DirectMined hdr) := instDecidableEqNat _ _

/-- The target of a header that passes the checks on its fields. -/
def powTarget (pp : PowParams) (raw : Bytes) : Option ℕ :=
  if raw.length < 80 then none
  else
    match bitsToTarget (le32At raw 72), bitsToTarget pp.powlimit with
    | some target, some limit =>
      if limit < target ∨ le32At raw 0 / 2 ^ 16 ≠ pp.auxChainId then none else some target
    | _, _ => none

/-- `idx_pow_check2`: the bytes of the header and its AuxPoW, none for a failure. -/
def idxPowCheck2 (pp : PowParams) (raw : Bytes) : Option ℕ :=
  match powTarget pp raw with
  | none => none
  | some target =>
    if DirectMined raw then
      if leVal (idxPowHash (raw.take 80)).val ≤ target then some 80 else none
    else
      match pcAuxpow sha256 (raw.drop 80) with
      | none => none
      | some (a, r) =>
        if auxpowOk sha256 idxPowHash pp (raw.take 80) target a then some (raw.length - r.length)
        else none

/-- `idx_pow_check`. -/
def idxPowCheck (pp : PowParams) (raw : Bytes) : Bool :=
  (idxPowCheck2 sha256 idxPowHash pp raw).isSome

/-! ### What the check reads -/

section Spans

variable {sha256 idxPowHash : Bytes → Hash256}

theorem curLe_local (n : ℕ) : Reader.Local (curLe n) :=
  (Reader.Local.take n).bind fun _ => Reader.Local.pure _

theorem pcVarint_local : Reader.Local pcVarint := by
  refine (curLe_local 1).bind fun b => (Reader.Local.require _).bind fun _ => ?_
  exact Reader.Local.ite _ (Reader.Local.pure _)
    (Reader.Local.ite _ (curLe_local 2) (curLe_local 4))

/-- A length within its bound, and as many bytes. -/
theorem pcVarint_take_local {α : Type} (max : ℕ) {f : Bytes → Cur α}
    (hf : ∀ b, Reader.Local (f b)) :
    Reader.Local (do
      let n ← pcVarint
      Reader.require (n ≤ max)
      let b ← curTake n
      f b) :=
  Reader.Local.bind pcVarint_local fun n => (Reader.Local.require _).bind fun _ =>
    (Reader.Local.take n).bind hf

theorem pcIn_local : Reader.Local pcIn :=
  (Reader.Local.take 36).bind fun _ => pcVarint_take_local 100000 fun _ =>
    (Reader.Local.take 4).bind fun _ => Reader.Local.pure _

theorem pcOut_local : Reader.Local pcOut :=
  (Reader.Local.take 8).bind fun _ => pcVarint_take_local 100000 fun _ => Reader.Local.pure _

theorem pcItem_local : Reader.Local pcItem :=
  pcVarint_take_local 100000 fun _ => Reader.Local.pure _

theorem pcWitness_local : Reader.Local pcWitness :=
  Reader.Local.bind pcVarint_local fun items => (Reader.Local.require _).bind fun _ =>
    (Reader.Local.replicate pcItem_local items).bind fun _ => Reader.Local.pure _

theorem pcBody_local (vin : ℕ) : Reader.Local (pcBody vin) :=
  (Reader.Local.replicate pcIn_local vin).bind fun _ => Reader.Local.bind pcVarint_local fun vout =>
    (Reader.Local.require _).bind fun _ => (Reader.Local.replicate pcOut_local vout).bind fun _ =>
      Reader.Local.pure _

theorem pcBranch_local (max : ℕ) : Reader.Local (pcBranch max) :=
  Reader.Local.bind pcVarint_local fun n => (Reader.Local.require _).bind fun _ =>
    (Reader.Local.take (n * 32)).bind fun _ => (curLe_local 4).bind fun _ => Reader.Local.pure _

theorem pcVin_local : Reader.Local pcVin :=
  (Reader.Local.span pcVarint_local).bind fun _ => Reader.Local.ite _
    ((Reader.Local.take 1).bind fun _ => (Reader.Local.span pcVarint_local).bind fun _ =>
      Reader.Local.pure _)
    (Reader.Local.pure _)

theorem pcCoinbase_local : Reader.Local (pcCoinbase sha256) :=
  (Reader.Local.take 4).bind fun _ => Reader.Local.bind pcVin_local fun vin =>
    (Reader.Local.require _).bind fun _ => (pcBody_local vin.2.1).span.bind fun _ =>
      (Reader.Local.replicate pcWitness_local _).bind fun _ => (Reader.Local.take 4).bind fun _ =>
        Reader.Local.pure _

theorem pcAuxpow_local : Reader.Local (pcAuxpow sha256) :=
  Reader.Local.bind pcCoinbase_local fun _ => (Reader.Local.take 32).bind fun _ =>
    (pcBranch_local 64).bind fun _ => (pcBranch_local 30).bind fun _ =>
      (Reader.Local.take 80).bind fun _ => Reader.Local.pure _

/-- An AuxPoW holds at least its parent header. -/
theorem pcAuxpow_length {s r : Bytes} {a : AuxPow} (h : pcAuxpow sha256 s = some (a, r)) :
    r.length + 80 ≤ s.length := by
  obtain ⟨cb, t1, h1, h⟩ := Reader.bind_eq_some.mp h
  obtain ⟨_, t2, h2, h⟩ := Reader.bind_eq_some.mp h
  obtain ⟨mb, t3, h3, h⟩ := Reader.bind_eq_some.mp h
  obtain ⟨chb, t4, h4, h⟩ := Reader.bind_eq_some.mp h
  obtain ⟨parent, t5, h5, h⟩ := Reader.bind_eq_some.mp h
  obtain ⟨-, rfl⟩ := Reader.pure_eq_some.mp h
  have hle1 := Reader.Local.length_le pcCoinbase_local h1
  have hle2 := (Reader.Local.take 32).length_le h2
  have hle3 := (pcBranch_local 64).length_le h3
  have hle4 := (pcBranch_local 30).length_le h4
  obtain ⟨rfl, hlen⟩ := Reader.take_eq_some.mp h5
  rw [List.length_append] at hle4
  omega

theorem le32At_take {raw : Bytes} {off n : ℕ} (h : off + 4 ≤ n) :
    le32At (raw.take n) off = le32At raw off := by
  unfold le32At
  rw [List.drop_take, List.take_take, Nat.min_eq_left (by omega)]

theorem powTarget_take (pp : PowParams) (raw : Bytes) :
    powTarget pp (raw.take 80) = powTarget pp raw := by
  unfold powTarget
  rw [le32At_take (by omega), le32At_take (by omega)]
  by_cases h : raw.length < 80
  · rw [if_pos h, if_pos (by rw [List.length_take]; omega)]
  · rw [if_neg h, if_neg (by rw [List.length_take]; omega)]

theorem powTarget_length {pp : PowParams} {raw : Bytes} {target : ℕ}
    (h : powTarget pp raw = some target) : 80 ≤ raw.length := by
  by_contra hlt
  unfold powTarget at h
  rw [if_pos (by omega)] at h
  cases h

theorem directMined_take (raw : Bytes) : DirectMined (raw.take 80) ↔ DirectMined raw := by
  unfold DirectMined
  rw [le32At_take (by omega)]

/-- What a check that passes went through. -/
theorem idxPowCheck2_eq_some {pp : PowParams} {raw : Bytes} {span : ℕ} :
    idxPowCheck2 sha256 idxPowHash pp raw = some span ↔
      ∃ target, powTarget pp raw = some target ∧
        ((DirectMined raw ∧ leVal (idxPowHash (raw.take 80)).val ≤ target ∧ span = 80) ∨
          ¬ DirectMined raw ∧ ∃ a r, pcAuxpow sha256 (raw.drop 80) = some (a, r) ∧
            auxpowOk sha256 idxPowHash pp (raw.take 80) target a = true ∧
            span = raw.length - r.length) := by
  unfold idxPowCheck2
  cases ht : powTarget pp raw with
  | none => simp
  | some target =>
    dsimp only
    by_cases hd : DirectMined raw
    · rw [if_pos hd]
      constructor
      · intro h
        split at h
        · rename_i hle
          exact ⟨target, rfl, Or.inl ⟨hd, hle, (Option.some_inj.mp h).symm⟩⟩
        · cases h
      · rintro ⟨target', ht', ⟨-, hle, rfl⟩ | ⟨hm, -⟩⟩
        · cases ht'
          exact if_pos hle
        · exact absurd hd hm
    · rw [if_neg hd]
      constructor
      · intro h
        split at h
        · cases h
        · rename_i a r ha
          split at h
          · rename_i hok
            exact ⟨target, rfl, Or.inr ⟨hd, a, r, ha, hok, (Option.some_inj.mp h).symm⟩⟩
          · cases h
      · rintro ⟨target', ht', ⟨hd', -⟩ | ⟨-, a, r, ha, hok, rfl⟩⟩
        · exact absurd hd' hd
        · cases ht'
          rw [ha]
          exact if_pos hok

/-- The span of a header that was mined directly. -/
theorem idxPowCheck2_direct {pp : PowParams} {raw : Bytes} {span : ℕ}
    (h : idxPowCheck2 sha256 idxPowHash pp raw = some span) (hd : DirectMined raw) : span = 80 := by
  obtain ⟨target, -, ⟨-, -, hspan⟩ | ⟨hm, -⟩⟩ := idxPowCheck2_eq_some.mp h
  · exact hspan
  · exact absurd hd hm

/-- A merged-mined header spans its parent's header as well. -/
theorem idxPowCheck2_merged {pp : PowParams} {raw : Bytes} {span : ℕ}
    (h : idxPowCheck2 sha256 idxPowHash pp raw = some span) (hm : ¬ DirectMined raw) :
    160 ≤ span ∧ span ≤ raw.length := by
  obtain ⟨target, ht, ⟨hd, -⟩ | ⟨-, a, r, ha, -, rfl⟩⟩ := idxPowCheck2_eq_some.mp h
  · exact absurd hd hm
  · have hlen := powTarget_length ht
    have haux := pcAuxpow_length ha
    rw [List.length_drop] at haux
    omega

theorem idxPowCheck2_span {pp : PowParams} {raw : Bytes} {span : ℕ}
    (h : idxPowCheck2 sha256 idxPowHash pp raw = some span) : 80 ≤ span ∧ span ≤ raw.length := by
  by_cases hd : DirectMined raw
  · obtain ⟨target, ht, -⟩ := idxPowCheck2_eq_some.mp h
    have hlen := powTarget_length ht
    have hspan := idxPowCheck2_direct h hd
    omega
  · have hspan := idxPowCheck2_merged h hd
    omega

/-- The check depends on the span alone. -/
theorem idxPowCheck2_append {pp : PowParams} {raw : Bytes} {span : ℕ}
    (h : idxPowCheck2 sha256 idxPowHash pp raw = some span) (rest : Bytes) :
    idxPowCheck2 sha256 idxPowHash pp (raw.take span ++ rest) = some span := by
  obtain ⟨hge, hle⟩ := idxPowCheck2_span h
  have htake : (raw.take span ++ rest).take 80 = raw.take 80 := by
    rw [List.take_append_of_le_length (by rw [List.length_take]; omega), List.take_take,
      Nat.min_eq_left hge]
  obtain ⟨target, ht, hcase⟩ := idxPowCheck2_eq_some.mp h
  refine idxPowCheck2_eq_some.mpr ⟨target, ?_, ?_⟩
  · rw [← powTarget_take, htake, powTarget_take]
    exact ht
  · rw [← directMined_take, htake, directMined_take]
    rcases hcase with hdirect | ⟨hm, a, r, ha, hok, hspan⟩
    · exact Or.inl hdirect
    · obtain ⟨c, hc, hlocal⟩ := pcAuxpow_local _ _ _ ha
      have hsplit : raw = raw.take 80 ++ c ++ r := by
        rw [List.append_assoc, ← hc, List.take_append_drop]
      have hlen : (raw.take 80 ++ c).length = span := by
        have hraw := congrArg List.length hsplit
        rw [List.length_append] at hraw
        omega
      have hcut : raw.take span = raw.take 80 ++ c := by
        rw [← hlen]
        exact (congrArg (List.take _) hsplit).trans List.take_left
      have h80 : (raw.take 80).length = 80 := by
        rw [List.length_take]
        omega
      refine Or.inr ⟨hm, a, rest, ?_, hok, ?_⟩
      · have hdrop : (raw.take span ++ rest).drop 80 = c ++ rest := by
          rw [hcut, List.append_assoc, List.drop_left' h80]
        rw [hdrop]
        exact hlocal rest
      · rw [hcut, List.length_append, hlen, Nat.add_sub_cancel]

end Spans

end NamespaceIndexer.Daemon
