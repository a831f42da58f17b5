import NamespaceIndexer.Daemon.Sighash

/-!
# The signer of an input (`attribute` of `attrib.c` and `attrib.go`)

Both sides tokenize the scriptSig, recognise a key or a redeemScript with its signatures, delete
the signatures from the signing script and check them against its hash. The Go port leaves the
deletion out where the script pays to a key hash.
-/

namespace NamespaceIndexer.Daemon

open Fold Lib

/-- Signature decoding, curve membership and signature verification. -/
structure SigCheck where
  dec : Bytes → Option (Fixed 32 × Fixed 32)
  onCurve : Bytes → Bool
  verify : Hash256 → Fixed 32 → Fixed 32 → Bytes → Bool
  dec_push : ∀ {p rs}, dec p = some rs → 9 ≤ p.length ∧ p.length ≤ 73 ∧ p.getD 0 0 = 0x30 ∧
    p.getD (p.length - 1) 0 = 0x01

variable (sha256 : Bytes → Hash256) (ripemd160 : Hash256 → H160) (f : SigCheck)

def hash160 (d : Bytes) : H160 := ripemd160 (sha256 d)

/-! ### The daemon -/

inductive AttrStatus where
  | CLASSIFY
  | ONCURVE
  | VERIFY
  | FOUND
deriving DecidableEq

/-- The values of `IDX_ATTR_CLASSIFY` and its siblings. -/
def AttrStatus.code : AttrStatus → ℕ
  | .CLASSIFY => 0
  | .ONCURVE => 1
  | .VERIFY => 2
  | .FOUND => 3

structure IdxAttr where
  status : AttrStatus := .CLASSIFY
  identity : H160 := zeros 20
  type : Byte := 0
  sighash : Hash256 := zeros 32
deriving DecidableEq

structure ASig where
  r : Fixed 32
  s : Fixed 32
  data : Bytes

/-- What a scriptSig claims: `kind` 1 and 2 of `attribute`. -/
inductive Claimant where
  | key (sig : ASig) (pubkey : Bytes)
  | script (sigs : List ASig) (keys : List Bytes) (redeem : Bytes)

/-- The signature pushes of `kind` 2. -/
def readSigs : List (Byte × Bytes) → Option (List ASig)
  | [] => some []
  | (op, data) :: ps =>
    if op = 0x00 then none
    else
      match f.dec data with
      | none => none
      | some (r, s) => (readSigs ps).map (⟨r, s, data⟩ :: ·)

def classify (ps : List (Byte × Bytes)) : Option Claimant :=
  let cnt := ps.length
  let op := fun i => (ps.getD i (0, [])).1
  let dat := fun i => (ps.getD i (0, [])).2
  if cnt = 2 ∧ op 0 ≠ 0x00 ∧ op 1 ≠ 0x00 ∧ (f.dec (dat 0)).isSome ∧ pubEncOk (dat 1) then
    (f.dec (dat 0)).map fun rs => .key ⟨rs.1, rs.2, dat 0⟩ (dat 1)
  else if cnt ≥ 3 ∧ op 0 = 0x00 ∧ (dat 0).length = 0 then
    match rsTemplate (dat (cnt - 1)) with
    | none => none
    | some (m, keys) =>
      if cnt - 2 = m then
        (readSigs f ((ps.drop 1).take m)).map fun sigs => .script sigs keys (dat (cnt - 1))
      else none
  else none

/-- `find_and_delete` of every signature push. -/
def deleteSigs : List ASig → Bytes → Except Stop Bytes
  | [], scriptCode => .ok scriptCode
  | sig :: sigs, scriptCode =>
    if sig.data.length < 9 ∨ 73 < sig.data.length then deleteSigs sigs scriptCode
    else
      match findAndDelete scriptCode (emitPush sig.data) with
      | .error e => .error e
      | .ok scriptCode => deleteSigs sigs scriptCode

/-- The scan of the signatures against the keys, both in order. -/
def scanSigs (sighash : Hash256) : List ASig → List Bytes → Bool
  | [], _ => true
  | _ :: _, [] => false
  | sig :: sigs, key :: keys =>
    if f.verify sighash sig.r sig.s key then scanSigs sighash sigs keys
    else scanSigs sighash (sig :: sigs) keys

/-- What `attribute` credits: the identity, its type, and the script that is signed. -/
def Claimant.credit : Claimant → H160 × Byte × Bytes
  | .key _ pubkey =>
    let identity := hash160 sha256 ripemd160 pubkey
    (identity, 0, p2pkhScript identity)
  | .script _ _ redeem => (hash160 sha256 ripemd160 redeem, 1, redeem)

def Claimant.sigs : Claimant → List ASig
  | .key sig _ => [sig]
  | .script sigs _ _ => sigs

def Claimant.keys : Claimant → List Bytes
  | .key _ pubkey => [pubkey]
  | .script _ keys _ => keys

def Claimant.verifies (sighash : Hash256) : Claimant → Bool
  | .key sig pubkey => f.verify sighash sig.r sig.s pubkey
  | .script sigs keys _ => scanSigs f sighash sigs keys

/-- The gates of `attribute` after the claim is recognised. -/
def attributeClaim (t : SigTx) (k : ℕ) (c : Claimant) : Except Stop IdxAttr :=
  let (identity, type, scriptCode) := c.credit sha256 ripemd160
  match deleteSigs c.sigs scriptCode with
  | .error e => .error e
  | .ok scriptCode =>
    let sighash := legacySighash sha256 t k scriptCode
    let status : AttrStatus := if !c.keys.all f.onCurve then .ONCURVE
      else if c.verifies f sighash then .FOUND else .VERIFY
    .ok ⟨status, identity, type, sighash⟩

/-- `attribute` after the pushes are read. -/
def attributePushes (t : SigTx) (k : ℕ) (ps : List (Byte × Bytes)) : Except Stop IdxAttr :=
  match classify f ps with
  | none => .ok {}
  | some c => attributeClaim sha256 ripemd160 f t k c

/-- `attribute`. -/
def attributeInput (t : SigTx) (k : ℤ) : Except Stop IdxAttr :=
  if k < 0 then .ok {}
  else
    match t.ins[k.toNat]? with
    | none => .ok {}
    | some i =>
      match takePushes 32 i.ss with
      | none => .ok {}
      | some ps => attributePushes sha256 ripemd160 f t k.toNat ps

/-! ### The Go port -/

structure Go.AttribResult where
  status : ℕ := 0
  sighash : Hash256 := zeros 32
  identity : H160 := zeros 20
deriving DecidableEq

/-- `parseDERSig` over the same decoding; the hash type is the last byte. -/
def Go.parseDER (sig : Bytes) : Option (Fixed 32 × Fixed 32 × Byte) :=
  (f.dec sig).map fun rs => (rs.1, rs.2, sig.getD (sig.length - 1) 0)

def Go.readSigs : List (Byte × Bytes) → Option (List (Fixed 32 × Fixed 32))
  | [] => some []
  | sp :: ps =>
    match Go.parseDER f sp.2 with
    | none => none
    | some (r32, s32, ht) =>
      if ht ≠ 0x01 then none else (Go.readSigs ps).map ((r32, s32) :: ·)

/-- `inOrderScan`. -/
def Go.inOrderScan (sh : Hash256) : List (Fixed 32 × Fixed 32) → List Bytes → Bool
  | [], _ => true
  | _ :: _, [] => false
  | sd :: sds, key :: keys =>
    if f.verify sh sd.1 sd.2 key then Go.inOrderScan sh sds keys
    else Go.inOrderScan sh (sd :: sds) keys

/-- `applyFindAndDeleteAll`. -/
def Go.applyFindAndDeleteAll : List (Byte × Bytes) → Bytes → Except Stop Bytes
  | [], sc => .ok sc
  | sp :: ps, sc =>
    match Go.findAndDelete sc (Go.pushEncode sp.2) with
    | .error e => .error e
    | .ok sc => Go.applyFindAndDeleteAll ps sc

/-- The second template of `attribute`. -/
def Go.attributeScript (t : Go.RawTx) (k : ℕ) (pushes : List (Byte × Bytes)) :
    Except Stop Go.AttribResult :=
  if pushes.length ≥ 3 ∧ (pushes.getD 0 (0, [])).1 = 0x00 ∧
      (pushes.getD 0 (0, [])).2.length = 0 then
    let redeem := (pushes.getD (pushes.length - 1) (0, [])).2
    let sigPushes := (pushes.take (pushes.length - 1)).drop 1
    match Go.parseMultisigTemplate redeem with
    | none => .ok {}
    | some (m, keys) =>
      if sigPushes.length = m then
        match Go.readSigs f sigPushes with
        | none => .ok {}
        | some sds =>
          let id := hash160 sha256 ripemd160 redeem
          let offcurve := keys.any fun key => !f.onCurve key
          match Go.applyFindAndDeleteAll sigPushes redeem with
          | .error e => .error e
          | .ok scriptCode =>
            let sh := Go.legacySighash sha256 t k scriptCode
            .ok (if offcurve then ⟨1, sh, id⟩
              else ⟨if Go.inOrderScan f sh sds keys then 3 else 2, sh, id⟩)
      else .ok {}
  else .ok {}

/-- The first template of `attribute`. -/
def Go.attributeKey (t : Go.RawTx) (k : ℕ) (pk : Bytes) (r32 s32 : Fixed 32) : Go.AttribResult :=
  let id := hash160 sha256 ripemd160 pk
  let sh := Go.legacySighash sha256 t k (p2pkhScript id)
  if !f.onCurve pk then ⟨1, sh, id⟩
  else ⟨if f.verify sh r32 s32 pk then 3 else 2, sh, id⟩

/-- `attribute` after the pushes are read. -/
def Go.attributePushes (t : Go.RawTx) (k : ℕ) (pushes : List (Byte × Bytes)) :
    Except Stop Go.AttribResult :=
  let rest := Go.attributeScript sha256 ripemd160 f t k pushes
  if pushes.length = 2 ∧ (pushes.getD 0 (0, [])).1 ≠ 0x00 ∧
      (pushes.getD 1 (0, [])).1 ≠ 0x00 then
    let pk := (pushes.getD 1 (0, [])).2
    match Go.parseDER f (pushes.getD 0 (0, [])).2 with
    | none => rest
    | some (r32, s32, ht) =>
      if ht = 0x01 ∧ Go.pubkeyCanonical pk then
        .ok (Go.attributeKey sha256 ripemd160 f t k pk r32 s32)
      else rest
  else rest

/-- `attribute`. -/
def Go.attributeInput (t : Go.RawTx) (k : ℤ) : Except Stop Go.AttribResult :=
  if k < 0 then .ok {}
  else
    match t.vin[k.toNat]? with
    | none => .ok {}
    | some ss =>
      match Go.tokenizePushes ss with
      | none => .ok {}
      | some pushes => Go.attributePushes sha256 ripemd160 f t k.toNat pushes

/-! ### The parts agree -/

variable {f}

theorem dec_isSome {p : Bytes} (h : (f.dec p).isSome) :
    (0 < p.length ∧ p.length < 76) ∧ p.getD 0 0 = 0x30 := by
  obtain ⟨rs, hrs⟩ := Option.isSome_iff_exists.mp h
  obtain ⟨hleast, hmost, hhead, -⟩ := f.dec_push hrs
  exact ⟨by omega, hhead⟩

theorem parseDER_eq (p : Bytes) : Go.parseDER f p = (f.dec p).map fun rs => (rs.1, rs.2, 0x01) := by
  unfold Go.parseDER
  cases h : f.dec p with
  | none => rfl
  | some rs => rw [Option.map_some, Option.map_some, (f.dec_push h).2.2.2]

theorem readSigs_spec {ps : List (Byte × Bytes)} {sigs : List ASig}
    (h : readSigs f ps = some sigs) :
    (∀ p ∈ ps, (f.dec p.2).isSome) ∧ ∀ sig ∈ sigs, (f.dec sig.data).isSome := by
  induction ps generalizing sigs with
  | nil =>
    cases h
    simp
  | cons p ps ih =>
    unfold readSigs at h
    split at h
    · cases h
    split at h
    · cases h
    · rename_i r s hdec
      obtain ⟨sigs', hsigs, rfl⟩ := Option.map_eq_some_iff.mp h
      obtain ⟨hps, hall⟩ := ih hsigs
      have hsome : (f.dec p.2).isSome := by
        rw [hdec]
        rfl
      simp only [List.forall_mem_cons]
      exact ⟨⟨hsome, hps⟩, hsome, hall⟩

theorem goReadSigs_eq {ps : List (Byte × Bytes)} (hzero : ∀ p ∈ ps, p.1 = 0 → p.2 = []) :
    Go.readSigs f ps = (readSigs f ps).map (·.map fun sig => (sig.r, sig.s)) := by
  induction ps with
  | nil => rfl
  | cons p ps ih =>
    obtain ⟨op, data⟩ := p
    have hrest := ih fun p hp => hzero p (List.mem_cons_of_mem _ hp)
    unfold Go.readSigs readSigs
    rw [parseDER_eq]
    by_cases hop : op = 0x00
    · have hempty : data = [] := hzero _ List.mem_cons_self hop
      have hnone : f.dec [] = none := by
        rw [Option.eq_none_iff_forall_ne_some]
        intro rs hrs
        simpa using (f.dec_push hrs).1
      rw [if_pos hop, hempty, hnone]
      rfl
    · rw [if_neg hop]
      cases f.dec data with
      | none => rfl
      | some rs =>
        rw [Option.map_some]
        dsimp only
        rw [if_neg (not_not.mpr rfl), hrest, Option.map_map, Option.map_map]
        rfl

theorem inOrderScan_eq (sh : Hash256) (sigs : List ASig) (keys : List Bytes) :
    Go.inOrderScan f sh (sigs.map fun sig => (sig.r, sig.s)) keys = scanSigs f sh sigs keys := by
  induction keys generalizing sigs with
  | nil => cases sigs <;> rfl
  | cons key keys ih =>
    cases sigs with
    | nil => rfl
    | cons sig sigs =>
      have hnext := ih (sig :: sigs)
      rw [List.map_cons] at hnext
      rw [List.map_cons, Go.inOrderScan, scanSigs, ih sigs, hnext]

theorem deleteSigs_template {rs : Bytes} {m : ℕ} {keys : List Bytes}
    (h : rsTemplate rs = some (m, keys)) {sigs : List ASig}
    (hsigs : ∀ sig ∈ sigs, (f.dec sig.data).isSome) : deleteSigs sigs rs = .ok rs := by
  induction sigs with
  | nil => rfl
  | cons sig sigs ih =>
    have hrest := ih fun sig hsig => hsigs sig (List.mem_cons_of_mem _ hsig)
    obtain ⟨hlen, hhead⟩ := dec_isSome (hsigs sig List.mem_cons_self)
    unfold deleteSigs
    rw [(template_untouched h hlen hhead).1]
    simp only [hrest, ite_self]

theorem applyFindAndDeleteAll_template {rs : Bytes} {m : ℕ} {keys : List Bytes}
    (h : rsTemplate rs = some (m, keys)) {ps : List (Byte × Bytes)}
    (hps : ∀ p ∈ ps, (f.dec p.2).isSome) : Go.applyFindAndDeleteAll ps rs = .ok rs := by
  induction ps with
  | nil => rfl
  | cons p ps ih =>
    obtain ⟨hlen, hhead⟩ := dec_isSome (hps p List.mem_cons_self)
    unfold Go.applyFindAndDeleteAll
    rw [pushEncode_eq, (template_untouched h hlen hhead).2]
    exact ih fun p hp => hps p (List.mem_cons_of_mem _ hp)

/-! ### Both sides on one input -/

/-- Both return the same status and, past the classify drop, the same hash and identity. -/
def AttributesAlike (a : Except Stop IdxAttr) (b : Except Stop Go.AttribResult) : Prop :=
  ∃ x y, a = .ok x ∧ b = .ok y ∧ y.status = x.status.code ∧
    (x.status ≠ .CLASSIFY → y.sighash = x.sighash ∧ y.identity = x.identity)

theorem alike_dropped : AttributesAlike (.ok {}) (.ok {}) :=
  ⟨{}, {}, rfl, rfl, rfl, fun h => absurd rfl h⟩

theorem alike_gates (on ok : Bool) (id : H160) (type : Byte) (sh : Hash256) :
    AttributesAlike (.ok ⟨if !on then .ONCURVE else if ok then .FOUND else .VERIFY, id, type, sh⟩)
      (.ok (if !on then ⟨1, sh, id⟩ else ⟨if ok then 3 else 2, sh, id⟩)) := by
  cases on <;> cases ok <;> exact ⟨_, _, rfl, rfl, rfl, fun _ => ⟨rfl, rfl⟩⟩

variable (f) in
/-- The pushes are a signature and a key. -/
def KeyClaim (ps : List (Byte × Bytes)) : Prop :=
  ps.length = 2 ∧ (ps.getD 0 (0, [])).1 ≠ 0x00 ∧ (ps.getD 1 (0, [])).1 ≠ 0x00 ∧
    (f.dec (ps.getD 0 (0, [])).2).isSome ∧ pubEncOk (ps.getD 1 (0, [])).2

theorem attributeScript_alike (t : SigTx) (k : ℕ) {ps : List (Byte × Bytes)}
    (hkey : ¬ KeyClaim f ps) (hzero : ∀ p ∈ ps, p.1 = 0 → p.2 = []) :
    AttributesAlike (attributePushes sha256 ripemd160 f t k ps)
      (Go.attributeScript sha256 ripemd160 f (Go.RawTx.of t) k ps) := by
  unfold KeyClaim at hkey
  unfold attributePushes classify Go.attributeScript
  dsimp only
  rw [if_neg hkey]
  by_cases hdummy : ps.length ≥ 3 ∧ (ps.getD 0 (0, [])).1 = 0x00 ∧
      (ps.getD 0 (0, [])).2.length = 0
  · rw [if_pos hdummy, if_pos hdummy, parseMultisigTemplate_eq]
    have hlen : ((ps.take (ps.length - 1)).drop 1).length = ps.length - 2 := by
      rw [List.length_drop, List.length_take]
      omega
    have hslice : (ps.take (ps.length - 1)).drop 1 = (ps.drop 1).take (ps.length - 2) := by
      rw [List.drop_take]
      rfl
    rw [hlen, hslice]
    cases htmpl : rsTemplate (ps.getD (ps.length - 1) (0, [])).2 with
    | none => exact alike_dropped
    | some r =>
      obtain ⟨m, keys⟩ := r
      dsimp only
      by_cases hm : ps.length - 2 = m
      · have hslots : ∀ p ∈ (ps.drop 1).take m, p.1 = 0 → p.2 = [] := fun p hp =>
          hzero p (List.mem_of_mem_drop (List.mem_of_mem_take hp))
        rw [if_pos hm, if_pos hm, hm, goReadSigs_eq hslots]
        cases hsigs : readSigs f ((ps.drop 1).take m) with
        | none => exact alike_dropped
        | some sigs =>
          obtain ⟨hps, hall⟩ := readSigs_spec hsigs
          simp only [Option.map_some, attributeClaim, Claimant.credit, Claimant.sigs,
            Claimant.keys, Claimant.verifies, deleteSigs_template htmpl hall,
            applyFindAndDeleteAll_template htmpl hps, legacySighash_eq, inOrderScan_eq]
          have hany : (keys.any fun key => !f.onCurve key) = !keys.all f.onCurve := by
            rw [List.all_eq_not_any_not, Bool.not_not]
          rw [hany]
          exact alike_gates _ _ _ _ _
      · rw [if_neg hm, if_neg hm]
        exact alike_dropped
  · rw [if_neg hdummy, if_neg hdummy]
    exact alike_dropped

theorem attributeClaim_key (t : SigTx) (k : ℕ) {sig : ASig} (hsig : (f.dec sig.data).isSome)
    (pk : Bytes) :
    let identity := hash160 sha256 ripemd160 pk
    let sighash := legacySighash sha256 t k
      (if sig.data = identity.val then hashlessScript else p2pkhScript identity)
    attributeClaim sha256 ripemd160 f t k (.key sig pk) = .ok ⟨if !f.onCurve pk then .ONCURVE
      else if f.verify sighash sig.r sig.s pk then .FOUND else .VERIFY, identity, 0, sighash⟩ := by
  intro identity sighash
  obtain ⟨hlen, -⟩ := dec_isSome hsig
  obtain ⟨rs, hrs⟩ := Option.isSome_iff_exists.mp hsig
  have hwidth : ¬ (sig.data.length < 9 ∨ 73 < sig.data.length) := by
    have := f.dec_push hrs
    omega
  have hdelete : deleteSigs [sig] (p2pkhScript identity)
      = .ok (if sig.data = identity.val then hashlessScript else p2pkhScript identity) := by
    unfold deleteSigs
    rw [if_neg hwidth, findAndDelete_p2pkh identity hlen]
    rfl
  unfold attributeClaim
  simp only [Claimant.credit, Claimant.sigs, Claimant.keys, Claimant.verifies, List.all_cons,
    List.all_nil, Bool.and_true]
  rw [hdelete]
  rfl

/-- The double hash does not collide on `a` and `b`. -/
def Separates (a b : Bytes) : Prop := sha256d sha256 a = sha256d sha256 b → a = b

/-- The bytes hashed for the two signing scripts of a key do not collide. -/
def SeparatesScripts (t : SigTx) (k : ℕ) (pk : Bytes) : Prop :=
  Separates sha256 (sighashBytes t k (p2pkhScript (hash160 sha256 ripemd160 pk)))
    (sighashBytes t k hashlessScript)

/-- On a signature and a key the two sides part where the deletion finds the hash. -/
theorem attributeKey_alike {t : SigTx} {k : ℕ} (hk : k < t.ins.length) (sig : ASig)
    (hsig : (f.dec sig.data).isSome) {pk : Bytes}
    (hcol : SeparatesScripts sha256 ripemd160 t k pk) :
    AttributesAlike (attributeClaim sha256 ripemd160 f t k (.key sig pk))
      (.ok (Go.attributeKey sha256 ripemd160 f (Go.RawTx.of t) k pk sig.r sig.s)) ↔
      sig.data ≠ (hash160 sha256 ripemd160 pk).val := by
  have hclaim := attributeClaim_key sha256 ripemd160 t k hsig pk
  dsimp only at hclaim
  rw [hclaim]
  unfold Go.attributeKey
  simp only [legacySighash_eq]
  constructor
  · rintro ⟨x, y, hx, hy, -, hsame⟩ heq
    rw [if_pos heq] at hx
    have hx := Except.ok.inj hx
    have hy := Except.ok.inj hy
    have hstatus : x.status ≠ .CLASSIFY := by
      rw [← hx]
      dsimp only
      split
      · decide
      · split <;> decide
    have hhash : y.sighash = legacySighash sha256 t k
        (p2pkhScript (hash160 sha256 ripemd160 pk)) := by
      rw [← hy]
      split <;> rfl
    have hsighash := (hsame hstatus).1
    rw [hhash, ← hx] at hsighash
    have hlen : (p2pkhScript (hash160 sha256 ripemd160 pk)).length = 25 := by
      simp [p2pkhScript, (hash160 sha256 ripemd160 pk).property]
    have hshort : hashlessScript.length = 4 := rfl
    exact sighashBytes_ne hk (by omega) (by omega) (by omega) (hcol hsighash)
  · intro hne
    rw [if_neg hne]
    exact alike_gates _ _ _ _ _

theorem attributePushes_alike {t : SigTx} {k : ℕ} (hk : k < t.ins.length)
    {ps : List (Byte × Bytes)} (hzero : ∀ p ∈ ps, p.1 = 0 → p.2 = [])
    (hcol : SeparatesScripts sha256 ripemd160 t k (ps.getD 1 (0, [])).2) :
    AttributesAlike (attributePushes sha256 ripemd160 f t k ps)
      (Go.attributePushes sha256 ripemd160 f (Go.RawTx.of t) k ps) ↔
      ¬ (KeyClaim f ps ∧
        (ps.getD 0 (0, [])).2 = (hash160 sha256 ripemd160 (ps.getD 1 (0, [])).2).val) := by
  by_cases hkey : KeyClaim f ps
  · obtain ⟨hlen, hop0, hop1, hdec, hpub⟩ := hkey
    obtain ⟨rs, hrs⟩ := Option.isSome_iff_exists.mp hdec
    have hclass : classify f ps
        = some (.key ⟨rs.1, rs.2, (ps.getD 0 (0, [])).2⟩ (ps.getD 1 (0, [])).2) := by
      unfold classify
      dsimp only
      rw [if_pos ⟨hlen, hop0, hop1, hdec, hpub⟩, hrs]
      rfl
    have hgo : Go.attributePushes sha256 ripemd160 f (Go.RawTx.of t) k ps
        = .ok (Go.attributeKey sha256 ripemd160 f (Go.RawTx.of t) k (ps.getD 1 (0, [])).2
          rs.1 rs.2) := by
      unfold Go.attributePushes
      dsimp only
      rw [if_pos ⟨hlen, hop0, hop1⟩, parseDER_eq, hrs, Option.map_some]
      dsimp only
      rw [pubkeyCanonical_eq, if_pos ⟨rfl, hpub⟩]
    have halike := attributeKey_alike sha256 ripemd160 hk
      ⟨rs.1, rs.2, (ps.getD 0 (0, [])).2⟩ hdec hcol
    unfold attributePushes
    rw [hclass, hgo]
    dsimp only at halike ⊢
    rw [halike]
    exact ⟨fun h hboth => h hboth.2, fun h heq => h ⟨⟨hlen, hop0, hop1, hdec, hpub⟩, heq⟩⟩
  · have hgo : Go.attributePushes sha256 ripemd160 f (Go.RawTx.of t) k ps
        = Go.attributeScript sha256 ripemd160 f (Go.RawTx.of t) k ps := by
      unfold Go.attributePushes
      dsimp only
      by_cases htwo : ps.length = 2 ∧ (ps.getD 0 (0, [])).1 ≠ 0x00 ∧ (ps.getD 1 (0, [])).1 ≠ 0x00
      · rw [if_pos htwo, parseDER_eq]
        cases hdec : f.dec (ps.getD 0 (0, [])).2 with
        | none => rfl
        | some rs =>
          have hpub : ¬ pubEncOk (ps.getD 1 (0, [])).2 := by
            intro hpub
            exact hkey ⟨htwo.1, htwo.2.1, htwo.2.2, by rw [hdec]; rfl, hpub⟩
          rw [Option.map_some]
          dsimp only
          rw [pubkeyCanonical_eq, if_neg fun h => hpub h.2]
      · rw [if_neg htwo]
    rw [hgo]
    exact ⟨fun _ hboth => hkey hboth.1,
      fun _ => attributeScript_alike sha256 ripemd160 t k hkey hzero⟩

/-- More pushes than the daemon reads fit no template. -/
theorem goAttributePushes_long (t : Go.RawTx) (k : ℕ) {ps : List (Byte × Bytes)}
    (hlong : 32 < ps.length) : Go.attributePushes sha256 ripemd160 f t k ps = .ok {} := by
  unfold Go.attributePushes Go.attributeScript
  dsimp only
  rw [if_neg (by omega), parseMultisigTemplate_eq]
  split
  · split
    · rfl
    · rename_i m keys htmpl
      have hm := (rsTemplate_bounds htmpl).1
      rw [List.length_drop, List.length_take, if_neg (by omega)]
  · rfl

variable (f) in
/-- The input shows a signature and a key, and the signature push is the hash of the key. -/
def SignedByHash (t : SigTx) (k : ℤ) : Prop :=
  0 ≤ k ∧ ∃ i ps, t.ins[k.toNat]? = some i ∧ takePushes 32 i.ss = some ps ∧ KeyClaim f ps ∧
    (ps.getD 0 (0, [])).2 = (hash160 sha256 ripemd160 (ps.getD 1 (0, [])).2).val

/-- The second push of the input. -/
def secondPush (t : SigTx) (k : ℤ) : Bytes :=
  match t.ins[k.toNat]? with
  | none => []
  | some i =>
    match takePushes 32 i.ss with
    | none => []
    | some ps => (ps.getD 1 (0, [])).2

variable (f) in
/-- The daemon and Go agree on an input, unless its signature push is the hash of its key. -/
theorem attribute_agrees (t : SigTx) (k : ℤ)
    (hcol : SeparatesScripts sha256 ripemd160 t k.toNat (secondPush t k)) :
    AttributesAlike (attributeInput sha256 ripemd160 f t k)
      (Go.attributeInput sha256 ripemd160 f (Go.RawTx.of t) k) ↔
      ¬ SignedByHash sha256 ripemd160 f t k := by
  unfold attributeInput Go.attributeInput
  by_cases hneg : k < 0
  · rw [if_pos hneg, if_pos hneg]
    exact ⟨fun _ hby => absurd hby.1 (by omega), fun _ => alike_dropped⟩
  have hvin : (Go.RawTx.of t).vin[k.toNat]? = t.ins[k.toNat]?.map (·.ss) := List.getElem?_map
  rw [if_neg hneg, if_neg hneg, hvin]
  cases hi : t.ins[k.toNat]? with
  | none =>
    refine ⟨fun _ hby => ?_, fun _ => alike_dropped⟩
    obtain ⟨-, i, ps, hsome, -⟩ := hby
    rw [hi] at hsome
    cases hsome
  | some i =>
    have hk : k.toNat < t.ins.length := (List.getElem?_eq_some_iff.mp hi).1
    have hread : takePushes 32 i.ss = (Go.tokenizePushes i.ss).filter fun ps => ps.length ≤ 32 :=
      takePushes_eq 32 le_rfl
    rw [Option.map_some]
    dsimp only
    have hnone : takePushes 32 i.ss = none → ¬ SignedByHash sha256 ripemd160 f t k := by
      rintro hnone ⟨-, i', ps, hsome, hps, -⟩
      rw [hi] at hsome
      cases hsome
      rw [hnone] at hps
      cases hps
    cases hgo : Go.tokenizePushes i.ss with
    | none =>
      rw [hgo] at hread
      rw [hread]
      exact ⟨fun _ => hnone hread, fun _ => alike_dropped⟩
    | some ps =>
      rw [hgo] at hread
      by_cases hlong : ps.length ≤ 32
      · have hps : takePushes 32 i.ss = some ps := by
          rw [hread]
          simp [Option.filter, hlong]
        have hsecond : secondPush t k = (ps.getD 1 (0, [])).2 := by
          unfold secondPush
          rw [hi]
          dsimp only
          rw [hps]
        rw [hsecond] at hcol
        rw [hps]
        dsimp only
        rw [attributePushes_alike sha256 ripemd160 hk (takePushes_zero hps) hcol]
        constructor
        · rintro hno ⟨-, i', ps', hsome, hps', hboth⟩
          rw [hi] at hsome
          cases hsome
          rw [hps] at hps'
          cases hps'
          exact hno hboth
        · intro hno hboth
          exact hno ⟨by omega, i, ps, hi, hps, hboth⟩
      · have hps : takePushes 32 i.ss = none := by
          rw [hread]
          simp [Option.filter, hlong]
        rw [hps]
        dsimp only
        rw [goAttributePushes_long sha256 ripemd160 _ _ (by omega)]
        exact ⟨fun _ => hnone hps, fun _ => alike_dropped⟩

/-! ### A signature push that is a key hash -/

/-- The decoder of the daemon, with the curve left open. -/
def derCheck (onCurve : Bytes → Bool) (verify : Hash256 → Fixed 32 → Fixed 32 → Bytes → Bool) :
    SigCheck where
  dec := derParse
  onCurve := onCurve
  verify := verify
  dec_push := by
    intro p rs h
    obtain ⟨R, S, rfl, ⟨hR, hR33⟩, ⟨hS, hS33⟩, -⟩ := derParse_iff.mp h
    have hf := framed_derSig (R := R) (S := S) (h := 0x01) (by omega)
    have hlen := hf.length
    have hRne := hR.nonempty
    have hSne := hS.nonempty
    exact ⟨by omega, by omega, hf.seq, hf.hash⟩

/-- A key whose hash begins with 0x30 and ends with 0x01. -/
def signedKey : Bytes :=
  (leBytes 33 0x02e4608063158a6569cf2f538d688472f780d45b9d1d5b38e90976dc3d62abe9e9).reverse

def signedKeyHash : H160 :=
  ⟨(leBytes 20 0x30580e36e7251874c9cb4f2c1aaa578a5c3ed101).reverse, rfl⟩

/-- One input that pushes `sig` and `signedKey`, one output. -/
def signedTx (sig : Bytes) : SigTx where
  version := 1
  ins := [⟨⟨List.replicate 32 0x11 ++ List.replicate 4 0, rfl⟩,
    emitPush sig ++ emitPush signedKey, 0xFFFFFFFF⟩]
  outs := [⟨100000, [0x6A]⟩]
  locktime := 0

def bytes32 (v : ℕ) : Hash256 :=
  ⟨(leBytes 32 v).reverse, by rw [List.length_reverse, length_leBytes]⟩

/-- SHA-256 of what is hashed for `signedTx`. -/
def signedSha256 (b : Bytes) : Hash256 :=
  let full := bytes32 0xc22ecdd67d844f52f0430653ead790ff09b14335fafdbb2c8ba7d3c8491d769d
  let short := bytes32 0x9259845b15a5975aaccf02deff06ba9487f90b1fbf8f8acdf949544dc039486d
  if b = signedKey then
    bytes32 0x6234d90a75eac7944761723af7d5cb88accb6722f524965350fb67bfbadd4ecd
  else if b = sighashBytes (signedTx []) 0 (p2pkhScript signedKeyHash) then full
  else if b = sighashBytes (signedTx []) 0 hashlessScript then short
  else if b = full.val then
    bytes32 0x6cf8f043bf49c1cdf3b953ae5548dce4259577761f15bcb1702d052e49ad7351
  else if b = short.val then
    bytes32 0xd2c8aaebd87b20194393aee8932f34b1066cc35bbc1dc36b0f83dfbf87501a33
  else zeros 32

def signedRipemd160 (h : Hash256) : H160 :=
  if h = bytes32 0x6234d90a75eac7944761723af7d5cb88accb6722f524965350fb67bfbadd4ecd then
    signedKeyHash
  else zeros 20

/-- The hash that the holder of the key signs. -/
def signedHash : Hash256 :=
  bytes32 0x6cf8f043bf49c1cdf3b953ae5548dce4259577761f15bcb1702d052e49ad7351

theorem attribute_agrees_sample :
    AttributesAlike (attributeInput signedSha256 signedRipemd160
        (derCheck (fun _ => true) fun h _ _ _ => h = signedHash)
        (signedTx (derSig [1] [1] 0x01)) 0)
      (Go.attributeInput signedSha256 signedRipemd160
        (derCheck (fun _ => true) fun h _ _ _ => h = signedHash)
        (Go.RawTx.of (signedTx (derSig [1] [1] 0x01))) 0) := by
  have hcol : SeparatesScripts signedSha256 signedRipemd160 (signedTx (derSig [1] [1] 0x01)) 0
      (secondPush (signedTx (derSig [1] [1] 0x01)) 0) := by
    intro h
    exact absurd h (by decide +kernel)
  refine (attribute_agrees signedSha256 signedRipemd160 _ (signedTx (derSig [1] [1] 0x01)) 0
    hcol).mpr ?_
  rintro ⟨-, i, ps, hi, hps, -, heq⟩
  obtain rfl : (signedTx (derSig [1] [1] 0x01)).ins[0] = i := Option.some.inj hi
  have hread : takePushes 32 ((signedTx (derSig [1] [1] 0x01)).ins[0]).ss
      = some [(9, derSig [1] [1] 0x01), (33, signedKey)] := by decide +kernel
  rw [hread] at hps
  cases hps
  exact absurd heq (by decide +kernel)

/-- Accepts every push that looks like a signature. -/
def looseCheck : SigCheck where
  dec p := if 9 ≤ p.length ∧ p.length ≤ 73 ∧ p.getD 0 0 = 0x30 ∧ p.getD (p.length - 1) 0 = 0x01
    then some (zeros 32, zeros 32) else none
  onCurve _ := true
  verify h _ _ _ := h = signedHash
  dec_push := by
    intro p rs h
    split at h
    · assumption
    · cases h

/-- The daemon verifies against the script without the hash, Go against the script with it. -/
theorem signed_by_hash_split :
    ¬ AttributesAlike
      (attributeInput signedSha256 signedRipemd160 looseCheck (signedTx signedKeyHash.val) 0)
      (Go.attributeInput signedSha256 signedRipemd160 looseCheck
        (Go.RawTx.of (signedTx signedKeyHash.val)) 0) := by
  have hc : attributeInput signedSha256 signedRipemd160 looseCheck (signedTx signedKeyHash.val) 0
      = .ok ⟨.VERIFY, signedKeyHash, 0,
        bytes32 0xd2c8aaebd87b20194393aee8932f34b1066cc35bbc1dc36b0f83dfbf87501a33⟩ := by
    decide +kernel
  have hg : Go.attributeInput signedSha256 signedRipemd160 looseCheck
      (Go.RawTx.of (signedTx signedKeyHash.val)) 0 = .ok ⟨3, signedHash, signedKeyHash⟩ := by
    decide +kernel
  rintro ⟨x, y, hx, hy, hstatus, -⟩
  rw [hc] at hx
  rw [hg] at hy
  cases hx
  cases hy
  cases hstatus

end NamespaceIndexer.Daemon
