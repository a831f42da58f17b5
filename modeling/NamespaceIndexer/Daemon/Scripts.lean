import NamespaceIndexer.Daemon.Attrib
import NamespaceIndexer.Daemon.Der

/-!
# Signing scripts (`attrib.c`, `attrib.go`)

The pushes of a scriptSig, the redeemScript template and `FindAndDelete`, as the daemon and the
Go port code them. On a script whose opcodes carry no length field both deletions drop the
opcodes that equal the pattern.
-/

namespace NamespaceIndexer.Daemon

open Fold Lib Curve

/-! ### Pushes -/

/-- `take_push`: the opcode, its data, and the bytes after them. -/
def takePush : Bytes → Option (Byte × Bytes × Bytes)
  | [] => none
  | b :: s =>
    if b.val = 0x00 then some (b, [], s)
    else if 0x01 ≤ b.val ∧ b.val ≤ 0x4B then
      if s.length < b.val then none else some (b, s.take b.val, s.drop b.val)
    else if b.val = 0x4C then
      if s.length < 1 then none
      else
        let len := (s.getD 0 0).val
        let s := s.drop 1
        if len < 76 ∨ 520 < len ∨ s.length < len then none
        else some (b, s.take len, s.drop len)
    else if b.val = 0x4D then
      if s.length < 2 then none
      else
        let len := (s.getD 0 0).val + 256 * (s.getD 1 0).val
        let s := s.drop 2
        if len < 256 ∨ 520 < len ∨ s.length < len then none
        else some (b, s.take len, s.drop len)
    else none

/-- The pushes of a script, at most `cap` of them. -/
def takePushes : ℕ → Bytes → Option (List (Byte × Bytes))
  | 0, s => if s = [] then some [] else none
  | cap + 1, s =>
    if s = [] then some []
    else
      match takePush s with
      | none => none
      | some (op, data, rest) => (takePushes cap rest).map ((op, data) :: ·)

/-- One turn of `tokenizePushes`. -/
def Go.nextPush : Bytes → Option (Byte × Bytes × Bytes)
  | [] => none
  | op :: s =>
    if op.val = 0x00 then some (op, [], s)
    else if op.val ≥ 0x01 ∧ op.val ≤ 0x4B then
      let n := op.val
      if n > s.length then none else some (op, s.take n, s.drop n)
    else if op.val = 0x4C then
      if 1 > s.length then none
      else
        let n := (s.getD 0 0).val
        let s := s.drop 1
        if n < 76 then none
        else if n > s.length then none else some (op, s.take n, s.drop n)
    else if op.val = 0x4D then
      if 2 > s.length then none
      else
        let n := (s.getD 0 0).val + 256 * (s.getD 1 0).val
        let s := s.drop 2
        if n < 256 ∨ n > 520 then none
        else if n > s.length then none else some (op, s.take n, s.drop n)
    else none

/-- The loop of `tokenizePushes`; every turn takes a byte. -/
def Go.tokenizeFrom : ℕ → Bytes → Option (List (Byte × Bytes))
  | 0, _ => some []
  | fuel + 1, s =>
    if s = [] then some []
    else
      match Go.nextPush s with
      | none => none
      | some (op, data, rest) => (Go.tokenizeFrom fuel rest).map ((op, data) :: ·)

/-- `tokenizePushes`. -/
def Go.tokenizePushes (s : Bytes) : Option (List (Byte × Bytes)) := Go.tokenizeFrom s.length s

theorem nextPush_eq (s : Bytes) : Go.nextPush s = takePush s := by
  cases s with
  | nil => rfl
  | cons b s =>
    unfold Go.nextPush takePush
    have hbyte := (s.getD 0 0).isLt
    have hcap : ∀ n m : ℕ, n < 256 → ((n < 76 ∨ 520 < n ∨ m < n) ↔ n < 76 ∨ m < n) := by
      intro n m h
      omega
    have hsplit : ∀ {p q : Prop} [Decidable p] [Decidable q] (x : Option (Byte × Bytes × Bytes)),
        (if p then none else if q then none else x) = if p ∨ q then none else x := by
      intro p q _ _ x
      by_cases hp : p <;> by_cases hq : q <;> simp [hp, hq]
    simp only [ge_iff_le, gt_iff_lt, hsplit, hcap _ _ hbyte, or_assoc]

/-- What a push takes: the opcode, a length field and the data, which `OP_0` does not have. -/
theorem takePush_inv {s d rest : Bytes} {op : Byte} (h : takePush s = some (op, d, rest)) :
    ∃ s' i j, s = op :: s' ∧ d = (s'.drop i).take j ∧ rest = (s'.drop i).drop j ∧
      (op = 0 → j = 0) := by
  cases s with
  | nil => cases h
  | cons b s =>
    have hdata : ∀ i j, (b.val = 0 → j = 0) →
        some (b, (s.drop i).take j, (s.drop i).drop j) = some (op, d, rest) →
        ∃ s' i j, b :: s = op :: s' ∧ d = (s'.drop i).take j ∧ rest = (s'.drop i).drop j ∧
          (op = 0 → j = 0) := by
      intro i j hzero heq
      simp only [Option.some.injEq, Prod.mk.injEq] at heq
      obtain ⟨rfl, rfl, rfl⟩ := heq
      exact ⟨s, i, j, rfl, rfl, rfl, fun hb => hzero (congrArg Fin.val hb)⟩
    unfold takePush at h
    dsimp only at h
    split at h
    · exact hdata 0 0 (fun _ => rfl) h
    rename_i hb
    split at h
    · split at h
      · cases h
      · exact hdata 0 _ (fun hzero => absurd hzero hb) h
    split at h
    · split at h
      · cases h
      split at h
      · cases h
      · exact hdata 1 _ (fun hzero => absurd hzero hb) h
    split at h
    · split at h
      · cases h
      split at h
      · cases h
      · exact hdata 2 _ (fun hzero => absurd hzero hb) h
    · cases h

/-- A push takes its opcode off the script at least. -/
theorem takePush_length {s d rest : Bytes} {op : Byte} (h : takePush s = some (op, d, rest)) :
    rest.length < s.length := by
  obtain ⟨s', i, j, rfl, -, rfl, -⟩ := takePush_inv h
  simp only [List.length_drop, List.length_cons]
  omega

theorem takePush_zero {s d rest : Bytes} (h : takePush s = some (0, d, rest)) : d = [] := by
  obtain ⟨s', i, j, -, rfl, -, hzero⟩ := takePush_inv h
  rw [hzero rfl, List.take_zero]

theorem takePushes_zero {cap : ℕ} {s : Bytes} {ps : List (Byte × Bytes)}
    (h : takePushes cap s = some ps) : ∀ p ∈ ps, p.1 = 0 → p.2 = [] := by
  induction cap generalizing s ps with
  | zero =>
    unfold takePushes at h
    split at h
    · cases h
      simp
    · cases h
  | succ cap ih =>
    unfold takePushes at h
    split at h
    · cases h
      simp
    · split at h
      · cases h
      · rename_i op data rest hpush
        obtain ⟨ps', hps, rfl⟩ := Option.map_eq_some_iff.mp h
        intro p hp hzero
        rcases List.mem_cons.mp hp with rfl | hp
        · obtain rfl : op = 0 := hzero
          exact takePush_zero hpush
        · exact ih hps p hp hzero

/-- The daemon reads the pushes that Go reads, if they are not too many. -/
theorem takePushes_eq (cap : ℕ) {fuel : ℕ} {s : Bytes} (hfuel : s.length ≤ fuel) :
    takePushes cap s = (Go.tokenizeFrom fuel s).filter fun ps => ps.length ≤ cap := by
  induction cap generalizing fuel s with
  | zero =>
    cases fuel with
    | zero =>
      have hs : s = [] := List.length_eq_zero_iff.mp (by omega)
      subst hs
      rfl
    | succ fuel =>
      unfold takePushes Go.tokenizeFrom
      by_cases hs : s = []
      · rw [if_pos hs, if_pos hs]
        rfl
      · rw [if_neg hs, if_neg hs]
        cases Go.nextPush s with
        | none => rfl
        | some p =>
          obtain ⟨op, data, rest⟩ := p
          cases h : Go.tokenizeFrom fuel rest <;> simp [h, Option.filter]
  | succ cap ih =>
    cases fuel with
    | zero =>
      have hs : s = [] := List.length_eq_zero_iff.mp (by omega)
      subst hs
      rfl
    | succ fuel =>
      unfold takePushes Go.tokenizeFrom
      by_cases hs : s = []
      · rw [if_pos hs, if_pos hs]
        rfl
      · rw [if_neg hs, if_neg hs, nextPush_eq]
        cases hp : takePush s with
        | none => rfl
        | some p =>
          obtain ⟨op, data, rest⟩ := p
          have hrest : rest.length ≤ fuel := by
            have := takePush_length hp
            omega
          dsimp only
          rw [ih hrest]
          cases h : Go.tokenizeFrom fuel rest <;> simp [Option.filter, apply_ite]

/-! ### Keys and redeemScripts -/

/-- `SECP_P`, big-endian. -/
def secpPBe : Fixed 32 :=
  ⟨List.replicate 27 0xFF ++ [0xFE, 0xFF, 0xFF, 0xFC, 0x2F], rfl⟩

/-- `pub_enc_ok`. -/
def pubEncOk (p : Bytes) : Bool :=
  if p.length = 33 then
    (p.getD 0 0 = 0x02 ∨ p.getD 0 0 = 0x03) ∧ beCmp (p.drop 1) secpPBe.val = .lt
  else if p.length = 65 then
    p.getD 0 0 = 0x04 ∧ beCmp ((p.drop 1).take 32) secpPBe.val = .lt ∧
      beCmp (p.drop 33) secpPBe.val = .lt
  else false

/-- `pubkeyCanonical`. -/
def Go.pubkeyCanonical (pk : Bytes) : Bool :=
  if pk.length = 33 ∧ (pk.getD 0 0 = 0x02 ∨ pk.getD 0 0 = 0x03) then
    let x := (pk.take 33).drop 1
    beCmp x secpPBe.val = .lt
  else if pk.length = 65 ∧ pk.getD 0 0 = 0x04 then
    let x := (pk.take 33).drop 1
    let y := (pk.take 65).drop 33
    beCmp x secpPBe.val = .lt ∧ beCmp y secpPBe.val = .lt
  else false

/-- The key pushes of `rs_template`: the keys, and the script after them. -/
def rsKeys : ℕ → List Bytes → Bytes → Option (List Bytes × Bytes)
  | 0, keys, rs => some (keys, rs)
  | fuel + 1, keys, rs =>
    if rs ≠ [] ∧ rs.getD 0 0 = 0x21 then
      if rs.length < 1 + 33 then none
      else
        let k := (rs.drop 1).take 33
        if k.getD 0 0 ≠ 0x02 ∧ k.getD 0 0 ≠ 0x03 then none
        else if beCmp (k.drop 1) secpPBe.val ≠ .lt then none
        else if keys.length ≥ 15 then none
        else rsKeys fuel (keys ++ [k]) (rs.drop 34)
    else some (keys, rs)

/-- `rs_template`: how many signatures it asks for, and the keys. -/
def rsTemplate (rs : Bytes) : Option (ℕ × List Bytes) :=
  if rs.length < 1 then none
  else
    let opm := (rs.getD 0 0).val
    if opm < 0x51 ∨ opm > 0x60 then none
    else
      let m := opm - 0x50
      match rsKeys rs.length [] (rs.drop 1) with
      | none => none
      | some (keys, rest) =>
        let cnt := keys.length
        if cnt = 0 ∨ rest = [] then none
        else
          let opn := (rest.getD 0 0).val
          if opn < 0x51 ∨ opn > 0x60 then none
          else
            let nn := opn - 0x50
            if nn ≠ cnt ∨ m < 1 ∨ m > nn ∨ nn > 15 then none
            else if rest.drop 1 = [] ∨ rest.getD 1 0 ≠ 0xAE then none
            else if rest.drop 2 ≠ [] then none
            else some (m, keys)

/-- The key pushes of `parseMultisigTemplate`. -/
def Go.templateKeys : ℕ → List Bytes → Bytes → Option (List Bytes × Bytes)
  | 0, keys, s => some (keys, s)
  | fuel + 1, keys, s =>
    if s ≠ [] ∧ s.getD 0 0 = 0x21 then
      if 1 + 33 > s.length then none
      else
        let key := (s.drop 1).take 33
        if key.getD 0 0 ≠ 0x02 ∧ key.getD 0 0 ≠ 0x03 then none
        else if beCmp ((key.take 33).drop 1) secpPBe.val ≠ .lt then none
        else Go.templateKeys fuel (keys ++ [key]) (s.drop 34)
    else some (keys, s)

/-- `parseMultisigTemplate`. -/
def Go.parseMultisigTemplate (s : Bytes) : Option (ℕ × List Bytes) :=
  if s.length < 1 then none
  else if (s.getD 0 0).val < 0x51 ∨ (s.getD 0 0).val > 0x60 then none
  else
    let m := (s.getD 0 0).val - 0x50
    match Go.templateKeys s.length [] (s.drop 1) with
    | none => none
    | some (keys, rest) =>
      if rest = [] ∨ (rest.getD 0 0).val < 0x51 ∨ (rest.getD 0 0).val > 0x60 then none
      else
        let n := (rest.getD 0 0).val - 0x50
        if rest.drop 1 = [] ∨ rest.getD 1 0 ≠ 0xAE then none
        else if rest.drop 2 ≠ [] then none
        else if n ≠ keys.length ∨ m < 1 ∨ m > n ∨ n > 15 then none
        else some (m, keys)

theorem pubkeyCanonical_eq (p : Bytes) : Go.pubkeyCanonical p = pubEncOk p := by
  unfold Go.pubkeyCanonical pubEncOk
  by_cases h33 : p.length = 33
  · have htake : p.take 33 = p := List.take_of_length_le (by omega)
    by_cases hhead : p.getD 0 0 = 0x02 ∨ p.getD 0 0 = 0x03
    · rw [if_pos ⟨h33, hhead⟩, if_pos h33, htake]
      simp only [hhead, true_and]
    · have h65 : ¬ (p.length = 65 ∧ p.getD 0 0 = 0x04) := by omega
      rw [if_neg fun h => hhead h.2, if_neg h65, if_pos h33]
      simp only [hhead, false_and, decide_false]
  · rw [if_neg fun h => h33 h.1, if_neg h33]
    by_cases h65 : p.length = 65
    · have htake : p.take 65 = p := List.take_of_length_le (by omega)
      rw [if_pos h65, htake, List.drop_take]
      by_cases hhead : p.getD 0 0 = 0x04
      · rw [if_pos ⟨h65, hhead⟩]
        simp only [hhead, true_and]
      · rw [if_neg fun h => hhead h.2]
        simp only [hhead, false_and, decide_false]
    · rw [if_neg fun h => h65 h.1, if_neg h65]

theorem templateKeys_length {fuel : ℕ} {keys ks : List Bytes} {s rest : Bytes}
    (h : Go.templateKeys fuel keys s = some (ks, rest)) : keys.length ≤ ks.length := by
  induction fuel generalizing keys s with
  | zero =>
    cases h
    exact le_rfl
  | succ fuel ih =>
    unfold Go.templateKeys at h
    split at h
    · split at h
      · cases h
      dsimp only at h
      split at h
      · cases h
      split at h
      · cases h
      have hle := ih h
      rw [List.length_append, List.length_singleton] at hle
      omega
    · cases h
      exact le_rfl

/-- The daemon stops after fifteen keys. -/
theorem rsKeys_eq (fuel : ℕ) {keys : List Bytes} (s : Bytes) (hkeys : keys.length ≤ 15) :
    rsKeys fuel keys s = (Go.templateKeys fuel keys s).filter fun r => r.1.length ≤ 15 := by
  induction fuel generalizing keys s with
  | zero => simp [rsKeys, Go.templateKeys, Option.filter, hkeys]
  | succ fuel ih =>
    unfold rsKeys Go.templateKeys
    by_cases hpush : s ≠ [] ∧ s.getD 0 0 = 0x21
    · rw [if_pos hpush, if_pos hpush]
      by_cases hshort : s.length < 1 + 33
      · rw [if_pos hshort, if_pos hshort]
        rfl
      rw [if_neg hshort, if_neg hshort]
      dsimp only
      have htake : (((s.drop 1).take 33).take 33).drop 1 = ((s.drop 1).take 33).drop 1 := by
        rw [List.take_take, min_self]
      rw [htake]
      split
      · rfl
      split
      · rfl
      by_cases hfull : keys.length ≥ 15
      · rw [if_pos hfull]
        cases hgo : Go.templateKeys fuel (keys ++ [(s.drop 1).take 33]) (s.drop 34) with
        | none => rfl
        | some r =>
          have hle := templateKeys_length hgo
          rw [List.length_append, List.length_singleton] at hle
          have hlong : ¬ r.1.length ≤ 15 := by omega
          simp [Option.filter, hlong]
      · rw [if_neg hfull]
        refine ih _ ?_
        rw [List.length_append, List.length_singleton]
        omega
    · rw [if_neg hpush, if_neg hpush]
      simp [Option.filter, hkeys]

theorem parseMultisigTemplate_eq (s : Bytes) : Go.parseMultisigTemplate s = rsTemplate s := by
  unfold Go.parseMultisigTemplate rsTemplate
  by_cases hempty : s.length < 1
  · rw [if_pos hempty, if_pos hempty]
  rw [if_neg hempty, if_neg hempty]
  dsimp only
  by_cases hopm : (s.getD 0 0).val < 0x51 ∨ (s.getD 0 0).val > 0x60
  · rw [if_pos hopm, if_pos hopm]
  have hnone : ([] : List Bytes).length ≤ 15 := by simp
  rw [if_neg hopm, if_neg hopm, rsKeys_eq _ _ hnone]
  cases Go.templateKeys s.length [] (s.drop 1) with
  | none => rfl
  | some r =>
    obtain ⟨keys, rest⟩ := r
    by_cases hcount : (rest.getD 0 0).val - 0x50 ≠ keys.length ∨ (s.getD 0 0).val - 0x50 < 1 ∨
        (s.getD 0 0).val - 0x50 > (rest.getD 0 0).val - 0x50 ∨ (rest.getD 0 0).val - 0x50 > 15
    · by_cases hmany : keys.length ≤ 15
      · simp only [Option.filter, hmany, decide_true, if_true, if_pos hcount, ite_self]
      · simp only [Option.filter, hmany, decide_false, if_pos hcount, ite_self]
        rfl
    · have hmany : keys.length ≤ 15 := by omega
      have hsome : keys.length ≠ 0 := by omega
      simp only [Option.filter, hmany, decide_true, if_true, if_neg hcount, hsome, false_or]
      by_cases hrest : rest = []
      · rw [if_pos (Or.inl hrest), if_pos hrest]
      by_cases hopn : (rest.getD 0 0).val < 0x51 ∨ (rest.getD 0 0).val > 0x60
      · rw [if_pos (Or.inr hopn), if_neg hrest, if_pos hopn]
      · rw [if_neg (not_or.mpr ⟨hrest, hopn⟩), if_neg hrest, if_neg hopn]

/-! ### `FindAndDelete` -/

/-- `next_op`: the bytes after the opcode and its data, in a script of `n` bytes. Sums that leave
`int` are faults. -/
def nextOp (n : ℕ) : Bytes → Except Stop Bytes
  | [] => .error .refuse
  | op :: s =>
    -- the width of the length field, and `dl`
    let width := if op.val = 0x4C then 1 else if op.val = 0x4D then 2
      else if op.val = 0x4E then 4 else 0
    if s.length < width then .error .refuse
    else
      let dl := if op.val < 0x4C then op.val else leVal (s.take width)
      let s := s.drop width
      if Overflows ((n : ℤ) - s.length + dl) then .error .fault
      else if s.length < dl then .error .refuse
      else .ok (s.drop dl)

/-- The inner loop of `find_and_delete`: no copy of the pattern stands in front. -/
def dropCopies (pat : Bytes) : ℕ → Bytes → Bytes
  | 0, s => s
  | fuel + 1, s =>
    if pat.length ≤ s.length ∧ s.take pat.length = pat then dropCopies pat fuel (s.drop pat.length)
    else s

def findAndDeleteFrom (n : ℕ) (pat : Bytes) : ℕ → Bytes → Except Stop Bytes
  | 0, s => .ok s
  | fuel + 1, s =>
    let s := dropCopies pat s.length s
    match nextOp n s with
    | .error .refuse => .ok s
    | .error .fault => .error .fault
    | .ok rest =>
      match findAndDeleteFrom n pat fuel rest with
      | .error e => .error e
      | .ok out => .ok (s.take (s.length - rest.length) ++ out)

/-- `find_and_delete`. -/
def findAndDelete (s pat : Bytes) : Except Stop Bytes :=
  if pat.length = 0 then .ok s else findAndDeleteFrom s.length pat (s.length + 1) s

/-- `opSpan` of the opcode in front; zero if its length field is cut short. -/
def Go.opSpan (s : Bytes) : ℕ :=
  let op := s.getD 0 0
  if op.val < 0x4C then if 1 + op.val > s.length then 0 else 1 + op.val
  else if op.val = 0x4C then if 2 > s.length then 0 else 2 + (s.getD 1 0).val
  else if op.val = 0x4D then
    if 3 > s.length then 0 else 3 + ((s.getD 1 0).val + 256 * (s.getD 2 0).val)
  else if op.val = 0x4E then if 5 > s.length then 0 else 5 + leVal ((s.drop 1).take 4)
  else 1

/-- The loop of `findAndDelete`; a slice past the end of the script is a fault. -/
def Go.findAndDeleteFrom (pattern : Bytes) : ℕ → Bytes → Except Stop Bytes
  | 0, s => .ok s
  | fuel + 1, s =>
    if s = [] then .ok []
    else
      let opLen := Go.opSpan s
      if opLen = 0 then .ok s
      else if pattern.length ≤ s.length ∧ s.take pattern.length = pattern then
        Go.findAndDeleteFrom pattern fuel (s.drop pattern.length)
      else if s.length < opLen then .error .fault
      else
        match Go.findAndDeleteFrom pattern fuel (s.drop opLen) with
        | .error e => .error e
        | .ok out => .ok (s.take opLen ++ out)

/-- `findAndDelete`. -/
def Go.findAndDelete (script pattern : Bytes) : Except Stop Bytes :=
  if pattern.length = 0 then .ok script
  else Go.findAndDeleteFrom pattern (script.length + 1) script

/-! ### Scripts without length fields -/

/-- An opcode that carries no length field, with its data. -/
def Plain (c : Bytes) : Prop :=
  ∃ op data, c = op :: data ∧
    (op.val < 0x4C ∧ data.length = op.val ∨ 0x4E < op.val ∧ data.length = 0)

theorem Plain.length_pos {c : Bytes} (h : Plain c) : 0 < c.length := by
  obtain ⟨op, data, rfl, -⟩ := h
  simp

/-- An opcode is a prefix of a script that starts with an opcode only if they are equal. -/
theorem Plain.take_iff {c pat : Bytes} (hc : Plain c) (hp : Plain pat) (s : Bytes) :
    pat.length ≤ (c ++ s).length ∧ (c ++ s).take pat.length = pat ↔ c = pat := by
  obtain ⟨op, data, rfl, hdata⟩ := hc
  obtain ⟨op', data', rfl, hdata'⟩ := hp
  constructor
  · rintro ⟨-, h⟩
    rw [List.cons_append, List.length_cons, List.take_succ_cons] at h
    obtain ⟨rfl, htail⟩ := List.cons.inj h
    have hlen : data'.length = data.length := by omega
    rw [hlen, List.take_left] at htail
    rw [htail]
  · intro h
    rw [h]
    simp

theorem Plain.nextOp {c : Bytes} (h : Plain c) {n : ℕ} {s : Bytes} (hn : (c ++ s).length ≤ n)
    (hint : n < 2147483648) : nextOp n (c ++ s) = .ok s := by
  obtain ⟨op, data, rfl, hdata⟩ := h
  have hfits : ¬ Overflows ((n : ℤ) - (data ++ s).length + data.length) := by
    unfold Overflows
    simp only [List.length_append, List.length_cons] at hn ⊢
    omega
  have hlen : ¬ (data ++ s).length < data.length := by simp
  have hwidth : ¬ op.val = 0x4C ∧ ¬ op.val = 0x4D ∧ ¬ op.val = 0x4E := by omega
  have hdl : (if op.val < 0x4C then op.val else leVal []) = data.length := by
    rcases hdata with ⟨hdirect, hdata⟩ | ⟨hhigh, hdata⟩
    · rw [if_pos hdirect, hdata]
    · rw [if_neg (by omega), hdata]
      rfl
  rw [List.cons_append, Daemon.nextOp]
  simp only [hwidth, if_false, Nat.not_lt_zero, List.drop_zero, List.take_zero, hdl]
  rw [if_neg hfits, if_neg hlen, List.drop_left]

theorem Plain.opSpan {c : Bytes} (h : Plain c) (s : Bytes) : Go.opSpan (c ++ s) = c.length := by
  obtain ⟨op, data, rfl, hdata⟩ := h
  have hop : (op :: data ++ s).getD 0 0 = op := rfl
  unfold Go.opSpan
  simp only [hop]
  rcases hdata with ⟨hdirect, hdata⟩ | ⟨hhigh, hdata⟩
  · rw [if_pos hdirect, ← hdata, if_neg (by simp; omega), List.length_cons, Nat.add_comm]
  · rw [if_neg (by omega), if_neg (by omega), if_neg (by omega), if_neg (by omega)]
    simp [hdata]

theorem dropCopies_flatten {pat : Bytes} (hp : Plain pat) {cs : List Bytes}
    (hcs : ∀ c ∈ cs, Plain c) {fuel : ℕ} (hfuel : cs.flatten.length ≤ fuel) :
    dropCopies pat fuel cs.flatten = (cs.dropWhile (· = pat)).flatten := by
  induction cs generalizing fuel with
  | nil =>
    have hpos := hp.length_pos
    cases fuel with
    | zero => rfl
    | succ fuel =>
      have hlong : ¬ pat.length ≤ ([] : List Bytes).flatten.length := by
        rw [List.flatten_nil, List.length_nil]
        omega
      unfold dropCopies
      rw [if_neg fun h => hlong h.1]
      rfl
  | cons c cs ih =>
    have hc := hcs c List.mem_cons_self
    have hpos := hc.length_pos
    rw [List.flatten_cons, List.length_append] at hfuel
    obtain ⟨fuel, rfl⟩ : ∃ m, fuel = m + 1 := ⟨fuel - 1, by omega⟩
    unfold dropCopies
    rw [List.flatten_cons]
    by_cases hcp : c = pat
    · rw [if_pos ((hc.take_iff hp _).mpr hcp), List.dropWhile_cons_of_pos (by simpa using hcp),
        ← hcp, List.drop_left, hcp]
      exact ih (fun c hc => hcs c (List.mem_cons_of_mem _ hc)) (by omega)
    · rw [if_neg fun h => hcp ((hc.take_iff hp _).mp h),
        List.dropWhile_cons_of_neg (by simpa using hcp), List.flatten_cons]

/-- The opcodes that equal the pattern are deleted. -/
theorem findAndDeleteFrom_flatten {pat : Bytes} (hp : Plain pat) {n : ℕ} (hint : n < 2147483648)
    {cs : List Bytes} (hcs : ∀ c ∈ cs, Plain c) (hn : cs.flatten.length ≤ n) {fuel : ℕ}
    (hfuel : cs.length < fuel) :
    findAndDeleteFrom n pat fuel cs.flatten = .ok (cs.filter (· ≠ pat)).flatten := by
  induction cs generalizing fuel with
  | nil =>
    obtain ⟨fuel, rfl⟩ : ∃ m, fuel = m + 1 := ⟨fuel - 1, by omega⟩
    rfl
  | cons c cs ih =>
    have hrest : ∀ c ∈ cs, Plain c := fun c hc => hcs c (List.mem_cons_of_mem _ hc)
    have hshort : cs.flatten.length ≤ n := by
      rw [List.flatten_cons, List.length_append] at hn
      omega
    obtain ⟨fuel, rfl⟩ : ∃ m, fuel = m + 1 := ⟨fuel - 1, by omega⟩
    rw [List.length_cons] at hfuel
    by_cases hcp : c = pat
    · -- the inner loop takes the copy, and goes on with what follows it
      have hnext : findAndDeleteFrom n pat (fuel + 1) (c :: cs).flatten
          = findAndDeleteFrom n pat (fuel + 1) cs.flatten := by
        unfold findAndDeleteFrom
        rw [dropCopies_flatten hp hcs le_rfl, dropCopies_flatten hp hrest le_rfl,
          List.dropWhile_cons_of_pos (by simpa using hcp)]
      rw [hnext, ih hrest hshort (by omega), List.filter_cons_of_neg (by simpa using hcp)]
    · have hfirst : dropCopies pat (c :: cs).flatten.length (c :: cs).flatten = c ++ cs.flatten := by
        rw [dropCopies_flatten hp hcs le_rfl, List.dropWhile_cons_of_neg (by simpa using hcp),
          List.flatten_cons]
      have hop := (hcs c List.mem_cons_self).nextOp (by rwa [List.flatten_cons] at hn) hint
      unfold findAndDeleteFrom
      simp only [hfirst, hop, ih hrest hshort (Nat.lt_of_succ_lt_succ hfuel)]
      rw [List.length_append, Nat.add_sub_cancel, List.take_left,
        List.filter_cons_of_pos (by simpa using hcp), List.flatten_cons]

theorem goFindAndDeleteFrom_flatten {pat : Bytes} (hp : Plain pat) {cs : List Bytes}
    (hcs : ∀ c ∈ cs, Plain c) {fuel : ℕ} (hfuel : cs.length < fuel) :
    Go.findAndDeleteFrom pat fuel cs.flatten = .ok (cs.filter (· ≠ pat)).flatten := by
  induction cs generalizing fuel with
  | nil =>
    obtain ⟨fuel, rfl⟩ : ∃ m, fuel = m + 1 := ⟨fuel - 1, by omega⟩
    rfl
  | cons c cs ih =>
    have hrest : ∀ c ∈ cs, Plain c := fun c hc => hcs c (List.mem_cons_of_mem _ hc)
    have hc := hcs c List.mem_cons_self
    have hpos := hc.length_pos
    obtain ⟨fuel, rfl⟩ : ∃ m, fuel = m + 1 := ⟨fuel - 1, by omega⟩
    have hne : ¬ c ++ cs.flatten = [] := by
      intro h
      rw [(List.append_eq_nil_iff.mp h).1] at hpos
      cases hpos
    unfold Go.findAndDeleteFrom
    rw [List.flatten_cons, if_neg hne]
    simp only [hc.opSpan]
    rw [if_neg (by omega)]
    by_cases hcp : c = pat
    · rw [if_pos ((hc.take_iff hp _).mpr hcp), ← hcp, List.drop_left, hcp,
        ih hrest (Nat.lt_of_succ_lt_succ hfuel), List.filter_cons_of_neg (by simp)]
    · rw [if_neg fun h => hcp ((hc.take_iff hp _).mp h), if_neg (by simp), List.drop_left,
        ih hrest (Nat.lt_of_succ_lt_succ hfuel), List.take_left,
        List.filter_cons_of_pos (by simpa using hcp), List.flatten_cons]

theorem length_le_flatten {cs : List Bytes} (hcs : ∀ c ∈ cs, Plain c) :
    cs.length ≤ cs.flatten.length := by
  induction cs with
  | nil => simp
  | cons c cs ih =>
    have hpos := (hcs c List.mem_cons_self).length_pos
    have hle := ih fun c hc => hcs c (List.mem_cons_of_mem _ hc)
    rw [List.flatten_cons, List.length_append, List.length_cons]
    omega

theorem findAndDelete_flatten {pat : Bytes} (hp : Plain pat) {cs : List Bytes}
    (hcs : ∀ c ∈ cs, Plain c) (hint : cs.flatten.length < 2147483648) :
    findAndDelete cs.flatten pat = .ok (cs.filter (· ≠ pat)).flatten := by
  have hpos := hp.length_pos
  have hle := length_le_flatten hcs
  unfold findAndDelete
  rw [if_neg (by omega)]
  exact findAndDeleteFrom_flatten hp hint hcs le_rfl (by omega)

theorem goFindAndDelete_flatten {pat : Bytes} (hp : Plain pat) {cs : List Bytes}
    (hcs : ∀ c ∈ cs, Plain c) :
    Go.findAndDelete cs.flatten pat = .ok (cs.filter (· ≠ pat)).flatten := by
  have hpos := hp.length_pos
  have hle := length_le_flatten hcs
  unfold Go.findAndDelete
  rw [if_neg (by omega)]
  exact goFindAndDeleteFrom_flatten hp hcs (by omega)

/-! ### Signature pushes in signing scripts -/

/-- `emit_push`. -/
def emitPush (d : Bytes) : Bytes :=
  if d.length < 76 then Fin.ofNat 256 d.length :: d
  else if d.length ≤ 255 then 0x4C :: Fin.ofNat 256 d.length :: d
  else 0x4D :: Fin.ofNat 256 d.length :: Fin.ofNat 256 (d.length / 256) :: d

/-- `pushEncode`. -/
def Go.pushEncode (data : Bytes) : Bytes :=
  let n := data.length
  if n ≤ 75 then [Fin.ofNat 256 n] ++ data
  else if n ≤ 255 then [0x4C, Fin.ofNat 256 n] ++ data
  else [0x4D, Fin.ofNat 256 n, Fin.ofNat 256 (n / 256)] ++ data

theorem pushEncode_eq (d : Bytes) : Go.pushEncode d = emitPush d := by
  unfold Go.pushEncode emitPush
  simp only [Nat.lt_succ_iff, List.cons_append, List.nil_append]

theorem emitPush_direct {d : Bytes} (h : d.length < 76) :
    emitPush d = Fin.ofNat 256 d.length :: d := if_pos h

theorem plain_direct {op : Byte} {d : Bytes} (hop : op.val < 0x4C) (hd : d.length = op.val) :
    Plain (op :: d) := ⟨op, d, rfl, Or.inl ⟨hop, hd⟩⟩

theorem plain_single {op : Byte} (hop : 0x4E < op.val) : Plain [op] :=
  ⟨op, [], rfl, Or.inr ⟨hop, rfl⟩⟩

theorem plain_emitPush {d : Bytes} (h : d.length < 76) : Plain (emitPush d) := by
  rw [emitPush_direct h]
  have hval : (Fin.ofNat 256 d.length).val = d.length := Nat.mod_eq_of_lt (by omega)
  exact plain_direct (by omega) hval.symm

theorem rsKeys_shape {fuel : ℕ} {keys ks : List Bytes} {s rest : Bytes}
    (h : rsKeys fuel keys s = some (ks, rest)) : ∃ new, ks = keys ++ new ∧
      s = (new.map (0x21 :: ·)).flatten ++ rest ∧
      ∀ k ∈ new, k.length = 33 ∧ (k.getD 0 0 = 0x02 ∨ k.getD 0 0 = 0x03) := by
  induction fuel generalizing keys s with
  | zero =>
    cases h
    exact ⟨[], by simp, rfl, by simp⟩
  | succ fuel ih =>
    unfold rsKeys at h
    by_cases hpush : s ≠ [] ∧ s.getD 0 0 = 0x21
    · rw [if_pos hpush] at h
      by_cases hshort : s.length < 1 + 33
      · rw [if_pos hshort] at h
        cases h
      rw [if_neg hshort] at h
      dsimp only at h
      split at h
      · cases h
      rename_i hhead
      split at h
      · cases h
      split at h
      · cases h
      obtain ⟨new, rfl, hrest, hnew⟩ := ih h
      refine ⟨(s.drop 1).take 33 :: new, by simp, ?_, ?_⟩
      · match s, hpush with
        | x :: s, hpush =>
          have hx : x = 0x21 := hpush.2
          have hsplit : s = s.take 33 ++ s.drop 33 := (List.take_append_drop 33 s).symm
          have hdrop : s.drop 33 = (new.map (0x21 :: ·)).flatten ++ rest := hrest
          rw [List.map_cons, List.flatten_cons, hx, List.cons_append, List.cons_append,
            List.append_assoc, ← hdrop]
          exact congrArg (0x21 :: ·) hsplit
      · intro k hk
        rcases List.mem_cons.mp hk with rfl | hk
        · rw [List.length_take, List.length_drop]
          exact ⟨by omega, by tauto⟩
        · exact hnew k hk
    · rw [if_neg hpush] at h
      cases h
      exact ⟨[], by simp, rfl, by simp⟩

/-- The opcodes of a redeemScript. -/
def templateOps (opm opn : Byte) (keys : List Bytes) : List Bytes :=
  [opm] :: keys.map (0x21 :: ·) ++ [[opn], [0xAE]]

theorem rsTemplate_shape {rs : Bytes} {m : ℕ} {keys : List Bytes}
    (h : rsTemplate rs = some (m, keys)) : ∃ opm opn : Byte, rs = (templateOps opm opn keys).flatten ∧
      0x4E < opm.val ∧ 0x4E < opn.val ∧
      ∀ k ∈ keys, k.length = 33 ∧ (k.getD 0 0 = 0x02 ∨ k.getD 0 0 = 0x03) := by
  unfold rsTemplate at h
  split at h
  · cases h
  rename_i hne
  dsimp only at h
  split at h
  · cases h
  rename_i hopm
  split at h
  · cases h
  rename_i ks rest hkeys
  split at h
  · cases h
  rename_i hrest
  split at h
  · cases h
  rename_i hopn
  split at h
  · cases h
  split at h
  · cases h
  rename_i hcms
  split at h
  · cases h
  rename_i hend
  obtain ⟨rfl, rfl⟩ := Prod.mk.inj (Option.some.inj h)
  obtain ⟨_, rfl, hshape, hnew⟩ := rsKeys_shape hkeys
  refine ⟨rs.getD 0 0, rest.getD 0 0, ?_, by omega, by omega, hnew⟩
  match rs, hne with
  | opm :: rs, _ =>
    match rest, hrest, hcms, hend with
    | [opn, cms], hrest, hcms, hend =>
      have hcms : cms = 0xAE := by
        by_contra hc
        exact hcms (Or.inr hc)
      have hrs : rs = (ks.map (0x21 :: ·)).flatten ++ [opn, cms] := hshape
      simp [templateOps, hrs, hcms]
    | [], hrest, _, _ => exact absurd (Or.inr rfl) hrest
    | [_], _, hcms, _ => exact absurd (Or.inl rfl) hcms
    | _ :: _ :: _ :: _, _, _, hend => simp at hend

theorem plain_templateOps {opm opn : Byte} {keys : List Bytes} (hm : 0x4E < opm.val)
    (hn : 0x4E < opn.val) (hkeys : ∀ k ∈ keys, k.length = 33) :
    ∀ c ∈ templateOps opm opn keys, Plain c := by
  intro c hc
  unfold templateOps at hc
  simp only [List.cons_append, List.mem_cons, List.mem_append, List.mem_map, List.not_mem_nil,
    or_false] at hc
  rcases hc with rfl | ⟨k, hk, rfl⟩ | rfl | rfl
  · exact plain_single hm
  · exact plain_direct (by decide) (hkeys k hk)
  · exact plain_single hn
  · exact plain_single (by decide)

theorem rsTemplate_bounds {rs : Bytes} {m : ℕ} {keys : List Bytes}
    (h : rsTemplate rs = some (m, keys)) : m ≤ 15 ∧ keys.length ≤ 15 := by
  unfold rsTemplate at h
  split at h
  · cases h
  dsimp only at h
  split at h
  · cases h
  split at h
  · cases h
  split at h
  · cases h
  split at h
  · cases h
  split at h
  · cases h
  rename_i hcount
  split at h
  · cases h
  split at h
  · cases h
  obtain ⟨rfl, rfl⟩ := Prod.mk.inj (Option.some.inj h)
  omega

theorem templateOps_length {opm opn : Byte} {keys : List Bytes}
    (hkeys : ∀ k ∈ keys, k.length = 33) :
    (templateOps opm opn keys).flatten.length = 34 * keys.length + 3 := by
  induction keys with
  | nil => rfl
  | cons k keys ih =>
    have hk := hkeys k List.mem_cons_self
    have hrest := ih fun k hk => hkeys k (List.mem_cons_of_mem _ hk)
    simp only [templateOps, List.map_cons, List.cons_append, List.flatten_cons,
      List.length_append, List.length_cons, List.length_nil, hk] at hrest ⊢
    omega

/-- No signature push is an opcode of a redeemScript: a key does not start as a signature does. -/
theorem template_untouched {rs : Bytes} {m : ℕ} {keys : List Bytes}
    (h : rsTemplate rs = some (m, keys)) {sig : Bytes} (hsig : 0 < sig.length ∧ sig.length < 76)
    (hhead : sig.getD 0 0 = 0x30) :
    findAndDelete rs (emitPush sig) = .ok rs ∧ Go.findAndDelete rs (emitPush sig) = .ok rs := by
  have hmany := (rsTemplate_bounds h).2
  obtain ⟨opm, opn, rfl, hm, hn, hkeys⟩ := rsTemplate_shape h
  have hwidth : ∀ k ∈ keys, k.length = 33 := fun k hk => (hkeys k hk).1
  have hplain := plain_templateOps hm hn hwidth
  have hpush := plain_emitPush hsig.2
  have hlen : (templateOps opm opn keys).flatten.length < 2147483648 := by
    rw [templateOps_length hwidth]
    omega
  have hkeep : (templateOps opm opn keys).filter (· ≠ emitPush sig) = templateOps opm opn keys := by
    rw [List.filter_eq_self]
    intro c hc
    rw [emitPush_direct hsig.2, decide_eq_true_eq]
    rintro rfl
    unfold templateOps at hc
    simp only [List.cons_append, List.mem_cons, List.mem_append, List.mem_map, List.not_mem_nil,
      or_false, List.cons.injEq] at hc
    rcases hc with ⟨-, hnil⟩ | ⟨k, hk, -, rfl⟩ | ⟨-, hnil⟩ | ⟨-, hnil⟩
    · rw [hnil] at hsig
      simp at hsig
    · have hkey := (hkeys _ hk).2
      rw [hhead] at hkey
      exact absurd hkey (by decide)
    · rw [hnil] at hsig
      simp at hsig
    · rw [hnil] at hsig
      simp at hsig
  rw [findAndDelete_flatten hpush hplain hlen, goFindAndDelete_flatten hpush hplain, hkeep]
  exact ⟨rfl, rfl⟩

/-! ### The script that pays to a key hash -/

/-- `p2pkhScript`. -/
def p2pkhScript (h : H160) : Bytes := [0x76, 0xA9, 0x14] ++ h.val ++ [0x88, 0xAC]

/-- What is left of it without the hash. -/
def hashlessScript : Bytes := [0x76, 0xA9, 0x88, 0xAC]

/-- The deletion takes the hash for a signature of twenty bytes. -/
theorem findAndDelete_p2pkh (h : H160) {sig : Bytes} (hsig : 0 < sig.length ∧ sig.length < 76) :
    findAndDelete (p2pkhScript h) (emitPush sig)
      = .ok (if sig = h.val then hashlessScript else p2pkhScript h) := by
  have hops : p2pkhScript h = [[0x76], [0xA9], 0x14 :: h.val, [0x88], [0xAC]].flatten := by
    simp [p2pkhScript]
  have hplain : ∀ c ∈ [[0x76], [0xA9], 0x14 :: h.val, [0x88], [0xAC]], Plain c := by
    intro c hc
    simp only [List.mem_cons, List.not_mem_nil, or_false] at hc
    rcases hc with rfl | rfl | rfl | rfl | rfl
    · exact plain_single (by decide)
    · exact plain_single (by decide)
    · exact plain_direct (by decide) h.property
    · exact plain_single (by decide)
    · exact plain_single (by decide)
  have hlen : [[0x76], [0xA9], 0x14 :: h.val, [0x88], [0xAC]].flatten.length < 2147483648 := by
    rw [← hops]
    simp [p2pkhScript, h.property]
  have hne : ∀ op : Byte, [op] ≠ emitPush sig := by
    intro op hc
    rw [emitPush_direct hsig.2] at hc
    have hnil := (List.cons.inj hc).2
    rw [← hnil] at hsig
    simp at hsig
  have hhash : (0x14 :: h.val = emitPush sig) ↔ sig = h.val := by
    rw [emitPush_direct hsig.2]
    constructor
    · intro hc
      exact (List.cons.inj hc).2.symm
    · rintro rfl
      rw [h.property]
      rfl
  rw [hops, findAndDelete_flatten (plain_emitPush hsig.2) hplain hlen]
  by_cases hsame : sig = h.val
  · rw [if_pos hsame]
    simp [hne, hhash.mpr hsame, hashlessScript]
  · rw [if_neg hsame]
    simp [hne, hhash, hsame]

end NamespaceIndexer.Daemon
