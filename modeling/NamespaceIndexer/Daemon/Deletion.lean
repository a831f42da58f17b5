import NamespaceIndexer.Daemon.Der
import NamespaceIndexer.Daemon.OpReturn
import NamespaceIndexer.Daemon.Signer

/-!
# Deletion from a script (`attrib.c`)

What `FindAndDelete` means by the opcodes of a script, and where `find_and_delete` computes it: not
where the scan meets a length that its `int` position cannot be moved by.
-/

namespace NamespaceIndexer.Daemon

open Fold Lib

/-- A whole opcode, with the data it pushes. -/
def WholeOp (c : Bytes) : Prop :=
  (∃ (form : PushForm) (data : Bytes), data.length < form.limit ∧ c = form.push data) ∨
    ∃ op : Byte, 0x4E < op.val ∧ c = [op]

/-- `FindAndDelete`: the occurrences in front of an opcode go, and what is not an opcode stays. -/
inductive Deletes (pat : Bytes) : Bytes → Bytes → Prop
  | copy {s out : Bytes} : Deletes pat s out → Deletes pat (pat ++ s) out
  | opcode {c s out : Bytes} : ¬ pat <+: c ++ s → WholeOp c → Deletes pat s out →
      Deletes pat (c ++ s) (c ++ out)
  | tail {s : Bytes} : ¬ pat <+: s → (∀ c rest, s = c ++ rest → ¬ WholeOp c) → Deletes pat s s

/-- An `OP_PUSHDATA4` in front of `s`, the end of a script of `n` bytes: its length takes the
position out of `int`. -/
def Overlong (n : ℕ) (s : Bytes) : Prop :=
  ∃ len tail, s = PushForm.pushdata4.head len ++ tail ∧ len < 4294967296 ∧
    2147483648 + tail.length ≤ n + len

/-- The scan of a script of `n` bytes meets such a length. -/
inductive MeetsOverlong (pat : Bytes) (n : ℕ) : Bytes → Prop
  | here {s : Bytes} : ¬ pat <+: s → Overlong n s → MeetsOverlong pat n s
  | copy {s : Bytes} : MeetsOverlong pat n s → MeetsOverlong pat n (pat ++ s)
  | opcode {c s : Bytes} : ¬ pat <+: c ++ s → WholeOp c → MeetsOverlong pat n s →
      MeetsOverlong pat n (c ++ s)

/-! ### One opcode -/

/-- The width of the length field after an opcode. -/
def fieldWidth (op : Byte) : ℕ :=
  if op.val = 0x4C then 1 else if op.val = 0x4D then 2 else if op.val = 0x4E then 4 else 0

theorem nextOp_eq {n l : ℕ} {op : Byte} {s : Bytes}
    (hdl : (if op.val < 0x4C then op.val else leVal (s.take (fieldWidth op))) = l) :
    nextOp n (op :: s) = if s.length < fieldWidth op then .error .refuse
      else if Overflows ((n : ℤ) - (s.drop (fieldWidth op)).length + l) then .error .fault
      else if (s.drop (fieldWidth op)).length < l then .error .refuse
      else .ok ((s.drop (fieldWidth op)).drop l) := by
  subst hdl
  rfl

theorem fieldWidth_high {op : Byte} (h : 0x4E < op.val) : fieldWidth op = 0 := by
  unfold fieldWidth
  rw [if_neg (by omega), if_neg (by omega), if_neg (by omega)]

theorem PushForm.head_eq {form : PushForm} {len : ℕ} (hlen : len < form.limit) :
    ∃ op field, form.head len = op :: field ∧ fieldWidth op = field.length ∧
      (if op.val < 0x4C then op.val else leVal field) = len := by
  cases form with
  | direct =>
    simp only [limit] at hlen
    have hval : (Fin.ofNat 256 len).val = len := Nat.mod_eq_of_lt (by omega)
    refine ⟨Fin.ofNat 256 len, [], rfl, ?_, ?_⟩
    · rw [fieldWidth, hval, if_neg (by omega), if_neg (by omega), if_neg (by omega)]
      rfl
    · rw [hval, if_pos hlen]
  | pushdata1 =>
    exact ⟨0x4C, leBytes 1 len, rfl, rfl,
      (leVal_leBytes 1 len).trans (Nat.mod_eq_of_lt hlen)⟩
  | pushdata2 =>
    exact ⟨0x4D, leBytes 2 len, rfl, rfl,
      (leVal_leBytes 2 len).trans (Nat.mod_eq_of_lt hlen)⟩
  | pushdata4 =>
    exact ⟨0x4E, leBytes 4 len, rfl, rfl,
      (leVal_leBytes 4 len).trans (Nat.mod_eq_of_lt hlen)⟩

/-- The head of a push, and what `next_op` makes of the bytes after it. -/
theorem nextOp_head {n len : ℕ} {form : PushForm} (hlen : len < form.limit) (tail : Bytes) :
    nextOp n (form.head len ++ tail)
      = if Overflows ((n : ℤ) - tail.length + len) then .error .fault
        else if tail.length < len then .error .refuse
        else .ok (tail.drop len) := by
  obtain ⟨op, field, hhead, hwidth, hdl⟩ := form.head_eq hlen
  rw [hhead, List.cons_append, nextOp_eq (l := len) (by rw [hwidth, List.take_left]; exact hdl),
    hwidth, List.drop_left, if_neg (by simp)]

theorem nextOp_single {n : ℕ} {op : Byte} (hop : 0x4E < op.val) (tail : Bytes) :
    nextOp n (op :: tail) = if Overflows ((n : ℤ) - tail.length) then .error .fault
      else .ok tail := by
  rw [nextOp_eq (l := 0) (by rw [fieldWidth_high hop, if_neg (by omega), List.take_zero]; rfl),
    fieldWidth_high hop]
  simp

theorem nextOp_whole {c rest : Bytes} (hc : WholeOp c) {n : ℕ} (hn : (c ++ rest).length ≤ n)
    (hint : n < 2147483648) : nextOp n (c ++ rest) = .ok rest := by
  rw [List.length_append] at hn
  rcases hc with ⟨form, data, hfits, rfl⟩ | ⟨op, hop, rfl⟩
  · rw [PushForm.push, List.length_append] at hn
    have hfield : ¬ Overflows ((n : ℤ) - (data ++ rest).length + data.length) := by
      unfold Overflows
      rw [List.length_append]
      omega
    rw [PushForm.push, List.append_assoc, nextOp_head hfits, if_neg hfield, if_neg (by simp),
      List.drop_left]
  · have hfield : ¬ Overflows ((n : ℤ) - rest.length) := by
      unfold Overflows
      omega
    rw [List.singleton_append, nextOp_single hop, if_neg hfield]

/-- A script cut short in the length field of its first opcode. -/
theorem whole_of_short {op : Byte} {s : Bytes} (hshort : s.length < fieldWidth op) {c rest : Bytes}
    (h : op :: s = c ++ rest) : ¬ WholeOp c := by
  rintro (⟨form, data, hfits, rfl⟩ | ⟨op', hop, rfl⟩)
  · obtain ⟨op', field, hhead, hwidth, -⟩ := form.head_eq hfits
    rw [PushForm.push, hhead, List.cons_append, List.cons_append] at h
    obtain ⟨rfl, rfl⟩ := List.cons.inj h
    rw [List.append_assoc, List.length_append] at hshort
    omega
  · obtain ⟨rfl, -⟩ := List.cons.inj h
    rw [fieldWidth_high hop] at hshort
    omega

theorem field_split {w : ℕ} {s : Bytes} (h : w ≤ s.length) :
    s = leBytes w (leVal (s.take w)) ++ s.drop w ∧ leVal (s.take w) < 256 ^ w := by
  have hlen : (s.take w).length = w := by
    rw [List.length_take]
    omega
  have hfield := leBytes_leVal (s.take w)
  have hlt := leVal_lt (s.take w)
  rw [hlen] at hfield hlt
  rw [hfield, List.take_append_drop]
  exact ⟨rfl, hlt⟩

/-- A script starts with at most one opcode. -/
theorem WholeOp.unique {c c' rest rest' : Bytes} (hc : WholeOp c) (hc' : WholeOp c')
    (h : c ++ rest = c' ++ rest') (hlen : (c ++ rest).length < 2147483648) :
    c = c' ∧ rest = rest' := by
  have hnext := nextOp_whole hc le_rfl hlen
  rw [h] at hnext hlen
  rw [nextOp_whole hc' le_rfl hlen] at hnext
  cases hnext
  exact ⟨List.append_cancel_right h, rfl⟩

/-- How a script may start. -/
theorem script_cases (s : Bytes) :
    (∃ (form : PushForm) (len : ℕ) (tail : Bytes), len < form.limit ∧ s = form.head len ++ tail) ∨
      (∃ (op : Byte) (tail : Bytes), 0x4E < op.val ∧ s = op :: tail) ∨
      ((∀ n, nextOp n s = .error .refuse) ∧ ∀ c rest, s = c ++ rest → ¬ WholeOp c) := by
  match s with
  | [] =>
    refine Or.inr (Or.inr ⟨fun _ => rfl, ?_⟩)
    intro c rest h hc
    have hempty : c = [] := (List.append_eq_nil_iff.mp h.symm).1
    have hstep := @nextOp_whole c [] hc _ le_rfl (by rw [hempty]; decide)
    rw [hempty] at hstep
    cases hstep
  | op :: s =>
    by_cases hshort : s.length < fieldWidth op
    · exact Or.inr (Or.inr ⟨fun n => by rw [nextOp_eq rfl, if_pos hshort],
        fun c rest => whole_of_short hshort⟩)
    by_cases hhigh : 0x4E < op.val
    · exact Or.inr (Or.inl ⟨op, s, hhigh, rfl⟩)
    left
    have hfield := field_split (not_lt.mp hshort)
    unfold fieldWidth at hfield
    by_cases h4c : op.val = 0x4C
    · have hop : op = 0x4C := Fin.ext h4c
      rw [if_pos h4c] at hfield
      exact ⟨.pushdata1, _, s.drop 1, hfield.2, by
        rw [PushForm.head, List.cons_append, ← hfield.1, hop]⟩
    by_cases h4d : op.val = 0x4D
    · have hop : op = 0x4D := Fin.ext h4d
      rw [if_neg h4c, if_pos h4d] at hfield
      exact ⟨.pushdata2, _, s.drop 2, hfield.2, by
        rw [PushForm.head, List.cons_append, ← hfield.1, hop]⟩
    by_cases h4e : op.val = 0x4E
    · have hop : op = 0x4E := Fin.ext h4e
      rw [if_neg h4c, if_neg h4d, if_pos h4e] at hfield
      exact ⟨.pushdata4, _, s.drop 4, hfield.2, by
        rw [PushForm.head, List.cons_append, ← hfield.1, hop]⟩
    · have hop : Fin.ofNat 256 op.val = op := Fin.ext (Nat.mod_eq_of_lt op.isLt)
      exact ⟨.direct, op.val, s, by rw [PushForm.limit]; omega, by
        rw [PushForm.head, hop, List.singleton_append]⟩

theorem whole_of_nextOp {n : ℕ} {s rest : Bytes} (h : nextOp n s = .ok rest) :
    ∃ c, WholeOp c ∧ s = c ++ rest := by
  rcases script_cases s with ⟨form, len, tail, hlen, rfl⟩ | ⟨op, tail, hop, rfl⟩ | ⟨hrefuse, -⟩
  · rw [nextOp_head hlen] at h
    split at h
    · cases h
    split at h
    · cases h
    rename_i hlong
    cases h
    have htake : (tail.take len).length = len := by
      rw [List.length_take]
      omega
    refine ⟨form.push (tail.take len), Or.inl ⟨form, _, by omega, rfl⟩, ?_⟩
    rw [PushForm.push, htake, List.append_assoc, List.take_append_drop]
  · rw [nextOp_single hop] at h
    split at h
    · cases h
    cases h
    exact ⟨[op], Or.inr ⟨op, hop, rfl⟩, rfl⟩
  · rw [hrefuse n] at h
    cases h

/-- A length field of the other forms is too short to leave `int`. -/
theorem nextOp_fault {n : ℕ} {s : Bytes} (hs : s.length ≤ n) (hn : n ≤ 1024) :
    nextOp n s = .error .fault ↔ Overlong n s := by
  constructor
  · intro h
    rcases script_cases s with ⟨form, len, tail, hlen, rfl⟩ | ⟨op, tail, hop, rfl⟩ | ⟨hrefuse, -⟩
    · rw [nextOp_head hlen] at h
      rw [List.length_append] at hs
      split at h
      · rename_i hover
        unfold Overflows at hover
        cases form with
        | pushdata4 => exact ⟨len, tail, rfl, hlen, by omega⟩
        | direct | pushdata1 | pushdata2 =>
          simp only [PushForm.limit] at hlen
          omega
      · split at h <;> cases h
    · rw [nextOp_single hop] at h
      rw [List.length_cons] at hs
      split at h
      · rename_i hover
        unfold Overflows at hover
        omega
      · cases h
    · rw [hrefuse n] at h
      cases h
  · rintro ⟨len, tail, rfl, hlen, hover⟩
    rw [List.length_append] at hs
    have hfield : Overflows ((n : ℤ) - tail.length + len) := Or.inr (by omega)
    rw [@nextOp_head _ _ .pushdata4 hlen, if_pos hfield]

theorem WholeOp.length_pos {c : Bytes} (hc : WholeOp c) : 0 < c.length := by
  rcases hc with ⟨form, data, hfits, rfl⟩ | ⟨op, -, rfl⟩
  · obtain ⟨op, field, hhead, -⟩ := form.head_eq hfits
    rw [PushForm.push, hhead]
    exact Nat.succ_pos _
  · exact Nat.one_pos

/-! ### The scan -/

variable {pat : Bytes}

theorem dropCopies_stop {fuel : ℕ} {s : Bytes} (hpat : pat ≠ []) (hfuel : s.length ≤ fuel) :
    ¬ pat <+: dropCopies pat fuel s := by
  have hpos : 0 < pat.length := List.length_pos_iff.mpr hpat
  induction fuel generalizing s with
  | zero =>
    intro h
    have hle := h.length_le
    rw [dropCopies] at hle
    omega
  | succ fuel ih =>
    rw [dropCopies]
    split
    · exact ih (by rw [List.length_drop]; omega)
    · rename_i hfront
      intro h
      exact hfront ⟨h.length_le, (List.prefix_iff_eq_take.mp h).symm⟩

/-- The copies that the inner loop drops. -/
theorem dropCopies_induct {P : Bytes → Prop} (hcopy : ∀ s, P s → P (pat ++ s)) {fuel : ℕ}
    {s : Bytes} (h : P (dropCopies pat fuel s)) : P s := by
  induction fuel generalizing s with
  | zero => exact h
  | succ fuel ih =>
    rw [dropCopies] at h
    split at h
    · rename_i hfront
      have hstep := hcopy _ (ih h)
      rwa [← hfront.2, List.length_take, min_eq_left hfront.1, List.take_append_drop] at hstep
    · exact h

theorem MeetsOverlong.dropCopies {n fuel : ℕ} {s : Bytes} (h : MeetsOverlong pat n s) :
    MeetsOverlong pat n (dropCopies pat fuel s) := by
  induction fuel generalizing s with
  | zero => exact h
  | succ fuel ih =>
    rw [Daemon.dropCopies]
    split
    · rename_i hfront
      have hpre : pat <+: s := List.prefix_iff_eq_take.mpr hfront.2.symm
      apply ih
      cases h with
      | here hno => exact absurd hpre hno
      | copy h => rwa [List.drop_left]
      | opcode hno => exact absurd hpre hno
    · exact h

/-- The scan deletes what it should, unless it meets a length that leaves `int`. -/
theorem findAndDeleteFrom_cases (hpat : pat ≠ []) {n : ℕ} (hn : n ≤ 1024) {fuel : ℕ} {s : Bytes}
    (hs : s.length ≤ n) (hfuel : s.length < fuel) :
    (∃ out, findAndDeleteFrom n pat fuel s = .ok out ∧ Deletes pat s out ∧
      ¬ MeetsOverlong pat n s) ∨
    (findAndDeleteFrom n pat fuel s = .error .fault ∧ MeetsOverlong pat n s) := by
  induction fuel generalizing s with
  | zero => omega
  | succ fuel ih =>
    have hstop := dropCopies_stop (s := s) hpat le_rfl
    have hdeletes : ∀ {out}, Deletes pat (dropCopies pat s.length s) out → Deletes pat s out :=
      fun h => dropCopies_induct (P := (Deletes pat · _)) (fun _ => .copy) h
    have hmeets : MeetsOverlong pat n (dropCopies pat s.length s) → MeetsOverlong pat n s :=
      fun h => dropCopies_induct (fun _ => .copy) h
    have hshort : (dropCopies pat s.length s).length ≤ s.length :=
      dropCopies_induct (P := fun t => (dropCopies pat s.length s).length ≤ t.length)
        (fun t ht => by rw [List.length_append]; omega) le_rfl
    have hback : MeetsOverlong pat n s → MeetsOverlong pat n (dropCopies pat s.length s) :=
      MeetsOverlong.dropCopies
    unfold findAndDeleteFrom
    dsimp only
    generalize dropCopies pat s.length s = t at hstop hdeletes hmeets hshort hback
    cases hnext : nextOp n t with
    | error e =>
      cases e with
      | refuse =>
        have hnone : ∀ c rest, t = c ++ rest → ¬ WholeOp c := by
          rintro c rest rfl hc
          rw [nextOp_whole hc (by omega) (by omega)] at hnext
          cases hnext
        refine Or.inl ⟨t, rfl, hdeletes (.tail hstop hnone), fun h => ?_⟩
        cases hback h with
        | here _ hover =>
          rw [(nextOp_fault (by omega) hn).mpr hover] at hnext
          cases hnext
        | copy => exact hstop (List.prefix_append _ _)
        | opcode _ hc => exact hnone _ _ rfl hc
      | fault =>
        exact Or.inr ⟨rfl, hmeets (.here hstop ((nextOp_fault (by omega) hn).mp hnext))⟩
    | ok rest =>
      obtain ⟨c, hc, ht⟩ := whole_of_nextOp hnext
      have hpos := hc.length_pos
      have hlen : t.length = c.length + rest.length := by rw [ht, List.length_append]
      rcases ih (s := rest) (by omega) (by omega) with ⟨out, hout, hdel, hno⟩ | ⟨hfault, hmeet⟩
      · left
        refine ⟨c ++ out, ?_, hdeletes (ht ▸ .opcode (ht ▸ hstop) hc hdel), fun h => ?_⟩
        · simp only [hout]
          rw [hlen, Nat.add_sub_cancel, ht, List.take_left]
        · -- a scan that starts with the same opcode goes on with the same rest
          cases hback h with
          | here _ hover =>
            rw [(nextOp_fault (by omega) hn).mpr hover] at hnext
            cases hnext
          | copy => exact hstop (List.prefix_append _ _)
          | opcode _ hc' hmeet =>
            rw [nextOp_whole hc' (by omega) (by omega)] at hnext
            cases hnext
            exact hno hmeet
      · right
        simp only [hfault]
        exact ⟨trivial, hmeets (ht ▸ .opcode (ht ▸ hstop) hc hmeet)⟩

theorem Deletes.unique {s out out' : Bytes} (h : Deletes pat s out) (hlen : s.length < 2147483648)
    (h' : Deletes pat s out') : out = out' := by
  induction h generalizing out' with
  | @copy s out _ ih =>
    rw [List.length_append] at hlen
    generalize ht : pat ++ s = t at h'
    have hfront : pat <+: t := ⟨s, ht⟩
    cases h' with
    | copy h' => exact ih (by omega) (List.append_cancel_left ht ▸ h')
    | opcode hno => exact absurd hfront hno
    | tail hno => exact absurd hfront hno
  | @opcode c s out hno hc _ ih =>
    generalize ht : c ++ s = t at h' hno hlen
    cases h' with
    | copy => exact absurd (List.prefix_append _ _) hno
    | opcode _ hc' h' =>
      obtain ⟨rfl, rfl⟩ := hc.unique hc' ht (by rwa [ht])
      rw [List.length_append] at hlen
      rw [ih (by omega) h']
    | tail _ hnone => exact absurd hc (hnone _ _ ht.symm)
  | @tail s hno hnone =>
    cases h' with
    | copy => exact absurd (List.prefix_append _ _) hno
    | opcode _ hc => exact absurd hc (hnone _ _ rfl)
    | tail => rfl

/-! ### `find_and_delete`, and the scripts it is given -/

/-- The scan ends, with the script that `FindAndDelete` asks for. -/
def DeletesRight (script pat : Bytes) : Prop :=
  ∃ out, findAndDelete script pat = .ok out ∧ Deletes pat script out ∧
    ∀ fuel, script.length < fuel → findAndDeleteFrom script.length pat fuel script = .ok out

theorem deletesRight_iff {script : Bytes} (hlen : script.length ≤ 1024) (hpat : pat ≠ []) :
    DeletesRight script pat ↔ ¬ MeetsOverlong pat script.length script := by
  have hrun : ∀ fuel, script.length < fuel → _ :=
    fun fuel hfuel => findAndDeleteFrom_cases hpat hlen le_rfl hfuel
  have hcall : findAndDelete script pat
      = findAndDeleteFrom script.length pat (script.length + 1) script :=
    if_neg fun h => hpat (List.length_eq_zero_iff.mp h)
  unfold DeletesRight
  rw [hcall]
  constructor
  · rintro ⟨out, hout, -, -⟩ hmeet
    rcases hrun _ (Nat.lt_succ_self _) with ⟨_, -, -, hno⟩ | ⟨hfault, -⟩
    · exact hno hmeet
    · rw [hfault] at hout
      cases hout
  · intro hno
    have hall : ∀ fuel, script.length < fuel →
        ∃ out, findAndDeleteFrom script.length pat fuel script = .ok out ∧ Deletes pat script out := by
      intro fuel hfuel
      rcases hrun fuel hfuel with ⟨out, hout, hdel, -⟩ | ⟨-, hmeet⟩
      · exact ⟨out, hout, hdel⟩
      · exact absurd hmeet hno
    obtain ⟨out, hout, hdel⟩ := hall _ (Nat.lt_succ_self _)
    refine ⟨out, hout, hdel, fun fuel hfuel => ?_⟩
    obtain ⟨out', hout', hdel'⟩ := hall fuel hfuel
    rw [hout', hdel'.unique (by omega) hdel]

theorem derParse_push {p : Bytes} {rs : Fixed 32 × Fixed 32} (h : derParse p = some rs) :
    9 ≤ p.length ∧ p.length ≤ 73 ∧ p.getD 0 0 = 0x30 ∧ p.getD (p.length - 1) 0 = 0x01 := by
  unfold derParse at h
  simp only [Option.ite_none_left_eq_some] at h
  obtain ⟨hlen, htype, hhead, -⟩ := h
  push Not at hlen htype hhead
  exact ⟨hlen.1, hlen.2, hhead.1, htype⟩

/-- `find_and_delete` computes `FindAndDelete` on a script of at most 1024 bytes exactly when the
scan meets no `OP_PUSHDATA4` that takes its position out of `int`; and the pushes of parsed
signatures are nowhere in a redeemScript. -/
theorem findAndDelete_right {script pat : Bytes} (hlen : script.length ≤ 1024) (hpat : pat ≠ []) :
    (DeletesRight script pat ↔ ¬ MeetsOverlong pat script.length script) ∧
      ∀ (redeem : Bytes) (m : ℕ) (keys : List Bytes) (sigs : List ASig),
        rsTemplate redeem = some (m, keys) →
        (∀ sig ∈ sigs, derParse sig.data = some (sig.r, sig.s)) →
        deleteSigs sigs redeem = .ok redeem := by
  refine ⟨deletesRight_iff hlen hpat, fun redeem m keys sigs hredeem hsigs => ?_⟩
  have hcheck : ∀ sig ∈ sigs, (derParse sig.data).isSome := by
    intro sig hsig
    rw [hsigs sig hsig]
    rfl
  exact deleteSigs_template (f := ⟨derParse, fun _ => true, fun _ _ _ _ => true, derParse_push⟩)
    hredeem hcheck

/-- An opcode and a push of one byte, deleted. -/
theorem findAndDelete_right_small : DeletesRight [0x51, 0x01, 0x30] [0x01, 0x30] := by
  have hmeets : ¬ MeetsOverlong [0x01, 0x30] 3 [0x51, 0x01, 0x30] := by
    intro h
    have hsize : ([0x51, 0x01, 0x30] : Bytes).length < 4 := by decide
    rcases findAndDeleteFrom_cases (by decide : ([0x01, 0x30] : Bytes) ≠ []) (by decide : 3 ≤ 1024)
      (Nat.le_of_lt_succ hsize) hsize with ⟨out, -, -, hnot⟩ | ⟨hfault, -⟩
    · exact hnot h
    · have hok : findAndDeleteFrom 3 [0x01, 0x30] 4 [0x51, 0x01, 0x30] = .ok [0x51] := by
        decide +kernel
      rw [hok] at hfault
      cases hfault
  exact (findAndDelete_right (by decide) (by decide)).1.mpr hmeets

/-- The five bytes of an `OP_PUSHDATA4` whose length, added to the position, leaves `int`. -/
theorem findAndDelete_overlong :
    ¬ ∀ script pat : Bytes, script.length ≤ 1024 → pat ≠ [] → DeletesRight script pat := by
  intro h
  obtain ⟨out, hout, -⟩ := h [0x4E, 0xFF, 0xFF, 0xFF, 0x7F] [0x30] (by decide) (by decide)
  have hfault : findAndDelete [0x4E, 0xFF, 0xFF, 0xFF, 0x7F] [0x30] = .error .fault := by
    decide +kernel
  rw [hfault] at hout
  cases hout

end NamespaceIndexer.Daemon
