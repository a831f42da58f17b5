import NamespaceIndexer.Daemon.Chain

/-!
# The lone push of a carrier (`chain.c`, `wire.py`, `decode.ts`)

Three extractors of the one minimal push after `OP_RETURN`, and the scripts each takes.
-/

namespace NamespaceIndexer.Daemon

open Fold Lib

/-! ### The lone push of a script -/

/-- `single_minimal_push`. -/
def Py.singleMinimalPush (spk : Bytes) : Option Bytes :=
  if spk.length < 1 ∨ spk.getD 0 0 ≠ 0x6A then none
  else
    let n := spk.length
    if 1 ≥ n then none
    else
      let op := (spk.getD 1 0).val
      -- the data, and the index after it
      let push : Option (Bytes × ℕ) :=
        if op = 0x00 then some ([], 2)
        else if 1 ≤ op ∧ op ≤ 75 then
          let data := (spk.drop 2).take op
          if data.length ≠ op then none else some (data, 2 + op)
        else if op = 0x4C then
          if 2 ≥ n then none
          else
            let ln := (spk.getD 2 0).val
            if ln < 76 then none
            else
              let data := (spk.drop 3).take ln
              if data.length ≠ ln then none else some (data, 3 + ln)
        else if op = 0x4D then
          if 2 + 2 > n then none
          else
            let ln := leVal ((spk.drop 2).take 2)
            if ln < 256 then none
            else
              let data := (spk.drop 4).take ln
              if data.length ≠ ln then none else some (data, 4 + ln)
        else none
      match push with
      | none => none
      | some (data, i) =>
        if i ≠ n then none else if data.length > carrierMax then none else some data

/-- `singleMinimalPush`. -/
def Ts.singleMinimalPush (spk : Bytes) : Option Bytes :=
  if spk.length < 1 ∨ spk.getD 0 0 ≠ 0x6A then none
  else if 1 ≥ spk.length then none
  else
    let op := (spk.getD 1 0).val
    -- `pushLen` and `dataStart`
    let push : Option (ℕ × ℕ) :=
      if 0x01 ≤ op ∧ op ≤ 0x4B then some (op, 2)
      else if op = 0x4C then
        if 1 + 2 > spk.length then none
        else
          let pushLen := (spk.getD 2 0).val
          if pushLen < 0x4C then none else some (pushLen, 3)
      else if op = 0x4D then
        if 1 + 3 > spk.length then none
        else
          let pushLen := (spk.getD 2 0).val + 256 * (spk.getD 3 0).val
          if pushLen ≤ 0xFF then none else some (pushLen, 4)
      else none
    match push with
    | none => none
    | some (pushLen, dataStart) =>
      if pushLen > 80 then none
      else
        let dataEnd := dataStart + pushLen
        if dataEnd ≠ spk.length then none else some ((spk.take dataEnd).drop dataStart)

/-- The minimal push opcode of a payload. -/
def pushPrefix (len : ℕ) : Bytes :=
  if len ≤ 75 then [Fin.ofNat 256 len]
  else if len ≤ 255 then [0x4C, Fin.ofNat 256 len]
  else [0x4D, Fin.ofNat 256 len, Fin.ofNat 256 (len / 256)]

/-- `OP_RETURN` and one minimal push. -/
def opReturn (payload : Bytes) : Bytes := 0x6A :: (pushPrefix payload.length ++ payload)

/-- A minimal push opcode with what follows it: the length it gives, and the bytes after it. -/
def pushHead (op : Byte) (rest : Bytes) : Option (ℕ × Bytes) :=
  if 1 ≤ op.val ∧ op.val ≤ 75 then some (op.val, rest)
  else if op.val = 0x4C then
    match rest with
    | len :: data => if 76 ≤ len.val then some (len.val, data) else none
    | [] => none
  else if op.val = 0x4D then
    match rest with
    | lo :: hi :: data =>
      if 256 ≤ lo.val + 256 * hi.val then some (lo.val + 256 * hi.val, data) else none
    | _ => none
  else none

/-- The payload of a script that is `OP_RETURN` and one minimal push of at most `max` bytes. -/
def lonePush (max : ℕ) : Bytes → Option Bytes
  | 0x6A :: op :: rest =>
    match pushHead op rest with
    | some (len, data) => if data.length = len ∧ len ≤ max then some data else none
    | none => none
  | _ => none

theorem lonePush_cons {max : ℕ} {op : Byte} {rest : Bytes} :
    lonePush max (0x6A :: op :: rest) = match pushHead op rest with
      | some (len, data) => if data.length = len ∧ len ≤ max then some data else none
      | none => none := rfl

theorem lonePush_of_ne {max : ℕ} {x : Byte} {rest : Bytes} (hx : x ≠ 0x6A) :
    lonePush max (x :: rest) = none := by
  unfold lonePush
  split
  · rename_i heq
    exact absurd (List.cons.inj heq).1 hx
  · rfl

/-- The end of `idx_op_return_payload`, after the bytes `pre` up to the payload. -/
theorem idxOpReturnPayload_end (pre : Bytes) {data : Bytes} {len least : ℕ} (hleast : least ≤ len)
    (hpos : 0 < len) :
    (if len < least then none
      else if len = 0 ∨ len > carrierMax then none
      else if pre.length + len ≠ (pre ++ data).length then none
      else some ((pre ++ data).drop pre.length))
      = if data.length = len ∧ len ≤ carrierMax then some data else none := by
  rw [if_neg (by omega), List.drop_left, List.length_append]
  by_cases hfit : data.length = len ∧ len ≤ carrierMax
  · rw [if_neg (by omega), if_neg (by omega), if_pos hfit]
  · rw [if_neg hfit]
    split
    · rfl
    · rw [if_pos (by omega)]

/-- The end of `single_minimal_push`. -/
theorem Py.singleMinimalPush_end (pre : Bytes) {data : Bytes} {len : ℕ} :
    (match (if (((pre ++ data).drop pre.length).take len).length ≠ len then none
        else some (((pre ++ data).drop pre.length).take len, pre.length + len)) with
      | none => none
      | some (d, i) =>
        if i ≠ (pre ++ data).length then none
        else if d.length > carrierMax then none else some d)
      = if data.length = len ∧ len ≤ carrierMax then some data else none := by
  rw [List.drop_left, List.length_append, List.length_take]
  by_cases hshort : min len data.length ≠ len
  · rw [if_pos hshort, if_neg (by omega)]
  · rw [if_neg hshort]
    dsimp only
    by_cases hlen : data.length = len
    · rw [if_neg (by omega), List.take_of_length_le (by omega), hlen]
      by_cases hmax : len ≤ carrierMax
      · rw [if_neg (by omega), if_pos ⟨rfl, hmax⟩]
      · rw [if_pos (by omega), if_neg fun hc => hmax hc.2]
    · rw [if_pos (by omega), if_neg fun hc => hlen hc.1]

/-- The end of `singleMinimalPush`. -/
theorem Ts.singleMinimalPush_end (pre : Bytes) {data : Bytes} {len : ℕ} :
    (if len > 80 then none
      else if pre.length + len ≠ (pre ++ data).length then none
      else some (((pre ++ data).take (pre.length + len)).drop pre.length))
      = if data.length = len ∧ len ≤ 80 then some data else none := by
  rw [List.length_append]
  by_cases hfit : data.length = len ∧ len ≤ 80
  · rw [if_neg (by omega), if_neg (by omega), if_pos hfit, ← hfit.1, ← List.length_append,
      List.take_length, List.drop_left]
  · rw [if_neg hfit]
    split
    · rfl
    · rw [if_pos (by omega)]

theorem idxOpReturnPayload_eq (spk : Bytes) :
    idxOpReturnPayload spk = if spk = [0x6A] then some [] else lonePush carrierMax spk := by
  match spk with
  | [] => rfl
  | [x] =>
    by_cases hx : x = 0x6A
    · rw [hx]
      rfl
    · rw [lonePush_of_ne hx]
      simp [idxOpReturnPayload, hx]
  | x :: op :: rest =>
    by_cases hx : x = 0x6A
    · subst hx
      have hlong : ¬ (0x6A :: op :: rest).length = 1 := by simp
      have hne : ¬ (0x6A :: op :: rest : Bytes) = [0x6A] := by simp
      rw [if_neg hne, idxOpReturnPayload, if_neg (by simp), if_neg hlong, lonePush_cons]
      have hop4c : op = 0x4C ↔ op.val = 0x4C := Fin.ext_iff
      have hop4d : op = 0x4D ↔ op.val = 0x4D := Fin.ext_iff
      simp only [pushSpan, List.drop_succ_cons, List.drop_zero, pushHead, hop4c, hop4d]
      by_cases hdirect : 1 ≤ op.val ∧ op.val ≤ 75
      · rw [if_pos hdirect, if_pos hdirect]
        exact idxOpReturnPayload_end [0x6A, op] hdirect.1 hdirect.1
      rw [if_neg hdirect, if_neg hdirect]
      by_cases h4c : op.val = 0x4C
      · match rest with
        | [] => simp [h4c]
        | len :: data =>
          have hval : leVal [len] = len.val := by simp [leVal]
          rw [if_pos h4c, if_pos h4c, if_neg (by simp), List.take_succ_cons, List.take_zero, hval]
          dsimp only
          by_cases hleast : 76 ≤ len.val
          · rw [if_pos hleast]
            exact idxOpReturnPayload_end [0x6A, op, len] hleast (by omega)
          · simp only [if_neg hleast, if_pos (not_le.mp hleast)]
      rw [if_neg h4c, if_neg h4c]
      by_cases h4d : op.val = 0x4D
      · match rest with
        | [] => simp [h4d]
        | [_] => simp [h4d]
        | lo :: hi :: data =>
          have hval : leVal [lo, hi] = lo.val + 256 * hi.val := by simp [leVal]
          rw [if_pos h4d, if_pos h4d, if_neg (by simp), List.take_succ_cons, List.take_succ_cons,
            List.take_zero, hval]
          dsimp only
          by_cases hleast : 256 ≤ lo.val + 256 * hi.val
          · rw [if_pos hleast]
            exact idxOpReturnPayload_end [0x6A, op, lo, hi] hleast (by omega)
          · simp only [if_neg hleast, if_pos (not_le.mp hleast)]
      · rw [if_neg h4d, if_neg h4d]
    · rw [lonePush_of_ne hx]
      simp [idxOpReturnPayload, hx]

theorem Py.singleMinimalPush_eq (spk : Bytes) :
    Py.singleMinimalPush spk = if spk = [0x6A, 0] then some [] else lonePush carrierMax spk := by
  match spk with
  | [] => rfl
  | [x] =>
    by_cases hx : x = 0x6A
    · rw [hx]
      rfl
    · rw [lonePush_of_ne hx]
      simp [Py.singleMinimalPush, hx]
  | x :: op :: rest =>
    by_cases hx : x = 0x6A
    · subst hx
      have hlong : ¬ 1 ≥ (0x6A :: op :: rest).length := by simp
      have hop : (0x6A :: op :: rest : Bytes).getD 1 0 = op := rfl
      rw [Py.singleMinimalPush, if_neg (by simp), lonePush_cons]
      simp only [if_neg hlong, hop, pushHead]
      by_cases hzero : op.val = 0
      · have hop0 : op = 0 := Fin.ext hzero
        subst hop0
        cases rest with
        | nil => rfl
        | cons y rest => simp
      have hne : ¬ (0x6A :: op :: rest : Bytes) = [0x6A, 0] := by
        intro hc
        exact hzero (congrArg Fin.val (List.cons.inj (List.cons.inj hc).2).1)
      rw [if_neg hne, if_neg hzero]
      by_cases hdirect : 1 ≤ op.val ∧ op.val ≤ 75
      · rw [if_pos hdirect, if_pos hdirect]
        exact Py.singleMinimalPush_end [0x6A, op]
      rw [if_neg hdirect, if_neg hdirect]
      by_cases h4c : op.val = 0x4C
      · match rest with
        | [] => simp [h4c]
        | len :: data =>
          have hlen : (0x6A :: op :: len :: data : Bytes).getD 2 0 = len := rfl
          rw [if_pos h4c, if_pos h4c, if_neg (by simp), hlen]
          dsimp only
          by_cases hleast : 76 ≤ len.val
          · rw [if_neg (not_lt.mpr hleast), if_pos hleast]
            exact Py.singleMinimalPush_end [0x6A, op, len]
          · simp only [if_neg hleast, if_pos (not_le.mp hleast)]
      rw [if_neg h4c, if_neg h4c]
      by_cases h4d : op.val = 0x4D
      · match rest with
        | [] => simp [h4d]
        | [_] => simp [h4d]
        | lo :: hi :: data =>
          have hval : leVal ((0x6A :: op :: lo :: hi :: data : Bytes).drop 2 |>.take 2)
              = lo.val + 256 * hi.val := by simp [leVal]
          rw [if_pos h4d, if_pos h4d, if_neg (by simp), hval]
          dsimp only
          by_cases hleast : 256 ≤ lo.val + 256 * hi.val
          · rw [if_neg (not_lt.mpr hleast), if_pos hleast]
            exact Py.singleMinimalPush_end [0x6A, op, lo, hi]
          · simp only [if_neg hleast, if_pos (not_le.mp hleast)]
      · rw [if_neg h4d, if_neg h4d]
    · rw [lonePush_of_ne hx]
      simp [Py.singleMinimalPush, hx]

theorem Ts.singleMinimalPush_eq (spk : Bytes) :
    Ts.singleMinimalPush spk = lonePush 80 spk := by
  match spk with
  | [] => rfl
  | [x] =>
    by_cases hx : x = 0x6A
    · rw [hx]
      rfl
    · rw [lonePush_of_ne hx]
      simp [Ts.singleMinimalPush, hx]
  | x :: op :: rest =>
    by_cases hx : x = 0x6A
    · subst hx
      have hlong : ¬ 1 ≥ (0x6A :: op :: rest).length := by simp
      have hop : (0x6A :: op :: rest : Bytes).getD 1 0 = op := rfl
      rw [Ts.singleMinimalPush, if_neg (by simp), lonePush_cons]
      simp only [if_neg hlong, hop, pushHead]
      by_cases hdirect : 1 ≤ op.val ∧ op.val ≤ 75
      · rw [if_pos hdirect, if_pos hdirect]
        exact Ts.singleMinimalPush_end [0x6A, op]
      rw [if_neg hdirect, if_neg hdirect]
      by_cases h4c : op.val = 0x4C
      · match rest with
        | [] => simp [h4c]
        | len :: data =>
          have hlen : (0x6A :: op :: len :: data : Bytes).getD 2 0 = len := rfl
          rw [if_pos h4c, if_pos h4c, if_neg (by simp), hlen]
          dsimp only
          by_cases hleast : 76 ≤ len.val
          · rw [if_neg (not_lt.mpr hleast), if_pos hleast]
            exact Ts.singleMinimalPush_end [0x6A, op, len]
          · simp only [if_neg hleast, if_pos (not_le.mp hleast)]
      rw [if_neg h4c, if_neg h4c]
      by_cases h4d : op.val = 0x4D
      · match rest with
        | [] => simp [h4d]
        | [_] => simp [h4d]
        | lo :: hi :: data =>
          have hlo : (0x6A :: op :: lo :: hi :: data : Bytes).getD 2 0 = lo := rfl
          have hhi : (0x6A :: op :: lo :: hi :: data : Bytes).getD 3 0 = hi := rfl
          rw [if_pos h4d, if_pos h4d, if_neg (by simp), hlo, hhi]
          dsimp only
          by_cases hleast : 256 ≤ lo.val + 256 * hi.val
          · rw [if_neg (by omega), if_pos hleast]
            exact Ts.singleMinimalPush_end [0x6A, op, lo, hi]
          · rw [if_neg hleast, if_pos (by omega)]
      · rw [if_neg h4d, if_neg h4d]
    · rw [lonePush_of_ne hx]
      simp [Ts.singleMinimalPush, hx]

/-! ### Scripts by their payload -/

/-- A shorter bound drops the longer payloads. -/
theorem lonePush_le {spk : Bytes} {m n : ℕ} (h : m ≤ n) :
    lonePush m spk = (lonePush n spk).filter fun payload => payload.length ≤ m := by
  unfold lonePush
  split
  · split
    · rename_i len data _
      by_cases hlen : data.length = len
      · by_cases hm : len ≤ m
        · rw [if_pos ⟨hlen, hm⟩, if_pos ⟨hlen, by omega⟩]
          rw [Option.filter_some, if_pos (decide_eq_true (by omega))]
        · rw [if_neg fun hc => hm hc.2]
          split
          · rw [Option.filter_some, if_neg (by rw [decide_eq_true_iff]; omega)]
          · rfl
      · rw [if_neg fun hc => hlen hc.1, if_neg fun hc => hlen hc.1]
        rfl
    · rfl
  · rfl

theorem pushHead_prefix {op : Byte} {rest data : Bytes} {len : ℕ}
    (h : pushHead op rest = some (len, data)) :
    op :: rest = pushPrefix len ++ data ∧ 1 ≤ len := by
  have hbyte : ∀ (c : Byte) (k : ℕ), k % 256 = c.val → Fin.ofNat 256 k = c :=
    fun c k hk => Fin.ext hk
  unfold pushHead at h
  by_cases hdirect : 1 ≤ op.val ∧ op.val ≤ 75
  · rw [if_pos hdirect] at h
    cases h
    rw [pushPrefix, if_pos hdirect.2, hbyte op _ (by omega)]
    exact ⟨rfl, hdirect.1⟩
  rw [if_neg hdirect] at h
  by_cases h4c : op.val = 0x4C
  · rw [if_pos h4c] at h
    match rest, h with
    | l :: tail, h =>
      have hop : op = 0x4C := Fin.ext h4c
      obtain ⟨hleast, hdata⟩ := Option.ite_none_right_eq_some.mp h
      cases hdata
      rw [pushPrefix, if_neg (by omega), if_pos (by omega), hbyte l _ (by omega), hop]
      exact ⟨rfl, by omega⟩
  rw [if_neg h4c] at h
  obtain ⟨h4d, hrest⟩ := Option.ite_none_right_eq_some.mp h
  match rest, hrest with
  | lo :: hi :: tail, hrest =>
    have hop : op = 0x4D := Fin.ext h4d
    obtain ⟨hleast, hdata⟩ := Option.ite_none_right_eq_some.mp hrest
    cases hdata
    rw [pushPrefix, if_neg (by omega), if_neg (by omega), hbyte lo _ (by omega),
      hbyte hi _ (by omega), hop]
    exact ⟨rfl, by omega⟩

theorem pushHead_pushPrefix {len : ℕ} (h1 : 1 ≤ len) (hlen : len < 65536) (data : Bytes) :
    ∃ op rest, pushPrefix len ++ data = op :: rest ∧ pushHead op rest = some (len, data) := by
  have hval : ∀ k, (Fin.ofNat 256 k).val = k % 256 := fun _ => rfl
  unfold pushPrefix
  by_cases hdirect : len ≤ 75
  · rw [if_pos hdirect]
    refine ⟨Fin.ofNat 256 len, data, rfl, ?_⟩
    unfold pushHead
    rw [hval, Nat.mod_eq_of_lt (by omega), if_pos ⟨h1, hdirect⟩]
  rw [if_neg hdirect]
  by_cases hone : len ≤ 255
  · rw [if_pos hone]
    refine ⟨0x4C, Fin.ofNat 256 len :: data, rfl, ?_⟩
    have hhead : pushHead 0x4C (Fin.ofNat 256 len :: data)
        = if 76 ≤ len % 256 then some (len % 256, data) else none := rfl
    rw [hhead, Nat.mod_eq_of_lt (by omega), if_pos (by omega)]
  · rw [if_neg hone]
    refine ⟨0x4D, Fin.ofNat 256 len :: Fin.ofNat 256 (len / 256) :: data, rfl, ?_⟩
    have hhead : pushHead 0x4D (Fin.ofNat 256 len :: Fin.ofNat 256 (len / 256) :: data)
        = if 256 ≤ len % 256 + 256 * (len / 256 % 256) then
            some (len % 256 + 256 * (len / 256 % 256), data) else none := rfl
    rw [hhead, show len % 256 + 256 * (len / 256 % 256) = len by omega, if_pos (by omega)]

theorem lonePush_iff {spk payload : Bytes} {max : ℕ} (hmax : max < 65536) :
    lonePush max spk = some payload ↔
      spk = opReturn payload ∧ 1 ≤ payload.length ∧ payload.length ≤ max := by
  constructor
  · intro h
    unfold lonePush at h
    split at h
    · rename_i op rest
      split at h
      · rename_i len data hhead
        obtain ⟨hfit, hdata⟩ := Option.ite_none_right_eq_some.mp h
        obtain ⟨hpre, hpos⟩ := pushHead_prefix hhead
        cases hdata
        refine ⟨?_, by omega, by omega⟩
        rw [opReturn, hfit.1, hpre]
      · exact absurd h (by simp)
    · exact absurd h (by simp)
  · rintro ⟨rfl, hpos, hle⟩
    obtain ⟨op, rest, hpre, hhead⟩ := pushHead_pushPrefix hpos (by omega) payload
    rw [opReturn, hpre, lonePush_cons, hhead]
    exact if_pos ⟨rfl, hle⟩

end NamespaceIndexer.Daemon
