import NamespaceIndexer.Daemon.Pushes
import NamespaceIndexer.Fold.Digest
import NamespaceIndexer.Fold.Encode
import NamespaceIndexer.Lib.Cursor

/-!
# `OP_RETURN` scripts (`chain.c`)

`idx_op_return_payload` over the indices it reads, and the scripts it takes: each payload has one.
-/

namespace NamespaceIndexer.Daemon

open Fold Lib

/-! ### Push forms -/

/-- The four ways to push data. -/
inductive PushForm where
  | direct
  | pushdata1
  | pushdata2
  | pushdata4

/-- A form carries the lengths below this. -/
def PushForm.limit : PushForm → ℕ
  | .direct => 76
  | .pushdata1 => 256
  | .pushdata2 => 65536
  | .pushdata4 => 4294967296

/-- The opcode of a form with its length field. -/
def PushForm.head : PushForm → ℕ → Bytes
  | .direct, len => [Fin.ofNat 256 len]
  | .pushdata1, len => 0x4C :: leBytes 1 len
  | .pushdata2, len => 0x4D :: leBytes 2 len
  | .pushdata4, len => 0x4E :: leBytes 4 len

def PushForm.push (form : PushForm) (data : Bytes) : Bytes := form.head data.length ++ data

/-- No form that carries the length has a shorter head. -/
def PushForm.Minimal (form : PushForm) (len : ℕ) : Prop :=
  len < form.limit ∧ ∀ other : PushForm, len < other.limit →
    (form.head len).length ≤ (other.head len).length

/-- The least length the form is minimal for. -/
def PushForm.least : PushForm → ℕ
  | .direct => 0
  | .pushdata1 => 76
  | .pushdata2 => 256
  | .pushdata4 => 65536

theorem PushForm.minimal_iff {form : PushForm} {len : ℕ} :
    form.Minimal len ↔ form.least ≤ len ∧ len < form.limit := by
  constructor
  · rintro ⟨hlen, hshort⟩
    have hdirect : len < 76 → (form.head len).length ≤ 1 := hshort .direct
    have hone : len < 256 → (form.head len).length ≤ 2 := hshort .pushdata1
    have htwo : len < 65536 → (form.head len).length ≤ 3 := hshort .pushdata2
    cases form <;>
      simp only [limit, least, head, leBytes, List.length_cons, List.length_nil] at * <;> omega
  · rintro ⟨hleast, hlen⟩
    refine ⟨hlen, fun other hother => ?_⟩
    cases form <;> cases other <;>
      simp only [limit, least, head, leBytes, List.length_cons, List.length_nil] at * <;> omega

theorem pushPrefix_minimal {len : ℕ} (h : len < 65536) :
    ∃ form : PushForm, form.Minimal len ∧ pushPrefix len = form.head len := by
  simp only [PushForm.minimal_iff]
  unfold pushPrefix
  by_cases hdirect : len ≤ 75
  · rw [if_pos hdirect]
    exact ⟨.direct, ⟨Nat.zero_le _, by simp only [PushForm.limit]; omega⟩, rfl⟩
  rw [if_neg hdirect]
  by_cases hone : len ≤ 255
  · rw [if_pos hone]
    exact ⟨.pushdata1, ⟨by simp only [PushForm.least]; omega,
      by simp only [PushForm.limit]; omega⟩, rfl⟩
  · rw [if_neg hone]
    exact ⟨.pushdata2, ⟨by simp only [PushForm.least]; omega, h⟩, rfl⟩

theorem leBytes_bytes (v : ℕ) :
    leBytes 1 v = [Fin.ofNat 256 v] ∧ leBytes 2 v = [Fin.ofNat 256 v, Fin.ofNat 256 (v / 256)] :=
  ⟨rfl, rfl⟩

/-- What the extractor makes of the head of a push. -/
theorem pushHead_head {form : PushForm} {len : ℕ} (hlen : len < form.limit) (tail : Bytes) :
    ∃ op rest, form.head len ++ tail = op :: rest ∧
      pushHead op rest = if form.least ≤ len ∧ 1 ≤ len ∧ len < 65536 then some (len, tail)
        else none := by
  have hval : ∀ k, (Fin.ofNat 256 k).val = k % 256 := fun _ => rfl
  cases form with
  | direct =>
    refine ⟨Fin.ofNat 256 len, tail, rfl, ?_⟩
    simp only [PushForm.limit] at hlen
    have hbyte : (Fin.ofNat 256 len).val = len := Nat.mod_eq_of_lt (by omega)
    unfold pushHead
    rw [hbyte]
    by_cases h1 : 1 ≤ len
    · rw [if_pos (by omega), if_pos ⟨Nat.zero_le _, h1, by omega⟩]
    · rw [if_neg (by omega), if_neg (by omega), if_neg (by omega), if_neg fun h => h1 h.2.1]
  | pushdata1 =>
    refine ⟨0x4C, Fin.ofNat 256 len :: tail, rfl, ?_⟩
    simp only [PushForm.limit] at hlen
    have hhead : pushHead 0x4C (Fin.ofNat 256 len :: tail)
        = if 76 ≤ len % 256 then some (len % 256, tail) else none := rfl
    rw [hhead, Nat.mod_eq_of_lt (by omega)]
    exact if_congr (by simp only [PushForm.least]; omega) rfl rfl
  | pushdata2 =>
    refine ⟨0x4D, Fin.ofNat 256 len :: Fin.ofNat 256 (len / 256) :: tail, rfl, ?_⟩
    simp only [PushForm.limit] at hlen
    have hhead : pushHead 0x4D (Fin.ofNat 256 len :: Fin.ofNat 256 (len / 256) :: tail)
        = if 256 ≤ len % 256 + 256 * (len / 256 % 256) then
            some (len % 256 + 256 * (len / 256 % 256), tail) else none := rfl
    rw [hhead, show len % 256 + 256 * (len / 256 % 256) = len by omega]
    exact if_congr (by simp only [PushForm.least]; omega) rfl rfl
  | pushdata4 =>
    refine ⟨0x4E, leBytes 4 len ++ tail, rfl, ?_⟩
    have hhead : pushHead 0x4E (leBytes 4 len ++ tail) = none := rfl
    rw [hhead, if_neg (by simp only [PushForm.least]; omega)]

/-! ### Scripts that are taken, and scripts that are refused -/

/-- A push and what follows it: taken when it is minimal, of 1 to 9996 bytes, and the last. -/
theorem idxOpReturnPayload_push {form : PushForm} {data extra payload : Bytes}
    (hfits : data.length < form.limit) :
    idxOpReturnPayload (0x6A :: (form.push data ++ extra)) = some payload ↔
      form.Minimal data.length ∧ 1 ≤ data.length ∧ data.length ≤ 9996 ∧ extra = [] ∧
        payload = data := by
  obtain ⟨op, rest, happ, hhead⟩ := pushHead_head hfits (data ++ extra)
  rw [← List.append_assoc, ← PushForm.push] at happ
  rw [happ, idxOpReturnPayload_eq, if_neg (by simp), lonePush_cons, hhead, PushForm.minimal_iff]
  have hmax : carrierMax = 9996 := rfl
  by_cases hmin : form.least ≤ data.length ∧ 1 ≤ data.length ∧ data.length < 65536
  · rw [if_pos hmin, Option.ite_none_right_eq_some, List.length_append, hmax]
    constructor
    · rintro ⟨⟨hlen, hle⟩, hpay⟩
      have hextra : extra = [] := List.length_eq_zero_iff.mp (by omega)
      rw [hextra, List.append_nil] at hpay
      exact ⟨⟨hmin.1, hfits⟩, hmin.2.1, hle, hextra, (Option.some.inj hpay).symm⟩
    · rintro ⟨-, -, hle, rfl, rfl⟩
      exact ⟨⟨by simp, hle⟩, by rw [List.append_nil]⟩
  · rw [if_neg hmin]
    constructor
    · intro h
      exact absurd h (by simp)
    · rintro ⟨⟨hleast, -⟩, hpos, hle, -, -⟩
      exact absurd ⟨hleast, hpos, by omega⟩ hmin

/-- After a length with fewer bytes than it gives, nothing is taken. -/
theorem lonePush_short {max len : ℕ} {op : Byte} {rest data : Bytes}
    (hhead : ∀ n d, pushHead op rest = some (n, d) → n = len ∧ d = data)
    (hshort : data.length < len) : lonePush max (0x6A :: op :: rest) = none := by
  rw [lonePush_cons]
  cases hpush : pushHead op rest with
  | none => rfl
  | some push =>
    obtain ⟨hlen, hdata⟩ := hhead push.1 push.2 hpush
    dsimp only
    rw [hlen, hdata, if_neg fun h => absurd h.1 (by omega)]

/-- A push cut short is refused. -/
theorem idxOpReturnPayload_truncated {form : PushForm} {data : Bytes} {k : ℕ}
    (hfits : data.length < form.limit) (hpos : 0 < k) (hk : k < (form.push data).length) :
    idxOpReturnPayload (0x6A :: (form.push data).take k) = none := by
  have hval : ∀ k, (Fin.ofNat 256 k).val = k % 256 := fun _ => rfl
  obtain ⟨j, rfl⟩ : ∃ j, k = j + 1 := ⟨k - 1, by omega⟩
  have hlone : lonePush carrierMax (0x6A :: (form.push data).take (j + 1)) = none := by
    cases form with
    | direct =>
      simp only [PushForm.push, PushForm.head, PushForm.limit, List.cons_append, List.nil_append,
        List.take_succ_cons, List.length_cons] at hk hfits ⊢
      refine @lonePush_short _ data.length _ _ (data.take j) ?_ (by simp; omega)
      intro n d h
      unfold pushHead at h
      rw [hval, Nat.mod_eq_of_lt (by omega)] at h
      split at h
      · cases h
        exact ⟨rfl, rfl⟩
      · rw [if_neg (by omega), if_neg (by omega)] at h
        cases h
    | pushdata1 =>
      simp only [PushForm.push, PushForm.head, PushForm.limit, (leBytes_bytes _).1,
        List.cons_append, List.nil_append, List.take_succ_cons, List.length_cons] at hk hfits ⊢
      cases j with
      | zero => rfl
      | succ j =>
        rw [List.take_succ_cons]
        refine @lonePush_short _ data.length _ _ (data.take j) ?_ (by simp; omega)
        intro n d h
        have hhead : pushHead 0x4C (Fin.ofNat 256 data.length :: data.take j)
            = if 76 ≤ data.length % 256 then some (data.length % 256, data.take j) else none := rfl
        rw [hhead, Nat.mod_eq_of_lt hfits] at h
        obtain ⟨-, h⟩ := Option.ite_none_right_eq_some.mp h
        cases h
        exact ⟨rfl, rfl⟩
    | pushdata2 =>
      simp only [PushForm.push, PushForm.head, PushForm.limit, (leBytes_bytes _).2,
        List.cons_append, List.nil_append, List.take_succ_cons, List.length_cons] at hk hfits ⊢
      match j with
      | 0 => rfl
      | 1 => rfl
      | j + 2 =>
        rw [List.take_succ_cons, List.take_succ_cons]
        refine @lonePush_short _ data.length _ _ (data.take j) ?_ (by simp; omega)
        intro n d h
        have hhead : pushHead 0x4D (Fin.ofNat 256 data.length ::
              Fin.ofNat 256 (data.length / 256) :: data.take j)
            = if 256 ≤ data.length % 256 + 256 * (data.length / 256 % 256) then
                some (data.length % 256 + 256 * (data.length / 256 % 256), data.take j)
              else none := rfl
        rw [hhead] at h
        obtain ⟨-, h⟩ := Option.ite_none_right_eq_some.mp h
        cases h
        exact ⟨by omega, rfl⟩
    | pushdata4 =>
      simp only [PushForm.push, PushForm.head, List.cons_append, List.take_succ_cons]
      rfl
  rw [idxOpReturnPayload_eq, hlone]
  refine if_neg fun h => ?_
  have hlen := congrArg List.length h
  rw [List.length_cons, List.length_take] at hlen
  simp only [List.length_cons, List.length_nil] at hlen
  omega

/-! ### The reads -/

/-- `spk[i]`; a read past the end is a fault. -/
def spkAt (spk : Bytes) (i : ℕ) : Except Stop Byte :=
  match spk[i]? with
  | some b => .ok b
  | none => .error .fault

/-- The push after `OP_RETURN` in `idx_op_return_payload`: `len` and `off`. -/
def readPush (spk : Bytes) (i : ℕ) : Except Stop (Option (ℕ × ℕ)) := do
  let op ← spkAt spk i
  if 0x01 ≤ op.val ∧ op.val ≤ 0x4B then pure (some (op.val, i + 1))
  else if op = 0x4C then
    if i + 1 ≥ spk.length then pure none
    else do
      let len ← spkAt spk (i + 1)
      if len.val < 76 then pure none else pure (some (len.val, i + 2))
  else if op = 0x4D then
    if i + 2 ≥ spk.length then pure none
    else do
      let lo ← spkAt spk (i + 1)
      let hi ← spkAt spk (i + 2)
      if lo.val + 256 * hi.val < 256 then pure none
      else pure (some (lo.val + 256 * hi.val, i + 3))
  else pure none

/-- `idx_op_return_payload` by index: where the data starts (`none` is `NULL`) and its length. -/
def readOpReturn (spk : Bytes) : Except Stop (Option (Option ℕ × ℕ)) :=
  if spk.length < 1 then pure none
  else do
    let first ← spkAt spk 0
    if first ≠ 0x6A then pure none
    else if 1 ≥ spk.length then pure (some (none, 0))
    else do
      match ← readPush spk 1 with
      | none => pure none
      | some (len, off) =>
        if len = 0 ∨ len > carrierMax then pure none
        else if off + len ≠ spk.length then pure none
        else pure (some (some off, len))

/-- The `dlen` bytes at `data`. -/
def spanBytes (spk : Bytes) : Option ℕ × ℕ → Bytes
  | (none, _) => []
  | (some off, len) => (spk.drop off).take len

theorem readPush_eq {spk : Bytes} (h : 1 < spk.length) :
    readPush spk 1
      = .ok ((pushSpan spk).bind fun p => if p.1 < p.2.2 then none else some (p.1, p.2.1)) := by
  rcases spk with _ | ⟨first, _ | ⟨op, rest⟩⟩
  · cases h
  · exact absurd h (lt_irrefl 1)
  · have hop : spkAt (first :: op :: rest) 1 = .ok op := rfl
    rw [readPush, hop]
    simp only [pushSpan, List.drop_succ_cons, List.drop_zero, bind, Except.bind]
    by_cases hdirect : 1 ≤ op.val ∧ op.val ≤ 75
    · rw [if_pos hdirect, if_pos hdirect, Option.bind_some, if_neg (by dsimp only; omega)]
      rfl
    rw [if_neg hdirect, if_neg hdirect]
    by_cases h4c : op = 0x4C
    · rw [if_pos h4c, if_pos h4c]
      rcases rest with _ | ⟨len, data⟩
      · rfl
      · have hlen : spkAt (first :: op :: len :: data) (1 + 1) = .ok len := rfl
        have hval : leVal [len] = len.val := by simp [leVal]
        rw [if_neg (by simp), if_neg (by simp), hlen, List.take_succ_cons, List.take_zero, hval,
          Option.bind_some]
        dsimp only
        split <;> rfl
    rw [if_neg h4c, if_neg h4c]
    by_cases h4d : op = 0x4D
    · rw [if_pos h4d, if_pos h4d]
      rcases rest with _ | ⟨lo, _ | ⟨hi, data⟩⟩
      · rfl
      · rfl
      · have hlo : spkAt (first :: op :: lo :: hi :: data) (1 + 1) = .ok lo := rfl
        have hhi : spkAt (first :: op :: lo :: hi :: data) (1 + 2) = .ok hi := rfl
        have hval : leVal [lo, hi] = lo.val + 256 * hi.val := by simp [leVal]
        rw [if_neg (by simp), if_neg (by simp), hlo, hhi, List.take_succ_cons,
          List.take_succ_cons, List.take_zero, hval, Option.bind_some]
        dsimp only
        split <;> rfl
    · rw [if_neg h4d, if_neg h4d]
      rfl

/-- Every read is inside the script, and so is the payload. -/
theorem readOpReturn_ok (spk : Bytes) :
    ∃ found, readOpReturn spk = .ok found ∧
      idxOpReturnPayload spk = found.map (spanBytes spk) ∧
      ∀ off len, found = some (some off, len) → off + len = spk.length := by
  have hnone : ∀ off len, (none : Option (Option ℕ × ℕ)) = some (some off, len) →
      off + len = spk.length := by
    intro off len h
    cases h
  cases spk with
  | nil => exact ⟨none, rfl, rfl, hnone⟩
  | cons first rest =>
    have hfirst : spkAt (first :: rest) 0 = .ok first := rfl
    rw [readOpReturn, if_neg (by simp), hfirst, idxOpReturnPayload]
    simp only [bind, Except.bind, List.head?_cons, ne_eq, Option.some.injEq]
    by_cases hop : first = 0x6A
    swap
    · rw [if_pos hop, if_pos hop]
      exact ⟨none, rfl, rfl, hnone⟩
    rw [if_neg (not_not.mpr hop), if_neg (not_not.mpr hop)]
    by_cases hbare : (first :: rest).length = 1
    · rw [if_pos (by omega), if_pos hbare]
      refine ⟨_, rfl, rfl, ?_⟩
      intro off len h
      cases h
    have hlong : 1 < (first :: rest).length := by
      rw [List.length_cons] at hbare ⊢
      omega
    rw [if_neg (by omega), if_neg hbare, readPush_eq hlong]
    cases hspan : pushSpan (first :: rest) with
    | none => exact ⟨none, rfl, rfl, hnone⟩
    | some span =>
      obtain ⟨len, off, least⟩ := span
      simp only [Option.bind_some]
      by_cases hleast : len < least
      · rw [if_pos hleast, if_pos hleast]
        exact ⟨none, rfl, rfl, hnone⟩
      rw [if_neg hleast, if_neg hleast]
      dsimp only
      by_cases hmax : len = 0 ∨ len > carrierMax
      · rw [if_pos hmax, if_pos hmax]
        exact ⟨none, rfl, rfl, hnone⟩
      rw [if_neg hmax, if_neg hmax]
      by_cases hend : off + len ≠ (first :: rest).length
      · rw [if_pos hend, if_pos hend]
        exact ⟨none, rfl, rfl, hnone⟩
      · rw [if_neg hend, if_neg hend]
        refine ⟨_, rfl, ?_, ?_⟩
        · rw [Option.map_some, spanBytes, List.take_of_length_le]
          rw [List.length_drop]
          omega
        · intro off' len' h
          cases h
          exact not_not.mp hend

theorem idxOpReturnPayload_iff {spk payload : Bytes} (hpos : 1 ≤ payload.length) :
    idxOpReturnPayload spk = some payload ↔ spk = opReturn payload ∧ payload.length ≤ 9996 := by
  rw [idxOpReturnPayload_eq]
  by_cases hbare : spk = [0x6A]
  · rw [if_pos hbare, hbare]
    constructor
    · intro h
      cases h
      exact absurd hpos (by simp)
    · rintro ⟨h, -⟩
      have hlen := congrArg List.length h
      simp only [opReturn, List.length_cons, List.length_append, List.length_nil] at hlen
      omega
  · rw [if_neg hbare, lonePush_iff (by decide), show carrierMax = 9996 from rfl]
    constructor
    · rintro ⟨rfl, -, hle⟩
      exact ⟨rfl, hle⟩
    · rintro ⟨rfl, hle⟩
      exact ⟨rfl, hpos, hle⟩

/-- A payload of 1 to 9996 bytes comes from one script, `OP_RETURN` and its minimal push; no
script yields a longer one. Every other push is refused, and no read leaves the script. -/
theorem one_script_per_payload :
    (∀ payload : Bytes, 1 ≤ payload.length → payload.length ≤ 9996 →
      ∃ form : PushForm, form.Minimal payload.length ∧
        ∀ spk, idxOpReturnPayload spk = some payload ↔ spk = 0x6A :: form.push payload) ∧
    (∀ spk payload, idxOpReturnPayload spk = some payload → payload.length ≤ 9996) ∧
    (∀ (form : PushForm) (data extra : Bytes), data.length < form.limit →
      ¬ form.Minimal data.length ∨ data = [] ∨ extra ≠ [] →
        idxOpReturnPayload (0x6A :: (form.push data ++ extra)) = none) ∧
    (∀ (form : PushForm) (data : Bytes) (k : ℕ), data.length < form.limit → 0 < k →
      k < (form.push data).length → idxOpReturnPayload (0x6A :: (form.push data).take k) = none) ∧
    (∀ spk, ∃ found, readOpReturn spk = .ok found ∧
      idxOpReturnPayload spk = found.map (spanBytes spk) ∧
      ∀ off len, found = some (some off, len) → off + len = spk.length) := by
  refine ⟨?_, ?_, ?_, fun _ _ _ => idxOpReturnPayload_truncated, readOpReturn_ok⟩
  · intro payload hpos hle
    obtain ⟨form, hmin, hpre⟩ := pushPrefix_minimal (by omega : payload.length < 65536)
    refine ⟨form, hmin, fun spk => ?_⟩
    rw [idxOpReturnPayload_iff hpos, opReturn, hpre, ← PushForm.push, and_iff_left hle]
  · intro spk payload h
    by_cases hpos : 1 ≤ payload.length
    · exact ((idxOpReturnPayload_iff hpos).mp h).2
    · omega
  · intro form data extra hfits hbad
    rw [Option.eq_none_iff_forall_ne_some]
    intro payload h
    obtain ⟨hmin, hpos, -, hextra, -⟩ := (idxOpReturnPayload_push hfits).mp h
    rcases hbad with hbad | rfl | hbad
    · exact hbad hmin
    · exact absurd hpos (by simp)
    · exact hbad hextra

end NamespaceIndexer.Daemon
