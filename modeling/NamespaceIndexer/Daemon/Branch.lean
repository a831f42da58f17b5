import NamespaceIndexer.Daemon.Pow
import NamespaceIndexer.Daemon.ServeStore
import NamespaceIndexer.Daemon.Sync
import NamespaceIndexer.Fold.Encode

/-!
# Block validation and branch weighing (`sync.c`)

A block is validated against the rows of `blocks`, a header of a branch against what was kept of the
two headers before it.
-/

namespace NamespaceIndexer.Daemon

open Fold Lib

variable (sha256 idxPowHash : Bytes → Hash256) (coin : Coin)

/-- `idx_db_block_hdr`, where its callers start from zero. -/
def idxDbBlockHdr (db : Db) (height : ℤ) : ℤ × ℕ :=
  match OrderedTable.find? BlockRow.height db.blocks height with
  | some r => (r.time, r.bits)
  | none => (0, 0)

/-- `idx_db_block_times`. -/
def idxDbBlockTimes (db : Db) (height : ℤ) : List ℤ :=
  ((db.blocks.filter fun r => r.height < height).reverse.take 11).map BlockRow.time

/-- The retarget context of the block on top of `height`: time and bits there, and the time of the
block below. -/
structure PowContext where
  prevTime : ℤ
  prevprevTime : ℤ
  prevBits : ℕ
  deriving DecidableEq

/-- The context from the database, with the checkpoint standing in for the two heights below it. -/
def powContext (db : Db) (height : ℤ) : PowContext where
  prevTime := if height = coin.start then coin.startTime else (idxDbBlockHdr db height).1
  prevprevTime :=
    if height - 1 = coin.start then coin.startTime
    else if height - 1 = coin.start - 1 then coin.startPrevTime
    else (idxDbBlockHdr db (height - 1)).1
  prevBits := if height = coin.start then coin.startBits else (idxDbBlockHdr db height).2

/-- The Digishield rule; it is skipped where the context was not recorded. -/
def PowContext.Expects (c : PowContext) (bits : ℕ) : Prop :=
  c.prevBits ≠ 0 ∧ c.prevTime ≠ 0 ∧ c.prevprevTime ≠ 0 →
    bits = idxPowNextBits c.prevBits c.prevTime c.prevprevTime coin.powlimit

instance (c : PowContext) (bits : ℕ) : Decidable (c.Expects coin bits) :=
  inferInstanceAs (Decidable (_ → _))

/-- The times below `pos`, with the checkpoint's two where fewer than eleven are stored. -/
def withStandIns (pos : ℤ) (times : List ℤ) : List ℤ :=
  let times :=
    if times.length < 11 ∧ pos - times.length - 1 = coin.start then times ++ [coin.startTime]
    else times
  if times.length < 11 ∧ pos - times.length - 1 = coin.start - 1 then
    times ++ [coin.startPrevTime]
  else times

/-- The times that the median is taken of. -/
def medianTimes (db : Db) (pos : ℤ) : List ℤ := withStandIns coin pos (idxDbBlockTimes db pos)

/-- Is the block younger than the median of `times`? -/
def medianAllows (times : List ℤ) (time : ℤ) : Bool :=
  match (times.insertionSort (· ≤ ·))[times.length / 2]? with
  | none => true
  | some median => median < time

def Coin.powParams : PowParams := ⟨coin.powlimit, coin.auxChainId⟩

/-- `block_validate`. -/
def blockValidate (db : Db) (pos : ℤ) (raw : Bytes) : Bool :=
  if coin.powlimit = 0 then true
  else
    match (idxParseBlock sha256 raw).2 with
    | none => false
    | some m =>
      m.merkleOk && idxPowCheck sha256 idxPowHash coin.powParams raw &&
        (powContext coin db (pos - 1)).Expects coin m.bits &&
        medianAllows (medianTimes coin db pos) m.time

/-- `BranchCtx`. -/
structure BranchCtx where
  h : ℤ
  prevHash : Hash256
  context : PowContext
  work : ℕ
  n : ℕ

/-- `branch_seed`. -/
def branchSeed (db : Db) (forkH : ℤ) (forkHash : Hash256) : BranchCtx :=
  ⟨forkH, forkHash, powContext coin db forkH, 0, 0⟩

/-- The context after a header. -/
def BranchCtx.next (bc : BranchCtx) (hdr : Bytes) : BranchCtx where
  h := bc.h + 1
  prevHash := idxSha256d sha256 (hdr.take 80)
  context := ⟨le32At hdr 68, bc.context.prevTime, le32At hdr 72⟩
  work := idxPowWorkAdd bc.work (idxPowWork (le32At hdr 72))
  n := bc.n + 1

/-- One element of a `headers` message, and the bytes it spans. -/
def weighHeader (bc : BranchCtx) (pl : Bytes) : Option (BranchCtx × ℕ) :=
  if pl.length < 80 ∨ prevField pl ≠ bc.prevHash.val then none
  else
    match idxPowCheck2 sha256 idxPowHash coin.powParams pl with
    | none => none
    | some span =>
      if bc.context.Expects coin (le32At pl 72) then some (bc.next sha256 pl, span) else none

/-- What the transaction count of an element takes after its first byte. -/
def countTail (tc : Byte) : ℕ :=
  if tc = 0xFD then 2 else if tc = 0xFE then 4 else if tc = 0xFF then 8 else 0

/-- The loop of `branch_weigh` over `cnt` elements: the context, and how many were accepted. -/
def weighHeaders : ℕ → BranchCtx → Bytes → Option (BranchCtx × ℕ)
  | 0, bc, _ => some (bc, 0)
  | cnt + 1, bc, pl =>
    match weighHeader sha256 idxPowHash coin bc pl with
    | none => none
    | some (bc, span) =>
      match pl.drop span with
      | [] => some (bc, 1)
      | tc :: rest =>
        (weighHeaders cnt bc (rest.drop (countTail tc))).map fun o => (o.1, o.2 + 1)

/-- `branch_weigh`; none for a return of -1. -/
def branchWeigh (bc : BranchCtx) (pl : Bytes) : Option (BranchCtx × ℕ) :=
  match pl with
  | [] => some (bc, 0)
  | c :: rest =>
    if c = 0xFD then
      if rest.length < 2 then some (bc, 0)
      else weighHeaders sha256 idxPowHash coin (leVal (rest.take 2)) bc (rest.drop 2)
    else if 0xFE ≤ c.val then none
    else weighHeaders sha256 idxPowHash coin c.val bc rest

/-- `put_varint`. -/
def putVarint (v : ℕ) : Bytes :=
  if v < 0xFD then leBytes 1 v
  else if v ≤ 0xFFFF then 0xFD :: leBytes 2 v
  else 0xFE :: leBytes 4 v

/-- The elements of a `headers` message without AuxPoW: a header and no transactions. -/
def headerElements (hdrs : List Bytes) : Bytes := hdrs.flatMap fun hdr => hdr ++ [0]

/-- The message of the `getheaders` branch of `serve_dispatch`. -/
def headersMessage (hdrs : List Bytes) : Bytes := putVarint hdrs.length ++ headerElements hdrs

/-! ### The context along a chain -/

section Context

variable {coin}

/-- The header row after one more block. -/
theorem idxDbBlockHdr_put {db db' : Db} {row : BlockRow}
    (hord : OrderedTable.Ordered BlockRow.height db.blocks)
    (hput : db'.blocks = OrderedTable.put BlockRow.height row db.blocks) (k : ℤ) :
    idxDbBlockHdr db' k
      = if row.height = k then ((row.time : ℤ), row.bits) else idxDbBlockHdr db k := by
  unfold idxDbBlockHdr
  rw [hput, hord.find?_put BlockRow.height]
  by_cases hk : row.height = k
  · rw [if_pos hk, if_pos hk]
  · rw [if_neg hk, if_neg hk]

/-- A context reads two rows. -/
theorem powContext_congr {db db' : Db} {height : ℤ}
    (h : ∀ k ≤ height, idxDbBlockHdr db' k = idxDbBlockHdr db k) :
    powContext coin db' height = powContext coin db height := by
  unfold powContext
  rw [h height le_rfl, h (height - 1) (by omega)]

/-- The context on top of a block above the checkpoint. -/
theorem powContext_succ {db db' : Db} {height : ℤ} {time : ℤ} {bits : ℕ}
    (hlow : coin.start ≤ height) (hrow : idxDbBlockHdr db' (height + 1) = (time, bits))
    (hsame : idxDbBlockHdr db' height = idxDbBlockHdr db height) :
    powContext coin db' (height + 1) = ⟨time, (powContext coin db height).prevTime, bits⟩ := by
  have hne : height + 1 ≠ coin.start := by omega
  have hne' : height ≠ coin.start - 1 := by omega
  unfold powContext
  simp only [Int.add_sub_cancel, if_neg hne, if_neg hne', hrow, hsame]

end Context

/-! ### Weighing a message -/

section Weigh

variable {sha256 idxPowHash coin}

theorem weighHeader_eq_some {bc bc' : BranchCtx} {pl : Bytes} {span : ℕ} :
    weighHeader sha256 idxPowHash coin bc pl = some (bc', span) ↔
      prevField pl = bc.prevHash.val ∧
        idxPowCheck2 sha256 idxPowHash coin.powParams pl = some span ∧
        bc.context.Expects coin (le32At pl 72) ∧ bc' = bc.next sha256 pl := by
  unfold weighHeader
  constructor
  · intro h
    split at h
    · cases h
    · rename_i hlink
      split at h
      · cases h
      · rename_i s hs
        split at h
        · rename_i hexp
          cases h
          exact ⟨not_not.mp (not_or.mp hlink).2, hs, hexp, rfl⟩
        · cases h
  · rintro ⟨hlink, hs, hexp, rfl⟩
    have hlen := idxPowCheck2_span hs
    rw [if_neg (not_or.mpr ⟨by omega, not_not.mpr hlink⟩), hs]
    exact if_pos hexp

/-- A message that is accepted to its last element has at least 80 bytes for it, and 81 for each
before. -/
theorem weighHeaders_length {cnt : ℕ} {bc bc' : BranchCtx} {pl : Bytes}
    (h : weighHeaders sha256 idxPowHash coin (cnt + 1) bc pl = some (bc', cnt + 1)) :
    81 * cnt + 80 ≤ pl.length := by
  induction cnt generalizing bc bc' pl with
  | zero =>
    unfold weighHeaders at h
    split at h
    · cases h
    · rename_i bc1 span hw
      obtain ⟨-, hs, -⟩ := weighHeader_eq_some.mp hw
      have hspan := idxPowCheck2_span hs
      omega
  | succ cnt ih =>
    unfold weighHeaders at h
    split at h
    · cases h
    · rename_i bc1 span hw
      obtain ⟨-, hs, -⟩ := weighHeader_eq_some.mp hw
      have hspan := idxPowCheck2_span hs
      split at h
      · cases h
      · rename_i tc rest hdrop
        obtain ⟨⟨bc2, m⟩, hrest, heq⟩ := Option.map_eq_some_iff.mp h
        have hm : m = cnt + 1 := by
          have hsnd := congrArg Prod.snd heq
          dsimp only at hsnd
          omega
        subst hm
        have hle := ih hrest
        have hlen := congrArg List.length hdrop
        rw [List.length_drop, List.length_cons] at hlen
        rw [List.length_drop] at hle
        omega

variable (sha256 idxPowHash coin) in
/-- Elements that extend a branch one after another: each is as long as the check says. -/
def Extends (bc : BranchCtx) : List Bytes → Prop
  | [] => True
  | e :: es =>
    prevField e = bc.prevHash.val ∧
      idxPowCheck2 sha256 idxPowHash coin.powParams e = some e.length ∧
      bc.context.Expects coin (le32At e 72) ∧ Extends (bc.next sha256 e) es

theorem BranchCtx.next_take (bc : BranchCtx) (pl : Bytes) :
    bc.next sha256 (pl.take 80) = bc.next sha256 pl := by
  unfold BranchCtx.next
  rw [List.take_take, Nat.min_self, le32At_take (by omega), le32At_take (by omega)]

/-- An element is weighed by its span alone. -/
theorem weighHeader_append {bc bc' : BranchCtx} {pl : Bytes} {span : ℕ}
    (h : weighHeader sha256 idxPowHash coin bc pl = some (bc', span)) (rest : Bytes) :
    weighHeader sha256 idxPowHash coin bc (pl.take span ++ rest) = some (bc', span) := by
  obtain ⟨hlink, hs, hexp, rfl⟩ := weighHeader_eq_some.mp h
  obtain ⟨hge, hle⟩ := idxPowCheck2_span hs
  have htake : (pl.take span ++ rest).take 80 = pl.take 80 := by
    rw [List.take_append_of_le_length (by rw [List.length_take]; omega), List.take_take,
      Nat.min_eq_left hge]
  refine weighHeader_eq_some.mpr ⟨?_, idxPowCheck2_append hs rest, ?_, ?_⟩
  · rw [← prevField_take, htake, prevField_take]
    exact hlink
  · rw [← le32At_take (show 72 + 4 ≤ 80 by omega), htake, le32At_take (by omega)]
    exact hexp
  · rw [← BranchCtx.next_take, ← BranchCtx.next_take bc (pl.take span ++ rest), htake]

theorem headerElements_cons (e : Bytes) (es : List Bytes) :
    headerElements (e :: es) = e ++ 0 :: headerElements es := by
  unfold headerElements
  rw [List.flatMap_cons, List.append_assoc]
  rfl

theorem weighHeaders_of_extends {bc : BranchCtx} {es : List Bytes}
    (h : Extends sha256 idxPowHash coin bc es) :
    weighHeaders sha256 idxPowHash coin es.length bc (headerElements es) =
      some (es.foldl (BranchCtx.next sha256) bc, es.length) := by
  induction es generalizing bc with
  | nil => rfl
  | cons e es ih =>
    obtain ⟨hlink, hs, hexp, hrest⟩ := h
    have hw := weighHeader_append (weighHeader_eq_some.mpr ⟨hlink, hs, hexp, rfl⟩)
      (0 :: headerElements es)
    rw [List.take_length] at hw
    have hdrop : (e ++ 0 :: headerElements es).drop e.length = 0 :: headerElements es :=
      List.drop_left
    have hnext := ih hrest
    have hskip : countTail 0 = 0 := by decide
    rw [headerElements_cons, List.length_cons, weighHeaders, hw]
    dsimp only
    rw [hdrop]
    dsimp only
    rw [hskip, List.drop_zero, hnext]
    rfl

/-- What is accepted to its last element, where the check spans each one, extends the branch. -/
theorem extends_of_weighed {bc bc' : BranchCtx} {es : List Bytes}
    (hspan : ∀ e ∈ es, ∀ rest span,
      idxPowCheck2 sha256 idxPowHash coin.powParams (e ++ rest) = some span → span = e.length)
    (h : weighHeaders sha256 idxPowHash coin es.length bc (headerElements es) =
      some (bc', es.length)) :
    Extends sha256 idxPowHash coin bc es ∧ bc' = es.foldl (BranchCtx.next sha256) bc := by
  induction es generalizing bc bc' with
  | nil =>
    cases h
    exact ⟨trivial, rfl⟩
  | cons e es ih =>
    have hskip : countTail 0 = 0 := by decide
    rw [headerElements_cons, List.length_cons] at h
    unfold weighHeaders at h
    split at h
    · cases h
    · rename_i bc1 span hw
      have hlen : span = e.length :=
        hspan e (List.mem_cons_self ..) _ span (weighHeader_eq_some.mp hw).2.1
      subst hlen
      have hdrop : (e ++ 0 :: headerElements es).drop e.length = 0 :: headerElements es :=
        List.drop_left
      rw [hdrop] at h
      dsimp only at h
      rw [hskip, List.drop_zero] at h
      obtain ⟨⟨bc2, m⟩, hrest, heq⟩ := Option.map_eq_some_iff.mp h
      have hm : m + 1 = es.length + 1 := congrArg Prod.snd heq
      have hbc : bc2 = bc' := congrArg Prod.fst heq
      have hmk : m = es.length := by omega
      rw [hmk, hbc] at hrest
      have halone := weighHeader_append hw []
      rw [List.take_left, List.append_nil] at halone
      obtain ⟨hlink, hs, hexp, rfl⟩ := weighHeader_eq_some.mp halone
      obtain ⟨hext, hlast⟩ := ih (fun x hx => hspan x (List.mem_cons_of_mem _ hx)) hrest
      exact ⟨⟨hlink, hs, hexp, hext⟩, hlast⟩

theorem extends_append {bc : BranchCtx} {es es' : List Bytes} :
    Extends sha256 idxPowHash coin bc (es ++ es') ↔
      Extends sha256 idxPowHash coin bc es ∧
        Extends sha256 idxPowHash coin (es.foldl (BranchCtx.next sha256) bc) es' := by
  induction es generalizing bc with
  | nil => exact ⟨fun h => ⟨trivial, h⟩, fun h => h.2⟩
  | cons e es ih =>
    constructor
    · rintro ⟨hlink, hs, hexp, hrest⟩
      obtain ⟨h1, h2⟩ := ih.mp hrest
      exact ⟨⟨hlink, hs, hexp, h1⟩, h2⟩
    · rintro ⟨⟨hlink, hs, hexp, h1⟩, h2⟩
      exact ⟨hlink, hs, hexp, ih.mpr ⟨h1, h2⟩⟩

theorem headerElements_length {hdrs : List Bytes} (h : ∀ hdr ∈ hdrs, hdr.length = 80) :
    (headerElements hdrs).length = 81 * hdrs.length := by
  induction hdrs with
  | nil => rfl
  | cons hdr hdrs ih =>
    have h80 := h hdr (List.mem_cons_self ..)
    have hrest := ih fun x hx => h x (List.mem_cons_of_mem _ hx)
    rw [headerElements_cons, List.length_append, List.length_cons, List.length_cons]
    omega

/-- Rows of 80 bytes are accepted to the last one only where none of them needs more. -/
theorem directMined_of_accepted {bc bc' : BranchCtx} {hdrs : List Bytes}
    (hlen : ∀ hdr ∈ hdrs, hdr.length = 80)
    (h : weighHeaders sha256 idxPowHash coin hdrs.length bc (headerElements hdrs) =
      some (bc', hdrs.length)) : ∀ hdr ∈ hdrs, DirectMined hdr := by
  induction hdrs generalizing bc bc' with
  | nil => exact fun _ hm => absurd hm List.not_mem_nil
  | cons hdr hdrs ih =>
    have h80 := hlen hdr (List.mem_cons_self ..)
    have htotal := headerElements_length hlen
    rw [List.length_cons] at htotal h
    have hskip : countTail 0 = 0 := by decide
    have htake : (headerElements (hdr :: hdrs)).take 80 = hdr := by
      rw [headerElements_cons, ← h80, List.take_left]
    unfold weighHeaders at h
    split at h
    · cases h
    · rename_i bc1 span hw
      obtain ⟨-, hs, -⟩ := weighHeader_eq_some.mp hw
      have hdirect : DirectMined hdr := by
        rw [← htake, directMined_take]
        by_contra hm
        have hspan := idxPowCheck2_merged hs hm
        split at h
        · rw [Option.some_inj, Prod.mk.injEq] at h
          omega
        · rename_i tc rest hdrop
          obtain ⟨⟨bc2, m⟩, hrest, heq⟩ := Option.map_eq_some_iff.mp h
          have hm' : m + 1 = hdrs.length + 1 := congrArg Prod.snd heq
          have hcut := congrArg List.length hdrop
          rw [List.length_drop, List.length_cons] at hcut
          obtain ⟨k, hk⟩ : ∃ k, hdrs.length = k + 1 := ⟨hdrs.length - 1, by omega⟩
          have hmk : m = k + 1 := by omega
          rw [hk, hmk] at hrest
          have hle := weighHeaders_length hrest
          rw [List.length_drop] at hle
          omega
      have hspan : span = 80 := idxPowCheck2_direct hs (by
        rw [← directMined_take, htake]
        exact hdirect)
      have hdrop : (headerElements (hdr :: hdrs)).drop span = 0 :: headerElements hdrs := by
        rw [headerElements_cons, hspan, ← h80, List.drop_left]
      rw [hdrop] at h
      dsimp only at h
      rw [hskip, List.drop_zero] at h
      obtain ⟨⟨bc2, m⟩, hrest, heq⟩ := Option.map_eq_some_iff.mp h
      have hm' : m + 1 = hdrs.length + 1 := congrArg Prod.snd heq
      have hmk : m = hdrs.length := by omega
      rw [hmk] at hrest
      intro x hx
      rcases List.mem_cons.mp hx with rfl | hx
      · exact hdirect
      · exact ih (fun y hy => hlen y (List.mem_cons_of_mem _ hy)) hrest x hx

variable (sha256) in
/-- The work of headers that follow one another. -/
theorem foldl_next_work (bc : BranchCtx) (es : List Bytes) :
    (es.foldl (BranchCtx.next sha256) bc).work % 2 ^ 256 =
      (bc.work + (es.map fun e => idxPowWork (le32At e 72)).sum) % 2 ^ 256 := by
  induction es generalizing bc with
  | nil => rfl
  | cons e es ih =>
    rw [List.foldl_cons, ih, List.map_cons, List.sum_cons]
    show (idxPowWorkAdd bc.work (idxPowWork (le32At e 72)) + _) % 2 ^ 256 = _
    unfold idxPowWorkAdd
    rw [Nat.mod_add_mod, Nat.add_assoc]

variable (sha256) in
theorem foldl_next_work_lt {bc : BranchCtx} (h : bc.work < 2 ^ 256) (es : List Bytes) :
    (es.foldl (BranchCtx.next sha256) bc).work < 2 ^ 256 := by
  induction es generalizing bc with
  | nil => exact h
  | cons e es ih => exact ih (Nat.mod_lt _ (Nat.two_pow_pos 256))

/-! ### The message -/

/-- A count of two bytes is read back. -/
theorem branchWeigh_headersMessage (bc : BranchCtx) {es : List Bytes} (h : es.length ≤ 0xFFFF) :
    branchWeigh sha256 idxPowHash coin bc (headersMessage es) =
      weighHeaders sha256 idxPowHash coin es.length bc (headerElements es) := by
  unfold headersMessage putVarint
  by_cases hs : es.length < 0xFD
  · have hbyte : (Fin.ofNat 256 es.length).val = es.length := Nat.mod_eq_of_lt (by omega)
    have hne : Fin.ofNat 256 es.length ≠ 0xFD := by
      intro he
      have hval : es.length = 0xFD := hbyte.symm.trans (congrArg Fin.val he)
      omega
    rw [if_pos hs]
    show branchWeigh _ _ _ _ (Fin.ofNat 256 es.length :: headerElements es) = _
    unfold branchWeigh
    dsimp only
    rw [if_neg hne, if_neg (by rw [hbyte]; omega), hbyte]
  · have hval := leVal_leBytes 2 es.length
    rw [Nat.mod_eq_of_lt (by omega)] at hval
    have hlen := length_leBytes 2 es.length
    rw [if_neg hs, if_pos h]
    show branchWeigh _ _ _ _ (0xFD :: (leBytes 2 es.length ++ headerElements es)) = _
    unfold branchWeigh
    dsimp only
    rw [if_pos rfl, if_neg (by rw [List.length_append]; omega), List.take_left' hlen,
      List.drop_left' hlen, hval]

theorem branchWeigh_overlong (bc : BranchCtx) {es : List Bytes} (h : 0xFFFF < es.length) :
    branchWeigh sha256 idxPowHash coin bc (headersMessage es) = none := by
  unfold headersMessage putVarint
  rw [if_neg (by omega), if_neg (by omega)]
  rfl

end Weigh

end NamespaceIndexer.Daemon
