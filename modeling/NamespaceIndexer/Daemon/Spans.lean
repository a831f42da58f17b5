import NamespaceIndexer.Daemon.Auxpow
import NamespaceIndexer.Daemon.Headers

/-!
# Where the two readers of an AuxPoW stop (`pow.c`, `chain.c`)

Whatever `idx_pow_check2` takes for an AuxPoW, `auxpow_skip` takes over the same bytes, but for
the SegWit form of the parent coinbase, which the two test differently.
-/

namespace NamespaceIndexer.Daemon

open Fold Lib

variable {sha256 idxPowHash : Bytes → Hash256}

/-! ### The form of the parent coinbase -/

/-- The marker and flag bytes, if the first count is zero, and the input count. -/
def shapeVin : Cur (Bytes × ℕ) := do
  let first ← Reader.span pcVarint
  if first.1 = 0 then do
    let flag ← curTake 1
    let vin ← pcVarint
    pure (first.2 ++ flag, vin)
  else pure ([], first.1)

/-- A witness stack: how many items it has. -/
def shapeStack : Cur ℕ := do
  let items ← pcVarint
  let _ ← Reader.replicate pcItem items
  pure items

/-- The SegWit bytes of the parent coinbase, and the sizes of its witness stacks. -/
structure CoinbaseShape where
  marker : Bytes
  counts : List ℕ
  deriving DecidableEq

def coinbaseShape : Cur CoinbaseShape := do
  let _ ← curTake 4
  let vin ← shapeVin
  let _ ← pcBody vin.2
  let counts ← Reader.replicate shapeStack (if vin.1 = [] then 0 else vin.2)
  let _ ← curTake 4
  pure ⟨vin.1, counts⟩

/-- Without a marker, or with the one of the format and stacks of at most 1000 items. -/
structure CoinbaseShape.Skippable (shape : CoinbaseShape) : Prop where
  marker : shape.marker = [] ∨ shape.marker = [0x00, 0x01]
  counts : ∀ items ∈ shape.counts, items ≤ 1000

/-- The parent coinbase behind the header of `raw` can be skipped. -/
def SkippableCoinbase (raw : Bytes) : Prop :=
  ∃ shape r, coinbaseShape (raw.drop 80) = some (shape, r) ∧ shape.Skippable

/-! ### What follows -/

theorem follows_take (n : ℕ) : Reader.Follows (fun _ _ => True) (curTake n) (curTake n) :=
  (Reader.Follows.refl _).mono fun _ _ _ => trivial

theorem follows_take_le (n : ℕ) : Reader.Follows (fun _ _ => True) (curTake n) (curLe n) := by
  intro s a r h
  exact ⟨leVal a, Reader.bind_eq_some.mpr ⟨a, r, h, rfl⟩, trivial⟩

theorem pcVarint_follows : Reader.Follows (fun a b => a = b) pcVarint curVarint := by
  intro s a r h
  obtain ⟨x, t, hx, h⟩ := Reader.bind_eq_some.mp h
  obtain ⟨u, t', hu, h⟩ := Reader.bind_eq_some.mp h
  obtain ⟨hne, rfl⟩ := Reader.require_eq_some.mp hu
  obtain ⟨c, t3, hc, hval⟩ := Reader.bind_eq_some.mp hx
  obtain ⟨hval, rfl⟩ := Reader.pure_eq_some.mp hval
  obtain ⟨-, hlen⟩ := Reader.take_eq_some.mp hc
  -- a first byte above 0xFD is 0xFE, since 0xFF was refused
  have hlt : x < 256 := by
    have hle := leVal_lt c
    rw [hlen] at hle
    omega
  have hne' : x ≠ 0xFF := by simpa using hne
  refine ⟨a, Reader.bind_eq_some.mpr ⟨x, _, hx, ?_⟩, rfl⟩
  by_cases hfd : x < 0xFD
  · rw [if_pos hfd] at h ⊢
    exact h
  · rw [if_neg hfd] at h ⊢
    by_cases hx' : x = 0xFD
    · rw [if_pos hx'] at h ⊢
      exact h
    · rw [if_neg hx'] at h ⊢
      rw [if_pos (by omega)]
      exact h

/-- A length within a bound and as many bytes. -/
theorem follows_varint_take {α β : Type} (max : ℕ) {f : Bytes → Cur α} {g : Bytes → Cur β}
    {R : α → β → Prop} (hfg : ∀ a b, Reader.Follows R (f a) (g b)) :
    Reader.Follows R (do
      let n ← pcVarint
      Reader.require (n ≤ max)
      let b ← curTake n
      f b) (do
      let n ← curVarint
      let b ← curTake n
      g b) := by
  refine Reader.Follows.bind pcVarint_follows ?_
  rintro n _ rfl
  exact Reader.Follows.requireLeft fun _ => (follows_take n).bind fun a b _ => hfg a b

theorem pcIn_follows : Reader.Follows (fun _ _ => True) pcIn skipIn :=
  (follows_take 36).bind fun _ _ _ => follows_varint_take 100000 fun _ _ =>
    (follows_take_le 4).bind fun _ _ _ => Reader.Follows.pure trivial

theorem pcOut_follows : Reader.Follows (fun _ _ => True) pcOut skipOut :=
  (follows_take 8).bind fun _ _ _ => follows_varint_take 100000 fun _ _ =>
    Reader.Follows.pure trivial

theorem pcItem_follows : Reader.Follows (fun _ _ => True) pcItem skipItem :=
  follows_varint_take 100000 fun _ _ => Reader.Follows.pure trivial

theorem follows_replicate {α β : Type} {p : Cur α} {q : Cur β}
    (h : Reader.Follows (fun _ _ => True) p q) (n : ℕ) :
    Reader.Follows (fun _ _ => True) (Reader.replicate p n) (Reader.replicate q n) :=
  (h.replicate n).mono fun _ _ _ => trivial

theorem pcBody_follows (vin : ℕ) :
    Reader.Follows (fun _ _ => True) (pcBody vin) (skipBody vin) := by
  refine (follows_replicate pcIn_follows vin).bind fun _ _ _ =>
    Reader.Follows.bind pcVarint_follows ?_
  rintro vout _ rfl
  refine Reader.Follows.requireLeft fun hmax => Reader.Follows.requireRight ?_ ?_
  · simp only [decide_eq_true_eq] at hmax ⊢
    omega
  · exact (follows_replicate pcOut_follows vout).bind fun _ _ _ => Reader.Follows.pure trivial

/-- A branch within the bound of the checker is within that of the parser. -/
theorem pcBranch_follows {max : ℕ} (hmax : max ≤ 64) :
    Reader.Follows (fun _ _ => True) (pcBranch max) skipBranch := by
  refine Reader.Follows.bind pcVarint_follows ?_
  rintro n _ rfl
  refine Reader.Follows.requireLeft fun hn => Reader.Follows.requireRight ?_ ?_
  · simp only [decide_eq_true_eq] at hn ⊢
    omega
  · exact (follows_take (n * 32)).bind fun _ _ _ => ((Reader.Follows.refl (curLe 4)).mono
      fun _ _ _ => trivial).bind fun _ _ _ => Reader.Follows.pure trivial

/-! ### The checker sees the form -/

theorem pcWitness_follows : Reader.Follows (fun _ _ => True) pcWitness shapeStack := by
  refine (Reader.Follows.refl pcVarint).bind ?_
  rintro items _ rfl
  exact Reader.Follows.requireLeft fun _ =>
    ((Reader.Follows.refl (Reader.replicate pcItem items)).mono fun _ _ _ => trivial).bind
      fun _ _ _ => Reader.Follows.pure trivial

theorem pcVin_follows :
    Reader.Follows (fun a b => (a.1 = true ↔ b.1 ≠ []) ∧ a.2.1 = b.2) pcVin shapeVin := by
  rintro s ⟨segwit, vin, bytes⟩ r h
  obtain ⟨first, t, hspan, hrest⟩ := Reader.bind_eq_some.mp h
  by_cases hzero : first.1 = 0
  · rw [if_pos hzero] at hrest
    obtain ⟨flag, t1, hflag, hrest⟩ := Reader.bind_eq_some.mp hrest
    obtain ⟨second, t2, hsecond, hpure⟩ := Reader.bind_eq_some.mp hrest
    obtain ⟨hpair, rfl⟩ := Reader.pure_eq_some.mp hpure
    cases hpair
    have hlen := (Reader.take_eq_some.mp hflag).2
    have hmarker : first.2 ++ flag ≠ [] := by
      intro hnil
      rw [List.append_eq_nil_iff] at hnil
      rw [hnil.2] at hlen
      exact absurd hlen (by decide)
    refine ⟨(first.2 ++ flag, vin), ?_, ⟨fun _ => hmarker, fun _ => rfl⟩, rfl⟩
    refine Reader.bind_eq_some.mpr ⟨first, t, hspan, ?_⟩
    rw [if_pos hzero]
    refine Reader.bind_eq_some.mpr ⟨flag, t1, hflag, ?_⟩
    exact Reader.bind_eq_some.mpr ⟨vin, _, (Reader.span_eq_some.mp hsecond).1, rfl⟩
  · rw [if_neg hzero] at hrest
    obtain ⟨hpair, rfl⟩ := Reader.pure_eq_some.mp hrest
    cases hpair
    refine ⟨([], vin), ?_, by simp, rfl⟩
    refine Reader.bind_eq_some.mpr ⟨(vin, bytes), _, hspan, ?_⟩
    rw [if_neg hzero]
    rfl

/-- A coinbase of the checker, in its form: the count is in range. -/
theorem pcCoinbase_shape {s r : Bytes} {cb : Bytes × Hash256}
    (h : pcCoinbase sha256 s = some (cb, r)) :
    ∃ version t vin t1 body t2 counts t3 last,
      curTake 4 s = some (version, t) ∧ shapeVin t = some (vin, t1) ∧
      (vin.2 ≠ 0 ∧ vin.2 ≤ 1000) ∧ pcBody vin.2 t1 = some (body, t2) ∧
      Reader.replicate shapeStack (if vin.1 = [] then 0 else vin.2) t2 = some (counts, t3) ∧
      curTake 4 t3 = some (last, r) := by
  obtain ⟨version, t, hversion, h⟩ := Reader.bind_eq_some.mp h
  obtain ⟨⟨segwit, vin, bytes⟩, t1, hvin, h⟩ := Reader.bind_eq_some.mp h
  obtain ⟨u, t1', hreq, h⟩ := Reader.bind_eq_some.mp h
  obtain ⟨hbound, rfl⟩ := Reader.require_eq_some.mp hreq
  obtain ⟨body, t2, hbody, h⟩ := Reader.bind_eq_some.mp h
  obtain ⟨stacks', t3, hstacks, h⟩ := Reader.bind_eq_some.mp h
  obtain ⟨last, t4, hlast, hpure⟩ := Reader.bind_eq_some.mp h
  obtain ⟨-, rfl⟩ := Reader.pure_eq_some.mp hpure
  obtain ⟨⟨marker, vin'⟩, hshape, hseg, rfl⟩ := pcVin_follows _ _ _ hvin
  obtain ⟨counts, hcounts, -⟩ := (pcWitness_follows.replicate _) _ _ _ hstacks
  have hn : (if segwit = true then vin else 0) = if marker = [] then 0 else vin := by
    by_cases hmarker : marker = []
    · rw [if_pos hmarker, if_neg fun hc => hseg.mp hc hmarker]
    · rw [if_neg hmarker, if_pos (hseg.mpr hmarker)]
  rw [hn] at hcounts
  refine ⟨version, t, (marker, vin), _, body.1, t2, counts, t3, last, hversion, hshape, ?_,
    (Reader.span_eq_some.mp hbody).1, hcounts, hlast⟩
  simpa using hbound

theorem coinbaseShape_of_parts {s t t1 t2 t3 r version last body : Bytes} {vin : Bytes × ℕ}
    {counts : List ℕ} (hversion : curTake 4 s = some (version, t))
    (hvin : shapeVin t = some (vin, t1)) (hbody : pcBody vin.2 t1 = some (body, t2))
    (hcounts : Reader.replicate shapeStack (if vin.1 = [] then 0 else vin.2) t2
      = some (counts, t3)) (hlast : curTake 4 t3 = some (last, r)) :
    coinbaseShape s = some (⟨vin.1, counts⟩, r) := by
  refine Reader.bind_eq_some.mpr ⟨version, t, hversion, ?_⟩
  refine Reader.bind_eq_some.mpr ⟨vin, t1, hvin, ?_⟩
  refine Reader.bind_eq_some.mpr ⟨body, t2, hbody, ?_⟩
  refine Reader.bind_eq_some.mpr ⟨counts, t3, hcounts, ?_⟩
  exact Reader.bind_eq_some.mpr ⟨last, r, hlast, rfl⟩

/-! ### The parser skips what it can -/

/-- The marker that `skipVin` looks for is the one of the form. -/
theorem skipVin_of_shape {s r : Bytes} {marker : Bytes} {vin : ℕ}
    (h : shapeVin s = some ((marker, vin), r)) (hvin : vin ≠ 0 ∧ vin ≤ 100000) :
    (marker = [] → skipVin s = some ((false, vin), r)) ∧
    (marker = [0x00, 0x01] → skipVin s = some ((true, vin), r)) ∧
    (marker ≠ [] → marker ≠ [0x00, 0x01] → skipVin s = none) := by
  obtain ⟨⟨first, bytes⟩, t, hspan, hrest⟩ := Reader.bind_eq_some.mp h
  obtain ⟨hfirst, -⟩ := Reader.span_eq_some.mp hspan
  obtain ⟨hs, hagain⟩ := Reader.Local.span_again pcVarint_local hspan
  obtain ⟨first', hcur, rfl⟩ := pcVarint_follows _ _ _ hfirst
  by_cases hzero : first = 0
  · rw [if_pos hzero] at hrest
    obtain ⟨flag, t1, hflag, hrest⟩ := Reader.bind_eq_some.mp hrest
    obtain ⟨second, t2, hsecond, hpure⟩ := Reader.bind_eq_some.mp hrest
    obtain ⟨hpair, rfl⟩ := Reader.pure_eq_some.mp hpure
    obtain ⟨ht, hflag1⟩ := Reader.take_eq_some.mp hflag
    obtain ⟨x, rfl⟩ := List.length_eq_one_iff.mp hflag1
    cases hpair
    have hbytes : bytes ≠ [] := by
      intro hnil
      have hempty := hagain []
      rw [hnil] at hempty
      have hnone : pcVarint ([] ++ []) = none := rfl
      exact Option.some_ne_none _ (hempty.symm.trans hnone)
    refine ⟨fun hnil => absurd hnil (by simp), fun hmarker => ?_, fun _ hother => ?_⟩
    · have hsplit : bytes = [0x00] ∧ x = 0x01 := by
        match bytes, hbytes, hmarker with
        | [y], _, hmarker => simpa using hmarker
        | y :: z :: rest, _, hmarker =>
          have hlen := congrArg List.length hmarker
          simp at hlen
      obtain ⟨value, hsecond', rfl⟩ := pcVarint_follows _ _ _ hsecond
      refine skipVin_eq_some.mpr ⟨hvin, Or.inl ⟨rfl, t1, ?_, hsecond'⟩⟩
      rw [hs, ht, hsplit.1, hsplit.2]
      rfl
    · cases hskip : skipVin s with
      | none => rfl
      | some out =>
        obtain ⟨⟨segwit, count⟩, rest⟩ := out
        obtain ⟨hcount, ⟨-, u, hu, -⟩ | ⟨-, hplain⟩⟩ := skipVin_eq_some.mp hskip
        · -- a zero byte is the whole count, and the flag is the byte after it
          have hread : pcVarint s = some (0, 0x01 :: u) := by
            rw [hu]
            rfl
          rw [hread, Option.some_inj, Prod.mk.injEq] at hfirst
          rw [← hfirst.2] at hs ht
          have hone : bytes = [0x00] := by
            have hcut : [0x00] ++ (0x01 :: u) = bytes ++ (0x01 :: u) := by
              rw [← hs, hu]
              rfl
            exact (List.append_cancel_right hcut).symm
          have hflag01 : x = 0x01 := (List.cons.inj ht).1.symm
          exact absurd (by rw [hone, hflag01]; rfl) hother
        · rw [hcur, Option.some_inj, Prod.mk.injEq] at hplain
          exact absurd (hplain.1.symm.trans hzero) hcount.1
  · rw [if_neg hzero] at hrest
    obtain ⟨hpair, rfl⟩ := Reader.pure_eq_some.mp hrest
    cases hpair
    refine ⟨fun _ => skipVin_eq_some.mpr ⟨hvin, Or.inr ⟨rfl, hcur⟩⟩, fun hc => absurd hc (by simp),
      fun hc => absurd rfl hc⟩

/-- A stack that both take has at most 1000 items, and one of at most 1000 items is taken. -/
theorem shapeStack_skip {s r : Bytes} {items : ℕ} (h : shapeStack s = some (items, r)) :
    (items ≤ 1000 → ∃ u, skipWitness s = some (u, r)) ∧
    (∀ u r', skipWitness s = some (u, r') → items ≤ 1000 ∧ r = r') := by
  obtain ⟨n, t, hn, hrest⟩ := Reader.bind_eq_some.mp h
  obtain ⟨us, t', hus, hpure⟩ := Reader.bind_eq_some.mp hrest
  obtain ⟨rfl, rfl⟩ := Reader.pure_eq_some.mp hpure
  obtain ⟨value, hcur, rfl⟩ := pcVarint_follows _ _ _ hn
  obtain ⟨vs, hvs, -⟩ := (follows_replicate pcItem_follows _) _ _ _ hus
  constructor
  · intro hle
    refine ⟨(), Reader.bind_eq_some.mpr ⟨_, t, hcur, ?_⟩⟩
    refine Reader.bind_eq_some.mpr ⟨(), t, ?_, ?_⟩
    · exact Reader.require_eq_some.mpr ⟨decide_eq_true hle, rfl⟩
    · exact Reader.bind_eq_some.mpr ⟨vs, _, hvs, rfl⟩
  · intro u r' hskip
    obtain ⟨n', t'', hn', hskip⟩ := Reader.bind_eq_some.mp hskip
    rw [hcur, Option.some_inj, Prod.mk.injEq] at hn'
    obtain ⟨rfl, rfl⟩ := hn'
    obtain ⟨_, _, hreq, hskip⟩ := Reader.bind_eq_some.mp hskip
    obtain ⟨hle, rfl⟩ := Reader.require_eq_some.mp hreq
    obtain ⟨vs', t3, hvs', hpure⟩ := Reader.bind_eq_some.mp hskip
    obtain ⟨-, rfl⟩ := Reader.pure_eq_some.mp hpure
    rw [hvs, Option.some_inj, Prod.mk.injEq] at hvs'
    exact ⟨of_decide_eq_true hle, hvs'.2⟩

theorem shapeStacks_skip {n : ℕ} {s r : Bytes} {counts : List ℕ}
    (h : Reader.replicate shapeStack n s = some (counts, r)) :
    (∃ us, Reader.replicate skipWitness n s = some (us, r)) ↔ ∀ items ∈ counts, items ≤ 1000 := by
  induction n generalizing s counts with
  | zero =>
    obtain ⟨rfl, rfl⟩ := Reader.pure_eq_some.mp h
    exact ⟨fun _ => by simp, fun _ => ⟨[], rfl⟩⟩
  | succ n ih =>
    obtain ⟨items, t, hitems, h⟩ := Reader.bind_eq_some.mp h
    obtain ⟨rest, t', hrest, hpure⟩ := Reader.bind_eq_some.mp h
    obtain ⟨rfl, rfl⟩ := Reader.pure_eq_some.mp hpure
    obtain ⟨htake, hbound⟩ := shapeStack_skip hitems
    rw [List.forall_mem_cons, ← ih hrest]
    constructor
    · rintro ⟨us, hus⟩
      obtain ⟨u, t1, hu, hus⟩ := Reader.bind_eq_some.mp hus
      obtain ⟨us', t2, hus', hpure⟩ := Reader.bind_eq_some.mp hus
      obtain ⟨-, rfl⟩ := Reader.pure_eq_some.mp hpure
      obtain ⟨hle, rfl⟩ := hbound u t1 hu
      exact ⟨hle, us', hus'⟩
    · rintro ⟨hle, us, hus⟩
      obtain ⟨u, hu⟩ := htake hle
      refine ⟨u :: us, Reader.bind_eq_some.mpr ⟨u, t, hu, ?_⟩⟩
      exact Reader.bind_eq_some.mpr ⟨us, _, hus, rfl⟩

/-- The parser steps over a coinbase of the checker exactly when it has a form it skips. -/
theorem txSkip_iff_skippable {s r : Bytes} {cb : Bytes × Hash256}
    (h : pcCoinbase sha256 s = some (cb, r)) :
    txSkip s = some ((), r) ↔ ∃ shape r', coinbaseShape s = some (shape, r') ∧ shape.Skippable := by
  obtain ⟨version, t, ⟨marker, vin⟩, t1, body, t2, counts, t3, last, hversion, hvin, hcount, hbody,
    hcounts, hlast⟩ := pcCoinbase_shape h
  have hshape := coinbaseShape_of_parts hversion hvin hbody hcounts hlast
  obtain ⟨hplain, hmarked, hother⟩ := skipVin_of_shape hvin ⟨hcount.1, hcount.2.trans (by omega)⟩
  obtain ⟨v, hversion', -⟩ := follows_take_le 4 _ _ _ hversion
  obtain ⟨l, hlast', -⟩ := follows_take_le 4 _ _ _ hlast
  obtain ⟨u, hbody', -⟩ := pcBody_follows vin _ _ _ hbody
  have hwitness := shapeStacks_skip hcounts
  rw [txSkip_eq]
  constructor
  · intro hskip
    obtain ⟨v', t', hv', hskip⟩ := Reader.bind_eq_some.mp hskip
    rw [hversion', Option.some_inj, Prod.mk.injEq] at hv'
    obtain ⟨-, rfl⟩ := hv'
    obtain ⟨⟨segwit, vin'⟩, t1', hvin', hskip⟩ := Reader.bind_eq_some.mp hskip
    have hform : marker = [] ∧ segwit = false ∨ marker = [0x00, 0x01] ∧ segwit = true := by
      by_cases hnil : marker = []
      · have hread := hplain hnil
        rw [hvin', Option.some_inj, Prod.mk.injEq, Prod.mk.injEq] at hread
        exact Or.inl ⟨hnil, hread.1.1⟩
      · by_cases hmark : marker = [0x00, 0x01]
        · have hread := hmarked hmark
          rw [hvin', Option.some_inj, Prod.mk.injEq, Prod.mk.injEq] at hread
          exact Or.inr ⟨hmark, hread.1.1⟩
        · rw [hother hnil hmark] at hvin'
          exact absurd hvin' (by simp)
    have hread : skipVin t = some ((segwit, vin), t1) := by
      rcases hform with ⟨hm, rfl⟩ | ⟨hm, rfl⟩
      · exact hplain hm
      · exact hmarked hm
    rw [hread, Option.some_inj, Prod.mk.injEq, Prod.mk.injEq] at hvin'
    obtain ⟨⟨-, rfl⟩, rfl⟩ := hvin'
    obtain ⟨u', t2', hu', hskip⟩ := Reader.bind_eq_some.mp hskip
    rw [hbody', Option.some_inj, Prod.mk.injEq] at hu'
    obtain ⟨-, rfl⟩ := hu'
    obtain ⟨us, t3', hus, -⟩ := Reader.bind_eq_some.mp hskip
    refine ⟨_, r, hshape, ?_, ?_⟩
    · rcases hform with ⟨hm, -⟩ | ⟨hm, -⟩
      · exact Or.inl hm
      · exact Or.inr hm
    · -- both step over the same stacks, so the bound of the parser holds of each
      have hn : (if segwit = true then vin else 0) = if marker = [] then 0 else vin := by
        rcases hform with ⟨rfl, rfl⟩ | ⟨rfl, rfl⟩ <;> rfl
      rw [hn] at hus
      have hmarch : Reader.March (fun items _ => items ≤ 1000) shapeStack skipWitness := by
        intro a items b u b' h1 h2
        exact (shapeStack_skip h1).2 u b' h2
      obtain ⟨hall, -⟩ := (hmarch.replicate _) _ _ _ _ _ hcounts hus
      intro items hitems
      obtain ⟨i, hi, rfl⟩ := List.mem_iff_getElem.mp hitems
      exact hall.get hi (by rw [← hall.length_eq]; exact hi)
  · rintro ⟨shape, r', hread, hform, hbound⟩
    rw [hshape, Option.some_inj, Prod.mk.injEq] at hread
    obtain ⟨rfl, -⟩ := hread
    obtain ⟨us, hus⟩ := hwitness.mpr hbound
    refine Reader.bind_eq_some.mpr ⟨v, t, hversion', ?_⟩
    rcases hform with hm | hm
    · refine Reader.bind_eq_some.mpr ⟨(false, vin), t1, hplain hm, ?_⟩
      refine Reader.bind_eq_some.mpr ⟨u, t2, hbody', ?_⟩
      rw [if_pos hm] at hus
      refine Reader.bind_eq_some.mpr ⟨us, t3, hus, ?_⟩
      exact Reader.bind_eq_some.mpr ⟨l, r, hlast', rfl⟩
    · refine Reader.bind_eq_some.mpr ⟨(true, vin), t1, hmarked hm, ?_⟩
      refine Reader.bind_eq_some.mpr ⟨u, t2, hbody', ?_⟩
      have hne : marker ≠ [] := by
        intro hnil
        exact absurd (hnil.symm.trans hm) (by simp)
      rw [if_neg hne] at hus
      refine Reader.bind_eq_some.mpr ⟨us, t3, hus, ?_⟩
      exact Reader.bind_eq_some.mpr ⟨l, r, hlast', rfl⟩

theorem auxpowSkip_iff_skippable {s r : Bytes} {a : AuxPow} (h : pcAuxpow sha256 s = some (a, r)) :
    auxpowSkip s = some ((), r) ↔
      ∃ shape r', coinbaseShape s = some (shape, r') ∧ shape.Skippable := by
  obtain ⟨cb, t1, hcb, h⟩ := Reader.bind_eq_some.mp h
  obtain ⟨hash, t2, hhash, h⟩ := Reader.bind_eq_some.mp h
  obtain ⟨mb, t3, hmb, h⟩ := Reader.bind_eq_some.mp h
  obtain ⟨chb, t4, hchb, h⟩ := Reader.bind_eq_some.mp h
  obtain ⟨parent, t5, hparent, hpure⟩ := Reader.bind_eq_some.mp h
  obtain ⟨-, rfl⟩ := Reader.pure_eq_some.mp hpure
  obtain ⟨u1, hmb', -⟩ := pcBranch_follows (le_refl 64) _ _ _ hmb
  obtain ⟨u2, hchb', -⟩ := pcBranch_follows (show 30 ≤ 64 by omega) _ _ _ hchb
  rw [← txSkip_iff_skippable hcb]
  constructor
  · intro hskip
    obtain ⟨u, t, htx, -⟩ := Reader.bind_eq_some.mp hskip
    obtain ⟨-, rfl⟩ := pcCoinbase_steps _ _ _ _ _ hcb htx
    exact htx
  · intro htx
    refine Reader.bind_eq_some.mpr ⟨(), t1, htx, ?_⟩
    refine Reader.bind_eq_some.mpr ⟨hash, t2, hhash, ?_⟩
    refine Reader.bind_eq_some.mpr ⟨u1, t3, hmb', ?_⟩
    refine Reader.bind_eq_some.mpr ⟨u2, t4, hchb', ?_⟩
    exact Reader.bind_eq_some.mpr ⟨parent, _, hparent, rfl⟩

/-- The parser stops where the check said, and reads the transactions from there. -/
structure SpansAgree (sha256 : Bytes → Hash256) (raw : Bytes) (n : ℕ) : Prop where
  skip : auxpowSkip (raw.drop 80) = some ((), raw.drop n)
  count : curCount (le32At (raw.take 80) 0) (raw.drop 80) = curVarint (raw.drop n)
  txs : ∀ k s, curVarint (raw.drop n) = some (k, s) → k ≤ 1000000 → k ≤ raw.length / 60 + 1 →
    (idxParseBlock sha256 raw).1 = (parseTxs sha256 k s).1

/-- The block parser reads as many transactions as the count says, behind the count. -/
theorem idxParseBlock_from {raw r : Bytes} {k : ℕ} (hlen : 80 ≤ raw.length)
    (hcount : curCount (le32At (raw.take 80) 0) (raw.drop 80) = some (k, r)) (hk : k ≤ 1000000)
    (hbound : k ≤ raw.length / 60 + 1) :
    (idxParseBlock sha256 raw).1 = (parseTxs sha256 k r).1 := by
  have hok : ¬ (decide (k > 1000000) || decide (k > raw.length / 60 + 1)) = true := by
    simp only [Bool.or_eq_true, decide_eq_true_eq]
    omega
  unfold idxParseBlock
  rw [if_neg (by omega)]
  simp only [hcount]
  rw [if_neg hok]
  cases htxs : parseTxs sha256 k r with
  | mk txs rest => cases rest <;> rfl

/-- On a merged-mined block that the check accepts, the block parser steps over the same bytes
exactly when the parent coinbase has a form it skips. -/
theorem auxpow_spans_agree {pp : PowParams} {raw : Bytes} {n : ℕ}
    (h : idxPowCheck2 sha256 idxPowHash pp raw = some n) (hm : ¬ DirectMined raw) :
    SpansAgree sha256 raw n ↔ SkippableCoinbase raw := by
  obtain ⟨target, ht, ⟨hd, -⟩ | ⟨-, a, r, ha, -, hn⟩⟩ := idxPowCheck2_eq_some.mp h
  · exact absurd hd hm
  have hlen := powTarget_length ht
  obtain ⟨c, hc, -⟩ := pcAuxpow_local _ _ _ ha
  have hrest : raw.drop n = r := by
    have hcut := List.take_append_drop 80 raw
    rw [hc, ← List.append_assoc] at hcut
    rw [hn, ← hcut, List.length_append, Nat.add_sub_cancel, List.drop_left]
  have hbit : le32At (raw.take 80) 0 / 0x100 % 2 = 1 := by
    unfold DirectMined at hm
    rw [le32At_take (by omega)]
    omega
  unfold SkippableCoinbase
  rw [← auxpowSkip_iff_skippable ha, ← hrest]
  constructor
  · intro hspans
    exact hspans.skip
  · intro hskip
    have hcount : curCount (le32At (raw.take 80) 0) (raw.drop 80) = curVarint (raw.drop n) := by
      unfold curCount
      rw [if_pos hbit]
      show (auxpowSkip (raw.drop 80)).bind _ = _
      rw [hskip]
      rfl
    refine ⟨hskip, hcount, fun k s hread hk hbound => ?_⟩
    exact idxParseBlock_from hlen (hcount.trans hread) hk hbound

theorem auxpow_spans_agree_sample :
    idxPowCheck2 minedSha256 minedPowHash minedCoin.powParams mergedBlock2
      = some (80 + aux2.length) ∧ ¬ DirectMined mergedBlock2 ∧
    SpansAgree minedSha256 mergedBlock2 (80 + aux2.length) := by
  have hok : idxPowCheck2 minedSha256 minedPowHash minedCoin.powParams mergedBlock2
      = some (80 + aux2.length) := by decide +kernel
  have hm : ¬ DirectMined mergedBlock2 := by decide +kernel
  have hshape : (coinbaseShape (mergedBlock2.drop 80)).map Prod.fst = some ⟨[], []⟩ := by
    decide +kernel
  refine ⟨hok, hm, (auxpow_spans_agree hok hm).mpr ?_⟩
  obtain ⟨⟨shape, r⟩, hread, rfl⟩ := Option.map_eq_some_iff.mp hshape
  exact ⟨_, r, hread, Or.inl rfl, by simp⟩

/-- The parent coinbase of `merged2` in SegWit form: the flag byte, and one witness stack. -/
def segwitCoinbase (flag : Byte) (stack : Bytes) : Bytes :=
  let plain := bareCoinbase parentScript
  plain.take 4 ++ [0x00, flag] ++ (plain.drop 4).take (plain.length - 8) ++ stack ++ leBytes 4 0

/-- `merged2` with that coinbase, and the rest of the block as before. -/
def segwitBlock (flag : Byte) (stack : Bytes) : Bytes :=
  merged2 ++ segwitCoinbase flag stack ++ aux2.drop (bareCoinbase parentScript).length ++ [1] ++
    bareCoinbase [1, 2]

/-- A flag byte other than 01. -/
def flagBlock : Bytes := segwitBlock 0x02 [0]

/-- A stack of 1001 empty items. -/
def stackBlock : Bytes := segwitBlock 0x01 ([0xFD, 0xE9, 0x03] ++ List.replicate 1001 0)

theorem segwit_blocks_split :
    ((idxPowCheck2 minedSha256 minedPowHash minedCoin.powParams flagBlock).isSome ∧
      ¬ DirectMined flagBlock ∧ auxpowSkip (flagBlock.drop 80) = none) ∧
    ((idxPowCheck2 minedSha256 minedPowHash minedCoin.powParams stackBlock).isSome ∧
      ¬ DirectMined stackBlock ∧ auxpowSkip (stackBlock.drop 80) = none) ∧
    ¬ ∀ raw n, idxPowCheck2 minedSha256 minedPowHash minedCoin.powParams raw = some n →
      ¬ DirectMined raw → SpansAgree minedSha256 raw n := by
  have hflag : (idxPowCheck2 minedSha256 minedPowHash minedCoin.powParams flagBlock).isSome := by
    decide +kernel
  have hstack : (idxPowCheck2 minedSha256 minedPowHash minedCoin.powParams stackBlock).isSome := by
    decide +kernel
  have hm : ¬ DirectMined flagBlock := by decide +kernel
  have hskip : auxpowSkip (flagBlock.drop 80) = none := by decide +kernel
  refine ⟨⟨hflag, hm, hskip⟩, ⟨hstack, by decide +kernel, by decide +kernel⟩, fun hall => ?_⟩
  obtain ⟨n, hn⟩ := Option.isSome_iff_exists.mp hflag
  have hspans := (hall flagBlock n hn hm).skip
  rw [hskip] at hspans
  exact absurd hspans (by simp)

end NamespaceIndexer.Daemon
