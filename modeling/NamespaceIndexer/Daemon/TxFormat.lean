import NamespaceIndexer.Daemon.Chain
import NamespaceIndexer.Fold.Encode

/-!
# The format of a transaction

The bytes of a transaction, laid out field by field; `idx_tx_parse` accepts the strings laid out so
and no others.
-/

namespace NamespaceIndexer.Daemon

open Fold Lib

/-- The bytes `b` give the count `v`. -/
def CountBytes (v : ℕ) (b : Bytes) : Prop :=
  (b.length = 1 ∧ leVal b = v ∧ v < 0xFD) ∨
    ∃ l, leVal l = v ∧
      (b = 0xFD :: l ∧ l.length = 2 ∨ b = 0xFE :: l ∧ l.length = 4 ∨ b = 0xFF :: l ∧ l.length = 8)

def InBytes (i : IdxIn) (b : Bytes) : Prop :=
  ∃ c seq, CountBytes i.scriptsig.length c ∧ i.prevout.length = 36 ∧ seq.length = 4 ∧
    b = i.prevout ++ (c ++ (i.scriptsig ++ seq))

def OutBytes (o : ℤ × Bytes) (b : Bytes) : Prop :=
  ∃ v c, v.length = 8 ∧ i64 (UInt64.ofNat (leVal v)) = o.1 ∧ CountBytes o.2.length c ∧
    b = v ++ (c ++ o.2)

/-- The items one after the other. -/
def Row {α : Type} (P : α → Bytes → Prop) (as : List α) (b : Bytes) : Prop :=
  ∃ bs, List.Forall₂ P as bs ∧ b = bs.flatten

/-- The bytes are a transaction with these inputs and outputs. -/
def IsTx (raw : Bytes) (ins : List IdxIn) (outs : List (ℤ × Bytes)) : Prop :=
  ∃ version ci bi co bo lock, version.length = 4 ∧ lock.length = 4 ∧
    CountBytes ins.length ci ∧ Row InBytes ins bi ∧ CountBytes outs.length co ∧
    Row OutBytes outs bo ∧ 0 < ins.length ∧ ins.length ≤ 100000 ∧ outs.length ≤ 100000 ∧
    (raw.drop 4).take 2 ≠ [0x00, 0x01] ∧ raw = version ++ (ci ++ (bi ++ (co ++ (bo ++ lock))))

/-- A reader reads the values whose bytes `P` gives. -/
def Reads {α : Type} (c : Cur α) (P : α → Bytes → Prop) : Prop :=
  ∀ s a r, c s = some (a, r) ↔ ∃ b, P a b ∧ s = b ++ r

section Reads

variable {α β γ : Type}

theorem reads_curTake (n : ℕ) : Reads (curTake n) fun a b => a = b ∧ b.length = n := by
  intro s a r
  show Reader.take n s = _ ↔ _
  rw [Reader.take_eq_some]
  constructor
  · rintro ⟨rfl, h⟩
    exact ⟨a, ⟨rfl, h⟩, rfl⟩
  · rintro ⟨b, ⟨rfl, h⟩, rfl⟩
    exact ⟨rfl, h⟩

theorem Reads.bind {c : Cur α} {P : α → Bytes → Prop} {f : α → Cur β} {Q : α → β → Bytes → Prop}
    (h : Reads c P) (hf : ∀ a, Reads (f a) (Q a)) :
    Reads (c >>= f) fun v b => ∃ a b1 b2, P a b1 ∧ Q a v b2 ∧ b = b1 ++ b2 := by
  intro s v r
  rw [Reader.bind_eq_some]
  constructor
  · rintro ⟨a, t, h1, h2⟩
    obtain ⟨b1, hP, rfl⟩ := (h s a t).mp h1
    obtain ⟨b2, hQ, rfl⟩ := (hf a t v r).mp h2
    exact ⟨b1 ++ b2, ⟨a, b1, b2, hP, hQ, rfl⟩, (List.append_assoc ..).symm⟩
  · rintro ⟨b, ⟨a, b1, b2, hP, hQ, rfl⟩, rfl⟩
    refine ⟨a, b2 ++ r, (h _ a _).mpr ⟨b1, hP, List.append_assoc ..⟩, ?_⟩
    exact (hf a _ v r).mpr ⟨b2, hQ, rfl⟩

theorem Reads.pure (a : α) : Reads (pure a) fun v b => v = a ∧ b = [] := by
  intro s v r
  rw [Reader.pure_eq_some]
  constructor
  · rintro ⟨rfl, rfl⟩
    exact ⟨[], ⟨rfl, rfl⟩, rfl⟩
  · rintro ⟨b, ⟨rfl, rfl⟩, rfl⟩
    exact ⟨rfl, rfl⟩

theorem Reads.congr {c : Cur α} {P Q : α → Bytes → Prop} (h : Reads c P)
    (hPQ : ∀ a b, P a b ↔ Q a b) : Reads c Q := by
  intro s a r
  rw [h s a r]
  simp only [hPQ]

theorem reads_curLe (n : ℕ) : Reads (curLe n) fun v b => leVal b = v ∧ b.length = n := by
  apply ((reads_curTake n).bind fun b => Reads.pure (leVal b)).congr
  intro v b
  constructor
  · rintro ⟨a, b1, b2, ⟨rfl, h⟩, ⟨rfl, rfl⟩, rfl⟩
    rw [List.append_nil]
    exact ⟨rfl, h⟩
  · rintro ⟨rfl, h⟩
    exact ⟨b, b, [], ⟨rfl, h⟩, ⟨rfl, rfl⟩, (List.append_nil b).symm⟩

theorem leVal_one {b : Byte} : leVal [b] = b.val := by
  simp [leVal]

theorem reads_curVarint : Reads curVarint CountBytes := by
  intro s v r
  unfold curVarint
  rw [Reader.bind_eq_some]
  constructor
  · rintro ⟨m, t, h1, h2⟩
    obtain ⟨b, ⟨rfl, hb⟩, rfl⟩ := (reads_curLe 1 s m t).mp h1
    obtain ⟨x, rfl⟩ := List.length_eq_one_iff.mp hb
    rw [leVal_one] at h2
    by_cases hFD : x.val < 0xFD
    · rw [if_pos hFD] at h2
      obtain ⟨rfl, rfl⟩ := Reader.pure_eq_some.mp h2
      exact ⟨[x], Or.inl ⟨rfl, leVal_one, hFD⟩, rfl⟩
    rw [if_neg hFD] at h2
    by_cases h253 : x.val = 0xFD
    · rw [if_pos h253] at h2
      obtain ⟨l, ⟨hl, hlen⟩, rfl⟩ := (reads_curLe 2 t v r).mp h2
      obtain rfl : x = 0xFD := Fin.ext h253
      exact ⟨0xFD :: l, Or.inr ⟨l, hl, Or.inl ⟨rfl, hlen⟩⟩, rfl⟩
    rw [if_neg h253] at h2
    by_cases h254 : x.val = 0xFE
    · rw [if_pos h254] at h2
      obtain ⟨l, ⟨hl, hlen⟩, rfl⟩ := (reads_curLe 4 t v r).mp h2
      obtain rfl : x = 0xFE := Fin.ext h254
      exact ⟨0xFE :: l, Or.inr ⟨l, hl, Or.inr (Or.inl ⟨rfl, hlen⟩)⟩, rfl⟩
    rw [if_neg h254] at h2
    obtain ⟨l, ⟨hl, hlen⟩, rfl⟩ := (reads_curLe 8 t v r).mp h2
    obtain rfl : x = 0xFF := by
      apply Fin.ext
      have := x.isLt
      show x.val = 255
      omega
    exact ⟨0xFF :: l, Or.inr ⟨l, hl, Or.inr (Or.inr ⟨rfl, hlen⟩)⟩, rfl⟩
  · rintro ⟨b, hb, rfl⟩
    rcases hb with ⟨hlen, hv, hlt⟩ | ⟨l, hl, ⟨rfl, hlen⟩ | ⟨rfl, hlen⟩ | ⟨rfl, hlen⟩⟩
    · refine ⟨v, r, (reads_curLe 1 _ v r).mpr ⟨b, ⟨hv, hlen⟩, rfl⟩, ?_⟩
      rw [if_pos hlt]
      rfl
    · refine ⟨0xFD, l ++ r, (reads_curLe 1 _ _ _).mpr ⟨[0xFD], ⟨rfl, rfl⟩, rfl⟩, ?_⟩
      exact (reads_curLe 2 _ v r).mpr ⟨l, ⟨hl, hlen⟩, rfl⟩
    · refine ⟨0xFE, l ++ r, (reads_curLe 1 _ _ _).mpr ⟨[0xFE], ⟨rfl, rfl⟩, rfl⟩, ?_⟩
      exact (reads_curLe 4 _ v r).mpr ⟨l, ⟨hl, hlen⟩, rfl⟩
    · refine ⟨0xFF, l ++ r, (reads_curLe 1 _ _ _).mpr ⟨[0xFF], ⟨rfl, rfl⟩, rfl⟩, ?_⟩
      exact (reads_curLe 8 _ v r).mpr ⟨l, ⟨hl, hlen⟩, rfl⟩

theorem reads_replicate {c : Cur α} {P : α → Bytes → Prop} (h : Reads c P) (n : ℕ) :
    Reads (Reader.replicate c n) fun as b => as.length = n ∧ Row P as b := by
  induction n with
  | zero =>
    apply (Reads.pure []).congr
    intro as b
    constructor
    · rintro ⟨rfl, rfl⟩
      exact ⟨rfl, [], .nil, rfl⟩
    · rintro ⟨h, bs, hbs, rfl⟩
      obtain rfl := List.length_eq_zero_iff.mp h
      cases hbs
      exact ⟨rfl, rfl⟩
  | succ n ih =>
    apply (h.bind fun a => ih.bind fun as => Reads.pure (a :: as)).congr
    intro as b
    constructor
    · rintro ⟨a, b1, b2, hP, ⟨as', b3, b4, ⟨hlen, bs, hbs, rfl⟩, ⟨rfl, rfl⟩, rfl⟩, rfl⟩
      refine ⟨by rw [List.length_cons, hlen], b1 :: bs, hbs.cons hP, ?_⟩
      rw [List.append_nil, List.flatten_cons]
    · rintro ⟨hlen, bs, hbs, rfl⟩
      cases hbs with
      | nil => cases hlen
      | @cons a b1 as' bs' hP hbs =>
        refine ⟨a, b1, bs'.flatten, hP, ⟨as', bs'.flatten, [], ⟨?_, bs', hbs, rfl⟩, ⟨rfl, rfl⟩,
          (List.append_nil _).symm⟩, List.flatten_cons⟩
        rw [List.length_cons] at hlen
        omega

theorem reads_curIn : Reads curIn InBytes := by
  apply ((reads_curTake 36).bind fun prevout => reads_curVarint.bind fun slen =>
    (reads_curTake slen).bind fun ss => (reads_curLe 4).bind fun _ => Reads.pure (IdxIn.mk prevout ss)).congr
  intro i b
  constructor
  · rintro ⟨_, _, _, ⟨rfl, hp⟩, ⟨_, c, _, hc, ⟨ss, _, _, ⟨rfl, rfl⟩, ⟨_, seq, _, ⟨_, hseq⟩,
      ⟨rfl, rfl⟩, rfl⟩, rfl⟩, rfl⟩, rfl⟩
    exact ⟨c, seq, hc, hp, hseq, by rw [List.append_nil]⟩
  · rintro ⟨c, seq, hc, hp, hseq, rfl⟩
    exact ⟨_, _, _, ⟨rfl, hp⟩, ⟨_, c, _, hc, ⟨_, _, _, ⟨rfl, rfl⟩, ⟨_, seq, [], ⟨rfl, hseq⟩,
      ⟨rfl, rfl⟩, (List.append_nil _).symm⟩, rfl⟩, rfl⟩, rfl⟩

theorem reads_curI64 :
    Reads curI64 fun v b => i64 (UInt64.ofNat (leVal b)) = v ∧ b.length = 8 := by
  apply ((reads_curLe 8).bind fun v => Reads.pure (i64 (UInt64.ofNat v))).congr
  intro v b
  constructor
  · rintro ⟨_, b1, _, ⟨rfl, h⟩, ⟨rfl, rfl⟩, rfl⟩
    rw [List.append_nil]
    exact ⟨rfl, h⟩
  · rintro ⟨rfl, h⟩
    exact ⟨leVal b, b, [], ⟨rfl, h⟩, ⟨rfl, rfl⟩, (List.append_nil b).symm⟩

theorem reads_curOut : Reads curOut OutBytes := by
  apply (reads_curI64.bind fun value => reads_curVarint.bind fun slen =>
    (reads_curTake slen).bind fun spk => Reads.pure (value, spk)).congr
  intro o b
  constructor
  · rintro ⟨_, v, _, ⟨rfl, hv⟩, ⟨_, c, _, hc, ⟨spk, _, _, ⟨rfl, rfl⟩, ⟨rfl, rfl⟩, rfl⟩, rfl⟩, rfl⟩
    exact ⟨v, c, hv, rfl, hc, by rw [List.append_nil]⟩
  · rintro ⟨v, c, hv, ho, hc, rfl⟩
    exact ⟨_, v, _, ⟨ho, hv⟩, ⟨_, c, _, hc, ⟨_, _, [], ⟨rfl, rfl⟩, ⟨rfl, rfl⟩,
      (List.append_nil _).symm⟩, rfl⟩, rfl⟩

/-- What `curTx` reads after the SegWit test. -/
def curBody : Cur (List IdxIn × List (ℤ × Bytes)) := do
  let vin ← curVarint
  Reader.require (vin != 0 && vin ≤ 100000)
  let ins ← Reader.replicate curIn vin
  let vout ← curVarint
  Reader.require (vout ≤ 100000)
  let outs ← Reader.replicate curOut vout
  let _ ← curLe 4
  pure (ins, outs)

theorem reads_require (q : Bool) :
    Reads (Reader.require q) fun (_ : Unit) b => q = true ∧ b = [] := by
  intro s a r
  rw [Reader.require_eq_some]
  constructor
  · rintro ⟨h, rfl⟩
    exact ⟨[], ⟨h, rfl⟩, rfl⟩
  · rintro ⟨b, ⟨h, rfl⟩, rfl⟩
    exact ⟨h, rfl⟩

theorem reads_curBody :
    Reads curBody fun x b => ∃ ci bi co bo lock, lock.length = 4 ∧ CountBytes x.1.length ci ∧
      Row InBytes x.1 bi ∧ CountBytes x.2.length co ∧ Row OutBytes x.2 bo ∧ 0 < x.1.length ∧
      x.1.length ≤ 100000 ∧ x.2.length ≤ 100000 ∧ b = ci ++ (bi ++ (co ++ (bo ++ lock))) := by
  apply (reads_curVarint.bind fun vin => (reads_require (vin != 0 && vin ≤ 100000)).bind fun _ =>
    (reads_replicate reads_curIn vin).bind fun ins => reads_curVarint.bind fun vout =>
    (reads_require (vout ≤ 100000)).bind fun _ => (reads_replicate reads_curOut vout).bind fun outs =>
    (reads_curLe 4).bind fun _ => Reads.pure (ins, outs)).congr
  intro x b
  constructor
  · rintro ⟨vin, ci, _, hci, ⟨_, _, _, ⟨hvin, rfl⟩, ⟨ins, bi, _, ⟨hins, hbi⟩, ⟨vout, co, _, hco,
      ⟨_, _, _, ⟨hvout, rfl⟩, ⟨outs, bo, _, ⟨houts, hbo⟩, ⟨_, lock, _, ⟨_, hlock⟩, ⟨rfl, rfl⟩,
      rfl⟩, rfl⟩, rfl⟩, rfl⟩, rfl⟩, rfl⟩, rfl⟩
    rw [Bool.and_eq_true, bne_iff_ne, decide_eq_true_eq] at hvin
    rw [decide_eq_true_eq] at hvout
    subst hins houts
    exact ⟨ci, bi, co, bo, lock, hlock, hci, hbi, hco, hbo, Nat.pos_of_ne_zero hvin.1,
      hvin.2, hvout, by simp⟩
  · rintro ⟨ci, bi, co, bo, lock, hlock, hci, hbi, hco, hbo, h0, hvin, hvout, rfl⟩
    have hq : (x.1.length != 0 && decide (x.1.length ≤ 100000)) = true := by
      rw [Bool.and_eq_true, bne_iff_ne, decide_eq_true_eq]
      omega
    exact ⟨_, ci, _, hci, ⟨(), [], _, ⟨hq, rfl⟩, ⟨x.1, bi, _, ⟨rfl, hbi⟩, ⟨_, co, _, hco,
      ⟨(), [], _, ⟨decide_eq_true hvout, rfl⟩, ⟨x.2, bo, _, ⟨rfl, hbo⟩, ⟨_, lock, [],
      ⟨rfl, hlock⟩, ⟨rfl, rfl⟩, (List.append_nil _).symm⟩, rfl⟩, rfl⟩, rfl⟩, rfl⟩, rfl⟩, rfl⟩

end Reads

/-- The SegWit test looks at the fifth and sixth byte. -/
theorem curTx_eq_some {s r : Bytes} {x : List IdxIn × List (ℤ × Bytes)} :
    curTx s = some (x, r) ↔
      4 ≤ s.length ∧ (s.drop 4).take 2 ≠ [0x00, 0x01] ∧ curBody (s.drop 4) = some (x, r) := by
  unfold curTx
  rw [Reader.bind_eq_some]
  constructor
  · rintro ⟨v, t, h1, h2⟩
    obtain ⟨b, ⟨_, hb⟩, rfl⟩ := (reads_curLe 4 s v t).mp h1
    obtain ⟨m, u, hm, h3⟩ := Reader.bind_eq_some.mp h2
    have hm : (t.take 2 == [0x00, 0x01], t) = (m, u) := Option.some_inj.mp hm
    rw [Prod.mk.injEq] at hm
    obtain ⟨rfl, rfl⟩ := hm
    obtain ⟨_, u, hr, h4⟩ := Reader.bind_eq_some.mp h3
    obtain ⟨hseg, rfl⟩ := Reader.require_eq_some.mp hr
    rw [List.drop_left' hb, List.length_append]
    exact ⟨by omega, by simpa using hseg, h4⟩
  · rintro ⟨hlen, hm, h⟩
    refine ⟨leVal (s.take 4), s.drop 4, (reads_curLe 4 s _ _).mpr
      ⟨s.take 4, ⟨rfl, List.length_take_of_le hlen⟩, (List.take_append_drop 4 s).symm⟩, ?_⟩
    refine Reader.bind_eq_some.mpr ⟨_, s.drop 4, rfl, ?_⟩
    refine Reader.bind_eq_some.mpr ⟨(), s.drop 4, Reader.require_eq_some.mpr ⟨?_, rfl⟩, h⟩
    simpa using hm

theorem curTx_whole {raw : Bytes} {ins : List IdxIn} {outs : List (ℤ × Bytes)} :
    curTx raw = some ((ins, outs), []) ↔ IsTx raw ins outs := by
  rw [curTx_eq_some]
  constructor
  · rintro ⟨hlen, hm, h⟩
    obtain ⟨b, ⟨ci, bi, co, bo, lock, hlock, hci, hbi, hco, hbo, h0, hi, ho, rfl⟩, hb⟩ :=
      (reads_curBody _ _ _).mp h
    refine ⟨raw.take 4, ci, bi, co, bo, lock, List.length_take_of_le hlen, hlock, hci, hbi, hco, hbo,
      h0, hi, ho, hm, ?_⟩
    rw [List.append_nil] at hb
    rw [← hb, List.take_append_drop]
  · rintro ⟨version, ci, bi, co, bo, lock, hv, hlock, hci, hbi, hco, hbo, h0, hi, ho, hm, hraw⟩
    have hdrop : raw.drop 4 = ci ++ (bi ++ (co ++ (bo ++ lock))) := by
      rw [hraw, List.drop_left' hv]
    refine ⟨?_, hm, (reads_curBody _ _ _).mpr ⟨_, ⟨ci, bi, co, bo, lock, hlock, hci, hbi, hco, hbo,
      h0, hi, ho, rfl⟩, by rw [List.append_nil, hdrop]⟩⟩
    rw [hraw, List.length_append]
    omega

end NamespaceIndexer.Daemon
