import NamespaceIndexer.Daemon.Pow
import NamespaceIndexer.Fold.Encode

/-!
# Two readers of an AuxPoW

`idx_pow_check2` reads it to check it and `idx_parse_block` to step over it. Their limits differ;
where both go through they stop at the same byte.
-/

namespace NamespaceIndexer.Daemon

open Fold Lib

variable {sha256 : Bytes → Hash256}

/-! ### Stepping over reads only what it steps over -/

theorem curVarint_local : Reader.Local curVarint := by
  refine (curLe_local 1).bind fun b => Reader.Local.ite _ (Reader.Local.pure _) ?_
  exact Reader.Local.ite _ (curLe_local 2) (Reader.Local.ite _ (curLe_local 4) (curLe_local 8))

theorem curVarint_zero (s : Bytes) : curVarint (0 :: s) = some (0, s) := rfl

theorem curMarker_eq_some {s r : Bytes} {segwit : Bool} :
    curMarker s = some (segwit, r) ↔ segwit = (s.take 2 == [0x00, 0x01]) ∧ r = s := by
  unfold curMarker
  rw [Option.some_inj, Prod.mk.injEq]
  exact ⟨fun h => ⟨h.1.symm, h.2.symm⟩, fun h => ⟨h.1.symm, h.2.symm⟩⟩

/-- What `skipVin` reads: a marker and the count, or the count alone. -/
theorem skipVin_eq_some {s r : Bytes} {segwit : Bool} {vin : ℕ} :
    skipVin s = some ((segwit, vin), r) ↔
      (vin ≠ 0 ∧ vin ≤ 100000) ∧
        ((segwit = true ∧ ∃ t, s = 0x00 :: 0x01 :: t ∧ curVarint t = some (vin, r)) ∨
          segwit = false ∧ curVarint s = some (vin, r)) := by
  have hbound : (vin != 0 && decide (vin ≤ 100000)) = true ↔ vin ≠ 0 ∧ vin ≤ 100000 := by simp
  constructor
  · intro h
    obtain ⟨m, t1, hm, h⟩ := Reader.bind_eq_some.mp h
    obtain ⟨skipped, t2, hskip, h⟩ := Reader.bind_eq_some.mp h
    obtain ⟨n, t3, hn, h⟩ := Reader.bind_eq_some.mp h
    obtain ⟨_, t4, hreq, h⟩ := Reader.bind_eq_some.mp h
    obtain ⟨hok, rfl⟩ := Reader.require_eq_some.mp hreq
    obtain ⟨hpair, rfl⟩ := Reader.pure_eq_some.mp h
    cases hpair
    obtain ⟨hseg, rfl⟩ := curMarker_eq_some.mp hm
    obtain ⟨hs, hlen⟩ := Reader.take_eq_some.mp hskip
    refine ⟨hbound.mp hok, ?_⟩
    cases segwit with
    | true =>
      rw [if_pos rfl] at hlen
      have hmark : t1.take 2 = [0x00, 0x01] := (beq_iff_eq.mp hseg.symm)
      rw [hs, ← hlen, List.take_left] at hmark
      exact Or.inl ⟨rfl, t2, by rw [hs, hmark]; rfl, hn⟩
    | false =>
      rw [if_neg (by decide)] at hlen
      rw [List.length_eq_zero_iff.mp hlen, List.nil_append] at hs
      exact Or.inr ⟨rfl, hs ▸ hn⟩
  · rintro ⟨hvin, ⟨rfl, t, rfl, ht⟩ | ⟨rfl, hs⟩⟩
    · refine Reader.bind_eq_some.mpr ⟨true, _, curMarker_eq_some.mpr ⟨rfl, rfl⟩, ?_⟩
      refine Reader.bind_eq_some.mpr ⟨[0x00, 0x01], t, rfl, ?_⟩
      refine Reader.bind_eq_some.mpr ⟨vin, r, ht, ?_⟩
      exact Reader.bind_eq_some.mpr
        ⟨(), r, Reader.require_eq_some.mpr ⟨hbound.mpr hvin, rfl⟩, rfl⟩
    · have hmark : (s.take 2 == [0x00, 0x01]) = false := by
        cases s with
        | nil => rfl
        | cons x t =>
          by_cases hx : x = 0x00
          · -- a count of zero
            rw [hx, curVarint_zero, Option.some_inj, Prod.mk.injEq] at hs
            exact absurd hs.1.symm hvin.1
          · show (x :: t.take 1 == [0x00, 0x01]) = false
            rw [beq_eq_false_iff_ne]
            intro heq
            exact hx (List.cons.inj heq).1
      refine Reader.bind_eq_some.mpr ⟨false, s, curMarker_eq_some.mpr ⟨hmark.symm, rfl⟩, ?_⟩
      refine Reader.bind_eq_some.mpr ⟨[], s, ?_, ?_⟩
      · exact Reader.take_eq_some.mpr ⟨rfl, rfl⟩
      · refine Reader.bind_eq_some.mpr ⟨vin, r, hs, ?_⟩
        exact Reader.bind_eq_some.mpr
          ⟨(), r, Reader.require_eq_some.mpr ⟨hbound.mpr hvin, rfl⟩, rfl⟩

theorem skipVin_local : Reader.Local skipVin := by
  rintro s ⟨segwit, vin⟩ r h
  obtain ⟨hvin, ⟨rfl, t, rfl, ht⟩ | ⟨rfl, hs⟩⟩ := skipVin_eq_some.mp h
  · obtain ⟨c, rfl, hc⟩ := curVarint_local t vin r ht
    refine ⟨0x00 :: 0x01 :: c, rfl, fun r' => skipVin_eq_some.mpr ⟨hvin, Or.inl ⟨rfl, ?_⟩⟩⟩
    exact ⟨c ++ r', rfl, hc r'⟩
  · obtain ⟨c, rfl, hc⟩ := curVarint_local s vin r hs
    exact ⟨c, rfl, fun r' => skipVin_eq_some.mpr ⟨hvin, Or.inr ⟨rfl, hc r'⟩⟩⟩

/-- A length, and as many bytes. -/
theorem curVarint_take_local {α : Type} {f : Bytes → Cur α} (hf : ∀ b, Reader.Local (f b)) :
    Reader.Local (do
      let n ← curVarint
      let b ← curTake n
      f b) :=
  Reader.Local.bind curVarint_local fun n => (Reader.Local.take n).bind hf

theorem skipIn_local : Reader.Local skipIn :=
  (Reader.Local.take 36).bind fun _ => curVarint_take_local fun _ =>
    (curLe_local 4).bind fun _ => Reader.Local.pure _

theorem skipOut_local : Reader.Local skipOut :=
  (Reader.Local.take 8).bind fun _ => curVarint_take_local fun _ => Reader.Local.pure _

theorem skipItem_local : Reader.Local skipItem := curVarint_take_local fun _ => Reader.Local.pure _

theorem skipWitness_local : Reader.Local skipWitness :=
  Reader.Local.bind curVarint_local fun items => (Reader.Local.require _).bind fun _ =>
    (Reader.Local.replicate skipItem_local items).bind fun _ => Reader.Local.pure _

theorem txSkip_local : Reader.Local txSkip :=
  (curLe_local 4).bind fun _ => Reader.Local.bind skipVin_local fun vin =>
    (Reader.Local.replicate skipIn_local vin.2).bind fun _ =>
      Reader.Local.bind curVarint_local fun vout => (Reader.Local.require _).bind fun _ =>
        (Reader.Local.replicate skipOut_local vout).bind fun _ =>
          (Reader.Local.replicate skipWitness_local _).bind fun _ =>
            (curLe_local 4).bind fun _ => Reader.Local.pure _

theorem skipBranch_local : Reader.Local skipBranch :=
  Reader.Local.bind curVarint_local fun n => (Reader.Local.require _).bind fun _ =>
    (Reader.Local.take (n * 32)).bind fun _ => (curLe_local 4).bind fun _ => Reader.Local.pure _

theorem auxpowSkip_local : Reader.Local auxpowSkip :=
  Reader.Local.bind txSkip_local fun _ => (Reader.Local.take 32).bind fun _ =>
    Reader.Local.bind skipBranch_local fun _ => Reader.Local.bind skipBranch_local fun _ =>
      (Reader.Local.take 80).bind fun _ => Reader.Local.pure _

/-! ### The two march together -/

/-- Two readers that step over the same bytes. -/
abbrev Steps {α β : Type} (p : Cur α) (q : Cur β) : Prop := Reader.March (fun _ _ => True) p q

theorem steps_take (n : ℕ) : Steps (curTake n) (curTake n) :=
  (Reader.March.refl _).mono fun _ _ _ => trivial

theorem steps_take_le (n : ℕ) : Steps (curTake n) (curLe n) := by
  intro s a r b r' h1 h2
  obtain ⟨c, t, hc, hpure⟩ := Reader.bind_eq_some.mp h2
  obtain ⟨-, rfl⟩ := Reader.pure_eq_some.mp hpure
  exact steps_take n s a r c t h1 hc

theorem pcVarint_march : Reader.March (fun a b => a = b) pcVarint curVarint := by
  intro s a r b r' h1 h2
  obtain ⟨x, t, hx, h1⟩ := Reader.bind_eq_some.mp h1
  obtain ⟨u, t', hu, h1⟩ := Reader.bind_eq_some.mp h1
  obtain ⟨y, t'', hy, h2⟩ := Reader.bind_eq_some.mp h2
  obtain ⟨hne, rfl⟩ := Reader.require_eq_some.mp hu
  rw [hx, Option.some_inj, Prod.mk.injEq] at hy
  obtain ⟨rfl, rfl⟩ := hy
  obtain ⟨c, t3, hc, hval⟩ := Reader.bind_eq_some.mp hx
  obtain ⟨hval, rfl⟩ := Reader.pure_eq_some.mp hval
  obtain ⟨-, hlen⟩ := Reader.take_eq_some.mp hc
  -- a first byte above 0xFD is 0xFE, since 0xFF was refused
  have hlt : x < 256 := by
    have hle := leVal_lt c
    rw [hlen] at hle
    omega
  have hne' : x ≠ 0xFF := by simpa using hne
  by_cases hfd : x < 0xFD
  · rw [if_pos hfd] at h1 h2
    rw [h1, Option.some_inj, Prod.mk.injEq] at h2
    exact h2
  · rw [if_neg hfd] at h1 h2
    by_cases hx' : x = 0xFD
    · rw [if_pos hx'] at h1 h2
      rw [h1, Option.some_inj, Prod.mk.injEq] at h2
      exact h2
    · rw [if_neg hx'] at h1 h2
      rw [if_pos (by omega)] at h2
      rw [h1, Option.some_inj, Prod.mk.injEq] at h2
      exact h2

/-- A length within a bound and as many bytes, against a length and as many bytes. -/
theorem steps_varint_take {α β : Type} (max : ℕ) {f : Bytes → Cur α} {g : Bytes → Cur β}
    (hfg : ∀ a b, Steps (f a) (g b)) :
    Steps (do
      let n ← pcVarint
      Reader.require (n ≤ max)
      let b ← curTake n
      f b) (do
      let n ← curVarint
      let b ← curTake n
      g b) := by
  refine Reader.March.bind pcVarint_march ?_
  rintro n _ rfl
  exact Reader.March.requireLeft fun _ => (steps_take n).bind fun a b _ => hfg a b

theorem pcIn_steps : Steps pcIn skipIn :=
  (steps_take 36).bind fun _ _ _ => steps_varint_take 100000 fun _ _ =>
    (steps_take_le 4).bind fun _ _ _ => Reader.March.pure trivial

theorem pcOut_steps : Steps pcOut skipOut :=
  (steps_take 8).bind fun _ _ _ => steps_varint_take 100000 fun _ _ => Reader.March.pure trivial

theorem pcItem_steps : Steps pcItem skipItem :=
  steps_varint_take 100000 fun _ _ => Reader.March.pure trivial

theorem steps_replicate {α β : Type} {p : Cur α} {q : Cur β} (h : Steps p q) (n : ℕ) :
    Steps (Reader.replicate p n) (Reader.replicate q n) :=
  (h.replicate n).mono fun _ _ _ => trivial

theorem pcWitness_steps : Steps pcWitness skipWitness := by
  refine Reader.March.bind pcVarint_march ?_
  rintro items _ rfl
  exact Reader.March.requireLeft fun _ => Reader.March.requireRight fun _ =>
    (steps_replicate pcItem_steps items).bind fun _ _ _ => Reader.March.pure trivial

theorem pcBranch_steps (max : ℕ) : Steps (pcBranch max) skipBranch := by
  refine Reader.March.bind pcVarint_march ?_
  rintro n _ rfl
  exact Reader.March.requireLeft fun _ => Reader.March.requireRight fun _ =>
    (steps_take (n * 32)).bind fun _ _ _ => (Reader.March.refl (curLe 4)).bind fun _ _ _ =>
      Reader.March.pure trivial

theorem pcVin_march :
    Reader.March (fun a b => a.1 = b.1 ∧ a.2.1 = b.2) pcVin skipVin := by
  rintro s ⟨segwit, vin, bytes⟩ r ⟨segwit', vin'⟩ r' h1 h2
  obtain ⟨first, t, hspan, hrest⟩ := Reader.bind_eq_some.mp h1
  have hfirst := (Reader.span_eq_some.mp hspan).1
  obtain ⟨⟨hne, -⟩, ⟨rfl, t', rfl, hvin⟩ | ⟨rfl, hvin⟩⟩ := skipVin_eq_some.mp h2
  · -- the marker is a first count of zero
    have hzero : pcVarint (0x00 :: 0x01 :: t') = some (0, 0x01 :: t') := rfl
    rw [hzero, Option.some_inj, Prod.mk.injEq] at hfirst
    obtain ⟨hcount, ht⟩ := hfirst
    rw [if_pos hcount.symm, ← ht] at hrest
    obtain ⟨flag, t1, hflag, hrest'⟩ := Reader.bind_eq_some.mp hrest
    have hflag' : curTake 1 (0x01 :: t') = some ([0x01], t') := rfl
    rw [hflag', Option.some_inj, Prod.mk.injEq] at hflag
    obtain ⟨second, t2, hsecond, hpure⟩ := Reader.bind_eq_some.mp hrest'
    rw [← hflag.2] at hsecond
    obtain ⟨hpair, rfl⟩ := Reader.pure_eq_some.mp hpure
    obtain ⟨heq, hr⟩ := pcVarint_march _ _ _ _ _ (Reader.span_eq_some.mp hsecond).1 hvin
    cases hpair
    exact ⟨⟨rfl, heq⟩, hr⟩
  · obtain ⟨heq, rfl⟩ := pcVarint_march _ _ _ _ _ hfirst hvin
    rw [if_neg (heq ▸ hne)] at hrest
    obtain ⟨hpair, rfl⟩ := Reader.pure_eq_some.mp hrest
    cases hpair
    exact ⟨⟨rfl, heq⟩, rfl⟩

/-- The inputs and outputs of `txSkip`. -/
def skipBody (vin : ℕ) : Cur Unit := do
  let _ ← Reader.replicate skipIn vin
  let vout ← curVarint
  Reader.require (vout ≤ 100000)
  let _ ← Reader.replicate skipOut vout
  pure ()

theorem txSkip_eq : txSkip = (do
    let _ ← curLe 4
    let vin ← skipVin
    skipBody vin.2
    let _ ← Reader.replicate skipWitness (if vin.1 then vin.2 else 0)
    let _ ← curLe 4
    pure ()) := by
  unfold txSkip skipBody
  simp only [bind_assoc, pure_bind]

theorem pcBody_steps (vin : ℕ) : Steps (pcBody vin) (skipBody vin) := by
  refine (steps_replicate pcIn_steps vin).bind fun _ _ _ => Reader.March.bind pcVarint_march ?_
  rintro vout _ rfl
  exact Reader.March.requireLeft fun _ => Reader.March.requireRight fun _ =>
    (steps_replicate pcOut_steps vout).bind fun _ _ _ => Reader.March.pure trivial

theorem pcCoinbase_steps : Steps (pcCoinbase sha256) txSkip := by
  rw [txSkip_eq]
  refine (steps_take_le 4).bind fun _ _ _ => Reader.March.bind pcVin_march ?_
  rintro ⟨segwit, vin, bytes⟩ ⟨_, _⟩ ⟨rfl, rfl⟩
  exact Reader.March.requireLeft fun _ => (pcBody_steps vin).spanLeft.bind fun _ _ _ =>
    (steps_replicate pcWitness_steps _).bind fun _ _ _ => (steps_take_le 4).bind fun _ _ _ =>
      Reader.March.pure trivial

theorem pcAuxpow_steps : Steps (pcAuxpow sha256) auxpowSkip :=
  Reader.March.bind pcCoinbase_steps fun _ _ _ => (steps_take 32).bind fun _ _ _ =>
    (pcBranch_steps 64).bind fun _ _ _ => (pcBranch_steps 30).bind fun _ _ _ =>
      (steps_take 80).bind fun _ _ _ => Reader.March.pure trivial

end NamespaceIndexer.Daemon
