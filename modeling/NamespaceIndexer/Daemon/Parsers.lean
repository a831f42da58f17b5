import NamespaceIndexer.Daemon.Attrib
import NamespaceIndexer.Daemon.TxFormat

/-!
# The two transaction parsers

`tx_parse` keeps to `idx_tx_parse` as long as no length leaves `int` and the counts are within its
two arrays. When the parsers agree, exactly.
-/

namespace NamespaceIndexer.Daemon

open Fold Lib Lib.Cursor

/-! ### In step, field by field -/

section Step

variable {raw s : Bytes} {W : Prop}

theorem aFits_place {k : ℤ} (h : ¬Overflows (place raw s + k)) :
    aFits raw.length k (place raw s) = .ok (decide (k ≤ s.length), place raw s) := by
  have hk : (place raw s + k ≤ raw.length) ↔ k ≤ s.length := by
    unfold place
    omega
  unfold aFits
  rw [if_neg h, decide_eq_decide.mpr hk]

theorem aBytes_place (hs : s <:+ raw) {k : ℕ} (hk : k ≤ s.length) :
    aBytes raw k (place raw s) = .ok (s.take k, place raw (s.drop k)) := by
  have h0 := place_nonneg hs
  have hfit : place raw s + k ≤ raw.length := by
    unfold place
    omega
  unfold aBytes
  rw [if_pos ⟨h0, hfit⟩, drop_place hs, place_drop hk]

theorem curTake_le {k : ℕ} (hk : k ≤ s.length) : curTake k s = some (s.take k, s.drop k) :=
  if_pos hk

theorem curTake_gt {k : ℕ} (hk : s.length < k) : curTake k s = none :=
  if_neg (by omega)

theorem curLe_le {k : ℕ} (hk : k ≤ s.length) :
    curLe k s = some (leVal (s.take k), s.drop k) := by
  unfold curLe
  exact Reader.bind_eq_some.mpr ⟨_, _, curTake_le hk, rfl⟩

theorem curLe_gt {k : ℕ} (hk : s.length < k) : curLe k s = none := by
  unfold curLe
  change (curTake k s >>= _) = none
  rw [curTake_gt hk]
  rfl

/-- Where the position plus a few bytes leaves `int`, the bytes nearly do. -/
theorem wide_of_overflows (hs : s <:+ raw) {k : ℕ} (hk : k ≤ 36)
    (h : Overflows (place raw s + k)) : 2147483648 ≤ raw.length + 36 := by
  have h0 := place_nonneg hs
  unfold Overflows at h
  unfold place at h h0
  omega

theorem not_overflows (hN : raw.length < 2147483648) (hs : s <:+ raw) {k : ℕ}
    (hk : k ≤ s.length) : ¬Overflows (place raw s + k) := by
  have h0 := place_nonneg hs
  unfold Overflows
  unfold place at *
  omega

theorem keeps_aTake (hN : raw.length < 2147483648) (hW : 2147483648 ≤ raw.length + 36 → W) {k : ℕ}
    (hk : k ≤ 36) : Keeps raw W s (aTake raw raw.length k) (curTake k) (fun a b => a = b) := by
  intro hs
  unfold aTake
  by_cases hle : k ≤ s.length
  · rw [curTake_le hle]
    refine ⟨(List.drop_suffix k s).trans hs, s.take k, ?_, rfl⟩
    rw [bind_ok (aFits_place (not_overflows hN hs hle)), if_pos (decide_eq_true (by omega))]
    exact aBytes_place hs hle
  · rw [curTake_gt (by omega)]
    by_cases ho : Overflows (place raw s + k)
    · exact Or.inr (hW (wide_of_overflows hs hk ho))
    · left
      rw [bind_ok (aFits_place ho), if_neg (by simp; omega)]
      rfl

/-- A count is read as the reader reads it; where the reader fails it is `UINT64_MAX`. -/
def Counts (raw : Bytes) (W : Prop) (s : Bytes) (w : Lib.Cursor ℕ) (c : Cur ℕ) : Prop :=
  s <:+ raw →
    match c s with
    | some (v, t) => t <:+ raw ∧ w (place raw s) = .ok (v, place raw t)
    | none => (∃ q, w (place raw s) = .ok (uint64Max, q)) ∨ W

theorem counts_rdLe (hN : raw.length < 2147483648) (hW : 2147483648 ≤ raw.length + 36 → W) (k : ℕ)
    (hk : k ≤ 36) : Counts raw W s (rdLe raw raw.length k) (curLe k) := by
  intro hs
  unfold rdLe
  by_cases hle : k ≤ s.length
  · rw [curLe_le hle]
    refine ⟨(List.drop_suffix k s).trans hs, ?_⟩
    rw [bind_ok (aFits_place (not_overflows hN hs hle)), if_pos (decide_eq_true (by omega)),
      bind_ok (aBytes_place hs hle)]
    rfl
  · rw [curLe_gt (by omega)]
    by_cases ho : Overflows (place raw s + k)
    · exact Or.inr (hW (wide_of_overflows hs hk ho))
    · left
      refine ⟨place raw s, ?_⟩
      rw [bind_ok (aFits_place ho), if_neg (by simp; omega)]
      rfl

theorem counts_rdVarint (hN : raw.length < 2147483648) (hW : 2147483648 ≤ raw.length + 36 → W) :
    Counts raw W s (rdVarint raw raw.length) curVarint := by
  intro hs
  have hmore : aMore raw.length (place raw s) = .ok (decide (0 < s.length), place raw s) := by
    have h : (place raw s < raw.length) ↔ 0 < s.length := by
      unfold place
      omega
    unfold aMore
    rw [decide_eq_decide.mpr h]
  unfold rdVarint curVarint
  rw [bind_ok hmore]
  by_cases hpos : 0 < s.length
  · have hread : (curLe 1 >>= fun b => if b < 0xFD then pure b else if b = 0xFD then curLe 2
        else if b = 0xFE then curLe 4 else curLe 8) s =
        (if leVal (s.take 1) < 0xFD then pure (leVal (s.take 1)) else if leVal (s.take 1) = 0xFD
          then curLe 2 else if leVal (s.take 1) = 0xFE then curLe 4 else curLe 8 : Cur ℕ)
          (s.drop 1) := by
      change (curLe 1 s >>= _) = _
      rw [curLe_le hpos]
      rfl
    have hs1 : s.drop 1 <:+ raw := (List.drop_suffix 1 s).trans hs
    rw [hread, if_pos (decide_eq_true hpos), bind_ok (aBytes_place hs hpos)]
    by_cases hFD : leVal (s.take 1) < 0xFD
    · rw [if_pos hFD, if_pos hFD]
      exact ⟨hs1, rfl⟩
    rw [if_neg hFD, if_neg hFD]
    by_cases h253 : leVal (s.take 1) = 0xFD
    · rw [if_pos h253, if_pos h253]
      exact counts_rdLe hN hW 2 (by omega) hs1
    rw [if_neg h253, if_neg h253]
    by_cases h254 : leVal (s.take 1) = 0xFE
    · rw [if_pos h254, if_pos h254]
      exact counts_rdLe hN hW 4 (by omega) hs1
    rw [if_neg h254, if_neg h254]
    exact counts_rdLe hN hW 8 (by omega) hs1
  · have hread : (curLe 1 >>= fun b => if b < 0xFD then pure b else if b = 0xFD then curLe 2
        else if b = 0xFE then curLe 4 else curLe 8) s = none := by
      change (curLe 1 s >>= _) = none
      rw [curLe_gt (by omega)]
      rfl
    have hnot : ¬decide (0 < s.length) = true := by
      rw [decide_eq_true_eq]
      exact hpos
    rw [hread, if_neg hnot]
    exact Or.inl ⟨_, rfl⟩

theorem Counts.keeps {α β : Type} {w : Lib.Cursor ℕ} {c : Cur ℕ} {f : ℕ → Lib.Cursor α}
    {g : ℕ → Cur β} {S : α → β → Prop} (h : Counts raw W s w c)
    (hmax : ∀ q, f uint64Max q = .error .refuse)
    (hfg : ∀ v t, c s = some (v, t) → Keeps raw W t (f v) (g v) S) :
    Keeps raw W s (w >>= f) (c >>= g) S := by
  intro hs
  have h := h hs
  cases hc : c s with
  | none =>
    rw [hc] at h
    have hg : (c >>= g) s = none := by
      change (c s >>= fun x => g x.1 x.2) = none
      rw [hc]
      rfl
    rw [hg]
    rcases h with ⟨q, hq⟩ | h
    · left
      rw [bind_ok hq]
      exact hmax q
    · exact Or.inr h
  | some x =>
    obtain ⟨v, t⟩ := x
    rw [hc] at h
    have hg : (c >>= g) s = g v t := by
      change (c s >>= fun x => g x.1 x.2) = _
      rw [hc]
      rfl
    rw [hg, bind_ok h.2]
    exact hfg v t hc h.1

theorem toInt_small {v : ℕ} (h : v < 2147483648) : toInt v = v := by
  unfold toInt
  apply Int.bmod_eq_of_le_mul_two
  · omega
  · omega

/-- A script, as the chain parser reads it. -/
def curScript : Cur Bytes := do
  let slen ← curVarint
  curTake slen

/-- The script `a` points to is `b`. -/
def Points (raw : Bytes) (a : ℤ × ℤ) (b : Bytes) : Prop :=
  a.2 = b.length ∧ (raw.drop a.1.toNat).take a.2.toNat = b

theorem keeps_aScript (hN : raw.length < 2147483648) (hW : 2147483648 ≤ raw.length + 36 → W)
    (hsl : ∀ sl t, curVarint s = some (sl, t) → 2147483648 ≤ place raw t + sl → W) :
    Keeps raw W s (aScript raw raw.length) curScript (Points raw) := by
  apply (counts_rdVarint hN hW).keeps
  · intro q
    exact congrFun (if_pos rfl) q
  intro sl t hc ht
  have h0 := place_nonneg ht
  by_cases hmax : sl = uint64Max
  · have : curTake sl t = none := by
      apply curTake_gt
      have := ht.length_le
      unfold uint64Max at hmax
      omega
    rw [this, if_pos hmax]
    exact Or.inl rfl
  rw [if_neg hmax]
  by_cases hle : sl ≤ t.length
  · have hsmall : sl < 2147483648 := by
      have := ht.length_le
      omega
    have hfits := aFits_place (not_overflows hN ht hle)
    rw [curTake_le hle, toInt_small hsmall, bind_ok hfits, if_pos (decide_eq_true (by omega))]
    refine ⟨(List.drop_suffix sl t).trans ht, (place raw t, sl), ?_, ?_, ?_⟩
    · rw [place_drop hle]
      rfl
    · rw [List.length_take_of_le hle]
    · rw [drop_place ht, Int.toNat_natCast]
  · rw [curTake_gt (by omega)]
    by_cases hwide : 2147483648 ≤ place raw t + sl
    · exact Or.inr (hsl sl t hc hwide)
    · left
      have ho : ¬Overflows (place raw t + sl) := by
        unfold Overflows
        omega
      rw [toInt_small (by omega), bind_ok (aFits_place ho), if_neg (by simp; omega)]
      rfl

theorem curIn_eq : curIn = (do
    let prevout ← curTake 36
    let ss ← curScript
    let _ ← curLe 4
    pure ⟨prevout, ss⟩) := by
  simp only [curIn, curScript, bind_assoc]

theorem curOut_eq : curOut = (do
    let v ← curTake 8
    let spk ← curScript
    pure (i64 (UInt64.ofNat (leVal v)), spk)) := by
  simp only [curOut, curI64, curLe, curScript, bind_assoc, pure_bind]

theorem keeps_aIn (hN : raw.length < 2147483648) (hW : 2147483648 ≤ raw.length + 36 → W)
    (hsl : ∀ sl t, (curTake 36 >>= fun _ => curVarint) s = some (sl, t) →
      2147483648 ≤ place raw t + sl → W) :
    Keeps raw W s (aIn raw raw.length) curIn (AIn.Sees raw) := by
  rw [curIn_eq]
  apply (keeps_aTake hN hW (by omega)).bind
  intro a prevout t ht hab
  apply (keeps_aScript hN hW ?_).bind
  · intro p ss u _ hp
    have hseq : Keeps raw W u (aTake raw raw.length 4) (curLe 4) (fun _ _ => True) := by
      have h : Keeps raw W u (aTake raw raw.length 4 >>= pure) (curTake 4 >>= fun b => pure (leVal b))
          (fun _ _ => True) :=
        (keeps_aTake hN hW (by omega)).bind fun a b t _ _ => Keeps.pure trivial
      rw [bind_pure] at h
      exact h
    apply hseq.bind
    intro seq _ v _ _
    exact Keeps.pure ⟨hab, hp.1, hp.2⟩
  · intro sl u hu
    exact hsl sl u (Reader.bind_eq_some.mpr ⟨prevout, t, ht, hu⟩)

theorem keeps_aOut (hN : raw.length < 2147483648) (hW : 2147483648 ≤ raw.length + 36 → W)
    (hsl : ∀ sl t, (curTake 8 >>= fun _ => curVarint) s = some (sl, t) →
      2147483648 ≤ place raw t + sl → W) :
    Keeps raw W s (aOut raw raw.length) curOut (AOut.Sees raw) := by
  rw [curOut_eq]
  apply (keeps_aTake hN hW (by omega)).bind
  intro a v t ht hab
  apply (keeps_aScript hN hW ?_).bind
  · intro p spk u _ hp
    refine Keeps.pure ⟨?_, hp.1, hp.2⟩
    rw [hab]
  · intro sl u hu
    exact hsl sl u (Reader.bind_eq_some.mpr ⟨v, t, ht, hu⟩)

end Step

/-! ### The whole transaction -/

section Whole

variable {raw s : Bytes} {W : Prop}

def curEnd : Cur Unit := fun s => if s.length = 0 then some ((), s) else none

/-- What the chain parser reads after the SegWit test, within the caps of `tx_parse` and to the end
of the bytes. -/
def cappedBody : Cur (List IdxIn × List (ℤ × Bytes)) := do
  let vin ← curVarint
  Reader.require (vin != 0 && vin ≤ aMaxIn)
  let ins ← Reader.replicate curIn vin
  let vout ← curVarint
  Reader.require (vout ≤ aMaxOut)
  let outs ← Reader.replicate curOut vout
  let _ ← curLe 4
  let _ ← curEnd
  pure (ins, outs)

theorem curEnd_eq_some {u : Unit} {r : Bytes} : curEnd s = some (u, r) ↔ s = [] ∧ r = [] := by
  unfold curEnd
  cases s with
  | nil =>
    show some ((), []) = some (u, r) ↔ _
    rw [Option.some_inj, Prod.mk.injEq]
    exact ⟨fun hr => ⟨rfl, hr.2.symm⟩, fun hr => ⟨rfl, hr.2.symm⟩⟩
  | cons b s =>
    show none = some (u, r) ↔ _
    exact ⟨fun hr => (Option.some_ne_none _ hr.symm).elim, fun hr => (List.cons_ne_nil b s hr.1).elim⟩

theorem cappedBody_eq_some {x : List IdxIn × List (ℤ × Bytes)} {r : Bytes} :
    cappedBody s = some (x, r) ↔
      curBody s = some (x, []) ∧ r = [] ∧ x.1.length ≤ aMaxIn ∧ x.2.length ≤ aMaxOut := by
  unfold cappedBody curBody
  simp only [Reader.bind_eq_some, Reader.require_eq_some, Reader.pure_eq_some, curEnd_eq_some,
    Bool.and_eq_true, bne_iff_ne, decide_eq_true_eq]
  constructor
  · rintro ⟨vin, t, h1, _, _, ⟨⟨h0, hin⟩, rfl⟩, ins, u, h2, vout, v, h3, _, _, ⟨hout, rfl⟩, outs, w,
      h4, l, y, h5, _, _, ⟨rfl, rfl⟩, rfl, rfl⟩
    have hi := ((reads_replicate reads_curIn vin _ _ _).mp h2).choose_spec.1.1
    have ho := ((reads_replicate reads_curOut vout _ _ _).mp h4).choose_spec.1.1
    have hin' : vin ≤ 100000 := hin.trans (by decide)
    have hout' : vout ≤ 100000 := hout.trans (by decide)
    exact ⟨⟨vin, t, h1, (), t, ⟨⟨h0, hin'⟩, rfl⟩, ins, u, h2, vout, v, h3, (), v, ⟨hout', rfl⟩, outs,
      w, h4, l, [], h5, rfl, rfl⟩, rfl, hi.le.trans hin, ho.le.trans hout⟩
  · rintro ⟨⟨vin, t, h1, _, _, ⟨⟨h0, _⟩, rfl⟩, ins, u, h2, vout, v, h3, _, _, ⟨_, rfl⟩, outs, w,
      h4, l, y, h5, rfl, rfl⟩, rfl, hi, ho⟩
    have hin := ((reads_replicate reads_curIn vin _ _ _).mp h2).choose_spec.1.1
    have hout := ((reads_replicate reads_curOut vout _ _ _).mp h4).choose_spec.1.1
    exact ⟨vin, t, h1, (), t, ⟨⟨h0, hin.ge.trans hi⟩, rfl⟩, ins, u, h2, vout, v, h3, (), v,
      ⟨hout.ge.trans ho, rfl⟩, outs, w, h4, l, [], h5, (), [], ⟨rfl, rfl⟩, rfl, rfl⟩

theorem curHead_eq_some (hlen : 4 ≤ raw.length) (hm : (raw.drop 4).take 2 ≠ [0x00, 0x01])
    {vin : ℕ} {t : Bytes} (h : curVarint (raw.drop 4) = some (vin, t))
    (hq : (vin != 0 && decide (vin ≤ aMaxIn)) = true) : curHead raw = some (vin, t) := by
  have hseg : (!((raw.drop 4).take 2 == [0x00, 0x01])) = true := by simpa using hm
  unfold curHead
  refine Reader.bind_eq_some.mpr ⟨_, raw.drop 4, curLe_le hlen, ?_⟩
  refine Reader.bind_eq_some.mpr ⟨_, raw.drop 4, rfl, ?_⟩
  refine Reader.bind_eq_some.mpr ⟨(), raw.drop 4, Reader.require_eq_some.mpr ⟨hseg, rfl⟩, ?_⟩
  refine Reader.bind_eq_some.mpr ⟨vin, t, h, ?_⟩
  exact Reader.bind_eq_some.mpr ⟨(), t, Reader.require_eq_some.mpr ⟨hq, rfl⟩, rfl⟩

theorem keeps_aEnd {α β : Type} {R : α → β → Prop} {a : α} {b : β} (h : R a b) :
    Keeps raw W s (aEnd raw.length >>= fun whole => if whole then pure a else refuse)
      (curEnd >>= fun _ => pure b) R := by
  intro hs
  have hplace : (place raw s = raw.length) ↔ s.length = 0 := by
    unfold place
    omega
  have hend : aEnd raw.length (place raw s) = .ok (decide (s.length = 0), place raw s) := by
    unfold aEnd
    rw [decide_eq_decide.mpr hplace]
  rw [bind_ok hend]
  by_cases h0 : s.length = 0
  · have hread : (curEnd >>= fun _ => (pure b : Cur β)) s = some (b, s) := by
      change (curEnd s >>= _) = _
      unfold curEnd
      rw [if_pos h0]
      rfl
    rw [hread, if_pos (decide_eq_true h0)]
    exact ⟨hs, a, rfl, h⟩
  · have hread : (curEnd >>= fun _ => (pure b : Cur β)) s = none := by
      change (curEnd s >>= _) = _
      unfold curEnd
      rw [if_neg h0]
      rfl
    have hnot : ¬decide (s.length = 0) = true := by
      rw [decide_eq_true_eq]
      exact h0
    rw [hread, if_neg hnot]
    exact Or.inl rfl

theorem keeps_aFields (hN : raw.length < 2147483648) (hlen : 4 ≤ raw.length)
    (hm : (raw.drop 4).take 2 ≠ [0x00, 0x01]) :
    Keeps raw (Wide raw) (raw.drop 4) (aFields raw raw.length) cappedBody
      (fun a b => List.Forall₂ (AIn.Sees raw) a.1 b.1 ∧ List.Forall₂ (AOut.Sees raw) a.2.1 b.2) := by
  have hW : 2147483648 ≤ raw.length + 36 → Wide raw := Or.inl
  apply (counts_rdVarint hN hW).keeps
  · intro q
    exact congrFun (if_pos (Or.inr (by decide))) q
  intro vin t hvin
  apply Keeps.ite
  · rw [Bool.and_eq_false_iff, bne_eq_false_iff_eq, decide_eq_false_iff_not]
    omega
  intro hq
  have hhead := curHead_eq_some hlen hm hvin hq
  apply (Keeps.replicate vin ?_).bind
  · intro ins ins' u hins hsees
    apply (counts_rdVarint hN hW).keeps
    · intro q
      exact congrFun (if_pos (by decide)) q
    intro vout v hvout
    apply Keeps.ite
    · rw [decide_eq_false_iff_not]
      omega
    intro hq'
    apply (Keeps.replicate vout ?_).bind
    · intro outs outs' w houts hsees'
      have hlock := keeps_aTake (s := w) hN hW (k := 4) (by omega)
      apply Keeps.bind (R := fun a b => True) (c := curLe 4)
      · have h : Keeps raw (Wide raw) w (aTake raw raw.length 4 >>= pure)
            (curTake 4 >>= fun b => pure (leVal b)) (fun _ _ => True) :=
          hlock.bind fun a b t _ _ => Keeps.pure trivial
        rw [bind_pure] at h
        exact h
      · intro lock _ x _ _
        exact keeps_aEnd ⟨hsees, hsees'⟩
    · intro j hj bs x hx
      apply keeps_aOut hN hW
      intro sl y hy hwide
      right
      refine ⟨j, sl, y, Or.inr ?_, hwide⟩
      unfold spkLen
      refine Reader.bind_eq_some.mpr ⟨vin, t, hhead, ?_⟩
      refine Reader.bind_eq_some.mpr ⟨ins', u, hins, ?_⟩
      refine Reader.bind_eq_some.mpr ⟨vout, v, hvout, ?_⟩
      refine Reader.bind_eq_some.mpr ⟨(), v, Reader.require_eq_some.mpr ⟨?_, rfl⟩, ?_⟩
      · rw [Bool.and_eq_true]
        exact ⟨hq', decide_eq_true hj⟩
      · exact Reader.bind_eq_some.mpr ⟨bs, x, hx, hy⟩
  · intro j hj bs x hx
    apply keeps_aIn hN hW
    intro sl y hy hwide
    right
    refine ⟨j, sl, y, Or.inl ?_, hwide⟩
    unfold scriptSigLen
    refine Reader.bind_eq_some.mpr ⟨vin, t, hhead, ?_⟩
    refine Reader.bind_eq_some.mpr ⟨(), t, Reader.require_eq_some.mpr ⟨decide_eq_true hj, rfl⟩, ?_⟩
    exact Reader.bind_eq_some.mpr ⟨bs, x, hx, hy⟩

end Whole

/-! ### Equal views end at the same byte -/

section Back

variable {raw s t : Bytes} {n q : ℤ}

theorem aTake_back (hs : s <:+ raw) {k : ℕ} (hk : k ≤ s.length) {b : Bytes}
    (h : aTake raw n k (place raw s) = .ok (b, q)) : q = place raw (s.drop k) := by
  obtain ⟨fits, m, h1, h2⟩ := bind_eq_ok.mp h
  unfold aFits at h1
  split at h1
  · cases h1
  · cases h1
    split at h2
    · rw [aBytes_place hs hk] at h2
      cases h2
      rfl
    · cases h2

theorem rdLe_back (hs : s <:+ raw) {k v v' : ℕ} (hc : curLe k s = some (v, t))
    (h : rdLe raw n k (place raw s) = .ok (v', q)) (hne : v' ≠ uint64Max) :
    v' = v ∧ q = place raw t := by
  have hk : k ≤ s.length := by
    by_contra hk
    rw [curLe_gt (by omega)] at hc
    cases hc
  rw [curLe_le hk, Option.some_inj, Prod.mk.injEq] at hc
  obtain ⟨rfl, rfl⟩ := hc
  obtain ⟨fits, m, h1, h2⟩ := bind_eq_ok.mp h
  unfold aFits at h1
  split at h1
  · cases h1
  · cases h1
    split at h2
    · rw [bind_ok (aBytes_place hs hk)] at h2
      cases h2
      exact ⟨rfl, rfl⟩
    · cases h2
      exact (hne rfl).elim

theorem rdVarint_back (hs : s <:+ raw) {v v' : ℕ} (hc : curVarint s = some (v, t))
    (h : rdVarint raw n (place raw s) = .ok (v', q)) (hne : v' ≠ uint64Max) :
    v' = v ∧ q = place raw t := by
  obtain ⟨m, u, h1, h2⟩ := Reader.bind_eq_some.mp hc
  have hk : 1 ≤ s.length := by
    by_contra hk
    rw [curLe_gt (by omega)] at h1
    cases h1
  rw [curLe_le hk, Option.some_inj, Prod.mk.injEq] at h1
  obtain ⟨rfl, rfl⟩ := h1
  have hs1 : s.drop 1 <:+ raw := (List.drop_suffix 1 s).trans hs
  obtain ⟨more, m, h3, h4⟩ := bind_eq_ok.mp h
  cases h3
  split at h4
  · rw [bind_ok (aBytes_place hs hk)] at h4
    by_cases hFD : leVal (s.take 1) < 0xFD
    · rw [if_pos hFD] at h2 h4
      cases h2
      cases h4
      exact ⟨rfl, rfl⟩
    rw [if_neg hFD] at h2 h4
    by_cases h253 : leVal (s.take 1) = 0xFD
    · rw [if_pos h253] at h2 h4
      exact rdLe_back hs1 h2 h4 hne
    rw [if_neg h253] at h2 h4
    by_cases h254 : leVal (s.take 1) = 0xFE
    · rw [if_pos h254] at h2 h4
      exact rdLe_back hs1 h2 h4 hne
    rw [if_neg h254] at h2 h4
    exact rdLe_back hs1 h2 h4 hne
  · cases h4
    exact (hne rfl).elim

theorem curVarint_suffix {v : ℕ} (h : curVarint s = some (v, t)) : t <:+ s := by
  obtain ⟨b, _, rfl⟩ := (reads_curVarint s v t).mp h
  exact List.suffix_append b t

theorem aScript_back (raw : Bytes) (n : ℤ) :
    Follows raw (aScript raw n) curScript (Points raw) := by
  intro s a q b t hs hw hc hp
  obtain ⟨v, u, hv, hb⟩ := Reader.bind_eq_some.mp hc
  obtain ⟨sl, o, h1, h2⟩ := bind_eq_ok.mp hw
  split at h2
  · cases h2
  · rename_i hne
    obtain ⟨rfl, rfl⟩ := rdVarint_back hs hv h1 hne
    obtain ⟨hu, hlen⟩ := Reader.take_eq_some.mp hb
    have ht : t <:+ raw := (List.suffix_append b t).trans (hu ▸ (curVarint_suffix hv).trans hs)
    obtain ⟨fits, m, h3, h4⟩ := bind_eq_ok.mp h2
    unfold aFits at h3
    split at h3
    · cases h3
    · cases h3
      split at h4
      · obtain ⟨at_, m, h5, h6⟩ := bind_eq_ok.mp h4
        obtain ⟨rfl, rfl⟩ := pure_eq_ok.mp h6
        rw [aMove, Except.ok.injEq, Prod.mk.injEq] at h5
        have hlast := hp.1
        dsimp only at hlast
        refine ⟨?_, ht⟩
        rw [← h5.2, hlast, hu]
        unfold place
        rw [List.length_append]
        omega
      · cases h4

theorem curLe_some {k v : ℕ} (h : curLe k s = some (v, t)) : k ≤ s.length ∧ t = s.drop k := by
  have hk : k ≤ s.length := by
    by_contra hk
    rw [curLe_gt (by omega)] at h
    cases h
  rw [curLe_le hk, Option.some_inj, Prod.mk.injEq] at h
  exact ⟨hk, h.2.symm⟩

theorem curTake_some {k : ℕ} {b : Bytes} (h : curTake k s = some (b, t)) :
    k ≤ s.length ∧ t = s.drop k := by
  have hk : k ≤ s.length := by
    by_contra hk
    rw [curTake_gt (by omega)] at h
    cases h
  rw [curTake_le hk, Option.some_inj, Prod.mk.injEq] at h
  exact ⟨hk, h.2.symm⟩

theorem aIn_back (raw : Bytes) (n : ℤ) : Follows raw (aIn raw n) curIn (AIn.Sees raw) := by
  intro s a q i t hs hw hc hsees
  rw [curIn_eq] at hc
  obtain ⟨prevout, s1, hc1, hc⟩ := Reader.bind_eq_some.mp hc
  obtain ⟨ss, s2, hc2, hc⟩ := Reader.bind_eq_some.mp hc
  obtain ⟨seq, s3, hc3, hc⟩ := Reader.bind_eq_some.mp hc
  obtain ⟨rfl, rfl⟩ := Reader.pure_eq_some.mp hc
  obtain ⟨b, q1, hw1, hw⟩ := bind_eq_ok.mp hw
  obtain ⟨p, q2, hw2, hw⟩ := bind_eq_ok.mp hw
  obtain ⟨l, q3, hw3, hw⟩ := bind_eq_ok.mp hw
  obtain ⟨rfl, rfl⟩ := pure_eq_ok.mp hw
  obtain ⟨hk1, rfl⟩ := curTake_some hc1
  obtain rfl := aTake_back hs hk1 hw1
  have hs1 := (List.drop_suffix 36 s).trans hs
  obtain ⟨rfl, hs2⟩ := aScript_back raw n (s.drop 36) p q2 ss s2 hs1 hw2 hc2 hsees.2
  obtain ⟨hk3, rfl⟩ := curLe_some hc3
  exact ⟨aTake_back hs2 hk3 hw3, (List.drop_suffix 4 s2).trans hs2⟩

theorem aOut_back (raw : Bytes) (n : ℤ) : Follows raw (aOut raw n) curOut (AOut.Sees raw) := by
  intro s a q o t hs hw hc hsees
  rw [curOut_eq] at hc
  obtain ⟨v, s1, hc1, hc⟩ := Reader.bind_eq_some.mp hc
  obtain ⟨spk, s2, hc2, hc⟩ := Reader.bind_eq_some.mp hc
  obtain ⟨rfl, rfl⟩ := Reader.pure_eq_some.mp hc
  obtain ⟨b, q1, hw1, hw⟩ := bind_eq_ok.mp hw
  obtain ⟨p, q2, hw2, hw⟩ := bind_eq_ok.mp hw
  obtain ⟨rfl, rfl⟩ := pure_eq_ok.mp hw
  obtain ⟨hk1, rfl⟩ := curTake_some hc1
  obtain rfl := aTake_back hs hk1 hw1
  have hs1 := (List.drop_suffix 8 s).trans hs
  exact aScript_back raw n (s.drop 8) p q2 spk s2 hs1 hw2 hc2 hsees.2

/-- What an accepted walk went through. -/
theorem aFields_inv {p : ℤ} {ins : List AIn} {outs : List AOut} {l : ℕ}
    (h : aFields raw n p = .ok ((ins, outs, l), q)) :
    ∃ nin nout p1 p2 p3 p4 b, rdVarint raw n p = .ok (nin, p1) ∧ nin ≤ aMaxIn ∧
      Cursor.replicate (aIn raw n) nin p1 = .ok (ins, p2) ∧ rdVarint raw n p2 = .ok (nout, p3) ∧
      nout ≤ aMaxOut ∧ Cursor.replicate (aOut raw n) nout p3 = .ok (outs, p4) ∧
      aTake raw n 4 p4 = .ok (b, n) := by
  obtain ⟨nin, p1, h1, h⟩ := bind_eq_ok.mp h
  split at h
  · cases h
  rename_i hnin
  obtain ⟨ins', p2, h2, h⟩ := bind_eq_ok.mp h
  obtain ⟨nout, p3, h3, h⟩ := bind_eq_ok.mp h
  split at h
  · cases h
  rename_i hnout
  obtain ⟨outs', p4, h4, h⟩ := bind_eq_ok.mp h
  obtain ⟨b, p5, h5, h⟩ := bind_eq_ok.mp h
  obtain ⟨all, p6, h6, h⟩ := bind_eq_ok.mp h
  cases h6
  by_cases hend : p5 = n
  · rw [if_pos (decide_eq_true hend)] at h
    cases h
    exact ⟨nin, nout, p1, p2, p3, p4, b, h1, by omega, h2, h3, by omega, h4, hend ▸ h5⟩
  · rw [if_neg (by simpa using hend)] at h
    cases h

theorem aFields_back {s r : Bytes} {ins : List AIn} {outs : List AOut} {l : ℕ}
    {x : List IdxIn × List (ℤ × Bytes)} (hs : s <:+ raw)
    (h : aFields raw n (place raw s) = .ok ((ins, outs, l), q)) (hc : curBody s = some (x, r))
    (hins : List.Forall₂ (AIn.Sees raw) ins x.1) (houts : List.Forall₂ (AOut.Sees raw) outs x.2) :
    n = place raw r := by
  obtain ⟨nin, nout, p1, p2, p3, p4, b, h1, hnin, h2, h3, hnout, h4, h5⟩ := aFields_inv h
  unfold curBody at hc
  obtain ⟨vin, s1, hc1, hc⟩ := Reader.bind_eq_some.mp hc
  obtain ⟨_, _, hreq, hc⟩ := Reader.bind_eq_some.mp hc
  obtain ⟨_, rfl⟩ := Reader.require_eq_some.mp hreq
  obtain ⟨ins', s2, hc2, hc⟩ := Reader.bind_eq_some.mp hc
  obtain ⟨vout, s3, hc3, hc⟩ := Reader.bind_eq_some.mp hc
  obtain ⟨_, _, hreq, hc⟩ := Reader.bind_eq_some.mp hc
  obtain ⟨_, rfl⟩ := Reader.require_eq_some.mp hreq
  obtain ⟨outs', s4, hc4, hc⟩ := Reader.bind_eq_some.mp hc
  obtain ⟨lock, s5, hc5, hc⟩ := Reader.bind_eq_some.mp hc
  obtain ⟨rfl, rfl⟩ := Reader.pure_eq_some.mp hc
  have hmax : ∀ v, v ≤ aMaxOut → v ≠ uint64Max := by
    intro v hv h
    rw [h] at hv
    exact absurd hv (by decide)
  obtain ⟨rfl, rfl⟩ := rdVarint_back hs hc1 h1 (hmax nin (hnin.trans (by decide)))
  have hs1 := (curVarint_suffix hc1).trans hs
  obtain ⟨rfl, hs2⟩ := (aIn_back raw n).replicate nin _ _ _ _ _ hs1 h2 hc2 hins
  obtain ⟨rfl, rfl⟩ := rdVarint_back hs2 hc3 h3 (hmax nout hnout)
  have hs3 := (curVarint_suffix hc3).trans hs2
  obtain ⟨rfl, hs4⟩ := (aOut_back raw n).replicate nout _ _ _ _ _ hs3 h4 hc4 houts
  obtain ⟨hk5, rfl⟩ := curLe_some hc5
  exact aTake_back hs4 hk5 h5

end Back

/-! ### When the parsers agree -/

section Agreement

variable {raw : Bytes} {n : ℤ}

theorem toInt_lt (v : ℕ) : toInt v < 2147483648 := by
  have h := Int.bmod_lt (x := (v : ℤ)) (m := 2 ^ 32) (by decide)
  unfold toInt
  omega

theorem toInt_le (v : ℕ) : toInt v ≤ v := by
  unfold toInt Int.bmod
  dsimp only
  split
  · omega
  · omega

theorem txParse_ok {t : ATx} (h : txParse raw n = .ok t) :
    ∃ l q, aFields raw n 4 = .ok ((t.ins, t.outs, l), q) := by
  unfold txParse at h
  split at h
  · cases h
  split at h
  · cases h
  split at h
  · cases h
  · rename_i ins outs l q hf
    cases h
    exact ⟨l, q, hf⟩

theorem txParse_counts {t : ATx} (h : txParse raw n = .ok t) :
    t.ins.length ≤ aMaxIn ∧ t.outs.length ≤ aMaxOut := by
  obtain ⟨l, q, hf⟩ := txParse_ok h
  obtain ⟨nin, nout, p1, p2, p3, p4, b, _, hnin, hins, _, hnout, houts, _⟩ := aFields_inv hf
  rw [length_of_replicate hins, length_of_replicate houts]
  exact ⟨hnin, hnout⟩

theorem txParse_of_aFields (h10 : ¬n < 10) (hm : (raw.drop 4).take 2 ≠ [0x00, 0x01]) :
    txParse raw n = match aFields raw n 4 with
      | .error e => .error e
      | .ok ((ins, outs, locktime), _) => .ok ⟨leVal (raw.take 4), ins, outs, locktime⟩ := by
  unfold txParse
  exact (if_neg h10).trans (if_neg (by simpa using hm))

theorem IsTx.length_ge {ins : List IdxIn} {outs : List (ℤ × Bytes)} (h : IsTx raw ins outs) :
    10 ≤ raw.length := by
  have hcount : ∀ v b, CountBytes v b → 1 ≤ b.length := by
    rintro v b (⟨h, _⟩ | ⟨l, _, ⟨rfl, _⟩ | ⟨rfl, _⟩ | ⟨rfl, _⟩⟩)
    · exact h.ge
    all_goals exact Nat.succ_pos _
  obtain ⟨version, ci, bi, co, bo, lock, hv, hlock, hci, _, hco, _, _, _, _, _, rfl⟩ := h
  have h1 := hcount _ _ hci
  have h2 := hcount _ _ hco
  simp only [List.length_append]
  omega

theorem idxTxParse_some {sha256 : Bytes → Hash256} {tx : IdxTx}
    (h : idxTxParse sha256 raw = some tx) :
    curTx raw = some ((tx.ins, tx.outs.map IdxOut.paid), []) := by
  unfold idxTxParse parseTx at h
  cases hc : curTx raw with
  | none =>
    rw [hc] at h
    cases h
  | some x =>
    obtain ⟨⟨ins, outs⟩, r⟩ := x
    rw [hc] at h
    cases r with
    | cons b r => cases h
    | nil =>
      cases h
      have houts : (outs.zipIdx.map fun o => (⟨o.1.1, o.1.2, o.2⟩ : IdxOut)).map IdxOut.paid =
          outs := by
        rw [List.map_map]
        exact List.zipIdx_map_fst 0 outs
      rw [houts]

theorem idxTxParse_none {sha256 : Bytes → Hash256} (h : idxTxParse sha256 raw = none)
    {ins : List IdxIn} {outs : List (ℤ × Bytes)} : ¬IsTx raw ins outs := by
  intro hx
  rw [← curTx_whole] at hx
  unfold idxTxParse parseTx at h
  rw [hx] at h
  cases h

theorem place_four (h : 4 ≤ raw.length) : place raw (raw.drop 4) = 4 := by
  unfold place
  rw [List.length_drop]
  omega

/-- In step with the chain parser, as long as the string is short enough for `int`. -/
theorem txParse_accepts (hN : raw.length < 2147483648) (h10 : 10 ≤ raw.length)
    (hm : (raw.drop 4).take 2 ≠ [0x00, 0x01]) {x : List IdxIn × List (ℤ × Bytes)} {r : Bytes}
    (hc : cappedBody (raw.drop 4) = some (x, r)) :
    ∃ t, txParse raw raw.length = .ok t ∧ List.Forall₂ (AIn.Sees raw) t.ins x.1 ∧
      List.Forall₂ (AOut.Sees raw) t.outs x.2 := by
  have h := keeps_aFields hN (by omega) hm (List.drop_suffix 4 raw)
  rw [place_four (by omega), hc] at h
  obtain ⟨_, ⟨ins, outs, l⟩, ha, hsees⟩ := h
  refine ⟨⟨leVal (raw.take 4), ins, outs, l⟩, ?_, hsees⟩
  rw [txParse_of_aFields (by omega) hm, ha]

theorem txParse_refuses (hN : raw.length < 2147483648) (h10 : 10 ≤ raw.length)
    (hm : (raw.drop 4).take 2 ≠ [0x00, 0x01]) (hc : cappedBody (raw.drop 4) = none) :
    txParse raw raw.length = .error .refuse ∨ Wide raw := by
  have h := keeps_aFields hN (by omega) hm (List.drop_suffix 4 raw)
  rw [place_four (by omega), hc] at h
  rcases h with h | h
  · left
    rw [txParse_of_aFields (by omega) hm, h]
  · exact Or.inr h

theorem agree_none {sha256 : Bytes → Hash256} (hc : idxTxParse sha256 raw = none) :
    Agree sha256 raw ↔ Misfits raw (toInt raw.length) := by
  rw [← txParse_refuse (toInt_le raw.length)]
  unfold Agree
  rw [hc]
  generalize txParse raw (toInt raw.length) = r
  cases r with
  | ok t =>
    constructor
    · intro h
      exact h.elim
    · intro h
      cases h
  | error e =>
    cases e with
    | refuse => exact ⟨fun _ => rfl, fun _ => trivial⟩
    | fault =>
      constructor
      · intro h
        exact h.elim
      · intro h
        cases h

/-- A string that is no transaction is refused by both, unless a length leaves `int`. -/
theorem misfits_of_not_wide (hx : ∀ ins outs, ¬IsTx raw ins outs) (hwide : ¬Wide raw) :
    Misfits raw (toInt raw.length) := by
  have hN : raw.length < 2147483648 := by
    by_contra hN
    exact hwide (Or.inl (by omega))
  rw [toInt_small hN]
  by_cases h10 : raw.length < 10
  · left
    omega
  by_cases hm : (raw.drop 4).take 2 = [0x00, 0x01]
  · exact Or.inr (Or.inl hm)
  cases hb : cappedBody (raw.drop 4) with
  | none =>
    have hrefuse := (txParse_refuses hN (by omega) hm hb).resolve_right hwide
    exact (txParse_refuse le_rfl).mp hrefuse
  | some x =>
    have hbody := (cappedBody_eq_some.mp hb).1
    have hcur := curTx_eq_some.mpr ⟨by omega, hm, hbody⟩
    exact (hx x.1.1 x.1.2 (curTx_whole.mp hcur)).elim

theorem agree_some {sha256 : Bytes → Hash256} {tx : IdxTx} (hc : idxTxParse sha256 raw = some tx) :
    Agree sha256 raw ↔ ∃ t, txParse raw (toInt raw.length) = .ok t ∧
      List.Forall₂ (AIn.Sees raw) t.ins tx.ins ∧
      List.Forall₂ (AOut.Sees raw) t.outs (tx.outs.map IdxOut.paid) := by
  unfold Agree
  rw [hc]
  generalize txParse raw (toInt raw.length) = r
  cases r with
  | ok t =>
    constructor
    · intro h
      exact ⟨t, rfl, h⟩
    · rintro ⟨t', ht, h⟩
      cases ht
      exact h
  | error e =>
    constructor
    · intro h
      cases e with
      | refuse => exact h.elim
      | fault => exact h.elim
    · rintro ⟨t, ht, _⟩
      cases ht

/-- Seen alike by both, a transaction fits the arrays and the `int` of `tx_parse`. -/
theorem fits_of_sees {sha256 : Bytes → Hash256} {tx : IdxTx} {t : ATx}
    (hc : idxTxParse sha256 raw = some tx) (ht : txParse raw (toInt raw.length) = .ok t)
    (hins : List.Forall₂ (AIn.Sees raw) t.ins tx.ins)
    (houts : List.Forall₂ (AOut.Sees raw) t.outs (tx.outs.map IdxOut.paid)) :
    tx.ins.length ≤ aMaxIn ∧ (tx.outs.map IdxOut.paid).length ≤ aMaxOut ∧
      raw.length < 2147483648 := by
  have hcur := idxTxParse_some hc
  have h10 := (curTx_whole.mp hcur).length_ge
  obtain ⟨hi, ho⟩ := txParse_counts ht
  rw [hins.length_eq] at hi
  rw [houts.length_eq] at ho
  refine ⟨hi, ho, ?_⟩
  obtain ⟨l, q, hf⟩ := txParse_ok ht
  have hplace : place raw (raw.drop 4) = 4 := place_four (by omega)
  rw [← hplace] at hf
  have hend := aFields_back (List.drop_suffix 4 raw) hf (curTx_eq_some.mp hcur).2.2 hins houts
  have hlt := toInt_lt raw.length
  unfold place at hend
  rw [List.length_nil] at hend
  omega

theorem sees_of_fits {sha256 : Bytes → Hash256} {tx : IdxTx} (hc : idxTxParse sha256 raw = some tx)
    (hi : tx.ins.length ≤ aMaxIn) (ho : (tx.outs.map IdxOut.paid).length ≤ aMaxOut)
    (hN : raw.length < 2147483648) : Agree sha256 raw := by
  have hcur := idxTxParse_some hc
  have h10 := (curTx_whole.mp hcur).length_ge
  have hparts := curTx_eq_some.mp hcur
  have hcapped := cappedBody_eq_some.mpr ⟨hparts.2.2, rfl, hi, ho⟩
  rw [agree_some hc, toInt_small hN]
  exact txParse_accepts hN h10 hparts.2.1 hcapped

/-- The parsers agree on a transaction that fits the arrays and the `int` of `tx_parse`; on a string
that is no transaction unless a length leaves `int` and the format, read with signed lengths, does
not run off. -/
theorem parsers_agree_iff (sha256 : Bytes → Hash256) (raw : Bytes) :
    Agree sha256 raw ↔
      (∀ ins outs, IsTx raw ins outs →
        ins.length ≤ aMaxIn ∧ outs.length ≤ aMaxOut ∧ raw.length < 2147483648) ∧
      ((¬∃ ins outs, IsTx raw ins outs) → Wide raw → Misfits raw (toInt raw.length)) := by
  cases hc : idxTxParse sha256 raw with
  | none =>
    have hnot : ∀ ins outs, ¬IsTx raw ins outs := fun ins outs => idxTxParse_none hc
    rw [agree_none hc]
    constructor
    · intro h
      exact ⟨fun ins outs hx => (hnot ins outs hx).elim, fun _ _ => h⟩
    · intro h
      by_cases hwide : Wide raw
      · exact h.2 (fun ⟨ins, outs, hx⟩ => hnot ins outs hx) hwide
      · exact misfits_of_not_wide hnot hwide
  | some tx =>
    have hcur := idxTxParse_some hc
    have hx := curTx_whole.mp hcur
    constructor
    · intro h
      obtain ⟨t, ht, hins, houts⟩ := (agree_some hc).mp h
      refine ⟨fun ins outs hx' => ?_, fun hnot => (hnot ⟨_, _, hx⟩).elim⟩
      rw [← curTx_whole, hcur, Option.some_inj, Prod.mk.injEq, Prod.mk.injEq] at hx'
      obtain ⟨⟨rfl, rfl⟩, _⟩ := hx'
      exact fits_of_sees hc ht hins houts
    · intro h
      have hfit := h.1 tx.ins (tx.outs.map IdxOut.paid) hx
      exact sees_of_fits hc hfit.1 hfit.2.1 hfit.2.2

theorem idxTxParse_isTx (sha256 : Bytes → Hash256) {ins : List IdxIn} {outs : List (ℤ × Bytes)}
    (hx : IsTx raw ins outs) :
    ∃ tx, idxTxParse sha256 raw = some tx ∧ tx.ins = ins ∧ tx.outs.map IdxOut.paid = outs := by
  cases hc : idxTxParse sha256 raw with
  | none => exact (idxTxParse_none hc hx).elim
  | some tx =>
    have hcur := idxTxParse_some hc
    rw [curTx_whole.mpr hx, Option.some_inj, Prod.mk.injEq, Prod.mk.injEq] at hcur
    exact ⟨tx, rfl, hcur.1.1.symm, hcur.1.2.symm⟩

/-- One input with no script, and 513 outputs with no value and no script. -/
def manyOutputs : Bytes :=
  [1, 0, 0, 0] ++ ([1] ++ ((List.replicate 36 0 ++ ([0] ++ ([] ++ [0, 0, 0, 0]))) ++
    ([0xFD, 1, 2] ++ ((List.replicate 513 (List.replicate 9 0)).flatten ++ [0, 0, 0, 0]))))

theorem manyOutputs_isTx :
    IsTx manyOutputs [⟨List.replicate 36 0, []⟩] (List.replicate 513 (0, [])) := by
  have hin : Row InBytes [⟨List.replicate 36 0, []⟩]
      (List.replicate 36 0 ++ ([0] ++ ([] ++ [0, 0, 0, 0]))) := by
    refine ⟨[_], .cons ⟨[0], [0, 0, 0, 0], Or.inl ⟨rfl, rfl, by decide⟩, rfl, rfl, rfl⟩ .nil, ?_⟩
    exact (List.append_nil _).symm
  have hout : OutBytes (0, []) (List.replicate 9 0) :=
    ⟨List.replicate 8 0, [0], rfl, by decide, Or.inl ⟨rfl, rfl, by decide⟩, rfl⟩
  have houts : Row OutBytes (List.replicate 513 (0, []))
      (List.replicate 513 (List.replicate 9 0)).flatten := by
    refine ⟨List.replicate 513 (List.replicate 9 0), ?_, rfl⟩
    rw [List.forall₂_iff_get]
    refine ⟨by rw [List.length_replicate, List.length_replicate], fun i h1 h2 => ?_⟩
    rw [List.get_eq_getElem, List.get_eq_getElem, List.getElem_replicate, List.getElem_replicate]
    exact hout
  have hlen : CountBytes (List.replicate 513 ((0 : ℤ), ([] : Bytes))).length [0xFD, 1, 2] := by
    rw [List.length_replicate]
    exact Or.inr ⟨[1, 2], by decide, Or.inl ⟨rfl, rfl⟩⟩
  refine ⟨[1, 0, 0, 0], [1], _, [0xFD, 1, 2], _, [0, 0, 0, 0], rfl, rfl, Or.inl ⟨rfl, rfl, by decide⟩,
    hin, hlen, houts, Nat.one_pos, by decide, ?_, by decide, rfl⟩
  rw [List.length_replicate]
  decide

/-- A transaction with 513 outputs is lost to attribution. -/
theorem parsers_disagree : ¬∀ (sha256 : Bytes → Hash256) (raw : Bytes), Agree sha256 raw := by
  intro h
  obtain ⟨tx, hc, _, houts⟩ := idxTxParse_isTx (fun _ => ⟨List.replicate 32 0, rfl⟩) manyOutputs_isTx
  obtain ⟨t, ht, hi, ho⟩ := (agree_some hc).mp (h _ manyOutputs)
  have hfits := (fits_of_sees hc ht hi ho).2.1
  rw [houts, List.length_replicate] at hfits
  exact absurd hfits (by decide)

/-- A scriptSig length of `2 ^ 32`, which `(int)` makes 0. -/
def wrappedLength : Bytes :=
  [1, 0, 0, 0] ++ [1] ++ List.replicate 36 0 ++ [0xFF, 0, 0, 0, 0, 1, 0, 0, 0] ++ [0, 0, 0, 0] ++
    [0] ++ [0, 0, 0, 0]

example : (txParse wrappedLength 59).toBool ∧ (curTx wrappedLength).isNone := by decide +kernel

end Agreement

end NamespaceIndexer.Daemon
