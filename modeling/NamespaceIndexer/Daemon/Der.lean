import Mathlib.Data.List.GetD
import NamespaceIndexer.Curve.Ecdsa

/-!
# Signature pushes (`attrib.c`, `attrib.go`, `attribution.ts`)

Three parsers of a strict DER signature followed by its hash type, each beside the encodings it
accepts.
-/

namespace NamespaceIndexer.Daemon

open Fold Lib Curve

/-! ### The parsers -/

/-- `be_cmp`, `cmpBE`. -/
def beCmp : Bytes → Bytes → Ordering
  | a :: as, b :: bs => if a ≠ b then (if a < b then .lt else .gt) else beCmp as bs
  | _, _ => .eq

/-- The last bytes of `v`, at the right end of a zeroed array. -/
def rightAlign (v : Bytes) : Fixed 32 :=
  let low := v.drop (v.length - 32)
  ⟨List.replicate (32 - low.length) 0 ++ low, by
    simp only [low, List.length_append, List.length_replicate, List.length_drop]
    omega⟩

/-- `der_parse`: `r32` and `s32`. -/
def derParse (p : Bytes) : Option (Fixed 32 × Fixed 32) :=
  let n := p.length
  if n < 9 ∨ 73 < n then none
  else if p.getD (n - 1) 0 ≠ 0x01 then none
  else
    let dl := n - 1
    if p.getD 0 0 ≠ 0x30 ∨ (p.getD 1 0).val ≠ dl - 2 then none
    else if p.getD 2 0 ≠ 0x02 then none
    else
      let lenR := (p.getD 3 0).val
      if lenR = 0 ∨ 33 < lenR ∨ dl < 4 + lenR + 2 then none
      else
        let R := (p.drop 4).take lenR
        if R.getD 0 0 &&& 0x80 ≠ 0 then none
        else if 1 < lenR ∧ R.getD 0 0 = 0x00 ∧ R.getD 1 0 &&& 0x80 = 0 then none
        else if p.getD (4 + lenR) 0 ≠ 0x02 then none
        else
          let lenS := (p.getD (5 + lenR) 0).val
          if lenS = 0 ∨ 33 < lenS then none
          else if 6 + lenR + lenS ≠ dl then none
          else
            let S := (p.drop (6 + lenR)).take lenS
            if S.getD 0 0 &&& 0x80 ≠ 0 then none
            else if 1 < lenS ∧ S.getD 0 0 = 0x00 ∧ S.getD 1 0 &&& 0x80 = 0 then none
            else
              let r32 := rightAlign R
              let s32 := rightAlign S
              if beCmp s32.val secpNHalfBe.val = .gt then none else some (r32, s32)

/-- `derIntValid`. -/
def derIntValid (v : Bytes) : Bool :=
  if v.length = 0 then false
  else if v.getD 0 0 &&& 0x80 ≠ 0 then false
  else if v.getD 0 0 = 0x00 ∧ 1 < v.length ∧ v.getD 1 0 &&& 0x80 = 0 then false
  else true

/-- `beTo32`. -/
def beTo32 (v : Bytes) : Option (Fixed 32) :=
  let v := if 0 < v.length ∧ v.getD 0 0 = 0x00 then v.drop 1 else v
  if 32 < v.length then none else some (rightAlign v)

/-- `parseDERSig`: `r32`, `s32` and the hash type. -/
def parseDERSig (sig : Bytes) : Option (Fixed 32 × Fixed 32 × Byte) :=
  if sig.length < 9 ∨ 73 < sig.length then none
  else
    let htype := sig.getD (sig.length - 1) 0
    let der := sig.take (sig.length - 1)
    if der.getD 0 0 ≠ 0x30 then none
    else if (der.getD 1 0).val ≠ der.length - 2 then none
    else if der.getD 2 0 ≠ 0x02 then none
    else
      let lenR := (der.getD 3 0).val
      if der.length < 4 + lenR then none
      else
        let R := (der.take (4 + lenR)).drop 4
        let sOff := 4 + lenR
        if der.length < sOff + 2 then none
        else if der.getD sOff 0 ≠ 0x02 then none
        else
          let lenS := (der.getD (sOff + 1) 0).val
          if sOff + 2 + lenS ≠ der.length then none
          else
            let S := (der.take (sOff + 2 + lenS)).drop (sOff + 2)
            if !derIntValid R || !derIntValid S then none
            else
              match beTo32 S with
              | none => none
              | some sb =>
                if beCmp sb.val secpNHalfBe.val = .gt then none
                else
                  match beTo32 R with
                  | none => none
                  | some rb => some (rb, sb, htype)

/-- `beToFixed32`. -/
def beToFixed32 (b : Bytes) : Option (Fixed 32) :=
  let trimmed := (b.dropLast.dropWhile (· = 0x00)) ++ b.drop (b.length - 1)
  if 32 < trimmed.length then none else some (rightAlign trimmed)

/-- `parseSig`: the checks in its order. -/
def parseSig (sig : Bytes) : Option (Fixed 32 × Fixed 32) :=
  let n := sig.length
  if n < 9 ∨ 73 < n then none
  else if sig.getD 0 0 ≠ 0x30 then none
  else if (sig.getD 1 0).val ≠ n - 3 then none
  else if sig.getD 2 0 ≠ 0x02 then none
  else
    let lenR := (sig.getD 3 0).val
    if lenR = 0 then none
    else if n ≤ 5 + lenR then none
    else if sig.getD 4 0 &&& 0x80 ≠ 0 then none
    else if sig.getD 4 0 = 0x00 ∧ sig.getD 5 0 &&& 0x80 = 0 then none
    else
      let sTypeOff := 4 + lenR
      if sig.getD sTypeOff 0 ≠ 0x02 then none
      else
        let lenS := (sig.getD (sTypeOff + 1) 0).val
        if lenS = 0 then none
        else if sTypeOff + 2 + lenS ≠ n - 1 then none
        else
          let sOff := sTypeOff + 2
          if sig.getD sOff 0 &&& 0x80 ≠ 0 then none
          else if sig.getD sOff 0 = 0x00 ∧ sig.getD (sOff + 1) 0 &&& 0x80 = 0 then none
          else if sig.getD (n - 1) 0 ≠ 0x01 then none
          else if orderN / 2 < beVal ((sig.take (sOff + lenS)).drop sOff) then none
          else
            match beToFixed32 ((sig.take (4 + lenR)).drop 4),
              beToFixed32 ((sig.take (sOff + lenS)).drop sOff) with
            | some r32, some s32 => some (r32, s32)
            | _, _ => none

/-! ### Strict encodings -/

/-- The shortest encoding of a non-negative integer. -/
structure Minimal (v : Bytes) : Prop where
  nonempty : 0 < v.length
  positive : (v.getD 0 0).val < 128
  short : 1 < v.length → v.getD 0 0 = 0 → 128 ≤ (v.getD 1 0).val

/-- A signature of two encoded integers, and its hash type. -/
def derSig (R S : Bytes) (h : Byte) : Bytes :=
  0x30 :: Fin.ofNat 256 (R.length + S.length + 4) :: 0x02 :: Fin.ofNat 256 R.length ::
    (R ++ 0x02 :: Fin.ofNat 256 S.length :: (S ++ [h]))

/-- Where the parsers find the parts of a signature. -/
structure Framed (p R S : Bytes) (h : Byte) : Prop where
  length : p.length = R.length + S.length + 7
  seq : p.getD 0 0 = 0x30
  body : (p.getD 1 0).val = R.length + S.length + 4
  tagR : p.getD 2 0 = 0x02
  lenR : (p.getD 3 0).val = R.length
  partR : (p.drop 4).take R.length = R
  tagS : p.getD (4 + R.length) 0 = 0x02
  lenS : (p.getD (5 + R.length) 0).val = S.length
  partS : (p.drop (6 + R.length)).take S.length = S
  hash : p.getD (p.length - 1) 0 = h

theorem ofNat_val (b : Byte) : Fin.ofNat 256 b.val = b := Fin.ext (Nat.mod_eq_of_lt b.isLt)

theorem framed_derSig {R S : Bytes} {h : Byte} (hlen : R.length + S.length + 4 < 256) :
    Framed (derSig R S h) R S h := by
  have hdrop : ∀ k, (R ++ 0x02 :: Fin.ofNat 256 S.length :: (S ++ [h])).drop (R.length + k)
      = ((0x02 : Byte) :: Fin.ofNat 256 S.length :: (S ++ [h])).drop k :=
    fun k => List.drop_length_add_append _
  have hget : ∀ k, (R ++ 0x02 :: Fin.ofNat 256 S.length :: (S ++ [h])).getD (R.length + k) 0
      = ((0x02 : Byte) :: Fin.ofNat 256 S.length :: (S ++ [h])).getD k 0 := by
    intro k
    rw [List.getD_append_right _ _ _ _ (by omega), Nat.add_sub_cancel_left]
  have hval : ∀ k, k < 256 → (Fin.ofNat 256 k).val = k := fun k hk => Nat.mod_eq_of_lt hk
  have hsize : (derSig R S h).length = R.length + S.length + 7 := by
    simp only [derSig, List.length_cons, List.length_append, List.length_nil]
    omega
  refine ⟨hsize, rfl, hval _ hlen, rfl, hval _ (by omega), ?_, ?_, ?_, ?_, ?_⟩
  · simp [derSig]
  · rw [show 4 + R.length = R.length + 0 + 4 by omega]
    exact hget 0
  · rw [show 5 + R.length = R.length + 1 + 4 by omega]
    exact (congrArg Fin.val (hget 1)).trans (hval _ (by omega))
  · rw [show 6 + R.length = R.length + 2 + 4 by omega]
    have htail : (derSig R S h).drop (R.length + 2 + 4) = S ++ [h] := hdrop 2
    rw [htail, List.take_left]
  · rw [hsize, show R.length + S.length + 7 - 1 = R.length + (S.length + 2) + 4 by omega]
    refine (hget (S.length + 2)).trans ?_
    rw [List.getD_cons_succ, List.getD_cons_succ, List.getD_append_right _ _ _ _ (le_refl _)]
    simp

theorem Framed.eq_derSig {p R S : Bytes} {h : Byte} (hf : Framed p R S h) : p = derSig R S h := by
  obtain ⟨hlen, hseq, hbody, htagR, hlenR, hR, htagS, hlenS, hS, hhash⟩ := hf
  obtain ⟨a, b, c, d, rest, rfl⟩ : ∃ a b c d rest, p = a :: b :: c :: d :: rest := by
    match p, hlen with
    | a :: b :: c :: d :: rest, _ => exact ⟨a, b, c, d, rest, rfl⟩
  have hrest : rest = R ++ rest.drop R.length := by
    have hsplit := List.take_append_drop R.length rest
    have hR' : rest.take R.length = R := hR
    rw [hR'] at hsplit
    exact hsplit.symm
  have hsize : (rest.drop R.length).length = S.length + 3 := by
    simp only [List.length_cons] at hlen
    rw [List.length_drop]
    omega
  obtain ⟨x, y, tail, htail⟩ : ∃ x y tail, rest.drop R.length = x :: y :: tail := by
    match rest.drop R.length, hsize with
    | x :: y :: tail, _ => exact ⟨x, y, tail, rfl⟩
  rw [htail] at hrest hsize
  subst hrest
  simp only [List.length_cons] at hsize
  have hget : ∀ k, (R ++ x :: y :: tail).getD (R.length + k) 0 = (x :: y :: tail).getD k 0 := by
    intro k
    rw [List.getD_append_right _ _ _ _ (by omega), Nat.add_sub_cancel_left]
  have hx : x = 0x02 := by
    rw [show 4 + R.length = R.length + 0 + 4 by omega] at htagS
    exact (hget 0).symm.trans htagS
  have hy : y.val = S.length := by
    rw [show 5 + R.length = R.length + 1 + 4 by omega] at hlenS
    rw [← hlenS]
    exact congrArg Fin.val (hget 1).symm
  have hdropS : tail.take S.length = S := by
    have htail' : (a :: b :: c :: d :: (R ++ x :: y :: tail)).drop (6 + R.length) = tail := by
      rw [show 6 + R.length = R.length + 2 + 4 by omega]
      exact List.drop_length_add_append _
    rw [htail'] at hS
    exact hS
  have hlast : tail = S ++ [h] := by
    have hsplit := List.take_append_drop S.length tail
    rw [hdropS] at hsplit
    obtain ⟨z, hz⟩ := List.length_eq_one_iff.mp (show (tail.drop S.length).length = 1 by
      rw [List.length_drop]; omega)
    rw [hz] at hsplit
    rw [← hsplit] at hhash ⊢
    have hpos : (a :: b :: c :: d :: (R ++ x :: y :: (S ++ [z]))).length - 1
        = R.length + (S.length + 2) + 4 := by
      simp only [List.length_cons, List.length_append, List.length_nil]
      omega
    rw [hpos] at hhash
    have hz' : (a :: b :: c :: d :: (R ++ x :: y :: (S ++ [z]))).getD
        (R.length + (S.length + 2) + 4) 0 = z := by
      simp [List.getD_eq_getElem?_getD]
    rw [hz'] at hhash
    rw [hhash]
  have ha : a = 0x30 := hseq
  have hb : b.val = R.length + S.length + 4 := hbody
  have hc : c = 0x02 := htagR
  have hd : d.val = R.length := hlenR
  unfold derSig
  rw [ha, hc, hx, hlast, ← hb, ← hd, ← hy, ofNat_val, ofNat_val, ofNat_val]

/-- The parts of a push whose lengths add up. -/
theorem derSig_of_parts {p : Bytes} {k m : ℕ} (hlen : p.length = k + m + 7)
    (hseq : p.getD 0 0 = 0x30) (hbody : (p.getD 1 0).val = k + m + 4) (htagR : p.getD 2 0 = 0x02)
    (hlenR : (p.getD 3 0).val = k) (htagS : p.getD (4 + k) 0 = 0x02)
    (hlenS : (p.getD (5 + k) 0).val = m) :
    ((p.drop 4).take k).length = k ∧ ((p.drop (6 + k)).take m).length = m ∧
      p = derSig ((p.drop 4).take k) ((p.drop (6 + k)).take m) (p.getD (p.length - 1) 0) := by
  have hR : ((p.drop 4).take k).length = k := by
    rw [List.length_take, List.length_drop]
    omega
  have hS : ((p.drop (6 + k)).take m).length = m := by
    rw [List.length_take, List.length_drop]
    omega
  refine ⟨hR, hS, Framed.eq_derSig ?_⟩
  exact ⟨by rw [hR, hS, hlen], hseq, by rw [hR, hS, hbody], htagR, by rw [hR, hlenR], by rw [hR],
    by rw [hR, htagS], by rw [hR, hS, hlenS], by rw [hR, hS], rfl⟩

theorem derSig_inj {R S R' S' : Bytes} {h h' : Byte} (hlen : R.length + S.length + 4 < 256)
    (hlen' : R'.length + S'.length + 4 < 256) (heq : derSig R S h = derSig R' S' h') :
    R = R' ∧ S = S' ∧ h = h' := by
  have hf := framed_derSig (h := h) hlen
  have hf' := framed_derSig (h := h') hlen'
  rw [heq] at hf
  have hR : R.length = R'.length := hf.lenR.symm.trans hf'.lenR
  have hlenS := hf.lenS
  have hpartR := hf.partR
  have hpartS := hf.partS
  rw [hR] at hlenS hpartR hpartS
  have hS : S.length = S'.length := hlenS.symm.trans hf'.lenS
  rw [hS] at hpartS
  exact ⟨hpartR.symm.trans hf'.partR, hpartS.symm.trans hf'.partS, hf.hash.symm.trans hf'.hash⟩

/-! ### Integers -/

theorem and_sign (b : Byte) : b &&& 0x80 = 0 ↔ b.val < 128 := by
  revert b
  decide +kernel

theorem minimal_iff (v : Bytes) : Minimal v ↔ v.length ≠ 0 ∧ v.getD 0 0 &&& 0x80 = 0 ∧
    ¬ (1 < v.length ∧ v.getD 0 0 = 0x00 ∧ v.getD 1 0 &&& 0x80 = 0) := by
  rw [and_sign, and_sign]
  constructor
  · rintro ⟨hne, hpos, hshort⟩
    exact ⟨by omega, hpos, fun hc => absurd (hshort hc.1 hc.2.1) (by omega)⟩
  · rintro ⟨hne, hpos, hshort⟩
    refine ⟨by omega, hpos, fun hlong hzero => ?_⟩
    by_contra hnext
    exact hshort ⟨hlong, hzero, by omega⟩

theorem derIntValid_iff (v : Bytes) : derIntValid v = true ↔ Minimal v := by
  rw [minimal_iff]
  unfold derIntValid
  by_cases hlen : v.length = 0
  · simp [hlen]
  by_cases hsign : v.getD 0 0 &&& 0x80 = 0
  · rw [if_neg hlen, if_neg (not_not.mpr hsign)]
    by_cases hshort : v.getD 0 0 = 0x00 ∧ 1 < v.length ∧ v.getD 1 0 &&& 0x80 = 0
    · rw [if_pos hshort]
      exact ⟨fun h => absurd h (by simp), fun h => absurd ⟨hshort.2.1, hshort.1, hshort.2.2⟩ h.2.2⟩
    · rw [if_neg hshort]
      exact ⟨fun _ => ⟨hlen, hsign, fun hc => hshort ⟨hc.2.1, hc.1, hc.2.2⟩⟩, fun _ => rfl⟩
  · rw [if_neg hlen, if_pos hsign]
    exact ⟨fun h => absurd h (by simp), fun h => absurd h.2.1 hsign⟩

theorem beCmp_gt {a b : Bytes} (hlen : a.length = b.length) :
    beCmp a b = .gt ↔ beVal b < beVal a := by
  induction a generalizing b with
  | nil =>
    rw [List.length_eq_zero_iff.mp hlen.symm]
    simp [beCmp]
  | cons x a ih =>
    match b, hlen with
    | y :: b, hlen =>
      have hlen' : a.length = b.length := by simpa using hlen
      have ha := beVal_lt a
      have hb := beVal_lt b
      rw [hlen'] at ha
      rw [beVal_cons, beVal_cons, hlen', beCmp]
      by_cases hxy : x = y
      · rw [if_neg (not_not.mpr hxy), ih hlen', hxy]
        omega
      · rw [if_pos hxy]
        have hval : x.val ≠ y.val := fun h => hxy (Fin.ext h)
        by_cases hlt : x < y
        · have hstep : 256 ^ b.length * (x.val + 1) ≤ 256 ^ b.length * y.val :=
            Nat.mul_le_mul_left _ hlt
          rw [if_pos hlt]
          exact ⟨fun h => absurd h (by simp), fun h => absurd h (by rw [mul_add] at hstep; omega)⟩
        · have hstep : 256 ^ b.length * (y.val + 1) ≤ 256 ^ b.length * x.val := by
            refine Nat.mul_le_mul_left _ ?_
            rw [Fin.lt_def] at hlt
            omega
          rw [if_neg hlt]
          exact ⟨fun _ => by rw [mul_add] at hstep; omega, fun _ => rfl⟩

theorem beVal_zeros (k : ℕ) (v : Bytes) : beVal (List.replicate k 0 ++ v) = beVal v := by
  induction k with
  | zero => rfl
  | succ k ih =>
    rw [List.replicate_succ, List.cons_append, beVal_cons, ih]
    simp

theorem beVal_rightAlign (v : Bytes) : beVal (rightAlign v).val = beVal v % 2 ^ 256 := by
  have hlow : beVal (v.drop (v.length - 32)) = beVal v % 2 ^ 256 := by
    by_cases hlen : v.length ≤ 32
    · have hlt := beVal_lt v
      have hle : 256 ^ v.length ≤ 256 ^ 32 := Nat.pow_le_pow_right (by omega) hlen
      rw [show v.length - 32 = 0 by omega, List.drop_zero, Nat.mod_eq_of_lt (by omega)]
    · have happ := beVal_append (v.take (v.length - 32)) (v.drop (v.length - 32))
      have hlen' : (v.drop (v.length - 32)).length = 32 := by
        rw [List.length_drop]
        omega
      have hlt := beVal_lt (v.drop (v.length - 32))
      rw [List.take_append_drop, hlen'] at happ
      rw [hlen'] at hlt
      have hpow : (256 : ℕ) ^ 32 = 2 ^ 256 := by norm_num
      rw [happ, hpow, Nat.mul_add_mod, Nat.mod_eq_of_lt (by omega)]
  rw [← hlow]
  exact beVal_zeros _ _

theorem rightAlign_congr {v w : Bytes} (h : beVal v = beVal w) : rightAlign v = rightAlign w := by
  apply beVal_fixed_inj
  rw [beVal_rightAlign, beVal_rightAlign, h]

/-- The length of a minimal encoding is told by the value. -/
theorem Minimal.bounds {v : Bytes} (h : Minimal v) :
    2 * beVal v < 256 ^ v.length ∧ (1 < v.length → 256 ^ (v.length - 1) ≤ 2 * beVal v) := by
  obtain ⟨hne, hpos, hshort⟩ := h
  match v, hne with
  | x :: v, _ =>
    have hv := beVal_lt v
    have hx : x.val < 128 := hpos
    rw [beVal_cons, List.length_cons, pow_succ]
    constructor
    · have hstep : 256 ^ v.length * (x.val + 1) ≤ 256 ^ v.length * 128 :=
        Nat.mul_le_mul_left _ (by omega)
      rw [mul_add] at hstep
      omega
    · intro hlong
      rw [Nat.add_sub_cancel]
      by_cases hzero : x = 0
      · match v, hlong with
        | y :: v, _ =>
          have hy : 128 ≤ y.val := hshort (by simp) hzero
          have hstep : 256 ^ v.length * 128 ≤ 256 ^ v.length * y.val :=
            Nat.mul_le_mul_left _ hy
          rw [beVal_cons, List.length_cons, pow_succ]
          omega
      · have hx1 : 1 ≤ x.val := by
          by_contra hlt
          exact hzero (Fin.ext (by omega))
        have hstep : 256 ^ v.length * 1 ≤ 256 ^ v.length * x.val := Nat.mul_le_mul_left _ hx1
        omega

theorem Minimal.inj {v w : Bytes} (hv : Minimal v) (hw : Minimal w) (h : beVal v = beVal w) :
    v = w := by
  obtain ⟨hvlt, hvge⟩ := hv.bounds
  obtain ⟨hwlt, hwge⟩ := hw.bounds
  have hvne := hv.nonempty
  have hwne := hw.nonempty
  refine beVal_inj ?_ h
  rcases Nat.lt_trichotomy v.length w.length with hlt | heq | hgt
  · have hge := hwge (by omega)
    have hpow : 256 ^ v.length ≤ 256 ^ (w.length - 1) := Nat.pow_le_pow_right (by omega) (by omega)
    omega
  · exact heq
  · have hge := hvge (by omega)
    have hpow : 256 ^ w.length ≤ 256 ^ (v.length - 1) := Nat.pow_le_pow_right (by omega) (by omega)
    omega

/-- An integer of 256 bits has at most a sign byte before its 32 bytes. -/
theorem Minimal.length_le {v : Bytes} (h : Minimal v) (hlt : beVal v < 2 ^ 256) :
    v.length ≤ 33 := by
  by_contra hlong
  have hge := h.bounds.2 (by omega)
  have hpow : 256 ^ 33 ≤ 256 ^ (v.length - 1) := Nat.pow_le_pow_right (by omega) (by omega)
  omega

theorem le_beVal_of_head {v : Bytes} (hne : 0 < v.length) (hhead : v.getD 0 0 ≠ 0) :
    256 ^ (v.length - 1) ≤ beVal v := by
  match v, hne with
  | x :: v, _ =>
    have hx : 1 ≤ x.val := by
      by_contra hlt
      exact hhead (Fin.ext (by simpa using Nat.lt_one_iff.mp (not_le.mp hlt)))
    have hstep : 256 ^ v.length * 1 ≤ 256 ^ v.length * x.val := Nat.mul_le_mul_left _ hx
    rw [beVal_cons, List.length_cons, Nat.add_sub_cancel]
    omega

/-- Alignment of an integer whose padding is stripped: too long is 2^256 and more. -/
theorem align_stripped {v w : Bytes} (hval : beVal w = beVal v)
    (hlead : 32 < w.length → w.getD 0 0 ≠ 0) :
    (if 32 < w.length then none else some (rightAlign w))
      = if beVal v < 2 ^ 256 then some (rightAlign v) else none := by
  by_cases hlong : 32 < w.length
  · have hge := le_beVal_of_head (by omega) (hlead hlong)
    have hpow : 256 ^ 32 ≤ 256 ^ (w.length - 1) := Nat.pow_le_pow_right (by omega) (by omega)
    have hbig : ¬ beVal v < 2 ^ 256 := by
      rw [← hval]
      omega
    rw [if_pos hlong, if_neg hbig]
  · have hlt := beVal_lt w
    have hpow : 256 ^ w.length ≤ 256 ^ 32 := Nat.pow_le_pow_right (by omega) (by omega)
    have hsmall : beVal v < 2 ^ 256 := by
      rw [← hval]
      omega
    rw [if_neg hlong, if_pos hsmall, rightAlign_congr hval]

theorem beTo32_eq {v : Bytes} (h : Minimal v) :
    beTo32 v = if beVal v < 2 ^ 256 then some (rightAlign v) else none := by
  obtain ⟨x, t, rfl⟩ : ∃ x t, v = x :: t := List.exists_cons_of_length_pos h.nonempty
  by_cases hzero : x = 0
  · have hstrip : (if 0 < (x :: t).length ∧ (x :: t).getD 0 0 = 0x00 then (x :: t).drop 1
        else x :: t) = t := if_pos ⟨h.nonempty, hzero⟩
    unfold beTo32
    simp only [hstrip]
    refine align_stripped ?_ ?_
    · rw [beVal_cons, hzero]
      simp
    · intro hlong hnext
      have hshort : 128 ≤ (t.getD 0 0).val :=
        h.short (by rw [List.length_cons]; omega) hzero
      rw [hnext] at hshort
      exact absurd hshort (by decide)
  · have hkeep : (if 0 < (x :: t).length ∧ (x :: t).getD 0 0 = 0x00 then (x :: t).drop 1
        else x :: t) = x :: t := if_neg fun hc => hzero hc.2
    unfold beTo32
    simp only [hkeep]
    exact align_stripped rfl fun _ => hzero

theorem beVal_dropWhile (v w : Bytes) : beVal (v.dropWhile (· = 0x00) ++ w) = beVal (v ++ w) := by
  induction v with
  | nil => rfl
  | cons x v ih =>
    by_cases hx : x = 0
    · rw [List.dropWhile_cons_of_pos (by simpa using hx), ih, List.cons_append, beVal_cons, hx]
      simp
    · rw [List.dropWhile_cons_of_neg (by simpa using hx)]

theorem beToFixed32_eq (v : Bytes) :
    beToFixed32 v = if beVal v < 2 ^ 256 then some (rightAlign v) else none := by
  have hsplit : v.dropLast ++ v.drop (v.length - 1) = v := by
    rw [List.dropLast_eq_take, List.take_append_drop]
  refine align_stripped ?_ ?_
  · rw [beVal_dropWhile, hsplit]
  · intro hlong hhead
    match hw : v.dropLast.dropWhile (· = 0x00) with
    | [] =>
      rw [hw, List.nil_append, List.length_drop] at hlong
      omega
    | x :: t =>
      have hx : x ≠ 0 := by
        have hnot := List.head_dropWhile_not (fun b : Byte => decide (b = 0x00)) (l := v.dropLast)
          (by rw [hw]; exact List.cons_ne_nil x t)
        simp only [hw, List.head_cons, decide_eq_false_iff_not] at hnot
        exact hnot
      rw [hw] at hhead
      exact hx hhead

/-! ### What each parser accepts -/

theorem beCmp_nHalf (a : Fixed 32) :
    beCmp a.val secpNHalfBe.val = .gt ↔ orderN / 2 < beVal a.val := by
  have hhalf : beVal secpNHalfBe.val = orderN / 2 := by decide
  rw [beCmp_gt (a.property.trans secpNHalfBe.property.symm), hhalf]

/-- `der_parse` takes integers of up to 33 bytes and keeps their low 256 bits. -/
theorem derParse_iff {p : Bytes} {r s : Fixed 32} :
    derParse p = some (r, s) ↔ ∃ R S, p = derSig R S 0x01 ∧ (Minimal R ∧ R.length ≤ 33) ∧
      (Minimal S ∧ S.length ≤ 33) ∧ beVal S % 2 ^ 256 ≤ orderN / 2 ∧
      r = rightAlign R ∧ s = rightAlign S := by
  unfold derParse
  simp only [Option.ite_none_left_eq_some, beCmp_nHalf, beVal_rightAlign]
  constructor
  · rintro ⟨hn, htype, hhead, htagR, hlenR, hsignR, hshortR, htagS, hlenS, hend, hsignS, hshortS,
      hlow, hval⟩
    push Not at hn htype hhead htagR hlenR htagS hlenS hend hlow hsignR hsignS
    obtain ⟨hR, hS, hsig⟩ := derSig_of_parts (p := p) (by omega) hhead.1 (by omega) htagR rfl htagS
      rfl
    rw [htype] at hsig
    rw [Option.some.injEq, Prod.mk.injEq] at hval
    refine ⟨_, _, hsig, ⟨?_, by omega⟩, ⟨?_, by omega⟩, hlow, hval.1.symm, hval.2.symm⟩
    · rw [minimal_iff, hR]
      exact ⟨hlenR.1, hsignR, hshortR⟩
    · rw [minimal_iff, hS]
      exact ⟨hlenS.1, hsignS, hshortS⟩
  · rintro ⟨R, S, rfl, ⟨hR, hR33⟩, ⟨hS, hS33⟩, hlow, rfl, rfl⟩
    have hf := framed_derSig (R := R) (S := S) (h := 0x01) (by omega)
    have hRne := hR.nonempty
    have hSne := hS.nonempty
    rw [minimal_iff] at hR hS
    rw [hf.lenR, hf.lenS, hf.partR, hf.partS]
    have hlen := hf.length
    have hbody := hf.body
    exact ⟨by omega, not_not.mpr hf.hash, not_or.mpr ⟨not_not.mpr hf.seq, by omega⟩,
      not_not.mpr hf.tagR, by omega, not_not.mpr hR.2.1, hR.2.2, not_not.mpr hf.tagS, by omega,
      by omega, not_not.mpr hS.2.1, hS.2.2, not_lt.mpr hlow, rfl⟩

theorem getD_init {p : Bytes} {i : ℕ} (h : i < p.length - 1) :
    (p.take (p.length - 1)).getD i 0 = p.getD i 0 := by
  rw [List.getD_eq_getElem?_getD, List.getElem?_take_of_lt h, List.getD_eq_getElem?_getD]

theorem drop_take_init {p : Bytes} {i k m : ℕ} (h : i + k ≤ m) :
    ((p.take m).take (i + k)).drop i = (p.drop i).take k := by
  rw [List.take_take, Nat.min_eq_left h, List.drop_take, Nat.add_sub_cancel_left]

/-- The end of `parseDERSig`: the integers of two minimal encodings. -/
theorem parseDERSig_ints {R S : Bytes} (hR : Minimal R) (hS : Minimal S) {h htype : Byte}
    {r s : Fixed 32} :
    (match beTo32 S with
      | none => none
      | some sb =>
        if beCmp sb.val secpNHalfBe.val = .gt then none
        else
          match beTo32 R with
          | none => none
          | some rb => some (rb, sb, htype)) = some (r, s, h) ↔
      beVal R < 2 ^ 256 ∧ beVal S ≤ orderN / 2 ∧ r = rightAlign R ∧ s = rightAlign S ∧
        h = htype := by
  have hhalf : orderN / 2 < 2 ^ 256 := by decide
  rw [beTo32_eq hR, beTo32_eq hS]
  by_cases hSlt : beVal S < 2 ^ 256
  · rw [if_pos hSlt]
    simp only [Option.ite_none_left_eq_some, beCmp_nHalf, beVal_rightAlign,
      Nat.mod_eq_of_lt hSlt]
    by_cases hRlt : beVal R < 2 ^ 256
    · simp only [if_pos hRlt, Option.some.injEq, Prod.mk.injEq, not_lt]
      constructor
      · rintro ⟨hlow, hr, hs, hh⟩
        exact ⟨hRlt, hlow, hr.symm, hs.symm, hh.symm⟩
      · rintro ⟨-, hlow, hr, hs, hh⟩
        exact ⟨hlow, hr.symm, hs.symm, hh.symm⟩
    · rw [if_neg hRlt]
      exact ⟨fun h => absurd h.2 (by simp), fun h => absurd h.1 hRlt⟩
  · rw [if_neg hSlt]
    exact ⟨fun h => absurd h (by simp), fun h => absurd h.2.1 (by omega)⟩

/-- `parseDERSig` takes integers of 256 bits. -/
theorem parseDERSig_iff {p : Bytes} {r s : Fixed 32} {h : Byte} :
    parseDERSig p = some (r, s, h) ↔ ∃ R S, p = derSig R S h ∧ (Minimal R ∧ beVal R < 2 ^ 256) ∧
      (Minimal S ∧ beVal S ≤ orderN / 2) ∧ r = rightAlign R ∧ s = rightAlign S := by
  unfold parseDERSig
  simp only [Option.ite_none_left_eq_some, List.length_take]
  constructor
  · rintro ⟨hn, hseq, hbody, htagR, hroom, htail, htagS, hend, hvalid, hrest⟩
    push Not at hn hseq hbody htagR hroom htail htagS hend
    rw [getD_init (by omega)] at hseq hbody htagR
    have h3 : (p.take (p.length - 1)).getD 3 0 = p.getD 3 0 := getD_init (by omega)
    rw [h3] at hroom htail htagS hend hvalid hrest
    have h4 : (p.take (p.length - 1)).getD (4 + (p.getD 3 0).val) 0
        = p.getD (4 + (p.getD 3 0).val) 0 := getD_init (by omega)
    have h5 : (p.take (p.length - 1)).getD (4 + (p.getD 3 0).val + 1) 0
        = p.getD (5 + (p.getD 3 0).val) 0 := by
      rw [getD_init (by omega), show 4 + (p.getD 3 0).val + 1 = 5 + (p.getD 3 0).val by omega]
    rw [h4] at htagS
    rw [h5] at hend hvalid hrest
    rw [show 4 + (p.getD 3 0).val + 2 = 6 + (p.getD 3 0).val by omega] at hend hvalid hrest
    rw [drop_take_init (by omega), drop_take_init (by omega)] at hvalid hrest
    obtain ⟨-, -, hsig⟩ := derSig_of_parts (p := p) (by omega) hseq (by omega) htagR rfl htagS rfl
    rw [Bool.or_eq_true, not_or, Bool.not_eq_true', Bool.not_eq_true', Bool.not_eq_false,
      Bool.not_eq_false, derIntValid_iff, derIntValid_iff] at hvalid
    obtain ⟨hminR, hminS⟩ := hvalid
    obtain ⟨hRlt, hlow, hr, hs, hh⟩ := (parseDERSig_ints hminR hminS).mp hrest
    rw [← hh] at hsig
    exact ⟨_, _, hsig, ⟨hminR, hRlt⟩, ⟨hminS, hlow⟩, hr, hs⟩
  · rintro ⟨R, S, rfl, ⟨hR, hRlt⟩, ⟨hS, hlow⟩, hr, hs⟩
    have hhalf : orderN / 2 < 2 ^ 256 := by decide
    have hR33 := hR.length_le hRlt
    have hS33 := hS.length_le (by omega)
    have hRne := hR.nonempty
    have hSne := hS.nonempty
    have hf := framed_derSig (R := R) (S := S) (h := h) (by omega)
    have hlen := hf.length
    have hbody := hf.body
    have hinit : ∀ i, i < R.length + S.length + 6 →
        ((derSig R S h).take ((derSig R S h).length - 1)).getD i 0 = (derSig R S h).getD i 0 :=
      fun i hi => getD_init (by omega)
    have hlenR := hinit 3 (by omega)
    rw [hinit 0 (by omega), hinit 1 (by omega), hinit 2 (by omega), hlenR, hf.lenR,
      hinit (4 + R.length) (by omega), show 4 + R.length + 1 = 5 + R.length by omega,
      hinit (5 + R.length) (by omega), hf.lenS, show 4 + R.length + 2 = 6 + R.length by omega,
      drop_take_init (by omega), drop_take_init (by omega), hf.partR, hf.partS, hf.hash]
    refine ⟨by omega, not_not.mpr hf.seq, by omega, not_not.mpr hf.tagR, by omega, by omega,
      not_not.mpr hf.tagS, by omega, ?_, ?_⟩
    · rw [(derIntValid_iff R).mpr hR, (derIntValid_iff S).mpr hS]
      decide
    · exact (parseDERSig_ints hR hS).mpr ⟨hRlt, hlow, hr, hs, rfl⟩

/-- The first two bytes read of an integer, where a lone byte is followed by one without the sign
bit. -/
theorem positive_iff {v : Bytes} {x : Byte} (hx : x &&& 0x80 = 0) (hne : v.length ≠ 0) :
    Minimal v ∧ 0 < beVal v ↔ v.getD 0 0 &&& 0x80 = 0 ∧
      ¬ (v.getD 0 0 = 0x00 ∧ (v ++ [x]).getD 1 0 &&& 0x80 = 0) := by
  by_cases hlong : 1 < v.length
  · have hnext : (v ++ [x]).getD 1 0 = v.getD 1 0 := List.getD_append _ _ _ _ hlong
    rw [hnext, minimal_iff]
    constructor
    · rintro ⟨⟨-, hsign, hshort⟩, -⟩
      exact ⟨hsign, fun hc => hshort ⟨hlong, hc⟩⟩
    · rintro ⟨hsign, hshort⟩
      have hmin : Minimal v :=
        (minimal_iff v).mpr ⟨hne, hsign, fun hc => hshort ⟨hc.2.1, hc.2.2⟩⟩
      have hge := hmin.bounds.2 hlong
      have hpow : 0 < 256 ^ (v.length - 1) := Nat.pow_pos (by omega)
      exact ⟨(minimal_iff v).mp hmin, by omega⟩
  · obtain ⟨y, rfl⟩ := List.length_eq_one_iff.mp (show v.length = 1 by omega)
    have hval : beVal [y] = y.val := by simp [beVal, leVal]
    have hzero : 0 < beVal [y] ↔ y ≠ 0 := by
      rw [hval, Nat.pos_iff_ne_zero]
      exact ⟨fun h hy => h (congrArg Fin.val hy), fun h hy => h (Fin.ext hy)⟩
    rw [hzero, minimal_iff]
    constructor
    · rintro ⟨⟨-, hsign, -⟩, hy⟩
      exact ⟨hsign, fun hc => hy hc.1⟩
    · rintro ⟨hsign, hshort⟩
      exact ⟨⟨hne, hsign, fun hc => hlong hc.1⟩, fun hy => hshort ⟨hy, hx⟩⟩

theorem derSig_getD_R {R S : Bytes} {h : Byte} {i : ℕ} (hi : i < R.length + 1) :
    (derSig R S h).getD (i + 4) 0 = (R ++ [0x02]).getD i 0 := by
  have hcut : R ++ 0x02 :: Fin.ofNat 256 S.length :: (S ++ [h])
      = (R ++ [0x02]) ++ Fin.ofNat 256 S.length :: (S ++ [h]) := by simp
  have hsig : (derSig R S h).getD (i + 4) 0
      = (R ++ 0x02 :: Fin.ofNat 256 S.length :: (S ++ [h])).getD i 0 := rfl
  rw [hsig, hcut, List.getD_append _ _ _ _ (by simpa using hi)]

theorem derSig_getD_S {R S : Bytes} {h : Byte} (i : ℕ) :
    (derSig R S h).getD (6 + R.length + i) 0 = (S ++ [h]).getD i 0 := by
  have hsig : (derSig R S h).getD (R.length + (i + 2) + 4) 0
      = (R ++ 0x02 :: Fin.ofNat 256 S.length :: (S ++ [h])).getD (R.length + (i + 2)) 0 := rfl
  rw [show 6 + R.length + i = R.length + (i + 2) + 4 by omega, hsig,
    List.getD_append_right _ _ _ _ (by omega), Nat.add_sub_cancel_left]
  rfl

theorem drop_take_slice {p : Bytes} (i k : ℕ) : (p.take (i + k)).drop i = (p.drop i).take k := by
  rw [List.drop_take, Nat.add_sub_cancel_left]

/-- `parseSig` takes positive integers only: the byte after a lone zero is not a sign byte. -/
theorem parseSig_iff {p : Bytes} {r s : Fixed 32} :
    parseSig p = some (r, s) ↔ ∃ R S, p = derSig R S 0x01 ∧
      (Minimal R ∧ 0 < beVal R ∧ beVal R < 2 ^ 256) ∧
      (Minimal S ∧ 0 < beVal S ∧ beVal S ≤ orderN / 2) ∧ r = rightAlign R ∧ s = rightAlign S := by
  have hhalf : orderN / 2 < 2 ^ 256 := by decide
  have htwo : (0x02 : Byte) &&& 0x80 = 0 := by decide
  have hone : (0x01 : Byte) &&& 0x80 = 0 := by decide
  -- the tail of the function, on the slices of the two integers
  have hints : ∀ R S : Bytes, (match beToFixed32 R, beToFixed32 S with
      | some r32, some s32 => some (r32, s32)
      | _, _ => none) = some (r, s) ↔
      beVal R < 2 ^ 256 ∧ beVal S < 2 ^ 256 ∧ r = rightAlign R ∧ s = rightAlign S := by
    intro R S
    rw [beToFixed32_eq, beToFixed32_eq]
    by_cases hR : beVal R < 2 ^ 256
    · by_cases hS : beVal S < 2 ^ 256
      · rw [if_pos hR, if_pos hS, Option.some.injEq, Prod.mk.injEq]
        exact ⟨fun h => ⟨hR, hS, h.1.symm, h.2.symm⟩, fun h => ⟨h.2.2.1.symm, h.2.2.2.symm⟩⟩
      · rw [if_pos hR, if_neg hS]
        exact ⟨fun h => absurd h (by simp), fun h => absurd h.2.1 hS⟩
    · rw [if_neg hR]
      exact ⟨fun h => absurd h (by simp), fun h => absurd h.1 hR⟩
  unfold parseSig
  simp only [Option.ite_none_left_eq_some]
  constructor
  · rintro ⟨hn, hseq, hbody, htagR, hlenR, hroom, hsignR, hshortR, htagS, hlenS, hend, hsignS,
      hshortS, htype, hlow, hrest⟩
    push Not at hn hseq hbody htagR hlenR hroom hsignR htagS hlenS hend hsignS htype hlow
    rw [show 4 + (p.getD 3 0).val + 1 = 5 + (p.getD 3 0).val by omega] at hlenS hend hrest hlow
    rw [show 4 + (p.getD 3 0).val + 2 = 6 + (p.getD 3 0).val by omega] at *
    rw [drop_take_slice, hints, drop_take_slice] at hrest
    rw [drop_take_slice] at hlow
    obtain ⟨hR, hS, hsig⟩ := derSig_of_parts (p := p) (by omega) hseq (by omega) htagR rfl htagS
      rfl
    rw [htype] at hsig
    generalize (p.drop 4).take (p.getD 3 0).val = R at *
    generalize (p.drop (6 + (p.getD 3 0).val)).take (p.getD (5 + (p.getD 3 0).val) 0).val = S at *
    rw [← hR] at hsignS hshortS hlenR
    rw [← hS] at hlenS
    obtain ⟨hRlt, -, hr, hs⟩ := hrest
    have hpR := (positive_iff (v := R) htwo hlenR).mpr
    have hpS := (positive_iff (v := S) hone hlenS).mpr
    rw [← derSig_getD_R (S := S) (h := 0x01) (by omega), ← hsig,
      ← List.getD_append R [0x02] 0 0 (by omega), ← derSig_getD_R (S := S) (h := 0x01) (by omega),
      ← hsig] at hpR
    rw [← derSig_getD_S (R := R) 1, ← hsig, ← List.getD_append S [0x01] 0 0 (by omega),
      ← derSig_getD_S (R := R) 0, ← hsig] at hpS
    obtain ⟨hminR, hposR⟩ := hpR ⟨hsignR, hshortR⟩
    obtain ⟨hminS, hposS⟩ := hpS ⟨hsignS, hshortS⟩
    exact ⟨R, S, hsig, ⟨hminR, hposR, hRlt⟩, ⟨hminS, hposS, hlow⟩, hr, hs⟩
  · rintro ⟨R, S, rfl, ⟨hR, hR0, hRlt⟩, ⟨hS, hS0, hlow⟩, hr, hs⟩
    have hR33 := hR.length_le hRlt
    have hS33 := hS.length_le (by omega)
    have hRne := hR.nonempty
    have hSne := hS.nonempty
    have hf := framed_derSig (R := R) (S := S) (h := 0x01) (by omega)
    have hlen := hf.length
    have hbody := hf.body
    obtain ⟨hsignR, hshortR⟩ := (positive_iff htwo (by omega)).mp ⟨hR, hR0⟩
    obtain ⟨hsignS, hshortS⟩ := (positive_iff hone (by omega)).mp ⟨hS, hS0⟩
    have hR4 : (derSig R S 0x01).getD 4 0 = R.getD 0 0 :=
      (derSig_getD_R (i := 0) (by omega)).trans (List.getD_append _ _ _ _ hRne)
    have hR5 : (derSig R S 0x01).getD 5 0 = (R ++ [0x02]).getD 1 0 :=
      derSig_getD_R (i := 1) (by omega)
    have hS6 : (derSig R S 0x01).getD (6 + R.length) 0 = S.getD 0 0 :=
      (derSig_getD_S 0).trans (List.getD_append _ _ _ _ hSne)
    have hS7 : (derSig R S 0x01).getD (6 + R.length + 1) 0 = (S ++ [0x01]).getD 1 0 :=
      derSig_getD_S 1
    rw [hf.lenR, show 4 + R.length + 1 = 5 + R.length by omega,
      show 4 + R.length + 2 = 6 + R.length by omega, hf.lenS, hR4, hR5, hS6, hS7,
      drop_take_slice, drop_take_slice, hf.partR, hf.partS]
    refine ⟨by omega, not_not.mpr hf.seq, by omega, not_not.mpr hf.tagR, by omega, by omega,
      not_not.mpr hsignR, hshortR, not_not.mpr hf.tagS, by omega, by omega, not_not.mpr hsignS,
      hshortS, not_not.mpr hf.hash, not_lt.mpr hlow, ?_⟩
    exact (hints R S).mpr ⟨hRlt, by omega, hr, hs⟩

/-! ### When the integers are kept -/

/-- The first integer of the body. -/
def bodyR (p : Bytes) : ℕ := beVal ((p.drop 4).take (p.getD 3 0).val)

/-- The second integer of the body. -/
def bodyS (p : Bytes) : ℕ :=
  let sOff := 6 + (p.getD 3 0).val
  beVal ((p.drop sOff).take (p.getD (sOff - 1) 0).val)

/-- `der_parse` accepts a push as `parseDERSig` does, with the integers of its body. -/
structure Kept (p : Bytes) : Prop where
  accept : (derParse p).isSome ↔ ∃ r s, parseDERSig p = some (r, s, 0x01)
  values : ∀ r s, derParse p = some (r, s) →
    beVal r.val = bodyR p ∧ beVal s.val = bodyS p ∧ parseDERSig p = some (r, s, 0x01)

/-- A strict encoding of two integers of up to 33 bytes, one of them of more than 256 bits. -/
def Oversized (p : Bytes) : Prop :=
  ∃ R S, p = derSig R S 0x01 ∧ (Minimal R ∧ R.length ≤ 33) ∧ (Minimal S ∧ S.length ≤ 33) ∧
    beVal S % 2 ^ 256 ≤ orderN / 2 ∧ (2 ^ 256 ≤ beVal R ∨ 2 ^ 256 ≤ beVal S)

/-- A strict encoding of two integers in range, one of them zero. -/
def HasZero (p : Bytes) : Prop :=
  ∃ R S, p = derSig R S 0x01 ∧ (Minimal R ∧ beVal R < 2 ^ 256) ∧
    (Minimal S ∧ beVal S ≤ orderN / 2) ∧ (beVal R = 0 ∨ beVal S = 0)

/-- `parseDERSig` with the caller's check of the hash type. -/
def goSig (p : Bytes) : Option (Fixed 32 × Fixed 32) :=
  match parseDERSig p with
  | some (r, s, h) => if h = 0x01 then some (r, s) else none
  | none => none

theorem goSig_iff {p : Bytes} {r s : Fixed 32} :
    goSig p = some (r, s) ↔ parseDERSig p = some (r, s, 0x01) := by
  unfold goSig
  match parseDERSig p with
  | none => simp
  | some (r', s', h) =>
    by_cases hh : h = 0x01
    · simp [hh]
    · simp [hh]

theorem body_derSig {R S : Bytes} (hlen : R.length + S.length + 4 < 256) :
    bodyR (derSig R S 0x01) = beVal R ∧ bodyS (derSig R S 0x01) = beVal S := by
  have hf := framed_derSig (h := 0x01) hlen
  have hoff : 6 + R.length - 1 = 5 + R.length := by omega
  unfold bodyR bodyS
  constructor
  · rw [hf.lenR, hf.partR]
  · simp only [hf.lenR, hoff, hf.lenS, hf.partS]

/-- A push that is not oversized is accepted by both parsers or by none. -/
theorem derParse_eq_go {p : Bytes} (h : ¬ Oversized p) (r s : Fixed 32) :
    derParse p = some (r, s) ↔ parseDERSig p = some (r, s, 0x01) := by
  have hhalf : orderN / 2 < 2 ^ 256 := by decide
  rw [derParse_iff, parseDERSig_iff]
  constructor
  · rintro ⟨R, S, hp, hR, hS, hlow, hr, hs⟩
    have hsmall : beVal R < 2 ^ 256 ∧ beVal S < 2 ^ 256 := by
      by_contra hbig
      exact h ⟨R, S, hp, hR, hS, hlow, by omega⟩
    rw [Nat.mod_eq_of_lt hsmall.2] at hlow
    exact ⟨R, S, hp, ⟨hR.1, hsmall.1⟩, ⟨hS.1, hlow⟩, hr, hs⟩
  · rintro ⟨R, S, hp, ⟨hR, hRlt⟩, ⟨hS, hlow⟩, hr, hs⟩
    refine ⟨R, S, hp, ⟨hR, hR.length_le hRlt⟩, ⟨hS, hS.length_le (by omega)⟩, ?_, hr, hs⟩
    rw [Nat.mod_eq_of_lt (by omega)]
    exact hlow

theorem kept_iff (p : Bytes) : Kept p ↔ ¬ Oversized p := by
  constructor
  · rintro hk ⟨R, S, hp, hR, hS, hlow, hbig⟩
    have hacc : derParse p = some (rightAlign R, rightAlign S) :=
      derParse_iff.mpr ⟨R, S, hp, hR, hS, hlow, rfl, rfl⟩
    obtain ⟨hr, hs, -⟩ := hk.values _ _ hacc
    obtain ⟨hbR, hbS⟩ := body_derSig (R := R) (S := S) (by omega)
    rw [hp, hbR, beVal_rightAlign] at hr
    rw [hp, hbS, beVal_rightAlign] at hs
    have hmodR := Nat.mod_lt (beVal R) (show 0 < 2 ^ 256 by norm_num)
    have hmodS := Nat.mod_lt (beVal S) (show 0 < 2 ^ 256 by norm_num)
    omega
  · intro h
    refine ⟨?_, ?_⟩
    · rw [Option.isSome_iff_exists]
      constructor
      · rintro ⟨⟨r, s⟩, hv⟩
        exact ⟨r, s, (derParse_eq_go h r s).mp hv⟩
      · rintro ⟨r, s, hv⟩
        exact ⟨(r, s), (derParse_eq_go h r s).mpr hv⟩
    · intro r s hv
      have hgo := (derParse_eq_go h r s).mp hv
      obtain ⟨R, S, hp, ⟨hR, hRlt⟩, ⟨hS, hlow⟩, hr, hs⟩ := parseDERSig_iff.mp hgo
      have hhalf : orderN / 2 < 2 ^ 256 := by decide
      have hR33 := hR.length_le hRlt
      have hS33 := hS.length_le (by omega)
      obtain ⟨hbR, hbS⟩ := body_derSig (R := R) (S := S) (by omega)
      rw [hp, hbR, hbS, ← hp, hr, hs, beVal_rightAlign, beVal_rightAlign, Nat.mod_eq_of_lt hRlt,
        Nat.mod_eq_of_lt (by omega), ← hr, ← hs]
      exact ⟨rfl, rfl, hgo⟩

/-- Go tells a push from the integers. -/
theorem parseDERSig_inj {p q : Bytes} {v : Fixed 32 × Fixed 32 × Byte}
    (hp : parseDERSig p = some v) (hq : parseDERSig q = some v) : p = q := by
  obtain ⟨R, S, rfl, ⟨hR, hRlt⟩, ⟨hS, hSlow⟩, hr, hs⟩ := parseDERSig_iff.mp hp
  obtain ⟨R', S', rfl, ⟨hR', hRlt'⟩, ⟨hS', hSlow'⟩, hr', hs'⟩ := parseDERSig_iff.mp hq
  have hhalf : orderN / 2 < 2 ^ 256 := by decide
  have hvalR := congrArg (fun b : Fixed 32 => beVal b.val) (hr.symm.trans hr')
  have hvalS := congrArg (fun b : Fixed 32 => beVal b.val) (hs.symm.trans hs')
  simp only [beVal_rightAlign] at hvalR hvalS
  rw [Nat.mod_eq_of_lt hRlt, Nat.mod_eq_of_lt hRlt'] at hvalR
  rw [Nat.mod_eq_of_lt (by omega), Nat.mod_eq_of_lt (by omega)] at hvalS
  rw [hR.inj hR' hvalR, hS.inj hS' hvalS]

/-- The TypeScript parser differs from Go on a zero integer only. -/
theorem parseSig_eq_go (p : Bytes) : parseSig p = goSig p ↔ ¬ HasZero p := by
  constructor
  · rintro heq ⟨R, S, hp, hR, hS, hzero⟩
    have hgo : goSig p = some (rightAlign R, rightAlign S) :=
      goSig_iff.mpr (parseDERSig_iff.mpr ⟨R, S, hp, hR, hS, rfl, rfl⟩)
    rw [← heq, parseSig_iff] at hgo
    obtain ⟨R', S', hp', ⟨hR', hR0, hRlt'⟩, ⟨hS', hS0, hSlow'⟩, -, -⟩ := hgo
    have hhalf : orderN / 2 < 2 ^ 256 := by decide
    have h1 := hR.1.length_le hR.2
    have h2 := hS.1.length_le (by omega)
    have h3 := hR'.length_le hRlt'
    have h4 := hS'.length_le (by omega)
    obtain ⟨rfl, rfl, -⟩ := derSig_inj (by omega) (by omega) (hp.symm.trans hp')
    omega
  · intro h
    have hsome : ∀ v, parseSig p = some v ↔ goSig p = some v := by
      rintro ⟨r, s⟩
      rw [goSig_iff, parseSig_iff, parseDERSig_iff]
      constructor
      · rintro ⟨R, S, hp, ⟨hR, -, hRlt⟩, ⟨hS, -, hlow⟩, hr, hs⟩
        exact ⟨R, S, hp, ⟨hR, hRlt⟩, ⟨hS, hlow⟩, hr, hs⟩
      · rintro ⟨R, S, hp, ⟨hR, hRlt⟩, ⟨hS, hlow⟩, hr, hs⟩
        have hpos : 0 < beVal R ∧ 0 < beVal S := by
          by_contra hzero
          exact h ⟨R, S, hp, ⟨hR, hRlt⟩, ⟨hS, hlow⟩, by omega⟩
        exact ⟨R, S, hp, ⟨hR, hpos.1, hRlt⟩, ⟨hS, hpos.2, hlow⟩, hr, hs⟩
    exact Option.ext hsome

/-- Two pushes are read as they are signed, and told apart, exactly when neither is oversized; the
TypeScript parser agrees with Go exactly where no integer is zero. -/
theorem der_parse_integers (p q : Bytes) :
    ((Kept p ∧ Kept q ∧ ∀ v, derParse p = some v → derParse q = some v → p = q) ↔
      ¬ Oversized p ∧ ¬ Oversized q) ∧
    (parseSig p = goSig p ↔ ¬ HasZero p) := by
  refine ⟨?_, parseSig_eq_go p⟩
  rw [kept_iff, kept_iff]
  constructor
  · rintro ⟨hp, hq, -⟩
    exact ⟨hp, hq⟩
  · rintro ⟨hp, hq⟩
    refine ⟨hp, hq, ?_⟩
    rintro ⟨r, s⟩ hpv hqv
    exact parseDERSig_inj ((derParse_eq_go hp r s).mp hpv) ((derParse_eq_go hq r s).mp hqv)

/-- A push whose first integer is 2^256 + 1. -/
def oversizedPush : Bytes := derSig (1 :: (List.replicate 31 0 ++ [1])) [1] 0x01

theorem der_parse_truncates :
    derParse oversizedPush = some (rightAlign [1], rightAlign [1]) ∧
    parseDERSig oversizedPush = none ∧ bodyR oversizedPush = 2 ^ 256 + 1 ∧
    derParse (derSig [1] [1] 0x01) = derParse oversizedPush ∧
    oversizedPush ≠ derSig [1] [1] 0x01 ∧
    ¬ (∀ p, (derParse p).isSome ↔ ∃ r s, parseDERSig p = some (r, s, 0x01)) := by
  have hacc : derParse oversizedPush = some (rightAlign [1], rightAlign [1]) := by decide +kernel
  have hgo : parseDERSig oversizedPush = none := by decide +kernel
  refine ⟨hacc, hgo, by decide +kernel, by decide +kernel, by decide +kernel, fun hall => ?_⟩
  obtain ⟨r, s, hsome⟩ := (hall oversizedPush).mp (by rw [hacc]; rfl)
  rw [hgo] at hsome
  exact absurd hsome (by simp)

end NamespaceIndexer.Daemon
