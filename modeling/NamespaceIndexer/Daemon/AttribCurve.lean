import NamespaceIndexer.Daemon.Der

/-!
# The canonical signature push (`attrib_curve.c`)

The bytes that the encoder builds of two integers are the ones that the strict parser takes.
-/

namespace NamespaceIndexer.Daemon.AttribCurve

open Fold Lib Curve

/-! ### The encoder -/

/-- The loop of `der_int`: `i`. -/
def leadingZeros (v : Fixed 32) : ℕ := ((v.val.take 31).takeWhile (· = 0)).length

/-- `der_int`. -/
def derInt (v : Fixed 32) : Bytes :=
  let i := leadingZeros v
  let len := 32 - i
  let pad := if v.val.getD i 0 &&& 0x80 ≠ 0 then 1 else 0
  0x02 :: Fin.ofNat 256 (len + pad) :: (List.replicate pad 0x00 ++ v.val.drop i)

/-- `der_sig`. -/
def derSig (r s : Fixed 32) : Bytes :=
  let body := derInt r ++ derInt s
  0x30 :: Fin.ofNat 256 body.length :: (body ++ [0x01])

/-! ### Its integers are minimal -/

/-- Zeros are skipped up to the last byte. -/
theorem stripped_spec (x : Byte) (v : Bytes) : ∃ y t,
    (x :: v).drop (((x :: v).take v.length).takeWhile (· = 0)).length = y :: t ∧
      beVal (y :: t) = beVal (x :: v) ∧ (t ≠ [] → y ≠ 0) := by
  induction v generalizing x with
  | nil => exact ⟨x, [], rfl, rfl, fun h => absurd rfl h⟩
  | cons z v ih =>
    by_cases hx : x = 0
    · obtain ⟨y, t, hdrop, hval, hhead⟩ := ih z
      refine ⟨y, t, ?_, ?_, hhead⟩
      · rw [← hdrop, hx]
        simp
      · rw [hval, hx, beVal_cons 0]
        simp
    · refine ⟨x, z :: v, ?_, rfl, fun _ => hx⟩
      simp [hx]

theorem derInt_eq (v : Fixed 32) : ∃ R, derInt v = 0x02 :: Fin.ofNat 256 R.length :: R ∧
    Minimal R ∧ beVal R = beVal v.val := by
  obtain ⟨x, rest, hv⟩ : ∃ x rest, v.val = x :: rest :=
    List.exists_cons_of_length_pos (by rw [v.property]; decide)
  have hrest : rest.length = 31 := by
    have hlen := v.property
    rw [hv] at hlen
    exact Nat.succ.inj hlen
  obtain ⟨y, t, hdrop, hval, hhead⟩ := stripped_spec x rest
  rw [hrest, ← hv] at hdrop
  rw [← hv] at hval
  change v.val.drop (leadingZeros v) = y :: t at hdrop
  have hlen : 32 - leadingZeros v = (y :: t).length := by
    rw [← hdrop, List.length_drop, v.property]
  have hfirst : v.val.getD (leadingZeros v) 0 = y := by
    have hget := congrArg (fun l : Bytes => l.getD 0 0) hdrop
    simpa using hget
  unfold derInt
  dsimp only
  rw [hfirst, hlen, hdrop]
  by_cases hsign : y &&& 0x80 = 0
  · refine ⟨y :: t, ?_, ⟨Nat.succ_pos _, (and_sign y).mp hsign, ?_⟩, hval⟩
    · rw [if_neg (not_not.mpr hsign)]
      rfl
    · intro hlong hzero
      have hne : t ≠ [] := by
        intro ht
        simp [ht] at hlong
      exact absurd hzero (hhead hne)
  · refine ⟨0 :: y :: t, ?_, ⟨Nat.succ_pos _, by simp, ?_⟩, ?_⟩
    · rw [if_pos hsign]
      rfl
    · intro _ _
      rw [and_sign] at hsign
      exact not_lt.mp hsign
    · rw [beVal_cons, hval]
      simp

theorem derSig_eq (r s : Fixed 32) : ∃ R S, derSig r s = Daemon.derSig R S 0x01 ∧
    (Minimal R ∧ beVal R = beVal r.val) ∧ (Minimal S ∧ beVal S = beVal s.val) := by
  obtain ⟨R, hr, hR⟩ := derInt_eq r
  obtain ⟨S, hs, hS⟩ := derInt_eq s
  refine ⟨R, S, ?_, hR, hS⟩
  have hlen : (derInt r ++ derInt s).length = R.length + S.length + 4 := by
    rw [hr, hs]
    simp only [List.length_append, List.length_cons]
    omega
  unfold derSig Daemon.derSig
  dsimp only
  rw [hlen, hr, hs]
  simp

/-! ### The round trip -/

theorem fixed_lt (v : Fixed 32) : beVal v.val < 2 ^ 256 := by
  have hlt := beVal_lt v.val
  rw [v.property] at hlt
  exact lt_of_lt_of_eq hlt (by norm_num)

theorem rightAlign_of_beVal {R : Bytes} {v : Fixed 32} (h : beVal R = beVal v.val) :
    rightAlign R = v := by
  apply beVal_fixed_inj
  rw [beVal_rightAlign, h, Nat.mod_eq_of_lt (fixed_lt v)]

theorem derParse_derSig {r s : Fixed 32} (hlow : beVal s.val ≤ orderN / 2) :
    derParse (derSig r s) = some (r, s) ∧ bodyR (derSig r s) = beVal r.val ∧
      bodyS (derSig r s) = beVal s.val := by
  obtain ⟨R, S, heq, ⟨hR, hRval⟩, ⟨hS, hSval⟩⟩ := derSig_eq r s
  have hR33 := hR.length_le (hRval ▸ fixed_lt r)
  have hS33 := hS.length_le (hSval ▸ fixed_lt s)
  obtain ⟨hbodyR, hbodyS⟩ := body_derSig (R := R) (S := S) (by omega)
  rw [heq, hbodyR, hbodyS]
  refine ⟨derParse_iff.mpr ⟨R, S, rfl, ⟨hR, hR33⟩, ⟨hS, hS33⟩, ?_, ?_, ?_⟩, hRval, hSval⟩
  · rw [hSval, Nat.mod_eq_of_lt (fixed_lt s)]
    exact hlow
  · exact (rightAlign_of_beVal hRval).symm
  · exact (rightAlign_of_beVal hSval).symm

theorem derSig_of_derParse {p : Bytes} {r s : Fixed 32} (h : derParse p = some (r, s))
    (hR : bodyR p < 2 ^ 256) (hS : bodyS p < 2 ^ 256) : derSig r s = p := by
  obtain ⟨R, S, rfl, ⟨hminR, hR33⟩, ⟨hminS, hS33⟩, -, rfl, rfl⟩ := derParse_iff.mp h
  obtain ⟨hbodyR, hbodyS⟩ := body_derSig (R := R) (S := S) (by omega)
  rw [hbodyR] at hR
  rw [hbodyS] at hS
  obtain ⟨R', S', heq, ⟨hminR', hR'⟩, ⟨hminS', hS'⟩⟩ := derSig_eq (rightAlign R) (rightAlign S)
  rw [beVal_rightAlign, Nat.mod_eq_of_lt hR] at hR'
  rw [beVal_rightAlign, Nat.mod_eq_of_lt hS] at hS'
  rw [heq, hminR'.inj hminR hR', hminS'.inj hminS hS']

/-- Low signatures are parsed as they were encoded, pushes of integers in range are encoded as they
were parsed, and a signature has one such push. -/
theorem der_sig_round_trip :
    (∀ r s : Fixed 32, beVal s.val ≤ orderN / 2 → derParse (derSig r s) = some (r, s)) ∧
    (∀ (p : Bytes) (r s : Fixed 32), derParse p = some (r, s) → bodyR p < 2 ^ 256 →
      bodyS p < 2 ^ 256 → derSig r s = p) ∧
    ∀ r s : Fixed 32, beVal s.val ≤ orderN / 2 →
      ∃! p, derParse p = some (r, s) ∧ bodyR p < 2 ^ 256 ∧ bodyS p < 2 ^ 256 := by
  refine ⟨?_, ?_, ?_⟩
  · intro r s hlow
    exact (derParse_derSig hlow).1
  · intro p r s h hR hS
    exact derSig_of_derParse h hR hS
  · intro r s hlow
    obtain ⟨hparse, hR, hS⟩ := derParse_derSig (r := r) hlow
    refine ⟨derSig r s, ⟨hparse, hR ▸ fixed_lt r, hS ▸ fixed_lt s⟩, ?_⟩
    intro p hp
    exact (derSig_of_derParse hp.1 hp.2.1 hp.2.2).symm

/-- An integer with the top bit set, and zero. -/
theorem der_sig_round_trip_sample :
    derParse (derSig ⟨List.replicate 32 0xFF, rfl⟩ (zeros 32))
      = some (⟨List.replicate 32 0xFF, rfl⟩, zeros 32) ∧
    derSig (rightAlign [1]) (rightAlign [1])
      = [0x30, 0x06, 0x02, 0x01, 0x01, 0x02, 0x01, 0x01, 0x01] := by
  obtain ⟨hparse, hbuild, -⟩ := der_sig_round_trip
  exact ⟨hparse _ _ (by decide +kernel), hbuild _ _ _ (by decide +kernel) (by decide +kernel)
    (by decide +kernel)⟩

end NamespaceIndexer.Daemon.AttribCurve
