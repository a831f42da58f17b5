import NamespaceIndexer.Curve.Scalar
import NamespaceIndexer.Lib.Loop

/-!
# The arithmetic of `secp256k1.c` is exact

Every loop ends where the definitions say, no carry is lost on the way, and the results are the
residues.
-/

namespace NamespaceIndexer.Curve

open Fold Lib Lib.Loop

/-! ### Field -/

/-- The condition of the loop of `fe_cond_sub_p`. -/
def GeP (a : Fe) : Prop := limbCmp a feP ≠ .lt

/-- Its body. -/
def subP (a : Fe) : Fe := (limbSub a feP).1

/-- The condition of the loop of `fe_reduce`. -/
def HighLeft (s : Limbs4 × ℕ) : Prop := s.2 ≠ 0

/-- Its body, on the low limbs and the fifth one. -/
def foldTurn (s : Limbs4 × ℕ) : Limbs4 × ℕ := limbAdd s.1 (doubleWord (s.2 * feC.toNat))

/-- What `fe_reduce` starts that loop with. -/
def highFolded (t : List UInt64) (h : t.length = 8) : Limbs4 × ℕ :=
  let r := Limbs.mulAdd feC (t.drop 4) (t.take 4) 0
  (⟨r.1, mulAddHigh_length h⟩, r.2)

theorem subP_ends (a : Fe) : Ends GeP subP a (feCondSubP a) := by
  have hres := reduced_feCondSubP a
  have hdone : ¬GeP (feCondSubP a) := by
    unfold GeP
    rw [not_not, limbCmp_lt_iff, limbVal_feP]
    exact hres
  by_cases h : limbCmp a feP = .lt
  · have hsame : feCondSubP a = a := if_pos h
    rw [hsame] at hdone ⊢
    exact Ends.done hdone
  · have hsub : feCondSubP a = subP a := if_neg h
    rw [hsub] at hdone ⊢
    exact (Ends.done hdone).before h

theorem limbVal_foldTurn {s : Limbs4 × ℕ} (h : s.2 < 2 ^ 64) :
    limbVal (foldTurn s).1 + 2 ^ 256 * (foldTurn s).2 = limbVal s.1 + s.2 * feC.toNat := by
  have hC : feC.toNat = 0x1000003D1 := rfl
  unfold foldTurn
  rw [limbAdd_val, limbVal_doubleWord (by rw [hC]; omega)]

/-- The fifth limb stays a limb. -/
theorem foldTurn_fits {s : Limbs4 × ℕ} (h : s.2 < 2 ^ 64) : (foldTurn s).2 ≤ 1 := by
  have hval := limbVal_foldTurn h
  have hlow := limbVal_lt s.1
  have hC : feC.toNat = 0x1000003D1 := rfl
  rw [hC] at hval
  omega

theorem foldHigh_ends (low : Limbs4) {high : ℕ} (h : high < 2 ^ 64) :
    Ends HighLeft foldTurn (low, high) (foldHigh 2 low high, 0) := by
  by_cases hz : high = 0
  · have hsame : foldHigh 2 low high = low := if_pos hz
    rw [hsame, hz]
    exact Ends.done (fun hc => hc rfl)
  · have hone : foldHigh 2 low high = foldHigh 1 (foldTurn (low, high)).1 (foldTurn (low, high)).2 :=
      if_neg hz
    rw [hone]
    refine Ends.before hz ?_
    have hfits := foldTurn_fits (s := (low, high)) h
    have hval := limbVal_foldTurn (s := (low, high)) h
    have hlow := limbVal_lt low
    have hC : feC.toNat = 0x1000003D1 := rfl
    generalize foldTurn (low, high) = s at hfits hval
    obtain ⟨low', high'⟩ := s
    dsimp only at hfits hval ⊢
    by_cases hz' : high' = 0
    · have hsame : foldHigh 1 low' high' = low' := if_pos hz'
      rw [hsame, hz']
      exact Ends.done (fun hc => hc rfl)
    · -- a second turn has little to fold, and its sum does not carry
      have htwo : foldHigh 1 low' high' = (foldTurn (low', high')).1 := if_neg hz'
      have hval' := limbVal_foldTurn (s := (low', high')) (by dsimp only; omega)
      have hlast : (foldTurn (low', high')).2 = 0 := by
        rw [hC] at hval hval'
        dsimp only at hval'
        omega
      have hend : foldTurn (low', high') = ((foldTurn (low', high')).1, 0) :=
        Prod.ext rfl hlast
      rw [htwo]
      refine Ends.before hz' ?_
      rw [hend]
      exact Ends.done fun hc => hc rfl

/-- The run of `fe_reduce`: the high limbs are multiplied in, the fifth limb folded back until it
is zero, and the field size taken away. Every carry fits its limb. -/
structure ReducesExactly (t : List UInt64) (h : t.length = 8) : Prop where
  row : limbVal (highFolded t h).1 + 2 ^ 256 * (highFolded t h).2
    = Limbs.val (t.take 4) + feC.toNat * Limbs.val (t.drop 4)
  fits : ∀ s, Visits HighLeft foldTurn (highFolded t h) s → s.2 < 2 ^ 64
  exact : ∀ s, Visits HighLeft foldTurn (highFolded t h) s →
    limbVal (foldTurn s).1 + 2 ^ 256 * (foldTurn s).2 = limbVal s.1 + s.2 * feC.toNat
  ends : ∃ low, Ends HighLeft foldTurn (highFolded t h) (low, 0) ∧
    Ends GeP subP low (feReduce t h)

theorem reducesExactly (t : List UInt64) (h : t.length = 8) : ReducesExactly t h := by
  have hrows : (List.drop 4 t).length = (List.take 4 t).length := by
    rw [List.length_drop, List.length_take, h]
    rfl
  have hrow := Limbs.mulAdd_val feC hrows 0
  have hcarry : (highFolded t h).2 < 2 ^ 64 :=
    Limbs.mulAdd_carry_lt feC hrows (c := 0) (by norm_num)
  rw [List.length_drop, h, Nat.add_zero] at hrow
  have hfits : ∀ s, Visits HighLeft foldTurn (highFolded t h) s → s.2 < 2 ^ 64 :=
    fun s hv => Visits.keeps (I := fun s : Limbs4 × ℕ => s.2 < 2 ^ 64)
      (fun (s : Limbs4 × ℕ) hs _ => lt_of_le_of_lt (foldTurn_fits hs) (by norm_num)) hcarry hv
  exact {
    row := by
      rw [add_comm (Limbs.val _)]
      exact hrow
    fits := hfits
    exact := fun s hv => limbVal_foldTurn (hfits s hv)
    ends := ⟨_, foldHigh_ends _ hcarry, subP_ends _⟩ }

/-- Equal residues are congruent values. -/
theorem modEq_of_toF {a : Fe} {n : ℕ} (h : toF a = (n : ZMod fieldP)) : limbVal a ≡ n [MOD fieldP] :=
  (ZMod.natCast_eq_natCast_iff _ _ _).mp h

/-- Sums, differences and products are the residues; `fe_reduce` ends on any eight limbs with
theirs; powers are exact, so inverses invert and roots of squares are found. -/
theorem field_exact :
    (∀ a b : Fe, Reduced a → Reduced b →
      (Reduced (feAdd a b) ∧ limbVal (feAdd a b) ≡ limbVal a + limbVal b [MOD fieldP]) ∧
      (Reduced (feSub a b) ∧ limbVal (feSub a b) + limbVal b ≡ limbVal a [MOD fieldP]) ∧
      (Reduced (feMul a b) ∧ limbVal (feMul a b) ≡ limbVal a * limbVal b [MOD fieldP])) ∧
    (∀ (t : List UInt64) (h : t.length = 8),
      ReducesExactly t h ∧ limbVal (feReduce t h) = Limbs.val t % fieldP) ∧
    (∀ (a : Fe) (e : Fixed 32), Reduced a →
      limbVal (fePow a e) = limbVal a ^ beVal e.val % fieldP) ∧
    (∀ a : Fe, Reduced a → limbVal a ≠ 0 → feMul (feInv a) a = feSetU64 1) ∧
    (∀ a : Fe, Reduced a →
      (feMul (feSqrt a) (feSqrt a) = a ↔ ∃ y : Fe, Reduced y ∧ feMul y y = a)) := by
  refine ⟨fun a b ha hb => ⟨⟨reduced_feAdd a b, ?_⟩, ⟨reduced_feSub ha hb, ?_⟩,
    ⟨reduced_feMul a b, ?_⟩⟩, fun t h => ⟨reducesExactly t h, ?_⟩, fun a e ha => ?_,
    fun a ha h0 => ?_, fun a ha => ?_⟩
  · refine modEq_of_toF ?_
    rw [toF_feAdd ha hb, Nat.cast_add]
    rfl
  · refine (ZMod.natCast_eq_natCast_iff _ _ _).mp ?_
    have hsub : toF (feSub a b) + toF b = toF a := by
      rw [toF_feSub ha hb, sub_add_cancel]
    rw [Nat.cast_add]
    exact hsub
  · refine modEq_of_toF ?_
    rw [toF_feMul, Nat.cast_mul]
    rfl
  · have hres : Reduced (feReduce t h) := reduced_feCondSubP _
    have hmod := modEq_of_toF (toF_feReduce t h)
    rw [← hmod, Nat.mod_eq_of_lt hres]
  · rw [(ha.isF.pow e).limbVal_eq, toF, ← Nat.cast_pow, ZMod.val_natCast]
  · have hne : toF a ≠ 0 := by
      intro hz
      have hval := (show IsF a 0 from ⟨ha, hz⟩).limbVal_eq
      rw [ZMod.val_zero] at hval
      exact h0 hval
    refine (ha.isF.inv.mul ha.isF).unique ?_
    rw [inv_mul_cancel₀ hne]
    simpa using isF_setU64 1
  · obtain ⟨r, hr, hiff⟩ := ha.isF.sqrt
    have hsq := hr.mul hr
    have hroot : feMul (feSqrt a) (feSqrt a) = a ↔ r * r = toF a := by
      constructor
      · intro h
        rw [← hsq.2, h]
      · intro h
        exact hsq.unique ⟨ha, h.symm⟩
    rw [hroot, hiff]
    constructor
    · intro hsquare
      exact ⟨feSqrt a, hr.1, hroot.mpr (hiff.mpr hsquare)⟩
    · rintro ⟨y, hy, rfl⟩
      exact ⟨toF y, toF_feMul y y⟩

/-! ### Scalars -/

/-- The condition of the inner loops of `sc_inv`. -/
def EvenHead (s : Limbs4 × Limbs4) : Prop := limbIsOdd s.1 = false

/-- Their body. -/
def halveTurn (s : Limbs4 × Limbs4) : Limbs4 × Limbs4 := (limbShr s.1 0, halveMod s.2 scN)

/-- The condition of the outer loop. -/
def Unfinished (s : InvState) : Prop := limbCmp s.u oneLimbs ≠ .eq ∧ limbCmp s.v oneLimbs ≠ .eq

theorem unfinished_iff (s : InvState) : Unfinished s ↔ ¬InvDone s := by
  unfold Unfinished InvDone
  rw [ne_eq, ne_eq, limbCmp_eq_iff, limbCmp_eq_iff, limbVal_one, not_or]

theorem halveEven_visits (fuel : ℕ) (u x : Limbs4) :
    Visits EvenHead halveTurn (u, x) (halveEven fuel u x) := by
  induction fuel generalizing u x with
  | zero => exact .start
  | succ fuel ih =>
    unfold halveEven
    by_cases h : limbIsOdd u = true
    · rw [if_pos h]
      exact .start
    · rw [if_neg h]
      exact (ih _ _).before (Bool.eq_false_of_not_eq_true h)

theorem scInvLoop_visits (fuel : ℕ) (s : InvState) :
    Visits Unfinished scInvBody s (scInvLoop fuel s) := by
  induction fuel generalizing s with
  | zero => exact .start
  | succ fuel ih =>
    by_cases hd : InvDone s
    · rw [(scInvLoop_succ fuel s).1 hd]
      exact .start
    · rw [(scInvLoop_succ fuel s).2 hd]
      exact (ih _).before ((unfinished_iff s).mpr hd)

/-- An inner loop ends, and its cofactor stays below the order. -/
structure HalvesExactly (u x : Limbs4) : Prop where
  ends : Ends EvenHead halveTurn (u, x) (halveEven 256 u x)
  below : ∀ s, Visits EvenHead halveTurn (u, x) s → limbVal s.2 < orderN

theorem halvesExactly {u x : Limbs4} (hu : limbVal u ≠ 0) (hx : limbVal x < orderN)
    {c : ZMod orderN} (hc : c * limbVal x = limbVal u) : HalvesExactly u x where
  ends := by
    obtain ⟨hodd, -⟩ := halveEven_spec 256 (limbVal_lt u) hu hx hc
    refine ⟨halveEven_visits 256 u x, ?_⟩
    unfold EvenHead
    rw [limbIsOdd_eq, hodd]
    decide
  below _ hv := hv.keeps (I := fun s => limbVal s.2 < orderN)
    (fun _ hs _ => (limbVal_halveMod hs).1) hx

theorem invOk_of_visits {a : Limbs4} (h0 : limbVal a ≠ 0) (hlt : limbVal a < orderN)
    {s : InvState} (hv : Visits Unfinished scInvBody (invStart a) s) :
    InvOk (limbVal a : ZMod orderN) s :=
  hv.keeps (I := InvOk (limbVal a : ZMod orderN))
    (fun s hs hc => (scInvBody_ok hs ((unfinished_iff s).mp hc)).1) (invStart_ok h0 hlt)

/-- `sc_inv` ends with the inverse, its cofactors below the order at the head of every loop;
`sc_mul` multiplies. -/
theorem scalar_exact :
    (∀ a : Limbs4, limbVal a ≠ 0 → limbVal a < orderN →
      (∀ s, Visits Unfinished scInvBody (invStart a) s →
        limbVal s.x1 < orderN ∧ limbVal s.x2 < orderN ∧
          (Unfinished s → HalvesExactly s.u s.x1 ∧ HalvesExactly s.v s.x2)) ∧
      ∃ s x, Ends Unfinished scInvBody (invStart a) s ∧ scInv a = some x ∧
        x = (if limbCmp s.u oneLimbs = .eq then s.x1 else s.x2) ∧
        limbVal x ≠ 0 ∧ limbVal x < orderN ∧ limbVal a * limbVal x ≡ 1 [MOD orderN]) ∧
    ∀ a b : Limbs4, limbVal (scMul a b) = limbVal a * limbVal b % orderN := by
  refine ⟨fun a h0 hlt => ⟨fun s hv => ?_, ?_⟩, limbVal_scMul⟩
  · have hok := invOk_of_visits h0 hlt hv
    refine ⟨hok.x1, hok.x2, fun hrun => ?_⟩
    obtain ⟨hu, hv⟩ := hok.ne_zero ((unfinished_iff s).mp hrun)
    exact ⟨halvesExactly hu hok.x1 hok.rel1, halvesExactly hv hok.x2 hok.rel2⟩
  · obtain ⟨-, hdone⟩ := scInvLoop_start h0 hlt
    obtain ⟨x, hx, hxlt, hmul⟩ := scInv_spec h0 hlt
    have hends : Ends Unfinished scInvBody (invStart a) (scInvLoop 513 (invStart a)) :=
      ⟨scInvLoop_visits 513 _, fun hrun => (unfinished_iff _).mp hrun hdone⟩
    refine ⟨_, x, hends, hx, Option.some_inj.mp (hx.symm.trans (scInv_eq h0)), ?_, hxlt, ?_⟩
    · intro hzero
      rw [hzero, Nat.cast_zero, mul_zero] at hmul
      exact zero_ne_one hmul
    · refine (ZMod.natCast_eq_natCast_iff _ _ _).mp ?_
      rw [Nat.cast_mul, hmul, Nat.cast_one]

end NamespaceIndexer.Curve
