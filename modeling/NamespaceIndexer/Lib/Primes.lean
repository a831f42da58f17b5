import Mathlib.NumberTheory.LucasPrimality
import NamespaceIndexer.Lib.Ladder

/-!
# Large primes by Lucas's test

The test asks for a factorisation of `p - 1` and an element whose order it shows to be `p - 1`.
The kernel evaluates it: an exponentiation is a few hundred multiplications.
-/

namespace NamespaceIndexer.Lib.Primes

open Ladder

/-- Lucas's test of `p` with the element `a` and the prime factors `fs` of `p - 1`, for exponents
of `k` bits. -/
def lucas (p a k : ℕ) (fs : List ℕ) : Bool :=
  1 < p && p ≤ 2 ^ k && fs.prod == p - 1 && powMod p a k (p - 1) == 1 &&
    fs.all fun q => powMod p a k ((p - 1) / q) != 1

theorem cast_pow_eq_one_iff {p : ℕ} (hp : 1 < p) (a n : ℕ) :
    (a : ZMod p) ^ n = 1 ↔ a ^ n % p = 1 := by
  rw [← Nat.cast_pow, ← Nat.cast_one, ZMod.natCast_eq_natCast_iff, Nat.ModEq, Nat.mod_eq_of_lt hp]

theorem prime_of_lucas {p : ℕ} (a k : ℕ) (fs : List ℕ) (h : lucas p a k fs = true)
    (hfs : ∀ q ∈ fs, q.Prime) : p.Prime := by
  unfold lucas at h
  simp only [Bool.and_eq_true, decide_eq_true_eq, beq_iff_eq, List.all_eq_true, bne_iff_ne] at h
  obtain ⟨⟨⟨⟨hp, hk⟩, hprod⟩, hone⟩, hne⟩ := h
  have hbits : ∀ n ≤ p - 1, n < 2 ^ k := fun n hn => by omega
  refine lucas_primality p (a : ZMod p) ?_ fun q hq hdvd => ?_
  · rw [cast_pow_eq_one_iff hp, ← powMod_eq p a (hbits _ le_rfl)]
    exact hone
  · rw [← hprod] at hdvd
    obtain ⟨f, hf, hqf⟩ := (Prime.dvd_prod_iff hq.prime).mp hdvd
    rw [(Nat.prime_dvd_prime_iff_eq hq (hfs f hf)).mp hqf, Ne, cast_pow_eq_one_iff hp,
      ← powMod_eq p a (hbits _ (Nat.div_le_self _ _))]
    exact hne f hf

/-- What Lucas's test needs to know of a prime. -/
structure Certificate where
  p : ℕ
  a : ℕ
  bits : ℕ
  factors : List ℕ

/-- Each certificate passes the test, and its factors are among `smalls` or certified by what
follows it in the list. -/
def certified (smalls : List ℕ) : List Certificate → Bool
  | [] => true
  | c :: cs =>
    lucas c.p c.a c.bits c.factors &&
      c.factors.all (fun q => smalls.contains q || cs.any fun d => d.p == q) && certified smalls cs

theorem prime_of_certified {smalls : List ℕ} (hs : ∀ q ∈ smalls, q.Prime) {cs : List Certificate}
    (h : certified smalls cs = true) : ∀ c ∈ cs, c.p.Prime := by
  induction cs with
  | nil => simp
  | cons c cs ih =>
    simp only [certified, Bool.and_eq_true, List.all_eq_true, Bool.or_eq_true,
      List.contains_iff_mem, List.any_eq_true, beq_iff_eq] at h
    obtain ⟨⟨htest, hfactors⟩, hrest⟩ := h
    have hprime : c.p.Prime := by
      refine prime_of_lucas c.a c.bits c.factors htest fun q hq => ?_
      obtain hsmall | ⟨d, hd, rfl⟩ := hfactors q hq
      · exact hs q hsmall
      · exact ih hrest d hd
    simpa using ⟨hprime, ih hrest⟩

end NamespaceIndexer.Lib.Primes
