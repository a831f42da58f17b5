import NamespaceIndexer.Lib.Primes

/-!
# The field size and the group order are prime
-/

namespace NamespaceIndexer.Curve

open Lib

/-- The field size, `2^256 - 2^32 - 977`. -/
def fieldP : ℕ := 0xFFFFFFFFFFFFFFFFFFFFFFFFFFFFFFFFFFFFFFFFFFFFFFFFFFFFFFFEFFFFFC2F

/-- The group order. -/
def orderN : ℕ := 0xFFFFFFFFFFFFFFFFFFFFFFFFFFFFFFFEBAAEDCE6AF48A03BBFD25E8CD0364141

def fieldSmalls : List ℕ :=
  [2, 3, 5, 7, 11, 29, 31, 1627, 2621, 2657, 4423, 5323, 7723, 13441, 24809, 41201, 96557,
   7240687, 13331831, 107590001]

/-- The field size and the large primes its test goes down to. -/
def fieldChain : List Primes.Certificate :=
  [⟨fieldP, 3, 256,
    [2, 3, 7, 13441, 205115282021455665897114700593932402728804164701536103180137503955397371]⟩,
   ⟨205115282021455665897114700593932402728804164701536103180137503955397371, 10, 237,
    [2, 3, 5, 29, 29, 31, 7723, 132896956044521568488119, 255515944373312847190720520512484175977]⟩,
   ⟨255515944373312847190720520512484175977, 3, 128,
    [2, 2, 2, 7, 7, 11, 1627, 2657, 4423, 41201, 96557, 7240687, 107590001]⟩,
   ⟨132896956044521568488119, 6, 77,
    [2, 3, 22149492674086928081353]⟩,
   ⟨22149492674086928081353, 5, 75,
    [2, 2, 2, 3, 5323, 173378833005251801]⟩,
   ⟨173378833005251801, 6, 58,
    [2, 2, 2, 5, 5, 2621, 24809, 13331831]⟩]

theorem fieldP_prime : Nat.Prime fieldP := by
  have hsmalls : ∀ q ∈ fieldSmalls, q.Prime := by
    simp only [fieldSmalls, List.forall_mem_cons]
    norm_num
  have hchain : Primes.certified fieldSmalls fieldChain = true := by decide +kernel
  exact Primes.prime_of_certified hsmalls hchain _ List.mem_cons_self

def orderSmalls : List ℕ :=
  [2, 3, 11, 17, 41, 59, 109, 149, 293, 461, 631, 4051, 16699, 28181, 85831, 120233, 305873,
   1627771, 4681609, 44706919]

/-- The group order and the large primes its test goes down to. -/
def orderChain : List Primes.Certificate :=
  [⟨orderN, 7, 256,
    [2, 2, 2, 2, 2, 2, 3, 149, 631, 107361793816595537, 174723607534414371449,
     341948486974166000522343609283189]⟩,
   ⟨341948486974166000522343609283189, 2, 109,
    [2, 2, 3, 3, 3, 109, 29047611873442575647497758179]⟩,
   ⟨29047611873442575647497758179, 2, 95,
    [2, 293, 305873, 545358713, 297159362677]⟩,
   ⟨297159362677, 2, 39,
    [2, 2, 3, 3, 11, 461, 1627771]⟩,
   ⟨545358713, 5, 30,
    [2, 2, 2, 41, 59, 28181]⟩,
   ⟨174723607534414371449, 3, 68,
    [2, 2, 2, 17, 59, 4051, 120233, 44706919]⟩,
   ⟨107361793816595537, 3, 57,
    [2, 2, 2, 2, 16699, 85831, 4681609]⟩]

theorem orderN_prime : Nat.Prime orderN := by
  have hsmalls : ∀ q ∈ orderSmalls, q.Prime := by
    simp only [orderSmalls, List.forall_mem_cons]
    norm_num
  have hchain : Primes.certified orderSmalls orderChain = true := by decide +kernel
  exact Primes.prime_of_certified hsmalls hchain _ List.mem_cons_self

end NamespaceIndexer.Curve
