import NamespaceIndexer.Lib.BlockHash
import NamespaceIndexer.Lib.Numeral

/-!
# SHA-256

The hash as the standard defines it: words of 32 bits, constants from the roots of the first primes,
a message schedule by recursion, and blocks of 64 bytes over the padded message.
-/

namespace NamespaceIndexer.Lib.Sha256

abbrev Word := BitVec 32

/-- The first 64 primes. -/
def primes : List ℕ :=
  [2, 3, 5, 7, 11, 13, 17, 19, 23, 29, 31, 37, 41, 43, 47, 53, 59, 61, 67, 71, 73, 79, 83, 89, 97,
    101, 103, 107, 109, 113, 127, 131, 137, 139, 149, 151, 157, 163, 167, 173, 179, 181, 191, 193,
    197, 199, 211, 223, 227, 229, 233, 239, 241, 251, 257, 263, 269, 271, 277, 281, 283, 293, 307, 311]

/-- The first 32 bits of the fractional part of the root of degree `d` of a prime. -/
def rootBits (d i : ℕ) : Word := BitVec.ofNat 32 (Nat.nthRoot d (primes.getD i 0 * 2 ^ (32 * d)))

/-- The constants of the rounds, from the cube roots. -/
def K (t : ℕ) : Word := rootBits 3 t

/-! ### Functions of words -/

def Ch (x y z : Word) : Word := (x &&& y) ^^^ (~~~x &&& z)

def Maj (x y z : Word) : Word := (x &&& y) ^^^ (x &&& z) ^^^ (y &&& z)

def bigSigma0 (x : Word) : Word := x.rotateRight 2 ^^^ x.rotateRight 13 ^^^ x.rotateRight 22

def bigSigma1 (x : Word) : Word := x.rotateRight 6 ^^^ x.rotateRight 11 ^^^ x.rotateRight 25

def smallSigma0 (x : Word) : Word := x.rotateRight 7 ^^^ x.rotateRight 18 ^^^ x >>> 3

def smallSigma1 (x : Word) : Word := x.rotateRight 17 ^^^ x.rotateRight 19 ^^^ x >>> 10

/-! ### Bytes -/

/-- The word of four bytes, the highest first. -/
def word (b : List (Fin 256)) : Word := BitVec.ofNat 32 (Numeral.val b)

/-- The last `n` digits of a number to the base 256, the highest first. -/
def bytes (n v : ℕ) : List (Fin 256) := (List.range n).reverse.map fun i => BlockHash.octet (v / 256 ^ i)

@[simp] theorem length_bytes (n v : ℕ) : (bytes n v).length = n := by simp [bytes]

/-! ### The hash -/

/-- Eight words: a hash value, and the working variables. -/
@[ext] structure Work where
  a : Word
  b : Word
  c : Word
  d : Word
  e : Word
  f : Word
  g : Word
  h : Word

/-- The message schedule. -/
def W (block : List (Fin 256)) (t : ℕ) : Word :=
  if t < 16 then word ((block.drop (4 * t)).take 4)
  else smallSigma1 (W block (t - 2)) + W block (t - 7) + smallSigma0 (W block (t - 15)) +
    W block (t - 16)

theorem W_lt (block : List (Fin 256)) {t : ℕ} (ht : t < 16) :
    W block t = word ((block.drop (4 * t)).take 4) := by
  rw [W, if_pos ht]

theorem W_ge (block : List (Fin 256)) {t : ℕ} (ht : 16 ≤ t) :
    W block t = smallSigma1 (W block (t - 2)) + W block (t - 7) + smallSigma0 (W block (t - 15)) +
      W block (t - 16) := by
  rw [W, if_neg (by omega)]

def round (k w : Word) (v : Work) : Work :=
  let t1 := v.h + bigSigma1 v.e + Ch v.e v.f v.g + k + w
  let t2 := bigSigma0 v.a + Maj v.a v.b v.c
  { a := t1 + t2, b := v.a, c := v.b, d := v.c, e := v.d + t1, f := v.e, g := v.f, h := v.g }

def Work.add (v w : Work) : Work :=
  ⟨v.a + w.a, v.b + w.b, v.c + w.c, v.d + w.d, v.e + w.e, v.f + w.f, v.g + w.g, v.h + w.h⟩

def compress (v : Work) (block : List (Fin 256)) : Work :=
  v.add ((List.range 64).foldl (fun v t => round (K t) (W block t) v) v)

/-- The initial hash value, from the square roots of the first eight primes. -/
def initial : Work :=
  ⟨rootBits 2 0, rootBits 2 1, rootBits 2 2, rootBits 2 3, rootBits 2 4, rootBits 2 5, rootBits 2 6,
    rootBits 2 7⟩

/-- The message with a one bit, zeros and its length in bits. -/
def padded (m : List (Fin 256)) : List (Fin 256) :=
  BlockHash.pad 64 (BlockHash.octet 0x80) (BlockHash.octet 0) (bytes 8 (8 * m.length)) m

def Work.words (v : Work) : List Word := [v.a, v.b, v.c, v.d, v.e, v.f, v.g, v.h]

def digest (v : Work) : List (Fin 256) := v.words.flatMap fun x => bytes 4 x.toNat

@[simp] theorem length_digest (v : Work) : (digest v).length = 32 := by
  simp [digest, Work.words]

def hash (m : List (Fin 256)) : List (Fin 256) :=
  digest (BlockHash.absorb compress 64 initial (padded m))

end NamespaceIndexer.Lib.Sha256
