import NamespaceIndexer.Lib.BlockHash

/-!
# Scrypt

The password hash as its standard defines it, over any pseudorandom function: Salsa20/8 by quarter
rounds, the block mix of `2 * r` blocks, the sequential memory-hard loop, and the key derivation with
one iteration around it. Blocks of 64 octets are 16 words, the lowest octet of a word first.
-/

namespace NamespaceIndexer.Lib.Scrypt

abbrev Octet := Fin 256
abbrev Word := BitVec 32
abbrev Block := Vector Word 16

/-! ### Salsa20/8 -/

instance neZero_places : NeZero 16 := ⟨by decide⟩

/-- The four places of a quarter round. -/
abbrev Quad := Fin 16 × Fin 16 × Fin 16 × Fin 16

/-- A vector with another value at one place. -/
def put {α : Type*} {n : ℕ} (x : Vector α n) (i : Fin n) (a : α) : Vector α n := x.set i a i.isLt

@[simp] theorem get_put_self {α : Type*} {n : ℕ} (x : Vector α n) (i : Fin n) (a : α) :
    (put x i a).get i = a := Vector.getElem_set_self _

theorem get_put_of_ne {α : Type*} {n : ℕ} (x : Vector α n) {i j : Fin n} (a : α) (h : i ≠ j) :
    (put x i a).get j = x.get j := Vector.getElem_set_ne _ _ fun he => h (Fin.ext he)

/-- The quarter round on the words at four places. -/
def quarterround (x : Block) (q : Quad) : Block :=
  let (i0, i1, i2, i3) := q
  let z1 := x.get i1 ^^^ (x.get i0 + x.get i3).rotateLeft 7
  let z2 := x.get i2 ^^^ (z1 + x.get i0).rotateLeft 9
  let z3 := x.get i3 ^^^ (z2 + z1).rotateLeft 13
  let z0 := x.get i0 ^^^ (z3 + z2).rotateLeft 18
  put (put (put (put x i1 z1) i2 z2) i3 z3) i0 z0

def columns : List Quad := [(0, 4, 8, 12), (5, 9, 13, 1), (10, 14, 2, 6), (15, 3, 7, 11)]

def rows : List Quad := [(0, 1, 2, 3), (5, 6, 7, 4), (10, 11, 8, 9), (15, 12, 13, 14)]

def doubleround (x : Block) : Block := (columns ++ rows).foldl quarterround x

/-- The Salsa20/8 core. -/
def salsa (x : Block) : Block := Vector.zipWith (· + ·) x (doubleround^[4] x)

/-! ### The memory-hard function -/

def xor (x y : Block) : Block := Vector.zipWith (· ^^^ ·) x y

/-- The blocks `Y[0] … Y[2 * r - 1]`, from the block that came before. -/
def mixed : Block → List Block → List Block
  | _, [] => []
  | x, b :: bs => salsa (xor x b) :: mixed (salsa (xor x b)) bs

/-- Every second value, from the first. -/
def evens {α : Type*} : List α → List α
  | [] => []
  | [a] => [a]
  | a :: _ :: as => a :: evens as

/-- `scryptBlockMix` on the first and the further blocks. -/
def blockMix (bs : List Block) : List Block :=
  let y := mixed (bs.getLastD (Vector.replicate 16 0)) bs
  evens y ++ evens y.tail

/-- The last block as a number, the lowest octet first. -/
def integerify (bs : List Block) : ℕ :=
  (bs.getLastD (Vector.replicate 16 0)).toList.foldr (fun w v => w.toNat + 2 ^ 32 * v) 0

def xorAll (bs cs : List Block) : List Block := List.zipWith xor bs cs

/-- `scryptROMix`: `V[i]` is the block mix done `i` times. -/
def roMix (N : ℕ) (bs : List Block) : List Block :=
  (fun x => blockMix (xorAll x (blockMix^[integerify x % N] bs)))^[N] (blockMix^[N] bs)

/-! ### Octets -/

def wordOf (b : List Octet) : Word := BitVec.ofNat 32 (b.foldr (fun d v => d.val + 256 * v) 0)

def octets (w : Word) : List Octet := (List.range 4).map fun i => BlockHash.octet (w.toNat / 256 ^ i)

def blockOf (b : List Octet) : Block := Vector.ofFn fun i => wordOf ((b.drop (4 * i)).take 4)

/-- The `n` blocks of a string of `64 * n` octets. -/
def blocksOf (n : ℕ) (b : List Octet) : List Block :=
  (List.range n).map fun i => blockOf (b.drop (64 * i))

def blockOctets (bs : List Block) : List Octet := bs.flatMap fun x => x.toList.flatMap octets

/-! ### The keyed hash and the key derivation -/

/-- HMAC over a hash with blocks of 64 octets. -/
def hmac (hash : List Octet → List Octet) (key m : List Octet) : List Octet :=
  let k := if 64 < key.length then hash key else key
  let k := k ++ List.replicate (64 - k.length) (BlockHash.octet 0)
  hash (k.map (· ^^^ BlockHash.octet 0x5c) ++ hash (k.map (· ^^^ BlockHash.octet 0x36) ++ m))

/-- The number of a block, the highest octet first. -/
def blockNumber (i : ℕ) : List Octet := (List.range 4).reverse.map fun j => BlockHash.octet (i / 256 ^ j)

/-- PBKDF2 with one iteration, over a function with 32 octets of output. -/
def pbkdf2 (prf : List Octet → List Octet) (salt : List Octet) (dkLen : ℕ) : List Octet :=
  ((List.range ((dkLen + 31) / 32)).flatMap fun i => prf (salt ++ blockNumber (i + 1))).take dkLen

/-- Scrypt without parallelism, `p = 1`. -/
def scrypt (hash : List Octet → List Octet) (pass salt : List Octet) (N r dkLen : ℕ) : List Octet :=
  let prf := hmac hash pass
  let b := pbkdf2 prf salt (128 * r)
  pbkdf2 prf (blockOctets (roMix N (blocksOf (2 * r) b))) dkLen

end NamespaceIndexer.Lib.Scrypt
