import NamespaceIndexer.Hash.Stream
import NamespaceIndexer.Lib.Scrypt

/-!
# The proof-of-work hash as the code computes it (`pow.c`)

Scrypt with `r = 1` and `p = 1`: the buffer `X` of 32 words is mixed in place, and the keyed hash
keeps two contexts.
-/

namespace NamespaceIndexer.Hash

open Fold Lib

/-! ### HMAC and PBKDF2 -/

/-- `Hmac`. -/
structure Hmac where
  inner : Sha256Ctx
  outer : Sha256Ctx

/-- `k` of `hmac_init`. -/
def hmacKey (key : Bytes) : Fixed 64 :=
  if key.length > 64 then copyFrom 64 (sha256 key).val else copyFrom 64 key

/-- `pad` of `hmac_init`. -/
def hmacPad (k : Fixed 64) (b : Byte) : Bytes := k.val.map (· ^^^ b)

/-- `hmac_init`. -/
def hmacInit (key : Bytes) : Hmac where
  inner := sha256Update (sha256Init (zeros 64)) (hmacPad (hmacKey key) 0x36)
  outer := sha256Update (sha256Init (zeros 64)) (hmacPad (hmacKey key) 0x5c)

/-- `hmac_final`. -/
def hmacFinal (h : Hmac) : Hash256 :=
  let ih := sha256Final h.inner
  sha256Final (sha256Update h.outer ih.val)

/-- `be` of `pbkdf2_c1`. -/
def counterBytes (i : UInt32) : Bytes :=
  [Fin.ofNat 256 (i >>> 24).toNat, Fin.ofNat 256 (i >>> 16).toNat, Fin.ofNat 256 (i >>> 8).toNat,
    Fin.ofNat 256 i.toNat]

/-- The body of the loop of `pbkdf2_c1`: one block of output. -/
def pbkdf2Block (pass salt : Bytes) (i : UInt32) : Hash256 :=
  let h := hmacInit pass
  let inner := sha256Update h.inner salt
  let inner := sha256Update inner (counterBytes i)
  hmacFinal { h with inner }

/-- The loop of `pbkdf2_c1`, with what is left of `dklen`. -/
def pbkdf2Loop (pass salt : Bytes) (i : UInt32) (dklen : ℕ) : Bytes :=
  if _h : dklen = 0 then []
  else
    let n := if dklen < 32 then dklen else 32
    (pbkdf2Block pass salt i).val.take n ++ pbkdf2Loop pass salt (i + 1) (dklen - n)
termination_by dklen
decreasing_by
  split
  all_goals omega

theorem length_pbkdf2Loop (pass salt : Bytes) (i : UInt32) (dklen : ℕ) :
    (pbkdf2Loop pass salt i dklen).length = dklen := by
  induction dklen using Nat.strong_induction_on generalizing i with
  | _ dklen ih =>
    rw [pbkdf2Loop]
    split
    · symm
      assumption
    · rename_i hpos
      have hmin : (if dklen < 32 then dklen else 32) = min dklen 32 := by split <;> omega
      dsimp only
      rw [hmin, List.length_append, List.length_take, (pbkdf2Block pass salt i).2, ih _ (by omega)]
      omega

/-- `pbkdf2_c1`. -/
def pbkdf2C1 (pass salt : Bytes) (dklen : ℕ) : Bytes := pbkdf2Loop pass salt 1 dklen

/-! ### Salsa20/8 -/

/-- The macro `R`. -/
def R (a b : UInt32) : UInt32 := (a <<< b) ||| (a >>> (32 - b))

/-- A statement `x[d] ^= R(x[a] + x[b], n)`. -/
structure XorStep where
  d : Fin 16
  a : Fin 16
  b : Fin 16
  n : UInt32

def XorStep.run (x : Vector UInt32 16) (s : XorStep) : Vector UInt32 16 :=
  Scrypt.put x s.d (x.get s.d ^^^ R (x.get s.a + x.get s.b) s.n)

/-- The statements of the loop of `salsa8`, in order. -/
def salsaSteps : List XorStep :=
  [⟨4, 0, 12, 7⟩, ⟨8, 4, 0, 9⟩, ⟨12, 8, 4, 13⟩, ⟨0, 12, 8, 18⟩,
    ⟨9, 5, 1, 7⟩, ⟨13, 9, 5, 9⟩, ⟨1, 13, 9, 13⟩, ⟨5, 1, 13, 18⟩,
    ⟨14, 10, 6, 7⟩, ⟨2, 14, 10, 9⟩, ⟨6, 2, 14, 13⟩, ⟨10, 6, 2, 18⟩,
    ⟨3, 15, 11, 7⟩, ⟨7, 3, 15, 9⟩, ⟨11, 7, 3, 13⟩, ⟨15, 11, 7, 18⟩,
    ⟨1, 0, 3, 7⟩, ⟨2, 1, 0, 9⟩, ⟨3, 2, 1, 13⟩, ⟨0, 3, 2, 18⟩,
    ⟨6, 5, 4, 7⟩, ⟨7, 6, 5, 9⟩, ⟨4, 7, 6, 13⟩, ⟨5, 4, 7, 18⟩,
    ⟨11, 10, 9, 7⟩, ⟨8, 11, 10, 9⟩, ⟨9, 8, 11, 13⟩, ⟨10, 9, 8, 18⟩,
    ⟨12, 15, 14, 7⟩, ⟨13, 12, 15, 9⟩, ⟨14, 13, 12, 13⟩, ⟨15, 14, 13, 18⟩]

/-- `salsa8`: four turns of the loop, and the sum. -/
def salsa8 (B : Vector UInt32 16) : Vector UInt32 16 :=
  let x := (List.range 4).foldl (fun x _ => salsaSteps.foldl XorStep.run x) B
  Vector.ofFn fun i => B.get i + x.get i

/-! ### Scrypt -/

/-- `uint32_t X[32]`, by its two halves. -/
structure Words32 where
  lo : Vector UInt32 16
  hi : Vector UInt32 16

/-- `blockmix_r1`. -/
def blockmixR1 (X : Words32) : Words32 :=
  let lo := salsa8 (Vector.ofFn fun i => X.lo.get i ^^^ X.hi.get i)
  let hi := salsa8 (Vector.ofFn fun i => X.hi.get i ^^^ lo.get i)
  ⟨lo, hi⟩

/-- The word of the bytes `b[j]`, the lowest, to `b[j + 3]`. -/
def leWord (b : Bytes) (j : ℕ) : UInt32 := UInt32.ofNat (leVal ((b.drop j).take 4))

def wordsOf (b : Bytes) : Words32 :=
  ⟨Vector.ofFn fun i => leWord b (4 * i), Vector.ofFn fun i => leWord b (64 + 4 * i)⟩

def wordBytes (x : UInt32) : Bytes :=
  [Fin.ofNat 256 x.toNat, Fin.ofNat 256 (x >>> 8).toNat, Fin.ofNat 256 (x >>> 16).toNat,
    Fin.ofNat 256 (x >>> 24).toNat]

def Words32.bytes (X : Words32) : Bytes :=
  X.lo.toList.flatMap wordBytes ++ X.hi.toList.flatMap wordBytes

/-- The loop that fills `V`. -/
def fillV (N : ℕ) (X : Words32) : List Words32 × Words32 :=
  (List.range N).foldl (fun (V, X) _ => (V ++ [X], blockmixR1 X)) ([], X)

/-- The body of the second loop of `scrypt_r1p1`. -/
def mixV (V : List Words32) (N : UInt32) (X : Words32) : Words32 :=
  let j := X.hi.get 0 &&& (N - 1)
  let v := V.getD j.toNat X
  blockmixR1 ⟨Vector.ofFn fun i => X.lo.get i ^^^ v.lo.get i, Vector.ofFn fun i => X.hi.get i ^^^ v.hi.get i⟩

/-- `scrypt_r1p1`; `mallocOk` says that `V` was allocated. -/
def scryptR1P1 (mallocOk : Bool) (pass : Bytes) (N : UInt32) (dklen : ℕ) : Bytes :=
  let X := wordsOf (pbkdf2C1 pass pass 128)
  if !mallocOk then List.replicate dklen 0xFF
  else
    let (V, X) := fillV N.toNat X
    let X := (List.range N.toNat).foldl (fun X _ => mixV V N X) X
    pbkdf2C1 pass X.bytes dklen

theorem length_scryptR1P1 (mallocOk : Bool) (pass : Bytes) (N : UInt32) (dklen : ℕ) :
    (scryptR1P1 mallocOk pass N dklen).length = dklen := by
  unfold scryptR1P1
  dsimp only
  split
  · exact List.length_replicate
  · exact length_pbkdf2Loop ..

/-- `idx_pow_hash`. -/
def idxPowHash (mallocOk : Bool) (hdr : Bytes) : Hash256 :=
  ⟨scryptR1P1 mallocOk hdr 1024 32, length_scryptR1P1 ..⟩

end NamespaceIndexer.Hash
