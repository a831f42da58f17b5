import NamespaceIndexer.Fold.Encode
import NamespaceIndexer.Lib.Sha256

/-!
# SHA-256 as the code computes it (`sha256.c`)

A context takes the message byte by byte, in any number of calls, and compresses its buffer in place
when it is full.
-/

namespace NamespaceIndexer

open Fold Lib

namespace Fold

/-- `x[i] = b`. -/
def Fixed.set {n : ℕ} (x : Fixed n) (i : ℕ) (b : Byte) : Fixed n :=
  ⟨x.val.set i b, (List.length_set ..).trans x.2⟩

@[simp] theorem Fixed.val_set {n : ℕ} (x : Fixed n) (i : ℕ) (b : Byte) :
    (Fixed.set x i b).val = x.val.set i b := rfl

end Fold

namespace Hash

/-! ### The context -/

/-- Eight words: `state` of a context, and the local variables `a … h`. -/
structure Words8 where
  a : UInt32
  b : UInt32
  c : UInt32
  d : UInt32
  e : UInt32
  f : UInt32
  g : UInt32
  h : UInt32
  deriving DecidableEq

/-- `SHA256_CTX`. -/
structure Sha256Ctx where
  data : Fixed 64
  datalen : UInt32
  bitlen : UInt64
  state : Words8

/-! ### The transform -/

def ROTRIGHT (a b : UInt32) : UInt32 := (a >>> b) ||| (a <<< (32 - b))
def CH (x y z : UInt32) : UInt32 := (x &&& y) ^^^ (~~~x &&& z)
def MAJ (x y z : UInt32) : UInt32 := (x &&& y) ^^^ (x &&& z) ^^^ (y &&& z)
def EP0 (x : UInt32) : UInt32 := ROTRIGHT x 2 ^^^ ROTRIGHT x 13 ^^^ ROTRIGHT x 22
def EP1 (x : UInt32) : UInt32 := ROTRIGHT x 6 ^^^ ROTRIGHT x 11 ^^^ ROTRIGHT x 25
def SIG0 (x : UInt32) : UInt32 := ROTRIGHT x 7 ^^^ ROTRIGHT x 18 ^^^ x >>> 3
def SIG1 (x : UInt32) : UInt32 := ROTRIGHT x 17 ^^^ ROTRIGHT x 19 ^^^ x >>> 10

/-- The table `k`. -/
def sha256k : List UInt32 :=
  [0x428a2f98, 0x71374491, 0xb5c0fbcf, 0xe9b5dba5, 0x3956c25b, 0x59f111f1, 0x923f82a4, 0xab1c5ed5,
    0xd807aa98, 0x12835b01, 0x243185be, 0x550c7dc3, 0x72be5d74, 0x80deb1fe, 0x9bdc06a7, 0xc19bf174,
    0xe49b69c1, 0xefbe4786, 0x0fc19dc6, 0x240ca1cc, 0x2de92c6f, 0x4a7484aa, 0x5cb0a9dc, 0x76f988da,
    0x983e5152, 0xa831c66d, 0xb00327c8, 0xbf597fc7, 0xc6e00bf3, 0xd5a79147, 0x06ca6351, 0x14292967,
    0x27b70a85, 0x2e1b2138, 0x4d2c6dfc, 0x53380d13, 0x650a7354, 0x766a0abb, 0x81c2c92e, 0x92722c85,
    0xa2bfe8a1, 0xa81a664b, 0xc24b8b70, 0xc76c51a3, 0xd192e819, 0xd6990624, 0xf40e3585, 0x106aa070,
    0x19a4c116, 0x1e376c08, 0x2748774c, 0x34b0bcb5, 0x391c0cb3, 0x4ed8aa4a, 0x5b9cca4f, 0x682e6ff3,
    0x748f82ee, 0x78a5636f, 0x84c87814, 0x8cc70208, 0x90befffa, 0xa4506ceb, 0xbef9a3f7, 0xc67178f2]

/-- The word whose bytes are `data[j]`, the highest, to `data[j + 3]`. -/
def beWord (data : Fixed 64) (j : ℕ) : UInt32 := UInt32.ofNat (Numeral.val ((data.val.drop j).take 4))

/-- One turn of the second loop over `m`, which fills `m[i]`. -/
def extendM (m : List UInt32) (i : ℕ) : List UInt32 :=
  m ++ [SIG1 (m.getD (i - 2) 0) + m.getD (i - 7) 0 + SIG0 (m.getD (i - 15) 0) + m.getD (i - 16) 0]

/-- The array `m` of `sha256_transform`. -/
def messageWords (data : Fixed 64) : List UInt32 :=
  (List.range' 16 48).foldl extendM ((List.range 16).map fun i => beWord data (4 * i))

/-- The body of the loop of rounds. -/
def roundStep (m : List UInt32) (v : Words8) (i : ℕ) : Words8 :=
  let t1 := v.h + EP1 v.e + CH v.e v.f v.g + sha256k.getD i 0 + m.getD i 0
  let t2 := EP0 v.a + MAJ v.a v.b v.c
  { a := t1 + t2, b := v.a, c := v.b, d := v.c, e := v.d + t1, f := v.e, g := v.f, h := v.g }

/-- `sha256_transform` on the buffer of the context. -/
def sha256Transform (ctx : Sha256Ctx) : Sha256Ctx :=
  let s := ctx.state
  let v := (List.range 64).foldl (roundStep (messageWords ctx.data)) s
  { ctx with state := ⟨s.a + v.a, s.b + v.b, s.c + v.c, s.d + v.d, s.e + v.e, s.f + v.f, s.g + v.g,
                       s.h + v.h⟩ }

@[simp] theorem sha256Transform_data (ctx : Sha256Ctx) : (sha256Transform ctx).data = ctx.data := by
  unfold sha256Transform
  rfl

@[simp] theorem sha256Transform_datalen (ctx : Sha256Ctx) :
    (sha256Transform ctx).datalen = ctx.datalen := by
  unfold sha256Transform
  rfl

@[simp] theorem sha256Transform_bitlen (ctx : Sha256Ctx) : (sha256Transform ctx).bitlen = ctx.bitlen := by
  unfold sha256Transform
  rfl

/-! ### Init, update, final -/

/-- What `sha256_init` puts into `state`. -/
def initState : Words8 :=
  ⟨0x6a09e667, 0xbb67ae85, 0x3c6ef372, 0xa54ff53a, 0x510e527f, 0x9b05688c, 0x1f83d9ab, 0x5be0cd19⟩

/-- `sha256_init`; it leaves the buffer as it was. -/
def sha256Init (data : Fixed 64) : Sha256Ctx := ⟨data, 0, 0, initState⟩

/-- The body of the loop of `sha256_update`. -/
def sha256Push (ctx : Sha256Ctx) (b : Byte) : Sha256Ctx :=
  let ctx := { ctx with data := Fixed.set ctx.data ctx.datalen.toNat b, datalen := ctx.datalen + 1 }
  if ctx.datalen = 64 then
    let ctx := sha256Transform ctx
    { ctx with bitlen := ctx.bitlen + 512, datalen := 0 }
  else ctx

/-- `sha256_update`. -/
def sha256Update (ctx : Sha256Ctx) (data : Bytes) : Sha256Ctx := data.foldl sha256Push ctx

/-- `data[i++] = 0x80; while (i < n) data[i++] = 0x00`. -/
def markTo (data : Fixed 64) (i n : ℕ) : Fixed 64 :=
  (List.range' (i + 1) (n - (i + 1))).foldl (fun d j => Fixed.set d j 0) (Fixed.set data i 0x80)

/-- `memset(data, 0, 56)`. -/
def clear56 (data : Fixed 64) : Fixed 64 := (List.range 56).foldl (fun d j => Fixed.set d j 0) data

/-- The eight writes of `bitlen` at the end of the buffer. -/
def putBitlen (data : Fixed 64) (bitlen : UInt64) : Fixed 64 :=
  (List.range 8).foldl
    (fun d j => Fixed.set d (63 - j) (Fin.ofNat 256 (bitlen >>> UInt64.ofNat (8 * j)).toNat)) data

def Words8.list (s : Words8) : List UInt32 := [s.a, s.b, s.c, s.d, s.e, s.f, s.g, s.h]

/-- The bytes of one word of `hash`: `(state[j] >> (24 - i * 8)) & 0xFF`. -/
def hashBytes (x : UInt32) : Bytes :=
  (List.range 4).map fun i => Fin.ofNat 256 (x >>> UInt32.ofNat (24 - i * 8)).toNat

theorem length_hashBytes (x : UInt32) : (hashBytes x).length = 4 := by simp [hashBytes]

/-- `sha256_final`: the last one or two transforms, and the hash. -/
def sha256Final (ctx : Sha256Ctx) : Hash256 :=
  let i := ctx.datalen.toNat
  let ctx :=
    if ctx.datalen < 56 then { ctx with data := markTo ctx.data i 56 }
    else
      let ctx := sha256Transform { ctx with data := markTo ctx.data i 64 }
      { ctx with data := clear56 ctx.data }
  let bitlen := ctx.bitlen + (ctx.datalen * 8).toUInt64
  let ctx := sha256Transform { ctx with bitlen, data := putBitlen ctx.data bitlen }
  ⟨ctx.state.list.flatMap hashBytes, by simp [Words8.list, length_hashBytes]⟩

/-- One call of each, as `sha256` of `attrib.c` and the others make them. -/
def sha256 (d : Bytes) : Hash256 := sha256Final (sha256Update (sha256Init (zeros 64)) d)

end Hash

end NamespaceIndexer
