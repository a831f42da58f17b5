import NamespaceIndexer.Fold.Decode
import NamespaceIndexer.Fold.Digest

/-!
# Canonical action encoder (`sm_encode_action` of `decode.c`)
-/

namespace NamespaceIndexer.Fold

def wr32 (v : UInt32) : Bytes := leBytes 4 v.toNat
def wr64 (v : UInt64) : Bytes := leBytes 8 v.toNat
def wr5 (v : UInt64) : Bytes := leBytes 5 v.toNat

/-- `SM_FLAGS_MAX` and `SM_FLAGS_XFER_MAX`. -/
def flagsMax : ℕ := bodyMax - 5
def flagsXferMax : ℕ := flagsMax - 20

/-- `0xFF 'P' 'N'` and the opcode. -/
def actionHeader (op : Byte) : Bytes := [0xFF, 0x50, 0x4E, op]

/-- A name field is written if its length fits. -/
def encodeName (header name : Bytes) : Bytes :=
  if name.length < 1 || name.length > 32 then [] else header ++ name

/-- `sm_encode_action`: the bytes written, none at all where it returns 0. -/
def smEncodeAction (a : SmAction) : Bytes :=
  let out := actionHeader a.op
  match SmOp.ofByte? a.op with
  | some .COMMIT => out ++ a.commitment.val
  | some .CLAIM => encodeName (out ++ a.salt.val) a.name
  | some .RENEW =>
    if !a.hasAnchor && a.flags.length == 0 then out
    else if a.hasAnchor && a.flags.length == 0 then out ++ wr5 a.anchor
    else if a.hasAnchor && 1 ≤ a.flags.length && a.flags.length ≤ flagsMax then
      out ++ wr5 a.anchor ++ a.flags
    else []
  | some .TRANSFER =>
    if !a.hasAnchor then out ++ a.addr.val
    else if 1 ≤ a.flags.length && a.flags.length ≤ flagsXferMax then
      out ++ a.addr.val ++ wr5 a.anchor ++ a.flags
    else []
  | some .SELL => encodeName (out ++ wr64 a.price ++ wr32 a.window) a.name
  | some .RENEW_NAME | some .RELEASE_NAME | some .RESERVE | some .SETTLE | some .PAY =>
    encodeName out a.name
  | some .TRANSFER_NAME => encodeName (out ++ a.addr.val) a.name
  | some .RELEASE =>
    if a.flags.length < 1 || a.flags.length > flagsMax then []
    else out ++ wr5 a.anchor ++ a.flags
  | some .SELL_TO => encodeName (out ++ wr64 a.price ++ a.addr.val) a.name
  | some .AS => out ++ [a.asIndex]
  | some .TRADE =>
    if a.name.length < 1 || a.name.length > 32 || a.nameB.length < 1 || a.nameB.length > 32 then []
    else out ++ [a.idxA, a.idxB] ++ a.name ++ [0x2C] ++ a.nameB
  | none => []

/-! ### Fields -/

@[simp] theorem length_leBytes (n v : ℕ) : (leBytes n v).length = n := by
  induction n generalizing v with
  | zero => rfl
  | succ n ih => simp [leBytes, ih]

@[simp] theorem length_wr5 (v : UInt64) : (wr5 v).length = 5 := length_leBytes ..
@[simp] theorem length_wr64 (v : UInt64) : (wr64 v).length = 8 := length_leBytes ..
@[simp] theorem length_wr32 (v : UInt32) : (wr32 v).length = 4 := length_leBytes ..

/-- What is written little-endian reads back as its low part. -/
theorem leVal_leBytes (n v : ℕ) : leVal (leBytes n v) = v % 256 ^ n := by
  induction n generalizing v with
  | zero => simp [leBytes, leVal, Nat.mod_one]
  | succ n ih =>
    show (Fin.ofNat 256 v).val + 256 * leVal (leBytes n (v / 256)) = _
    rw [ih]
    have hlow : (Fin.ofNat 256 v).val = v % 256 := rfl
    rw [hlow, pow_succ', Nat.mod_mul]

/-- Writing back the value of a string gives the string. -/
theorem leBytes_leVal (b : Bytes) : leBytes b.length (leVal b) = b := by
  induction b with
  | nil => rfl
  | cons x xs ih =>
    show Fin.ofNat 256 (x.val + 256 * leVal xs) ::
      leBytes xs.length ((x.val + 256 * leVal xs) / 256) = x :: xs
    have hhead : Fin.ofNat 256 (x.val + 256 * leVal xs) = x := by
      apply Fin.ext
      show (x.val + 256 * leVal xs) % 256 = x.val
      have := x.isLt
      omega
    have htail : (x.val + 256 * leVal xs) / 256 = leVal xs := by
      have := x.isLt
      omega
    rw [hhead, htail, ih]

theorem leVal_lt (b : Bytes) : leVal b < 256 ^ b.length := by
  induction b with
  | nil => simp [leVal]
  | cons x xs ih =>
    have hx := x.isLt
    rw [List.length_cons, pow_succ']
    show x.val + 256 * leVal xs < _
    omega

theorem rd64_wr64 (v : UInt64) (r : Bytes) : rd64 (wr64 v ++ r) = v := by
  have hv : v.toNat < 256 ^ 8 := v.toNat_lt
  have ht : (wr64 v ++ r).take 8 = wr64 v := List.take_left' (length_wr64 v)
  rw [rd64, ht, wr64, leVal_leBytes, Nat.mod_eq_of_lt hv, UInt64.ofNat_toNat]

theorem rd32_wr32 (v : UInt32) (r : Bytes) : rd32 (wr32 v ++ r) = v := by
  have hv : v.toNat < 256 ^ 4 := v.toNat_lt
  have ht : (wr32 v ++ r).take 4 = wr32 v := List.take_left' (length_wr32 v)
  rw [rd32, ht, wr32, leVal_leBytes, Nat.mod_eq_of_lt hv, UInt32.ofNat_toNat]

/-- An anchor below `2^40` survives its five bytes. -/
theorem rd5_wr5 {v : UInt64} (hv : v.toNat < 2 ^ 40) (r : Bytes) : rd5 (wr5 v ++ r) = v := by
  have ht : (wr5 v ++ r).take 5 = wr5 v := List.take_left' (length_wr5 v)
  rw [rd5, ht, wr5, leVal_leBytes, Nat.mod_eq_of_lt (by omega), UInt64.ofNat_toNat]

theorem toNat_rd64 {b : Bytes} (hb : 8 ≤ b.length) : (rd64 b).toNat = leVal (b.take 8) := by
  have h := leVal_lt (b.take 8)
  rw [List.length_take_of_le hb] at h
  exact UInt64.toNat_ofNat_of_lt' (by simpa using h)

theorem toNat_rd32 {b : Bytes} (hb : 4 ≤ b.length) : (rd32 b).toNat = leVal (b.take 4) := by
  have h := leVal_lt (b.take 4)
  rw [List.length_take_of_le hb] at h
  exact UInt32.toNat_ofNat_of_lt' (by simpa using h)

theorem toNat_rd5 {b : Bytes} (hb : 5 ≤ b.length) : (rd5 b).toNat = leVal (b.take 5) := by
  have h := leVal_lt (b.take 5)
  rw [List.length_take_of_le hb] at h
  have h40 : leVal (b.take 5) < UInt64.size := lt_trans h (by decide)
  exact UInt64.toNat_ofNat_of_lt' h40

theorem rd5_lt {b : Bytes} (hb : 5 ≤ b.length) : (rd5 b).toNat < 2 ^ 40 := by
  have h := leVal_lt (b.take 5)
  rw [List.length_take_of_le hb] at h
  rw [toNat_rd5 hb]
  omega

theorem wr64_rd64 {b : Bytes} (hb : 8 ≤ b.length) : wr64 (rd64 b) = b.take 8 := by
  have h := leBytes_leVal (b.take 8)
  rw [List.length_take_of_le hb] at h
  rw [wr64, toNat_rd64 hb, h]

theorem wr32_rd32 {b : Bytes} (hb : 4 ≤ b.length) : wr32 (rd32 b) = b.take 4 := by
  have h := leBytes_leVal (b.take 4)
  rw [List.length_take_of_le hb] at h
  rw [wr32, toNat_rd32 hb, h]

theorem wr5_rd5 {b : Bytes} (hb : 5 ≤ b.length) : wr5 (rd5 b) = b.take 5 := by
  have h := leBytes_leVal (b.take 5)
  rw [List.length_take_of_le hb] at h
  rw [wr5, toNat_rd5 hb, h]

theorem copyFrom_append (n : ℕ) (x : Fixed n) (r : Bytes) : copyFrom n (x.val ++ r) = x := by
  apply Subtype.ext
  show ((x.val ++ r) ++ List.replicate n 0).take n = x.val
  rw [List.append_assoc]
  exact List.take_left' x.property

theorem copyFrom_val {n : ℕ} {b : Bytes} (hb : n ≤ b.length) : (copyFrom n b).val = b.take n :=
  List.take_append_of_le_length hb

end NamespaceIndexer.Fold
