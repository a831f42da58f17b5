import NamespaceIndexer.Hash.Sha256

/-!
# The streaming hasher against the standard

The transform is the compression of the standard, and a context holds the part of the message that
it has taken: whatever the calls, the hash is that of all their bytes.
-/

namespace NamespaceIndexer.Hash

open Fold Lib

/-! ### The transform -/

def Words8.toWork (s : Words8) : Sha256.Work :=
  ⟨s.a.toBitVec, s.b.toBitVec, s.c.toBitVec, s.d.toBitVec, s.e.toBitVec, s.f.toBitVec, s.g.toBitVec,
    s.h.toBitVec⟩

/-- Two shifts turn a word. -/
theorem toBitVec_ROTRIGHT (x : UInt32) {b : UInt32} {n : ℕ} (hb : b.toNat = n) (hpos : 0 < n)
    (hlt : n < 32) : (ROTRIGHT x b).toBitVec = x.toBitVec.rotateRight n := by
  have hsub : (32 - b).toNat = 32 - n := by
    rw [UInt32.toNat_sub_of_le _ _ (by rw [UInt32.le_iff_toNat_le, hb]; exact hlt.le), hb]
    rfl
  refine BitVec.eq_of_toNat_eq ?_
  rw [BitVec.rotateRight_def, Nat.mod_eq_of_lt hlt, BitVec.toNat_or, BitVec.toNat_ushiftRight,
    BitVec.toNat_shiftLeft]
  change (ROTRIGHT x b).toNat = x.toNat >>> n ||| x.toNat <<< (32 - n) % 2 ^ 32
  unfold ROTRIGHT
  rw [UInt32.toNat_or, UInt32.toNat_shiftRight, UInt32.toNat_shiftLeft, hb, hsub,
    Nat.mod_eq_of_lt hlt, Nat.mod_eq_of_lt (by omega : 32 - n < 32)]

theorem toBitVec_EP0 (x : UInt32) : (EP0 x).toBitVec = Sha256.bigSigma0 x.toBitVec := by
  unfold EP0 Sha256.bigSigma0
  rw [UInt32.toBitVec_xor, UInt32.toBitVec_xor, toBitVec_ROTRIGHT x (n := 2) rfl (by decide) (by decide),
    toBitVec_ROTRIGHT x (n := 13) rfl (by decide) (by decide),
    toBitVec_ROTRIGHT x (n := 22) rfl (by decide) (by decide)]

theorem toBitVec_EP1 (x : UInt32) : (EP1 x).toBitVec = Sha256.bigSigma1 x.toBitVec := by
  unfold EP1 Sha256.bigSigma1
  rw [UInt32.toBitVec_xor, UInt32.toBitVec_xor, toBitVec_ROTRIGHT x (n := 6) rfl (by decide) (by decide),
    toBitVec_ROTRIGHT x (n := 11) rfl (by decide) (by decide),
    toBitVec_ROTRIGHT x (n := 25) rfl (by decide) (by decide)]

theorem toBitVec_SIG0 (x : UInt32) : (SIG0 x).toBitVec = Sha256.smallSigma0 x.toBitVec := by
  unfold SIG0 Sha256.smallSigma0
  rw [UInt32.toBitVec_xor, UInt32.toBitVec_xor, toBitVec_ROTRIGHT x (n := 7) rfl (by decide) (by decide),
    toBitVec_ROTRIGHT x (n := 18) rfl (by decide) (by decide)]
  rfl

theorem toBitVec_SIG1 (x : UInt32) : (SIG1 x).toBitVec = Sha256.smallSigma1 x.toBitVec := by
  unfold SIG1 Sha256.smallSigma1
  rw [UInt32.toBitVec_xor, UInt32.toBitVec_xor, toBitVec_ROTRIGHT x (n := 17) rfl (by decide) (by decide),
    toBitVec_ROTRIGHT x (n := 19) rfl (by decide) (by decide)]
  rfl

theorem K_eq : ∀ t < 64, Sha256.K t = (sha256k.getD t 0).toBitVec := by decide +kernel

theorem toWork_initState : initState.toWork = Sha256.initial :=
  Sha256.Work.ext (by decide +kernel) (by decide +kernel) (by decide +kernel) (by decide +kernel)
    (by decide +kernel) (by decide +kernel) (by decide +kernel) (by decide +kernel)

/-- The first `n` words of the array are those of the message schedule. -/
def Scheduled (data : Fixed 64) (n : ℕ) (m : List UInt32) : Prop :=
  m.length = n ∧ ∀ t < n, (m.getD t 0).toBitVec = Sha256.W data.val t

theorem scheduled_first (data : Fixed 64) :
    Scheduled data 16 ((List.range 16).map fun i => beWord data (4 * i)) := by
  refine ⟨by simp, fun t ht => ?_⟩
  rw [Sha256.W_lt _ ht, List.getD_eq_getElem?_getD, List.getElem?_map, List.getElem?_range ht]
  rfl

theorem Scheduled.extendM {data : Fixed 64} {n : ℕ} {m : List UInt32} (h : Scheduled data n m)
    (hn : 16 ≤ n) : Scheduled data (n + 1) (extendM m n) := by
  obtain ⟨hlen, hword⟩ := h
  unfold Hash.extendM
  refine ⟨by rw [List.length_append, hlen, List.length_singleton], fun t ht => ?_⟩
  rw [List.getD_eq_getElem?_getD, List.getElem?_append, hlen]
  by_cases hlast : t < n
  · rw [if_pos hlast, ← List.getD_eq_getElem?_getD, hword t hlast]
  · obtain rfl : t = n := by omega
    rw [if_neg hlast, Nat.sub_self, Sha256.W_ge _ hn]
    simp only [List.getElem?_cons_zero, Option.getD_some, UInt32.toBitVec_add, toBitVec_SIG0,
      toBitVec_SIG1]
    rw [hword _ (by omega), hword _ (by omega), hword _ (by omega), hword _ (by omega)]

theorem Scheduled.foldl {data : Fixed 64} {n : ℕ} {m : List UInt32} (h : Scheduled data n m)
    (hn : 16 ≤ n) (k : ℕ) : Scheduled data (n + k) ((List.range' n k).foldl Hash.extendM m) := by
  induction k with
  | zero => exact h
  | succ k ih =>
    rw [List.range'_1_concat, List.foldl_append]
    exact ih.extendM (by omega)

theorem messageWords_scheduled (data : Fixed 64) : Scheduled data 64 (messageWords data) :=
  (scheduled_first data).foldl (le_refl 16) 48

theorem toWork_roundStep (data : Fixed 64) (v : Words8) {i : ℕ} (hi : i < 64) :
    (roundStep (messageWords data) v i).toWork
      = Sha256.round (Sha256.K i) (Sha256.W data.val i) v.toWork := by
  unfold roundStep Sha256.round Words8.toWork
  simp only [UInt32.toBitVec_add, toBitVec_EP0, toBitVec_EP1, (messageWords_scheduled data).2 i hi, K_eq i hi]
  rfl

theorem toWork_foldl (data : Fixed 64) (v : Words8) {is : List ℕ} (h : ∀ i ∈ is, i < 64) :
    (is.foldl (roundStep (messageWords data)) v).toWork
      = is.foldl (fun v i => Sha256.round (Sha256.K i) (Sha256.W data.val i) v) v.toWork := by
  induction is generalizing v with
  | nil => rfl
  | cons i is ih =>
    rw [List.foldl_cons, List.foldl_cons, ih _ fun j hj => h j (List.mem_cons_of_mem _ hj),
      toWork_roundStep data v (h i List.mem_cons_self)]

/-- `sha256_transform` compresses the buffer. -/
theorem toWork_sha256Transform (ctx : Sha256Ctx) :
    (sha256Transform ctx).state.toWork = Sha256.compress ctx.state.toWork ctx.data.val := by
  unfold Sha256.compress
  rw [← toWork_foldl ctx.data ctx.state fun i hi => List.mem_range.mp hi]
  rfl

/-! ### The buffer -/

/-- A loop that writes one value to places in a row. -/
theorem foldl_set_replicate {α : Type} (l : List α) (a : α) (i k : ℕ) (h : i + k ≤ l.length) :
    (List.range' i k).foldl (fun l j => l.set j a) l
      = l.take i ++ (List.replicate k a ++ l.drop (i + k)) := by
  induction k with
  | zero => simp
  | succ k ih =>
    have hdrop : l.drop (i + k) = l[i + k] :: l.drop (i + k + 1) := List.drop_eq_getElem_cons (by omega)
    have htake : (l.take i ++ List.replicate k a).length = i + k := by simp; omega
    rw [List.range'_1_concat, List.foldl_append, ih (by omega), List.foldl_cons, List.foldl_nil, hdrop,
      ← List.append_assoc, List.set_append_right _ _ (by omega), htake, Nat.sub_self, List.set_cons_zero,
      List.replicate_succ', List.append_assoc, List.append_assoc]
    rfl

/-- A loop that writes from the end of the list down. -/
theorem foldl_set_down {α : Type} {l : List α} {e : ℕ} (hlen : l.length = e + 1) (f : ℕ → α) {k : ℕ}
    (hk : k ≤ e + 1) :
    (List.range k).foldl (fun l j => l.set (e - j) (f j)) l
      = l.take (e + 1 - k) ++ (List.range k).reverse.map f := by
  induction k with
  | zero => simp [← hlen]
  | succ k ih =>
    have htake : l.take (e + 1 - k) = l.take (e - k) ++ [l[e - k]] := by
      rw [← List.take_succ_eq_append_getElem (by omega), Nat.sub_add_comm (by omega)]
    have hplace : (l.take (e - k)).length = e - k := by
      simp
      omega
    have hset : ((l.take (e - k) ++ [l[e - k]]) ++ (List.range k).reverse.map f).set (e - k) (f k)
        = l.take (e - k) ++ f k :: (List.range k).reverse.map f := by
      rw [List.append_assoc, List.set_append_right _ _ hplace.le, hplace, Nat.sub_self]
      rfl
    rw [List.range_succ, List.foldl_append, ih (by omega), List.foldl_cons, List.foldl_nil, htake, hset,
      Nat.add_sub_add_right, List.reverse_append, List.map_append]
    rfl

theorem val_foldl_set (x : Fixed 64) (g : ℕ → ℕ) (f : ℕ → Byte) (is : List ℕ) :
    (is.foldl (fun d j => Fixed.set d (g j) (f j)) x).val
      = is.foldl (fun d j => d.set (g j) (f j)) x.val := by
  induction is generalizing x with
  | nil => rfl
  | cons i is ih => exact ih _

theorem val_markTo (data : Fixed 64) {i n : ℕ} (hi : i < n) (hn : n ≤ 64) :
    (markTo data i n).val
      = (data.val.take i ++ 0x80 :: List.replicate (n - (i + 1)) 0) ++ data.val.drop n := by
  have hlen : (data.val.set i 0x80).length = 64 := (List.length_set ..).trans data.2
  have hi' : i < data.val.length := by rw [data.2]; omega
  refine (val_foldl_set _ id (fun _ => 0) _).trans ?_
  change (List.range' (i + 1) (n - (i + 1))).foldl (fun d j => d.set j 0) (data.val.set i 0x80) = _
  rw [foldl_set_replicate _ _ _ _ (by omega), show i + 1 + (n - (i + 1)) = n by omega,
    List.drop_set_of_lt (by omega), List.take_set, List.take_succ_eq_append_getElem hi',
    List.set_append_right _ _ (by simp), List.append_assoc]
  simp [Nat.min_eq_left hi'.le]

theorem val_clear56 (data : Fixed 64) :
    (clear56 data).val = List.replicate 56 0 ++ data.val.drop 56 := by
  refine (val_foldl_set _ id (fun _ => 0) _).trans ?_
  rw [List.range_eq_range']
  exact foldl_set_replicate _ _ 0 56 (by rw [data.2]; decide)

/-- Bytes above the length of a word do not matter. -/
theorem ofNat_mod_div (v : ℕ) {j n : ℕ} (hj : j < n) :
    Fin.ofNat 256 (v % 256 ^ n / 256 ^ j) = BlockHash.octet (v / 256 ^ j) := by
  have hpow : 256 ^ n = 256 ^ j * 256 ^ (n - j) := by rw [← Nat.pow_add, Nat.add_sub_cancel' hj.le]
  refine Fin.ext ?_
  change v % 256 ^ n / 256 ^ j % 256 = v / 256 ^ j % 256
  rw [hpow, Nat.mod_mul_right_div_self]
  exact Nat.mod_mod_of_dvd _ (dvd_pow_self 256 (by omega))

theorem val_putBitlen (data : Fixed 64) (v : ℕ) :
    (putBitlen data (UInt64.ofNat v)).val = data.val.take 56 ++ Sha256.bytes 8 v := by
  refine (val_foldl_set _ (63 - ·) _ _).trans ?_
  rw [foldl_set_down data.2 _ (by decide)]
  refine congrArg (data.val.take 56 ++ ·) (List.map_congr_left fun j hj => ?_)
  have hj : j < 8 := by simpa using hj
  have hshift : (UInt64.ofNat (8 * j)).toNat % 64 = 8 * j := by
    rw [UInt64.toNat_ofNat_of_lt' (by omega : 8 * j < 2 ^ 64)]
    omega
  rw [UInt64.toNat_shiftRight, hshift, Nat.shiftRight_eq_div_pow, Nat.pow_mul,
    show (2 ^ 8 : ℕ) = 256 by decide, UInt64.toNat_ofNat']
  exact ofNat_mod_div v hj

theorem hashBytes_eq (x : UInt32) : hashBytes x = Sha256.bytes 4 x.toNat := by
  unfold hashBytes Sha256.bytes
  simp only [List.range, List.range.loop, List.map, List.reverse, List.reverseAux,
    UInt32.toNat_shiftRight, Nat.shiftRight_eq_div_pow]
  rfl

/-! ### The calls -/

/-- The context has taken the message `m`. -/
structure Took (m : Bytes) (ctx : Sha256Ctx) : Prop where
  held : BlockHash.Holds Sha256.compress (n := 64) Sha256.initial m ctx.state.toWork
    (ctx.data.val.take ctx.datalen.toNat)
  room : ctx.datalen.toNat < 64
  bits : ctx.bitlen + UInt64.ofNat (8 * ctx.datalen.toNat) = UInt64.ofNat (8 * m.length)

theorem took_sha256Init (data : Fixed 64) : Took [] (sha256Init data) where
  held := by
    change BlockHash.Holds _ _ _ initState.toWork []
    rw [toWork_initState]
    exact BlockHash.Holds.start (by decide) Sha256.initial
  room := by
    change (0 : UInt32).toNat < 64
    decide
  bits := rfl

theorem Took.push {m : Bytes} {ctx : Sha256Ctx} (h : Took m ctx) (b : Byte) :
    Took (m ++ [b]) (sha256Push ctx b) := by
  have hroom := h.room
  have hlen : (ctx.data.val.take ctx.datalen.toNat).length = ctx.datalen.toNat := by
    rw [List.length_take, ctx.data.2]
    exact Nat.min_eq_left hroom.le
  have hnext : (ctx.datalen + 1).toNat = ctx.datalen.toNat + 1 := by
    rw [UInt32.toNat_add]
    change (ctx.datalen.toNat + 1) % 2 ^ 32 = _
    exact Nat.mod_eq_of_lt (by omega)
  have htake : (ctx.data.val.set ctx.datalen.toNat b).take (ctx.datalen.toNat + 1)
      = ctx.data.val.take ctx.datalen.toNat ++ [b] := by
    have hlt : ctx.datalen.toNat < (ctx.data.val.set ctx.datalen.toNat b).length := by
      rw [List.length_set, ctx.data.2]
      exact hroom
    rw [List.take_succ_eq_append_getElem hlt, List.take_set_of_le (le_refl _), List.getElem_set_self]
  have hbits : UInt64.ofNat (8 * (m ++ [b]).length) = UInt64.ofNat (8 * m.length) + 8 := by
    rw [List.length_append, List.length_singleton, Nat.mul_succ, UInt64.ofNat_add]
    rfl
  unfold sha256Push
  dsimp only
  by_cases hfull : ctx.datalen + 1 = 64
  · have hlast : ctx.datalen.toNat + 1 = 64 := by
      rw [← hnext, hfull]
      rfl
    have hwhole : (ctx.data.val.set ctx.datalen.toNat b)
        = ctx.data.val.take ctx.datalen.toNat ++ [b] := by
      rw [← htake, hlast, List.take_of_length_le (by rw [List.length_set, ctx.data.2])]
    rw [if_pos hfull]
    exact {
      held := by
        have hfill := h.held.fill (a := b) (by rw [hlen, hlast])
        rw [← hwhole] at hfill
        change BlockHash.Holds _ _ _ (sha256Transform _).state.toWork []
        rw [toWork_sha256Transform]
        exact hfill
      room := by
        change (0 : UInt32).toNat < 64
        decide
      bits := by
        have hmine := h.bits
        rw [show ctx.datalen.toNat = 63 by omega] at hmine
        rw [hbits, ← hmine]
        change ctx.bitlen + 512 + 0 = ctx.bitlen + 504 + 8
        rw [UInt64.add_assoc, UInt64.add_assoc]
        rfl }
  · have hroom' : ctx.datalen.toNat + 1 < 64 := by
      have hne : (ctx.datalen + 1).toNat ≠ 64 := fun he => hfull (UInt32.toNat_inj.mp he)
      omega
    rw [if_neg hfull]
    exact {
      held := by
        have hpush := h.held.push (a := b) (by rw [hlen]; exact hroom')
        dsimp only
        rw [hnext, Fixed.val_set, htake]
        exact hpush
      room := by
        dsimp only
        rw [hnext]
        exact hroom'
      bits := by
        dsimp only
        rw [hnext, hbits, ← h.bits, Nat.mul_succ, UInt64.ofNat_add, UInt64.add_assoc]
        rfl }

/-- `sha256_update` takes its bytes. -/
theorem Took.update {m : Bytes} {ctx : Sha256Ctx} (h : Took m ctx) (data : Bytes) :
    Took (m ++ data) (sha256Update ctx data) := by
  induction data generalizing m ctx with
  | nil =>
    rw [List.append_nil]
    exact h
  | cons b data ih =>
    rw [List.append_cons]
    exact ih (h.push b)

theorem Took.updates {m : Bytes} {ctx : Sha256Ctx} (h : Took m ctx) (chunks : List Bytes) :
    Took (m ++ chunks.flatten) (chunks.foldl sha256Update ctx) := by
  induction chunks generalizing m ctx with
  | nil =>
    rw [List.flatten_nil, List.append_nil]
    exact h
  | cons data chunks ih =>
    rw [List.flatten_cons, ← List.append_assoc]
    exact ih (h.update data)

theorem digest_toWork (s : Words8) : s.list.flatMap hashBytes = Sha256.digest s.toWork := by
  unfold Sha256.digest Words8.list Sha256.Work.words
  simp only [List.flatMap_cons, List.flatMap_nil, hashBytes_eq]
  rfl

/-- `sha256_final` after the calls that have taken `m`. -/
theorem Took.final {m : Bytes} {ctx : Sha256Ctx} (h : Took m ctx) :
    (sha256Final ctx).val = Sha256.hash m := by
  have hroom := h.room
  have hlen : (ctx.data.val.take ctx.datalen.toNat).length = ctx.datalen.toNat := by
    rw [List.length_take, ctx.data.2]
    exact Nat.min_eq_left hroom.le
  have hbits : ctx.bitlen + (ctx.datalen * 8).toUInt64 = UInt64.ofNat (8 * m.length) := by
    have hmul : (ctx.datalen * 8).toNat = 8 * ctx.datalen.toNat := by
      rw [UInt32.toNat_mul]
      change ctx.datalen.toNat * 8 % 2 ^ 32 = _
      omega
    have hwide : (ctx.datalen * 8).toUInt64 = UInt64.ofNat (8 * ctx.datalen.toNat) := by
      rw [← UInt64.toNat_inj, UInt32.toNat_toUInt64, hmul,
        UInt64.toNat_ofNat_of_lt' (lt_of_lt_of_le (show _ < 512 by omega) (by decide))]
    rw [hwide, h.bits]
  have hfield : (Sha256.bytes 8 (8 * m.length)).length = 8 := Sha256.length_bytes ..
  have hmark : BlockHash.octet 0x80 = (0x80 : Byte) := rfl
  have hzero : BlockHash.octet 0 = (0 : Byte) := rfl
  unfold sha256Final Sha256.hash Sha256.padded
  dsimp only
  rw [digest_toWork, toWork_sha256Transform, hmark, hzero]
  refine congrArg Sha256.digest ?_
  by_cases hshort : ctx.datalen < 56
  · have hlt : ctx.datalen.toNat < 56 := UInt32.lt_iff_toNat_lt.mp hshort
    have hfront : (ctx.data.val.take ctx.datalen.toNat ++
        0x80 :: List.replicate (56 - (ctx.datalen.toNat + 1)) 0).length = 56 := by
      rw [List.length_append, hlen, List.length_cons, List.length_replicate]
      omega
    simp only [if_pos hshort]
    rw [hbits, h.held.finish 0x80 0 (by omega), val_putBitlen, val_markTo _ hlt (by decide),
      List.take_left' hfront, hlen, hfield, List.append_assoc, List.cons_append,
      show 64 - (ctx.datalen.toNat + 1 + 8) = 56 - (ctx.datalen.toNat + 1) by omega]
  · have hge : 56 ≤ ctx.datalen.toNat := by
      rw [UInt32.lt_iff_toNat_lt] at hshort
      exact not_lt.mp hshort
    have hzeros : (List.replicate 56 (0 : Byte)).length = 56 := List.length_replicate
    have hend : ctx.data.val.drop 64 = [] := List.drop_eq_nil_of_le (ctx.data.2.le)
    simp only [if_neg hshort, sha256Transform_data, sha256Transform_datalen, sha256Transform_bitlen]
    rw [hbits, h.held.finish_two 0x80 0 (by omega) (by omega), val_putBitlen, val_clear56,
      List.take_left' hzeros, toWork_sha256Transform, val_markTo _ hroom (le_refl 64), hend,
      List.append_nil, hlen, hfield]

/-- Whatever the calls of `sha256_update` and whatever the buffer starts with, the hash is that of
the standard, of all their bytes. -/
theorem sha256_stream (garbage : Fixed 64) (chunks : List Bytes) :
    (sha256Final (chunks.foldl sha256Update (sha256Init garbage))).val = Sha256.hash chunks.flatten :=
  ((took_sha256Init garbage).updates chunks).final

end NamespaceIndexer.Hash
