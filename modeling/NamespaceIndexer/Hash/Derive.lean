import NamespaceIndexer.Daemon.Compact
import NamespaceIndexer.Hash.Scrypt
import NamespaceIndexer.Lib.Scrypt

/-!
# The proof-of-work hash against its standard

HMAC on two contexts, the output loop with its counter, the statements of Salsa20/8 in place, the
mixing of `X` in its two halves and the table `V`: together they are scrypt.
-/

namespace NamespaceIndexer.Hash

open Fold Lib

/-! ### HMAC and PBKDF2 -/

theorem sha256_eq (d : Bytes) : (sha256 d).val = Sha256.hash d := by
  have hstream := sha256_stream (zeros 64) [d]
  rwa [List.flatten_singleton] at hstream

theorem copyFrom_short {n : ℕ} {b : Bytes} (h : b.length ≤ n) :
    (copyFrom n b).val = b ++ List.replicate (n - b.length) 0 := by
  unfold copyFrom
  dsimp only
  rw [List.take_append, List.take_of_length_le h, List.take_replicate, Nat.min_eq_left (Nat.sub_le ..)]

theorem hmacKey_val (key : Bytes) :
    (hmacKey key).val = (if 64 < key.length then Sha256.hash key else key) ++
      List.replicate (64 - (if 64 < key.length then Sha256.hash key else key).length) 0 := by
  unfold hmacKey
  split
  · rw [sha256_eq]
    exact copyFrom_short (by rw [Sha256.hash, Sha256.length_digest]; decide)
  · exact copyFrom_short (by omega)

/-- The two contexts, after the updates of the inner one, make the keyed hash. -/
theorem hmacFinal_updates (key : Bytes) (chunks : List Bytes) :
    (hmacFinal { hmacInit key with inner := chunks.foldl sha256Update (hmacInit key).inner }).val
      = Scrypt.hmac Sha256.hash key chunks.flatten := by
  have hinner := ((took_sha256Init (zeros 64)).update (hmacPad (hmacKey key) 0x36)).updates chunks
  have houter := ((took_sha256Init (zeros 64)).update (hmacPad (hmacKey key) 0x5c)).update
    (Sha256.hash ([] ++ hmacPad (hmacKey key) 0x36 ++ chunks.flatten))
  unfold hmacFinal
  dsimp only
  rw [show (hmacInit key).inner = sha256Update (sha256Init (zeros 64)) (hmacPad (hmacKey key) 0x36) from rfl,
    show (hmacInit key).outer = sha256Update (sha256Init (zeros 64)) (hmacPad (hmacKey key) 0x5c) from rfl,
    hinner.final, houter.final]
  unfold Scrypt.hmac hmacPad
  rw [hmacKey_val]
  rfl

theorem counterBytes_eq (i : ℕ) : counterBytes (UInt32.ofNat i) = Scrypt.blockNumber i := by
  have hbyte : ∀ j, j < 4 → Fin.ofNat 256 (i % 2 ^ 32 / 256 ^ j) = BlockHash.octet (i / 256 ^ j) :=
    fun j hj => ofNat_mod_div i hj
  have h0 := hbyte 0 (by decide)
  have h1 := hbyte 1 (by decide)
  have h2 := hbyte 2 (by decide)
  have h3 := hbyte 3 (by decide)
  unfold counterBytes Scrypt.blockNumber
  simp only [UInt32.toNat_shiftRight, UInt32.toNat_ofNat', Nat.shiftRight_eq_div_pow, List.range,
    List.range.loop, List.reverse, List.reverseAux, List.map]
  rw [← h0, ← h1, ← h2, ← h3]
  simp

theorem pbkdf2Block_eq (pass salt : Bytes) (i : ℕ) :
    (pbkdf2Block pass salt (UInt32.ofNat i)).val
      = Scrypt.hmac Sha256.hash pass (salt ++ Scrypt.blockNumber i) := by
  have hmac := hmacFinal_updates pass [salt, counterBytes (UInt32.ofNat i)]
  rw [List.foldl_cons, List.foldl_cons, List.foldl_nil, List.flatten_cons, List.flatten_singleton] at hmac
  unfold pbkdf2Block
  rw [← counterBytes_eq]
  exact hmac

theorem pbkdf2Loop_eq (pass salt : Bytes) (i dklen : ℕ) :
    pbkdf2Loop pass salt (UInt32.ofNat (i + 1)) dklen
      = ((List.range ((dklen + 31) / 32)).flatMap fun j =>
          Scrypt.hmac Sha256.hash pass (salt ++ Scrypt.blockNumber (i + j + 1))).take dklen := by
  induction dklen using Nat.strong_induction_on generalizing i with
  | _ dklen ih =>
    have hblock : (Scrypt.hmac Sha256.hash pass (salt ++ Scrypt.blockNumber (i + 1))).length = 32 := by
      unfold Scrypt.hmac Sha256.hash
      exact Sha256.length_digest _
    rw [pbkdf2Loop]
    by_cases hz : dklen = 0
    · rw [dif_pos hz, hz, List.take_zero]
    · have hrange : (dklen + 31) / 32 = (dklen - 32 + 31) / 32 + 1 := by omega
      have hcount : UInt32.ofNat (i + 1) + 1 = UInt32.ofNat (i + 1 + 1) := by
        rw [UInt32.ofNat_add (i + 1) 1]
        rfl
      have hrest : dklen - (if dklen < 32 then dklen else 32) = dklen - 32 := by split <;> omega
      rw [dif_neg hz]
      dsimp only
      rw [pbkdf2Block_eq, hcount, hrest, ih (dklen - 32) (by omega) (i + 1), hrange,
        List.range_succ_eq_map, List.flatMap_cons, List.flatMap_map, List.take_append, hblock, Nat.add_zero]
      refine congrArg₂ (· ++ ·) ?_ ?_
      · split
        · rfl
        · rw [List.take_of_length_le (by omega), List.take_of_length_le (by omega)]
      · simp only [Nat.add_assoc, Nat.add_comm 1]

theorem pbkdf2C1_eq (pass salt : Bytes) (dklen : ℕ) :
    pbkdf2C1 pass salt dklen = Scrypt.pbkdf2 (Scrypt.hmac Sha256.hash pass) salt dklen := by
  have hloop := pbkdf2Loop_eq pass salt 0 dklen
  simp only [Nat.zero_add] at hloop
  exact hloop

/-! ### Salsa20/8 -/

def toBlock (x : Vector UInt32 16) : Scrypt.Block := x.map UInt32.toBitVec

theorem toBlock_get (x : Vector UInt32 16) (i : Fin 16) : (toBlock x).get i = (x.get i).toBitVec :=
  Vector.getElem_map ..

theorem toBlock_set (x : Vector UInt32 16) (i : Fin 16) (w : UInt32) :
    toBlock (Scrypt.put x i w) = Scrypt.put (toBlock x) i w.toBitVec := by
  simp [toBlock, Scrypt.put]

theorem toBlock_ofFn (f : Fin 16 → UInt32) :
    toBlock (Vector.ofFn f) = Vector.ofFn fun i => (f i).toBitVec := by
  refine Vector.ext fun i hi => ?_
  simp [toBlock]

theorem toBitVec_R (a : UInt32) {b : UInt32} {n : ℕ} (hb : b.toNat = n) (hpos : 0 < n) (hlt : n < 32) :
    (R a b).toBitVec = a.toBitVec.rotateLeft n := by
  have hsub : (32 - b).toNat = 32 - n := by
    rw [UInt32.toNat_sub_of_le _ _ (by rw [UInt32.le_iff_toNat_le, hb]; exact hlt.le), hb]
    rfl
  refine BitVec.eq_of_toNat_eq ?_
  rw [BitVec.rotateLeft_def, Nat.mod_eq_of_lt hlt, BitVec.toNat_or, BitVec.toNat_ushiftRight,
    BitVec.toNat_shiftLeft]
  change (R a b).toNat = a.toNat <<< n % 2 ^ 32 ||| a.toNat >>> (32 - n)
  unfold R
  rw [UInt32.toNat_or, UInt32.toNat_shiftRight, UInt32.toNat_shiftLeft, hb, hsub,
    Nat.mod_eq_of_lt hlt, Nat.mod_eq_of_lt (by omega : 32 - n < 32)]

/-- The four statements of a quarter round. -/
def quadSteps (q : Scrypt.Quad) : List XorStep :=
  let (i0, i1, i2, i3) := q
  [⟨i1, i0, i3, 7⟩, ⟨i2, i1, i0, 9⟩, ⟨i3, i2, i1, 13⟩, ⟨i0, i3, i2, 18⟩]

theorem salsaSteps_eq : salsaSteps = (Scrypt.columns ++ Scrypt.rows).flatMap quadSteps := rfl

def Distinct (q : Scrypt.Quad) : Prop :=
  q.1 ≠ q.2.1 ∧ q.1 ≠ q.2.2.1 ∧ q.1 ≠ q.2.2.2 ∧ q.2.1 ≠ q.2.2.1 ∧ q.2.1 ≠ q.2.2.2 ∧ q.2.2.1 ≠ q.2.2.2

instance : DecidablePred Distinct := fun _ => instDecidableAnd

theorem toBlock_run (x : Vector UInt32 16) (d a b : Fin 16) {n : UInt32} {k : ℕ} (hn : n.toNat = k)
    (hpos : 0 < k) (hlt : k < 32) :
    toBlock (XorStep.run x ⟨d, a, b, n⟩) = Scrypt.put (toBlock x) d
      ((toBlock x).get d ^^^ ((toBlock x).get a + (toBlock x).get b).rotateLeft k) := by
  unfold XorStep.run
  dsimp only
  rw [toBlock_set, UInt32.toBitVec_xor, toBitVec_R _ hn hpos hlt, UInt32.toBitVec_add, toBlock_get,
    toBlock_get, toBlock_get]

/-- In place, on four different words, the statements make the quarter round. -/
theorem toBlock_quadSteps (x : Vector UInt32 16) {q : Scrypt.Quad} (hq : Distinct q) :
    toBlock ((quadSteps q).foldl XorStep.run x) = Scrypt.quarterround (toBlock x) q := by
  obtain ⟨i0, i1, i2, i3⟩ := q
  obtain ⟨h01, h02, h03, h12, h13, h23⟩ := hq
  dsimp only at h01 h02 h03 h12 h13 h23
  unfold quadSteps Scrypt.quarterround
  simp only [List.foldl_cons, List.foldl_nil]
  rw [toBlock_run _ _ _ _ (k := 18) rfl (by decide) (by decide),
    toBlock_run _ _ _ _ (k := 13) rfl (by decide) (by decide),
    toBlock_run _ _ _ _ (k := 9) rfl (by decide) (by decide),
    toBlock_run _ _ _ _ (k := 7) rfl (by decide) (by decide)]
  simp only [Scrypt.get_put_of_ne _ _ h01.symm, Scrypt.get_put_of_ne _ _ h02.symm,
    Scrypt.get_put_of_ne _ _ h03.symm, Scrypt.get_put_of_ne _ _ h12, Scrypt.get_put_of_ne _ _ h12.symm,
    Scrypt.get_put_of_ne _ _ h13, Scrypt.get_put_of_ne _ _ h23, Scrypt.get_put_of_ne _ _ h23.symm,
    Scrypt.get_put_self]

theorem toBlock_quads (x : Vector UInt32 16) {qs : List Scrypt.Quad} (hqs : ∀ q ∈ qs, Distinct q) :
    toBlock ((qs.flatMap quadSteps).foldl XorStep.run x) = qs.foldl Scrypt.quarterround (toBlock x) := by
  induction qs generalizing x with
  | nil => rfl
  | cons q qs ih =>
    rw [List.flatMap_cons, List.foldl_append, List.foldl_cons,
      ih _ fun q' hq' => hqs q' (List.mem_cons_of_mem _ hq'), toBlock_quadSteps x (hqs q List.mem_cons_self)]

theorem quads_distinct : ∀ q ∈ Scrypt.columns ++ Scrypt.rows, Distinct q := by
  have hall : (Scrypt.columns ++ Scrypt.rows).all (fun q => Distinct q) = true := rfl
  exact fun q hq => of_decide_eq_true (List.all_eq_true.mp hall q hq)

theorem toBlock_salsa8 (x : Vector UInt32 16) : toBlock (salsa8 x) = Scrypt.salsa (toBlock x) := by
  have hround : Function.Semiconj toBlock (fun x => salsaSteps.foldl XorStep.run x) Scrypt.doubleround :=
    fun x => by
      rw [salsaSteps_eq, toBlock_quads x quads_distinct]
      rfl
  unfold salsa8 Scrypt.salsa
  dsimp only
  rw [List.foldl_const, List.length_range, toBlock_ofFn, ← hround.iterate_right 4 x]
  refine Vector.ext fun i hi => ?_
  simp only [toBlock, Vector.getElem_ofFn, Vector.getElem_zipWith, Vector.getElem_map]
  rfl

/-! ### The mixing of the two halves -/

/-- The two blocks of `X`. -/
def Words32.blocks (X : Words32) : List Scrypt.Block := [toBlock X.lo, toBlock X.hi]

theorem toBlock_xor (x y : Vector UInt32 16) :
    toBlock (Vector.ofFn fun i => x.get i ^^^ y.get i) = Scrypt.xor (toBlock x) (toBlock y) := by
  refine Vector.ext fun i hi => ?_
  simp only [toBlock, Scrypt.xor, Vector.getElem_map, Vector.getElem_ofFn, Vector.getElem_zipWith]
  rfl

theorem xor_comm (x y : Scrypt.Block) : Scrypt.xor x y = Scrypt.xor y x := by
  refine Vector.ext fun i hi => ?_
  simp only [Scrypt.xor, Vector.getElem_zipWith]
  exact BitVec.xor_comm _ _

theorem blocks_blockmixR1 (X : Words32) : (blockmixR1 X).blocks = Scrypt.blockMix X.blocks := by
  unfold blockmixR1 Words32.blocks Scrypt.blockMix
  simp only [toBlock_salsa8, toBlock_xor, List.getLastD_cons, List.getLastD_nil, Scrypt.mixed,
    List.tail_cons, Scrypt.evens, List.cons_append, List.nil_append]
  rw [xor_comm (toBlock X.hi) (toBlock X.lo), xor_comm (toBlock X.hi)]

/-- `V[i]` is what `i` mixes make of `X`, and `X` goes on from there. -/
theorem fillV_eq (N : ℕ) (X : Words32) :
    (fillV N X).1 = (List.range N).map (fun i => blockmixR1^[i] X) ∧ (fillV N X).2 = blockmixR1^[N] X := by
  induction N with
  | zero => exact ⟨rfl, rfl⟩
  | succ N ih =>
    obtain ⟨hV, hX⟩ := ih
    have hstep : fillV (N + 1) X = ((fillV N X).1 ++ [(fillV N X).2], blockmixR1 (fillV N X).2) := by
      unfold fillV
      rw [List.range_succ, List.foldl_append]
      rfl
    rw [hstep, hV, hX, List.range_succ, List.map_append, Function.iterate_succ_apply']
    exact ⟨rfl, rfl⟩

/-- The mask of the lowest word of a little-endian number is its remainder. -/
theorem integerify_mask (X : Words32) {N : UInt32} {k : ℕ} (hN : N.toNat = 2 ^ k) :
    ((X.hi.get 0) &&& (N - 1)).toNat = Scrypt.integerify X.blocks % 2 ^ k := by
  have hk : k ≤ 32 := by
    have hlt : 2 ^ k < 2 ^ 32 := hN ▸ N.toNat_lt
    exact ((Nat.pow_lt_pow_iff_right (by decide)).mp hlt).le
  have hpred : (N - 1).toNat = 2 ^ k - 1 := by
    have hpos : (1 : UInt32).toNat ≤ N.toNat := hN ▸ Nat.one_le_two_pow
    rw [UInt32.toNat_sub_of_le _ _ (UInt32.le_iff_toNat_le.mpr hpos), hN]
    rfl
  have hlow : ∃ rest, Scrypt.integerify X.blocks = (X.hi.get 0).toNat + 2 ^ 32 * rest := by
    have hlist : (toBlock X.hi).toList = (X.hi.get 0).toBitVec :: (toBlock X.hi).toList.tail := by
      have hne : (toBlock X.hi).toList ≠ [] := fun he => by
        have hlen := (toBlock X.hi).length_toList
        rw [he] at hlen
        cases hlen
      rw [← List.cons_head_tail hne, List.head_eq_getElem, Vector.getElem_toList]
      exact congrArg (· :: _) (toBlock_get X.hi 0)
    unfold Scrypt.integerify Words32.blocks
    rw [List.getLastD_cons, List.getLastD_cons, List.getLastD_nil, hlist, List.foldr_cons]
    exact ⟨_, rfl⟩
  obtain ⟨rest, hrest⟩ := hlow
  rw [UInt32.toNat_and, hpred, Nat.and_two_pow_sub_one_eq_mod, hrest]
  have hsplit : 2 ^ 32 * rest = 2 ^ k * (2 ^ (32 - k) * rest) := by
    rw [← Nat.mul_assoc, ← Nat.pow_add, Nat.add_sub_cancel' hk]
  rw [hsplit, Nat.add_mul_mod_self_left]

theorem blocks_mixV (X₀ X : Words32) {N : UInt32} {k : ℕ} (hN : N.toNat = 2 ^ k) :
    (mixV ((List.range N.toNat).map fun i => blockmixR1^[i] X₀) N X).blocks
      = Scrypt.blockMix (Scrypt.xorAll X.blocks
          (Scrypt.blockMix^[Scrypt.integerify X.blocks % N.toNat] X₀.blocks)) := by
  have hmix : Function.Semiconj Words32.blocks blockmixR1 Scrypt.blockMix := blocks_blockmixR1
  have hj := integerify_mask X hN
  have hlt : Scrypt.integerify X.blocks % 2 ^ k < N.toNat := by
    rw [hN]
    exact Nat.mod_lt _ (by positivity)
  unfold mixV
  dsimp only
  rw [blocks_blockmixR1, hj, hN, ← hmix.iterate_right _ X₀, List.getD_eq_getElem?_getD, List.getElem?_map,
    List.getElem?_range (hN ▸ hlt), Option.map_some, Option.getD_some]
  unfold Words32.blocks Scrypt.xorAll
  rw [toBlock_xor, toBlock_xor]
  rfl

/-- The two loops over `V` are the memory-hard function. -/
theorem blocks_loops (X : Words32) {N : UInt32} {k : ℕ} (hN : N.toNat = 2 ^ k) :
    ((List.range N.toNat).foldl (fun Y _ => mixV (fillV N.toNat X).1 N Y) (fillV N.toNat X).2).blocks
      = Scrypt.roMix N.toNat X.blocks := by
  obtain ⟨hV, hX⟩ := fillV_eq N.toNat X
  have hmix : Function.Semiconj Words32.blocks blockmixR1 Scrypt.blockMix := blocks_blockmixR1
  have hloop : Function.Semiconj Words32.blocks
      (mixV ((List.range N.toNat).map fun i => blockmixR1^[i] X) N)
      (fun x => Scrypt.blockMix (Scrypt.xorAll x
        (Scrypt.blockMix^[Scrypt.integerify x % N.toNat] X.blocks))) := fun Y => blocks_mixV X Y hN
  rw [hV, hX, List.foldl_const, List.length_range, hloop.iterate_right N.toNat, hmix.iterate_right N.toNat]
  rfl

/-! ### Words and bytes -/

theorem leVal_eq_foldr (b : Bytes) : leVal b = b.foldr (fun d v => d.val + 256 * v) 0 := by
  induction b with
  | nil => rfl
  | cons d b ih => rw [leVal, List.foldr_cons, ih]

theorem toBitVec_leWord (b : Bytes) (j : ℕ) :
    (leWord b j).toBitVec = Scrypt.wordOf ((b.drop j).take 4) := by
  unfold leWord Scrypt.wordOf
  rw [leVal_eq_foldr]
  rfl

theorem blocks_wordsOf (b : Bytes) : (wordsOf b).blocks = Scrypt.blocksOf 2 b := by
  unfold wordsOf Words32.blocks Scrypt.blocksOf Scrypt.blockOf
  simp only [toBlock_ofFn, toBitVec_leWord, List.range, List.range.loop, List.map, List.drop_drop,
    Nat.mul_zero, Nat.mul_one, Nat.zero_add]

theorem wordBytes_eq (x : UInt32) : wordBytes x = Scrypt.octets x.toBitVec := by
  unfold wordBytes Scrypt.octets
  simp only [List.range, List.range.loop, List.map, UInt32.toNat_shiftRight, Nat.shiftRight_eq_div_pow]
  simp
  exact ⟨rfl, rfl, rfl, rfl⟩

theorem bytes_eq (X : Words32) : X.bytes = Scrypt.blockOctets X.blocks := by
  have hwords : wordBytes = fun x : UInt32 => Scrypt.octets x.toBitVec := funext wordBytes_eq
  unfold Words32.bytes Scrypt.blockOctets Words32.blocks toBlock
  simp only [List.flatMap_cons, List.flatMap_nil, List.append_nil, Vector.toList_map, List.flatMap_map,
    hwords]

/-- `scrypt_r1p1` is scrypt wherever its `N` is a power of two. -/
theorem scryptR1P1_eq (pass : Bytes) {N : UInt32} {k : ℕ} (hN : N.toNat = 2 ^ k) (dklen : ℕ) :
    scryptR1P1 true pass N dklen = Scrypt.scrypt Sha256.hash pass pass N.toNat 1 dklen := by
  unfold scryptR1P1 Scrypt.scrypt
  dsimp only
  rw [pbkdf2C1_eq, bytes_eq, pbkdf2C1_eq, blocks_loops _ hN, blocks_wordsOf]
  rfl

/-! ### The hash of a header -/

/-- No target is as large as the hash of a header whose table could not be allocated. -/
theorem idxPowCheck2_of_mallocFailed (sha : Bytes → Hash256) (pp : Daemon.PowParams) (raw : Bytes) :
    Daemon.idxPowCheck2 sha (idxPowHash false) pp raw = none := by
  have hmax : ∀ hdr, leVal (idxPowHash false hdr).val = 2 ^ 256 - 1 := fun hdr => by
    rw [show (idxPowHash false hdr).val = List.replicate 32 0xFF from rfl]
    decide
  have htarget : ∀ {target}, Daemon.powTarget pp raw = some target → target < 2 ^ 255 := by
    intro target ht
    unfold Daemon.powTarget at ht
    split at ht
    · cases ht
    · split at ht
      · rename_i t limit hbits _
        split at ht
        · cases ht
        · rw [← Option.some_inj.mp ht]
          exact (Daemon.bitsToTarget_bounds hbits).2
      · cases ht
  rw [Option.eq_none_iff_forall_ne_some]
  intro span hspan
  obtain ⟨target, ht, ⟨-, hle, -⟩ | ⟨-, a, r, -, hok, -⟩⟩ := Daemon.idxPowCheck2_eq_some.mp hspan
  · have hlt := htarget ht
    rw [hmax] at hle
    omega
  · have hlt := htarget ht
    have hle : leVal (idxPowHash false a.parent).val ≤ target := by
      unfold Daemon.auxpowOk at hok
      simp only [Bool.and_eq_true, decide_eq_true_eq] at hok
      exact hok.2
    rw [hmax] at hle
    omega

/-- The hash of a header is scrypt with `N = 1024` and `r = 1` of the header, salted with itself; where
memory runs out no header passes. -/
theorem idxPowHash_scrypt (hdr : Bytes) :
    (idxPowHash true hdr).val = Scrypt.scrypt Sha256.hash hdr hdr 1024 1 32 ∧
      ∀ (sha : Bytes → Hash256) (pp : Daemon.PowParams) (raw : Bytes),
        Daemon.idxPowCheck2 sha (idxPowHash false) pp raw = none :=
  ⟨scryptR1P1_eq hdr (N := 1024) (k := 10) rfl 32, idxPowCheck2_of_mallocFailed⟩

end NamespaceIndexer.Hash
