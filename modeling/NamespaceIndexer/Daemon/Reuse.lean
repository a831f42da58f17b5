import NamespaceIndexer.Daemon.Headers
import NamespaceIndexer.Lib.MerklePath

/-!
# One parent proof of work backs one block

The parent header pins the coinbase, the coinbase its script, and the script the aux root and the
slot below it. The marker makes the place of the root unique.
-/

namespace NamespaceIndexer.Daemon

open Fold Lib

variable (sha256 idxPowHash : Bytes → Hash256)

/-- The string of a tree node, from the sibling and its side. -/
def nodePair (side : Bool) (s : Bytes) (d : Hash256) : Bytes :=
  if side then s ++ d.val else d.val ++ s

/-- The path of a merkle branch. -/
def branchPath : ℕ → Bytes → ℕ → List (Bool × Bytes)
  | 0, _, _ => []
  | n + 1, branch, index =>
    (index % 2 == 1, branch.take 32) :: branchPath n (branch.drop 32) (index / 2)

/-- What the hash of the parent coinbase is taken of. -/
def pcCoinbaseText : Cur Bytes := do
  let version ← curTake 4
  let (segwit, vin, vinBytes) ← pcVin
  Reader.require (vin != 0 && vin ≤ 1000)
  let body ← Reader.span (pcBody vin)
  let _ ← Reader.replicate pcWitness (if segwit then vin else 0)
  let locktime ← curTake 4
  pure (version ++ vinBytes ++ body.2 ++ locktime)

/-- The AuxPoW behind a header. -/
def auxpowOf (raw : Bytes) : Option AuxPow := (pcAuxpow sha256 (raw.drop 80)).map Prod.fst

/-- The strings that `idx_pow_check2` hashes for a merged-mined block. -/
def auxStrings (raw : Bytes) : List Bytes :=
  match pcCoinbaseText (raw.drop 80), auxpowOf sha256 raw with
  | some (text, _), some a =>
    text :: MerklePath.inputs (idxSha256d sha256) nodePair (branchPath a.mb.n a.mb.nodes 0) a.cbHash ++
      raw.take 80 :: MerklePath.inputs (idxSha256d sha256) nodePair
        (branchPath a.chb.n a.chb.nodes a.chb.index) (idxSha256d sha256 (raw.take 80))
  | _, _ => []

section Paths

variable {sha256}

theorem nodePair_inj (side : Bool) (s s' : Bytes) (d d' : Hash256)
    (h : nodePair side s d = nodePair side s' d') : d = d' := by
  have hlen : d.val.length = d'.val.length := d.property.trans d'.property.symm
  unfold nodePair at h
  cases side with
  | true => exact Subtype.ext (List.append_inj' h hlen).2
  | false => exact Subtype.ext (List.append_inj h hlen).1

theorem branchApply_eq (n : ℕ) (branch : Bytes) (index : ℕ) (h : Hash256) :
    branchApply sha256 n branch index h =
      MerklePath.climb (idxSha256d sha256) nodePair (branchPath n branch index) h := by
  induction n generalizing branch index h with
  | zero => rfl
  | succ n ih =>
    unfold branchApply
    rw [ih]
    show _ = MerklePath.climb _ _ (branchPath n (branch.drop 32) (index / 2))
      (idxSha256d sha256 (nodePair (index % 2 == 1) (branch.take 32) h))
    unfold nodePair
    simp only [beq_iff_eq]

@[simp] theorem branchPath_length (n : ℕ) (branch : Bytes) (index : ℕ) :
    (branchPath n branch index).length = n := by
  induction n generalizing branch index with
  | zero => rfl
  | succ n ih => exact congrArg (· + 1) (ih _ _)

theorem branchPath_sides (n : ℕ) (branch branch' : Bytes) (index : ℕ) :
    (branchPath n branch index).map Prod.fst = (branchPath n branch' index).map Prod.fst := by
  induction n generalizing branch branch' index with
  | zero => rfl
  | succ n ih => exact congrArg (_ :: ·) (ih _ _ _)

/-- At index zero every sibling stands on the right. -/
theorem branchPath_zero_sides (n : ℕ) (branch : Bytes) :
    (branchPath n branch 0).map Prod.fst = List.replicate n false := by
  induction n generalizing branch with
  | zero => rfl
  | succ n ih => exact congrArg (false :: ·) (ih _)

theorem branchPath_nodes {n : ℕ} {branch : Bytes} (h : branch.length = n * 32) (index : ℕ) :
    ∀ x ∈ branchPath n branch index, x.2.length = 32 := by
  induction n generalizing branch index with
  | zero => exact fun _ hx => absurd hx List.not_mem_nil
  | succ n ih =>
    intro x hx
    rcases List.mem_cons.mp hx with rfl | hx
    · show (branch.take 32).length = 32
      rw [List.length_take]
      omega
    · refine ih ?_ _ x hx
      rw [List.length_drop]
      omega

end Paths

/-! ### The coinbase text -/

section Text

variable {sha256}

/-- A text from which the script of the first input is read back. -/
def ReadsScript (script text : Bytes) : Prop :=
  ∃ version vinBytes vin body locktime, text = version ++ (vinBytes ++ (body ++ locktime)) ∧
    version.length = 4 ∧ vin ≠ 0 ∧ (∀ r, pcVarint (vinBytes ++ r) = some (vin, r)) ∧
      ∀ r, pcBody vin (body ++ r) = some (script, r)

theorem pcVin_again {s r vinBytes : Bytes} {segwit : Bool} {vin : ℕ}
    (h : pcVin s = some ((segwit, vin, vinBytes), r)) (r' : Bytes) :
    pcVarint (vinBytes ++ r') = some (vin, r') := by
  obtain ⟨⟨first, bytes⟩, t, hfirst, h⟩ := Reader.bind_eq_some.mp h
  by_cases hzero : first = 0
  · rw [if_pos hzero] at h
    obtain ⟨flag, t1, -, h⟩ := Reader.bind_eq_some.mp h
    obtain ⟨⟨second, bytes'⟩, t2, hsecond, h⟩ := Reader.bind_eq_some.mp h
    obtain ⟨hpair, -⟩ := Reader.pure_eq_some.mp h
    cases hpair
    exact (pcVarint_local.span_again hsecond).2 r'
  · rw [if_neg hzero] at h
    obtain ⟨hpair, -⟩ := Reader.pure_eq_some.mp h
    cases hpair
    exact (pcVarint_local.span_again hfirst).2 r'

theorem pcCoinbase_text {s r script : Bytes} {h : Hash256}
    (hs : pcCoinbase sha256 s = some ((script, h), r)) :
    ∃ text, pcCoinbaseText s = some (text, r) ∧ h = idxSha256d sha256 text ∧
      ReadsScript script text := by
  obtain ⟨version, t1, hver, hs⟩ := Reader.bind_eq_some.mp hs
  obtain ⟨⟨segwit, vin, vinBytes⟩, t2, hvin, hs⟩ := Reader.bind_eq_some.mp hs
  obtain ⟨⟨⟩, t3, hreq, hs⟩ := Reader.bind_eq_some.mp hs
  obtain ⟨⟨script', body⟩, t4, hbody, hs⟩ := Reader.bind_eq_some.mp hs
  obtain ⟨witness, t5, hwit, hs⟩ := Reader.bind_eq_some.mp hs
  obtain ⟨locktime, t6, hlock, hs⟩ := Reader.bind_eq_some.mp hs
  obtain ⟨hpair, rfl⟩ := Reader.pure_eq_some.mp hs
  cases hpair
  have htext : pcCoinbaseText s = some (version ++ vinBytes ++ body ++ locktime, t6) :=
    Reader.bind_eq_some.mpr ⟨version, t1, hver, Reader.bind_eq_some.mpr
      ⟨(segwit, vin, vinBytes), t2, hvin, Reader.bind_eq_some.mpr ⟨(), t3, hreq,
        Reader.bind_eq_some.mpr ⟨(script', body), t4, hbody, Reader.bind_eq_some.mpr
          ⟨witness, t5, hwit, Reader.bind_eq_some.mpr ⟨locktime, t6, hlock, rfl⟩⟩⟩⟩⟩⟩
  refine ⟨_, htext, rfl, version, vinBytes, vin, body, locktime, ?_, ?_, ?_, ?_, ?_⟩
  · rw [List.append_assoc, List.append_assoc]
  · exact (Reader.take_eq_some.mp hver).2
  · have hok := (Reader.require_eq_some.mp hreq).1
    rw [Bool.and_eq_true, bne_iff_ne] at hok
    exact hok.1
  · exact pcVin_again hvin
  · exact ((pcBody_local vin).span_again hbody).2

theorem ReadsScript.unique {script script' text : Bytes} (h : ReadsScript script text)
    (h' : ReadsScript script' text) : script = script' := by
  obtain ⟨version, vinBytes, vin, body, locktime, htext, hver, -, hvin, hbody⟩ := h
  obtain ⟨version', vinBytes', vin', body', locktime', htext', hver', -, hvin', hbody'⟩ := h'
  obtain ⟨-, hrest⟩ := List.append_inj (htext.symm.trans htext') (hver.trans hver'.symm)
  have hcount := hvin (body ++ locktime)
  rw [hrest, hvin', Option.some_inj, Prod.mk.injEq] at hcount
  obtain ⟨rfl, hrest'⟩ := hcount
  have hread := hbody locktime
  rw [← hrest', hbody', Option.some_inj, Prod.mk.injEq] at hread
  exact hread.1.symm

theorem pcIn_length {s r script : Bytes} (h : pcIn s = some (script, r)) :
    40 + script.length ≤ s.length := by
  obtain ⟨outpoint, t1, hout, h⟩ := Reader.bind_eq_some.mp h
  obtain ⟨sl, t2, hsl, h⟩ := Reader.bind_eq_some.mp h
  obtain ⟨⟨⟩, t3, hreq, h⟩ := Reader.bind_eq_some.mp h
  obtain ⟨script', t4, hscript, h⟩ := Reader.bind_eq_some.mp h
  obtain ⟨sequence, t5, hseq, h⟩ := Reader.bind_eq_some.mp h
  obtain ⟨rfl, -⟩ := Reader.pure_eq_some.mp h
  have hle := pcVarint_local.length_le hsl
  obtain ⟨-, rfl⟩ := Reader.require_eq_some.mp hreq
  obtain ⟨rfl, hout⟩ := Reader.take_eq_some.mp hout
  obtain ⟨rfl, -⟩ := Reader.take_eq_some.mp hscript
  obtain ⟨rfl, hseq⟩ := Reader.take_eq_some.mp hseq
  rw [List.length_append, List.length_append] at hle
  rw [List.length_append]
  omega

/-- The text is longer than the script, its outpoint, and the version before them. -/
theorem ReadsScript.length {script text : Bytes} (h : ReadsScript script text) :
    40 + script.length ≤ text.length := by
  obtain ⟨version, vinBytes, vin, body, locktime, rfl, hver, hne, -, hbody⟩ := h
  have hread := hbody []
  obtain ⟨k, rfl⟩ : ∃ k, vin = k + 1 := ⟨vin - 1, by omega⟩
  obtain ⟨scripts, t1, hins, hrest⟩ := Reader.bind_eq_some.mp hread
  obtain ⟨first, t2, hfirst, hins⟩ := Reader.bind_eq_some.mp hins
  obtain ⟨others, t3, hothers, hins⟩ := Reader.bind_eq_some.mp hins
  obtain ⟨rfl, rfl⟩ := Reader.pure_eq_some.mp hins
  obtain ⟨vout, t4, -, hrest⟩ := Reader.bind_eq_some.mp hrest
  obtain ⟨⟨⟩, t5, -, hrest⟩ := Reader.bind_eq_some.mp hrest
  obtain ⟨outs, t6, -, hrest⟩ := Reader.bind_eq_some.mp hrest
  have hscript : first = script := (Reader.pure_eq_some.mp hrest).1
  have hlen := pcIn_length hfirst
  rw [List.append_nil] at hlen
  rw [List.length_append, List.length_append, List.length_append, ← hscript]
  omega

end Text

/-! ### The commitment -/

theorem findBytes_some {pat s : Bytes} {i : ℕ} (h : findBytes pat s = some i) :
    (s.drop i).take pat.length = pat := by
  have hpre := List.find?_some h
  have heq := List.prefix_iff_eq_take.mp (List.isPrefixOf_iff_prefix.mp hpre)
  exact heq.symm

/-- With the marker in the script the root stands behind it, and the slot is fixed. -/
theorem auxCommitted_marked {script root : Bytes} {n index auxChainId head : ℕ}
    (hmm : findBytes mmHeader script = some head)
    (h : auxCommitted script root n index auxChainId = true) :
    (script.drop (head + 4)).take root.length = root ∧ head + 44 ≤ script.length ∧
      le32At script (head + 36) = 2 ^ n ∧
      index = auxSlot (le32At script (head + 40)) auxChainId % 2 ^ n := by
  unfold auxCommitted at h
  cases hroot : findBytes root script with
  | none =>
    rw [hroot] at h
    cases h
  | some i =>
    rw [hroot, hmm] at h
    simp only [Bool.and_eq_true, beq_iff_eq, decide_eq_true_eq] at h
    obtain ⟨⟨-, rfl⟩, ⟨hlen, hsize⟩, hslot⟩ := h
    exact ⟨findBytes_some hroot, by omega, hsize, hslot⟩

section Binding

variable {sha256 idxPowHash}

/-- What the check says of a merged-mined block. -/
theorem idxPowCheck2_auxpow {pp : PowParams} {raw : Bytes} {a : AuxPow}
    (hok : (idxPowCheck2 sha256 idxPowHash pp raw).isSome) (hm : ¬ DirectMined raw)
    (ha : auxpowOf sha256 raw = some a) :
    ∃ target, auxpowOk sha256 idxPowHash pp (raw.take 80) target a = true := by
  obtain ⟨span, hspan⟩ := Option.isSome_iff_exists.mp hok
  obtain ⟨target, -, ⟨hd, -⟩ | ⟨-, a', r, ha', hok', -⟩⟩ := idxPowCheck2_eq_some.mp hspan
  · exact absurd hd hm
  · unfold auxpowOf at ha
    rw [ha', Option.map_some, Option.some_inj] at ha
    exact ⟨target, ha ▸ hok'⟩

/-- What an AuxPoW was read from. -/
theorem auxpowOf_parts {raw : Bytes} {a : AuxPow} (ha : auxpowOf sha256 raw = some a) :
    ∃ text, a.cbHash = idxSha256d sha256 text ∧ ReadsScript a.script text ∧
      a.mb.nodes.length = a.mb.n * 32 ∧
      auxStrings sha256 raw = text :: MerklePath.inputs (idxSha256d sha256) nodePair
          (branchPath a.mb.n a.mb.nodes 0) a.cbHash ++
        raw.take 80 :: MerklePath.inputs (idxSha256d sha256) nodePair
          (branchPath a.chb.n a.chb.nodes a.chb.index) (idxSha256d sha256 (raw.take 80)) := by
  obtain ⟨⟨a', r⟩, hread, heq⟩ := Option.map_eq_some_iff.mp ha
  have heq' : a' = a := heq
  subst heq'
  obtain ⟨⟨script, cbHash⟩, t1, hcb, hread⟩ := Reader.bind_eq_some.mp hread
  obtain ⟨_, t2, -, hread⟩ := Reader.bind_eq_some.mp hread
  obtain ⟨mb, t3, hmb, hread⟩ := Reader.bind_eq_some.mp hread
  obtain ⟨chb, t4, -, hread⟩ := Reader.bind_eq_some.mp hread
  obtain ⟨parent, t5, -, hread⟩ := Reader.bind_eq_some.mp hread
  obtain ⟨rfl, -⟩ := Reader.pure_eq_some.mp hread
  obtain ⟨text, htext, hhash, hscript⟩ := pcCoinbase_text hcb
  refine ⟨text, hhash, hscript, ?_, ?_⟩
  · obtain ⟨n, u1, -, hmb⟩ := Reader.bind_eq_some.mp hmb
    obtain ⟨⟨⟩, u2, -, hmb⟩ := Reader.bind_eq_some.mp hmb
    obtain ⟨nodes, u3, hnodes, hmb⟩ := Reader.bind_eq_some.mp hmb
    obtain ⟨index, u4, -, hmb⟩ := Reader.bind_eq_some.mp hmb
    obtain ⟨rfl, -⟩ := Reader.pure_eq_some.mp hmb
    exact (Reader.take_eq_some.mp hnodes).2
  · unfold auxStrings
    rw [htext, ha]

theorem nodePair_length {side : Bool} {s : Bytes} {d : Hash256} (h : s.length = 32) :
    (nodePair side s d).length = 64 := by
  have hd := d.property
  unfold nodePair
  cases side with
  | true =>
    show (s ++ d.val).length = 64
    rw [List.length_append]
    omega
  | false =>
    show (d.val ++ s).length = 64
    rw [List.length_append]
    omega

/-- A coinbase at the left edge of a tree is no node of a higher one. -/
theorem coinbase_not_node {text text' : Bytes} {b b' : PcBranch} (hlt : b.n < b'.n)
    (hnodes' : b'.nodes.length = b'.n * 32) (hlen : 64 < text.length)
    (hapart : MerklePath.Apart (idxSha256d sha256)
      (text :: MerklePath.inputs (idxSha256d sha256) nodePair (branchPath b.n b.nodes 0)
        (idxSha256d sha256 text))
      (text' :: MerklePath.inputs (idxSha256d sha256) nodePair (branchPath b'.n b'.nodes 0)
        (idxSha256d sha256 text')))
    (h : MerklePath.climb (idxSha256d sha256) nodePair (branchPath b.n b.nodes 0)
        (idxSha256d sha256 text) =
      MerklePath.climb (idxSha256d sha256) nodePair (branchPath b'.n b'.nodes 0)
        (idxSha256d sha256 text')) : False := by
  have hlevels : (branchPath b.n b.nodes 0).length < (branchPath b'.n b'.nodes 0).length := by
    rw [branchPath_length, branchPath_length]
    exact hlt
  have hsides : (branchPath b.n b.nodes 0).map Prod.fst =
      ((branchPath b'.n b'.nodes 0).drop
        ((branchPath b'.n b'.nodes 0).length - (branchPath b.n b.nodes 0).length)).map Prod.fst := by
    rw [List.map_drop, branchPath_zero_sides, branchPath_zero_sides, branchPath_length,
      branchPath_length, List.drop_replicate]
    congr 1
    omega
  obtain ⟨side, s, e, hmem, hinput, heq⟩ := MerklePath.climb_meets nodePair_inj hlevels hsides
    (hapart.mono (fun _ hx => List.mem_cons_of_mem _ hx) fun _ hy => List.mem_cons_of_mem _ hy) h
  have htext := hapart text (List.mem_cons_self ..) _ (List.mem_cons_of_mem _ hinput) heq
  have hnode : (nodePair side s e).length = 64 :=
    nodePair_length (branchPath_nodes hnodes' 0 _ hmem)
  rw [← htext] at hnode
  omega

/-- Two coinbases at the left edge of trees with one root are the same text, when neither is as
short as a tree node. -/
theorem coinbase_text_eq {text text' : Bytes} {b b' : PcBranch}
    (hnodes : b.nodes.length = b.n * 32) (hnodes' : b'.nodes.length = b'.n * 32)
    (hlen : 64 < text.length) (hlen' : 64 < text'.length)
    (hapart : MerklePath.Apart (idxSha256d sha256)
      (text :: MerklePath.inputs (idxSha256d sha256) nodePair (branchPath b.n b.nodes 0)
        (idxSha256d sha256 text))
      (text' :: MerklePath.inputs (idxSha256d sha256) nodePair (branchPath b'.n b'.nodes 0)
        (idxSha256d sha256 text')))
    (h : MerklePath.climb (idxSha256d sha256) nodePair (branchPath b.n b.nodes 0)
        (idxSha256d sha256 text) =
      MerklePath.climb (idxSha256d sha256) nodePair (branchPath b'.n b'.nodes 0)
        (idxSha256d sha256 text')) : text = text' := by
  rcases Nat.lt_trichotomy b.n b'.n with hlt | heq | hlt
  · exact (coinbase_not_node hlt hnodes' hlen hapart h).elim
  · have hsides : (branchPath b.n b.nodes 0).map Prod.fst =
        (branchPath b'.n b'.nodes 0).map Prod.fst := by
      rw [branchPath_zero_sides, branchPath_zero_sides, heq]
    have hstart := MerklePath.climb_inj nodePair_inj hsides
      (hapart.mono (fun _ hx => List.mem_cons_of_mem _ hx)
        fun _ hy => List.mem_cons_of_mem _ hy) h
    exact hapart text (List.mem_cons_self ..) text' (List.mem_cons_self ..) hstart
  · exact (coinbase_not_node hlt hnodes hlen' hapart.symm h.symm).elim

end Binding

/-- Two merged-mined blocks that pass with one parent header, whose coinbase holds the marker, have
the same header, where SHA-256d does not collide on what the two checks hashed. -/
theorem parent_backs_one (pp : PowParams) (raw raw' : Bytes)
    (hok : (idxPowCheck2 sha256 idxPowHash pp raw).isSome)
    (hok' : (idxPowCheck2 sha256 idxPowHash pp raw').isSome)
    (hm : ¬ DirectMined raw) (hm' : ¬ DirectMined raw') (a a' : AuxPow)
    (ha : auxpowOf sha256 raw = some a) (ha' : auxpowOf sha256 raw' = some a')
    (hparent : a.parent = a'.parent) (hmarker : (findBytes mmHeader a.script).isSome)
    (hmarker' : (findBytes mmHeader a'.script).isSome)
    (hapart : MerklePath.Apart (idxSha256d sha256) (auxStrings sha256 raw)
      (auxStrings sha256 raw')) : raw.take 80 = raw'.take 80 := by
  obtain ⟨head, hhead⟩ := Option.isSome_iff_exists.mp hmarker
  obtain ⟨head', hhead'⟩ := Option.isSome_iff_exists.mp hmarker'
  obtain ⟨target, hchecks⟩ := idxPowCheck2_auxpow hok hm ha
  obtain ⟨target', hchecks'⟩ := idxPowCheck2_auxpow hok' hm' ha'
  obtain ⟨text, hcb, hreads, hnodes, hstrings⟩ := auxpowOf_parts ha
  obtain ⟨text', hcb', hreads', hnodes', hstrings'⟩ := auxpowOf_parts ha'
  unfold auxpowOk at hchecks hchecks'
  simp only [Bool.and_eq_true, beq_iff_eq] at hchecks hchecks'
  obtain ⟨⟨⟨-, hroot⟩, hcommitted⟩, -⟩ := hchecks
  obtain ⟨⟨⟨-, hroot'⟩, hcommitted'⟩, -⟩ := hchecks'
  obtain ⟨htake, hlen, hsize, hslot⟩ := auxCommitted_marked hhead hcommitted
  obtain ⟨htake', hlen', hsize', hslot'⟩ := auxCommitted_marked hhead' hcommitted'
  rw [hstrings, hstrings', hcb, hcb'] at hapart
  -- the parent header pins the coinbase, and with it the script
  have htext : text = text' := by
    have hlong := hreads.length
    have hlong' := hreads'.length
    refine coinbase_text_eq hnodes hnodes' (by omega) (by omega)
      (hapart.mono (fun _ hx => List.mem_append_left _ hx) fun _ hy => List.mem_append_left _ hy) ?_
    rw [← branchApply_eq, ← branchApply_eq, ← hcb, ← hcb']
    apply Subtype.ext
    rw [hroot, hroot', hparent]
  have hscript : a.script = a'.script := hreads.unique (htext ▸ hreads')
  rw [hscript] at hhead htake hsize hslot
  obtain rfl : head = head' := Option.some_inj.mp (hhead.symm.trans hhead')
  -- the script pins the aux root, the height of its tree, and our slot in it
  have hn : a.chb.n = a'.chb.n := Nat.pow_right_injective (le_refl 2) (hsize.symm.trans hsize')
  have hindex : a.chb.index = a'.chb.index := by
    rw [hslot, hslot', hn]
  have hauxlen : ∀ h : Hash256, h.val.reverse.length = 32 := by
    intro h
    rw [List.length_reverse]
    exact h.property
  rw [hauxlen] at htake htake'
  have haux := List.reverse_injective (htake.symm.trans htake')
  have hclimb := Subtype.ext haux
  rw [branchApply_eq, branchApply_eq] at hclimb
  -- and the slot pins the header
  have hsides : (branchPath a.chb.n a.chb.nodes a.chb.index).map Prod.fst =
      (branchPath a'.chb.n a'.chb.nodes a'.chb.index).map Prod.fst := by
    rw [hn, hindex]
    exact branchPath_sides _ _ _ _
  have hlower := hapart.mono (fun _ hx => List.mem_append_right _ hx)
    fun _ hy => List.mem_append_right _ hy
  have hheader := MerklePath.climb_inj nodePair_inj hsides
    (hlower.mono (fun _ hx => List.mem_cons_of_mem _ hx) fun _ hy => List.mem_cons_of_mem _ hy)
    hclimb
  exact hlower _ (List.mem_cons_self ..) _ (List.mem_cons_self ..) hheader

/-- A block and its header element as a `headers` message carries it. -/
theorem parent_backs_one_sample :
    let hdr := merged2 ++ aux2
    (idxPowCheck2 minedSha256 minedPowHash minedCoin.powParams mergedBlock2).isSome ∧
      mergedBlock2 ≠ hdr ∧ mergedBlock2.take 80 = hdr.take 80 := by
  intro hdr
  have hok : (idxPowCheck2 minedSha256 minedPowHash minedCoin.powParams mergedBlock2).isSome := by
    decide +kernel
  have ha : (auxpowOf minedSha256 mergedBlock2).isSome := by decide +kernel
  have ha' : (auxpowOf minedSha256 hdr).isSome := by decide +kernel
  have hparent : ∀ h h', ((auxpowOf minedSha256 mergedBlock2).get h).parent =
      ((auxpowOf minedSha256 hdr).get h').parent := by decide +kernel
  have hmarker : ∀ h, (findBytes mmHeader ((auxpowOf minedSha256 mergedBlock2).get h).script).isSome :=
    by decide +kernel
  have hmarker' : ∀ h, (findBytes mmHeader ((auxpowOf minedSha256 hdr).get h).script).isSome := by
    decide +kernel
  have hapart : MerklePath.Apart (idxSha256d minedSha256) (auxStrings minedSha256 mergedBlock2)
      (auxStrings minedSha256 hdr) := by
    unfold MerklePath.Apart
    decide +kernel
  exact ⟨hok, by decide +kernel, parent_backs_one minedSha256 minedPowHash minedCoin.powParams _ _ hok
    (by decide +kernel) (by decide +kernel) (by decide +kernel) _ _ (Option.some_get ha).symm
    (Option.some_get ha').symm (hparent ha ha') (hmarker ha) (hmarker' ha') hapart⟩

end NamespaceIndexer.Daemon
