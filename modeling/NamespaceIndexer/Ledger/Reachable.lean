import NamespaceIndexer.Ledger.Preserve
import NamespaceIndexer.Ledger.RefineBlock

/-!
# The structural invariant on reachable fold states

The invariant of the ledger, carried to the rows of every state that
`sm_begin_block` and `sm_apply_tx` can reach, and to every moment of the row loop
of `sm_preblock`.
-/

namespace NamespaceIndexer

open Fold Lib

/-- The states of the fold: from the empty state, blocks of non-decreasing height and
median-time-past, any rate, any transactions. -/
inductive Reachable (sha256 : Bytes → Hash256) (activationHeight : UInt64) : SmState → Prop where
  | new : Reachable sha256 activationHeight (smNew activationHeight)
  | first {height mtp : ℤ} {rate : UInt64} (time : 0 ≤ mtp) :
      Reachable sha256 activationHeight (smBeginBlock (smNew activationHeight) height mtp rate)
  | block {s : SmState} {height mtp : ℤ} {rate : UInt64} (reached : Reachable sha256 activationHeight s)
      (up : s.curHeight ≤ height) (time : s.curMtp ≤ mtp) :
      Reachable sha256 activationHeight (smBeginBlock s height mtp rate)
  | tx {s : SmState} {tx : SmTx} (reached : Reachable sha256 activationHeight s) :
      Reachable sha256 activationHeight (smApplyTx sha256 s tx)

/-- One row per key, and the ledger it shows is sound. -/
structure Live (s : SmState) : Prop where
  keyed : WellKeyed s
  sound : (obs s).Sound

namespace Live

variable {s : SmState} (sha256 : Bytes → Hash256)

theorem smNew (activationHeight : UInt64) : Live (smNew activationHeight) where
  keyed := wellKeyed_smNew activationHeight
  sound := by
    constructor
    · intro n d hd
      cases hd
    · intro who h hh
      cases hh
    · intro n w hw
      cases hw

theorem smBeginBlock (h : Live s) {height mtp : ℤ} (rate : UInt64)
    (hst : ∀ who k, (obs s).muts who = some k → k ≤ height) (hm : s.curMtp ≤ mtp) :
    Live (smBeginBlock s height mtp rate) := by
  have t := h.keyed.tracks.smBeginBlock height mtp rate
  refine ⟨t.keyed, ?_⟩
  rw [t.obs_eq]
  exact Ledger.Sound.beginBlock h.sound.deeds hst hm

theorem smApplyTx (h : Live s) (tx : SmTx) : Live (smApplyTx sha256 s tx) := by
  have t := h.keyed.tracks.smApplyTx sha256 tx
  refine ⟨t.keyed, ?_⟩
  rw [t.obs_eq]
  exact Ledger.applyTx_induct sha256 tx (fun hh hm hact hs => hact.sound hh hm hs) h.sound

theorem row_sound (h : Live s) {r : SmNameRow} (hr : r ∈ s.names) : (deed r).Sound s.curMtp := by
  refine h.sound.deeds r.name (deed r) ?_
  change (RowTable.lookup SmNameRow.name s.names r.name).map deed = _
  rw [RowTable.lookup_of_mem _ h.keyed.names hr]
  rfl

theorem mut_le (h : Live s) {m : SmMut} (hm : m ∈ s.muts) : m.height ≤ s.curHeight := by
  refine h.sound.stamps m.owner m.height ?_
  change (RowTable.lookup SmMut.owner s.muts m.owner).map SmMut.height = _
  rw [RowTable.lookup_of_mem _ h.keyed.muts hm]
  rfl

end Live

theorem Reachable.live {sha256 : Bytes → Hash256} {activationHeight : UInt64} {s : SmState}
    (h : Reachable sha256 activationHeight s) : Live s := by
  induction h with
  | new => exact Live.smNew activationHeight
  | first time => exact (Live.smNew activationHeight).smBeginBlock _ (fun who k hk => by cases hk) time
  | block _ up time ih =>
    exact ih.smBeginBlock _ (fun who k hk => le_trans (ih.sound.stamps who k hk) up) time
  | tx _ ih => exact ih.smApplyTx sha256 _

/-! ### The row loop of `sm_preblock`, moment by moment -/

/-- The states and indices at the head of the row loop that starts in `s`. -/
inductive PreblockVisits (height mtp : ℤ) (s : SmState) : SmState → ℕ → Prop where
  | start : PreblockVisits height mtp s s 0
  | next {s' : SmState} {i : ℕ} (visited : PreblockVisits height mtp s s' i)
      (inside : i < s'.names.length) :
      PreblockVisits height mtp s (preblockStep height mtp s' i).1 (preblockStep height mtp s' i).2

/-- Every step leaves one row fewer ahead. -/
theorem preblockStep_measure (height mtp : ℤ) {s : SmState} {i : ℕ} (hi : i < s.names.length) :
    (preblockStep height mtp s i).1.names.length - (preblockStep height mtp s i).2 + 1
      = s.names.length - i := by
  unfold preblockStep
  simp only
  split
  · rw [names_bumpEv]
    change (RowTable.swapRemove (smBumpMutation _ _ _).names i).length - i + 1 = _
    rw [names_smBumpMutation, RowTable.swapRemove_length (by simpa using hi), names_length_setRow]
    omega
  · rw [names_length_setRow]
    omega

/-- The loop returns a state it visits, with the index past the end. -/
theorem PreblockVisits.loop {height mtp : ℤ} {s s' : SmState} {i : ℕ}
    (h : PreblockVisits height mtp s s' i) (fuel : ℕ) (hf : s'.names.length - i ≤ fuel) :
    ∃ j, PreblockVisits height mtp s (preblockLoop height mtp fuel s' i) j ∧
      (preblockLoop height mtp fuel s' i).names.length ≤ j := by
  induction fuel generalizing s' i with
  | zero => exact ⟨i, h, by unfold preblockLoop; omega⟩
  | succ fuel ih =>
    unfold preblockLoop
    split
    · rename_i hi
      have hm := preblockStep_measure height mtp hi
      have hle : (preblockStep height mtp s' i).1.names.length - (preblockStep height mtp s' i).2
          ≤ fuel := by omega
      exact ih (h.next hi) hle
    · exact ⟨i, h, by omega⟩

/-- What is left of the table at a visit are rows of the start. -/
theorem PreblockVisits.rest {height mtp : ℤ} {s s' : SmState} {i : ℕ} (hs : WellKeyed s)
    (h : PreblockVisits height mtp s s' i) :
    WellKeyed s' ∧ ∃ p q, s'.names = p ++ q ∧ p.length = i ∧ ∀ r ∈ q, r ∈ s.names := by
  induction h with
  | start => exact ⟨hs, [], s.names, rfl, rfl, fun r hr => hr⟩
  | @next s' i _ inside ih =>
    obtain ⟨hk, p, q, hn, hp, hq⟩ := ih
    subst hp
    cases q with
    | nil =>
      rw [hn] at inside
      simp at inside
    | cons r q =>
      rcases hk.tracks.preblockStep height mtp hn with ⟨-, hi, hn', ht⟩ | ⟨-, hi, ⟨q', hq', hn'⟩, ht⟩
      · refine ⟨ht.keyed, _, q, hn', ?_, fun r' hr' => hq r' (List.mem_cons_of_mem _ hr')⟩
        rw [hi]
        simp
      · refine ⟨ht.keyed, p, q', hn', hi.symm, fun r' hr' => hq r' ?_⟩
        exact List.mem_cons_of_mem _ (hq'.mem_iff.mp hr')

/-! ### The structural invariant -/

/-- The structural invariant of the fold, row by row. -/
structure Structural (s : SmState) : Prop where
  names_distinct : (s.names.map SmNameRow.name).Nodup
  muts_distinct : (s.muts.map SmMut.owner).Nodup
  stamps : ∀ m ∈ s.muts, m.height ≤ s.curHeight
  lease : ∀ r ∈ s.names, s.curMtp < r.leaseExpiry ∧ r.leaseExpiry ≤ s.curMtp + maxLease
  owned : ∀ r ∈ s.names, r.st = .OWNED →
    r.seller = zeros 20 ∧ r.sellerType = 0 ∧ r.price = 0 ∧ r.buyer = zeros 20 ∧ r.burnLeg = 0 ∧
      r.payLeg = 0 ∧ r.offerExpiry = 0 ∧ r.reserveExpiry = 0
  sale : ∀ r ∈ s.names, r.st ≠ .OWNED →
    r.seller = r.owner ∧ s.curMtp < r.offerExpiry ∧ r.offerExpiry + reorgBuffer ≤ r.leaseExpiry
  price : ∀ r ∈ s.names, r.st = .LISTED ∨ r.st = .RESERVED → 3 ≤ r.price.toNat
  reserve : ∀ r ∈ s.names, r.st = .RESERVED →
    s.curMtp < r.reserveExpiry ∧ r.reserveExpiry ≤ r.offerExpiry
  legs : ∀ r ∈ s.names, r.st = .RESERVED →
    r.burnLeg = r.payLeg ∧ r.burnLeg.toNat = max 1 (r.price.toNat * 50 / 10000) ∧
      (r.price - r.burnLeg - r.payLeg).toNat
        = r.price.toNat - r.burnLeg.toNat - r.payLeg.toNat ∧
      r.burnLeg.toNat + r.payLeg.toNat + 1 ≤ r.price.toNat

/-- What a reserver still owes is positive, and its subtractions do not wrap. -/
theorem remainder_toNat {mtp : ℤ} {d : Deed} (h : d.Sound mtp) (hst : d.st = .RESERVED) :
    (d.price - d.burnLeg - d.payLeg).toNat
        = d.price.toNat - d.burnLeg.toNat - d.payLeg.toNat ∧
      d.burnLeg.toNat + d.payLeg.toNat + 1 ≤ d.price.toNat := by
  have hlegs := legs_le_price (h.price (Or.inr hst))
  rw [(h.legs hst).1, (h.legs hst).2]
  set leg := depositLeg d.price 50
  have h1 : leg ≤ d.price := UInt64.le_iff_toNat_le.mpr (by omega)
  have h2 : leg ≤ d.price - leg := by
    rw [UInt64.le_iff_toNat_le, UInt64.toNat_sub_of_le _ _ h1]
    omega
  rw [UInt64.toNat_sub_of_le _ _ h2, UInt64.toNat_sub_of_le _ _ h1]
  exact ⟨rfl, hlegs⟩

theorem Live.structural {s : SmState} (h : Live s) : Structural s where
  names_distinct := h.keyed.names
  muts_distinct := h.keyed.muts
  stamps m hm := h.mut_le hm
  lease r hr := ⟨(h.row_sound hr).live, (h.row_sound hr).capped⟩
  owned r hr hst := by
    have hd := (h.row_sound hr).owned hst
    injection hd with _ _ _ _ h1 h2 h3 h4 h5 h6 h7 h8
    exact ⟨h1, h2, h3, h5, h6, h7, h4, h8⟩
  sale r hr hst :=
    have hd := h.row_sound hr
    ⟨hd.seller hst, hd.offer_open hst, hd.offer_lease hst⟩
  price r hr hst := (h.row_sound hr).price hst
  reserve r hr hst :=
    have hd := h.row_sound hr
    ⟨hd.reserve_open hst, hd.reserve_offer hst⟩
  legs r hr hst := by
    have hd := h.row_sound hr
    obtain ⟨hb, hp⟩ := hd.legs hst
    obtain ⟨hrem, hle⟩ := remainder_toNat hd hst
    refine ⟨hb.trans hp.symm, ?_, hrem, hle⟩
    rw [show r.burnLeg = depositLeg r.price 50 from hb, depositLeg_toNat]

/-- The step of the row loop that removes a row finds it off the market. -/
theorem Live.removed_owned {s s' : SmState} (h : Live s) {height mtp : ℤ} {i : ℕ}
    (hv : PreblockVisits height mtp s s' i) (hi : i < s'.names.length)
    (hl : mtp ≥ (closeRow mtp (s'.row i)).leaseExpiry) :
    (closeRow mtp (s'.row i)).st = .OWNED := by
  obtain ⟨-, p, q, hn, rfl, hq⟩ := hv.rest h.keyed
  cases q with
  | nil =>
    rw [hn] at hi
    simp at hi
  | cons r q =>
    rw [row_of_split hn] at hl ⊢
    have hd := h.row_sound (hq r (List.mem_cons_self ..))
    rw [closeRow_leaseExpiry] at hl
    have hst := hd.close_lapsed hl
    rw [← deed_closeRow] at hst
    exact hst

/-- Every reachable state has the structural invariant, and the row loop of the next pre-block
pass never removes a row that is on the market when it goes. -/
theorem reachable_structural (sha256 : Bytes → Hash256) (activationHeight : UInt64) {s : SmState}
    (h : Reachable sha256 activationHeight s) :
    Structural s ∧
      ∀ (height mtp : ℤ) (s' : SmState) (i : ℕ),
        PreblockVisits height mtp s s' i → i < s'.names.length →
        (preblockStep height mtp s' i).1.names.length < s'.names.length →
        (closeRow mtp (s'.row i)).st = .OWNED := by
  refine ⟨h.live.structural, fun height mtp s' i hv hi hlen => ?_⟩
  refine h.live.removed_owned hv hi ?_
  by_contra hl
  unfold preblockStep at hlen
  simp only [if_neg hl, names_length_setRow] at hlen
  omega

/-! ### A short run: a COMMIT, and the CLAIM it backs one block later -/

def sampleActor : H160 := ⟨List.replicate 20 1, rfl⟩

/-- The commitment of the name `a` under the zero salt. -/
def sampleCommitment : Hash256 :=
  ⟨[21, 114, 195, 60, 216, 143, 74, 244, 211, 248, 223, 100, 228, 244, 122, 172, 130, 41, 6, 104,
    56, 93, 199, 199, 48, 122, 6, 199, 233, 250, 111, 81], rfl⟩

/-- SHA-256 on the one preimage the run hashes. -/
def sampleSha256 (b : Bytes) : Hash256 :=
  if b = (zeros 32).val ++ [97] ++ sampleActor.val then sampleCommitment else zeros 32

/-- A transaction of `sampleActor` with one action and the value burned on it. -/
def sampleTx (a : SmAction) (value : UInt64) : SmTx where
  txindex := 0
  inputs := [⟨sampleActor, 0, true⟩]
  carriers := [⟨.ACTION, a, value, 0⟩]
  outs := []

def sampleCommit : SmTx := sampleTx { op := 0x03, commitment := sampleCommitment } 0

/-- Ten days at rate 28. -/
def sampleClaim : SmTx := sampleTx { op := 0x04, name := [97] } 10

/-- Two blocks: the commit, then the claim. -/
def sampleRun : List FoldBlock := [⟨10, 1000, 28, [sampleCommit]⟩, ⟨11, 2000, 28, [sampleClaim]⟩]

example : (foldBlocks sampleSha256 (smNew 0) sampleRun).names
    = [{ name := [97], owner := sampleActor, leaseExpiry := 866000 }] := by decide

theorem reachable_structural_sample :
    Structural (smApplyTx sampleSha256 (smBeginBlock (smApplyTx sampleSha256
        (smBeginBlock (smNew 0) 10 1000 28) sampleCommit) 11 2000 28) sampleClaim) ∧
      ∀ (height mtp : ℤ) (s' : SmState) (i : ℕ),
        PreblockVisits height mtp (smApplyTx sampleSha256 (smBeginBlock (smApplyTx sampleSha256
          (smBeginBlock (smNew 0) 10 1000 28) sampleCommit) 11 2000 28) sampleClaim) s' i →
        i < s'.names.length →
        (preblockStep height mtp s' i).1.names.length < s'.names.length →
        (closeRow mtp (s'.row i)).st = .OWNED :=
  reachable_structural sampleSha256 0
    (.tx (.block (.tx (.first (by decide))) (by decide) (by decide)))

end NamespaceIndexer
