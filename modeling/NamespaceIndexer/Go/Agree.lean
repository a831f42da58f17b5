import NamespaceIndexer.Go.RefineBlock
import NamespaceIndexer.Ledger.Anchor

/-!
# The Go port against the daemon's fold

Both folds read the same blocks, each with its own decoder, and after every block hold the same
rows.
-/

namespace NamespaceIndexer.Go

open Fold Lib Daemon

/-! ### Blocks as they come -/

/-- An `OP_RETURN` output whose payload nobody has decoded. -/
structure WireCarrier where
  payload : Bytes
  value : UInt64
  vout : ℕ

structure WireTx where
  txindex : UInt32
  inputs : List SmInput
  carriers : List WireCarrier
  outs : List SmOut

structure WireBlock where
  height : ℤ
  mtp : ℤ
  rate : UInt64
  txs : List WireTx

/-- The block as the daemon reads it. -/
def WireCarrier.toSm (w : WireCarrier) : SmCarrier where
  kind := (smDecodePayload w.payload).1
  act := (smDecodePayload w.payload).2
  value := w.value
  vout := w.vout

def WireTx.toSm (w : WireTx) : SmTx where
  txindex := w.txindex
  inputs := w.inputs
  carriers := w.carriers.map WireCarrier.toSm
  outs := w.outs

def WireBlock.toSm (w : WireBlock) : Fold.FoldBlock where
  height := w.height
  mtp := w.mtp
  rate := w.rate
  txs := w.txs.map WireTx.toSm

/-- The block as the port reads it. -/
def WireCarrier.toGo (w : WireCarrier) : FoldCarrier := ⟨decode w.payload, w.value⟩

def WireTx.toGo (w : WireTx) : FoldTx where
  txIndex := w.txindex
  inputs := w.inputs.map ofInput
  carriers := w.carriers.map WireCarrier.toGo
  spend := w.outs.map ofOut

def WireBlock.toGo (w : WireBlock) : FoldBlock where
  height := w.height
  mtp := w.mtp
  rate := w.rate
  txs := w.txs.map WireTx.toGo

/-- The two decoders read one carrier. -/
theorem WireCarrier.reads (w : WireCarrier) : Reads w.toSm w.toGo := by
  have hgo : w.toGo.c = (daemonAction w.payload).bind goCarrier := decode_eq w.payload
  refine ⟨rfl, (smDecodePayload_cases w.payload).imp ?_ ?_⟩
  · rintro ⟨hkind, hnone⟩
    exact ⟨hkind, by rw [hgo, hnone, Option.bind_none]⟩
  · rintro ⟨hkind, hwell, haction⟩
    exact ⟨hkind, hwell, by rw [hgo, haction, Option.bind_some]; rfl⟩

theorem WireTx.same {w : WireTx} (h : w.outs.Pairwise fun o o' => o.vout ≤ o'.vout) :
    SameTx w.toSm w.toGo where
  index := rfl
  inputs := rfl
  spend := rfl
  carriers := by
    change List.Forall₂ Reads (w.carriers.map _) (w.carriers.map _)
    rw [List.forall₂_map_left_iff, List.forall₂_map_right_iff, List.forall₂_same]
    exact fun c _ => c.reads
  ascending := h

theorem WireBlock.same {w : WireBlock}
    (h : ∀ tx ∈ w.txs, tx.outs.Pairwise fun o o' => o.vout ≤ o'.vout) :
    SameBlock w.toSm w.toGo where
  height := rfl
  mtp := rfl
  rate := rfl
  txs := by
    change List.Forall₂ SameTx (w.txs.map _) (w.txs.map _)
    rw [List.forall₂_map_left_iff, List.forall₂_map_right_iff, List.forall₂_same]
    exact fun tx htx => WireTx.same (h tx htx)

/-! ### The same rows -/

/-- The daemon's row as the port keeps it: without its name, which is the key, and the owner's
script type. -/
def goRow (r : SmNameRow) : NameRow :=
  { owner := r.owner, st := r.st, leaseExpiry := r.leaseExpiry, seller := r.seller,
    sellerType := r.sellerType, price := r.price, offerExpiry := r.offerExpiry, buyer := r.buyer,
    burnLeg := r.burnLeg, payLeg := r.payLeg, reserveExpiry := r.reserveExpiry }

def goCommit (c : SmCommit) : CommitRow := ⟨c.commitment, c.commitHeight, c.txIndex, c.commitTime⟩

/-- The tables of the daemon are the maps of the port, in any order. -/
structure SameRows (s : SmState) (g : FoldState) : Prop where
  names : (s.names.map fun r => (⟨r.name, goRow r⟩ : Sigma fun _ : Name => NameRow)).Perm g.names.entries
  commits : (s.commits.map goCommit).Perm g.commits
  muts : (s.muts.map fun m => (⟨m.owner, m.height⟩ : Sigma fun _ : H160 => ℤ)).Perm g.muts.entries

/-- States that show the same ledger have the same rows. -/
theorem Tracks.sameRows {s : SmState} {g : FoldState} {L : Ledger} (hg : Tracks g L)
    (hs : NamespaceIndexer.Tracks s L) : SameRows s g where
  names := by
    refine Dict.perm_entries SmNameRow.name goRow hs.keyed.names (hg.names.trans (funext fun n => ?_))
    rw [hs.names, Option.map_map]
    rfl
  commits := by
    have hperm : s.commits.Perm (g.commits.map CommitRow.smCommit) := by
      rw [← Multiset.coe_eq_coe, hg.commits, ← hs.obs_eq]
      rfl
    have hback : (g.commits.map CommitRow.smCommit).map goCommit = g.commits := by
      rw [List.map_map]
      exact List.map_id' g.commits
    have hgo := hperm.map goCommit
    rw [hback] at hgo
    exact hgo
  muts := by
    refine Dict.perm_entries SmMut.owner SmMut.height hs.keyed.muts (hg.muts.trans ?_)
    rw [← hs.obs_eq]
    rfl

/-! ### Whole runs -/

theorem newState_tracks (active : UInt64) : Tracks newState (obs (smNew active)) := ⟨rfl, rfl, rfl, rfl⟩

theorem carriersOf_toSm (bs : List WireBlock) :
    ((bs.map WireBlock.toSm).map carriersOf).sum
      = (bs.map fun b => (b.txs.map fun tx => tx.carriers.length).sum).sum := by
  rw [List.map_map]
  refine congrArg List.sum (List.map_congr_left fun b _ => ?_)
  change ((b.txs.map WireTx.toSm).map fun tx => tx.carriers.length).sum = _
  rw [List.map_map]
  exact congrArg List.sum (List.map_congr_left fun tx _ => List.length_map _)

/-- After a run both folds have the same rows. -/
theorem sameRows_foldBlocks (sha256 : Bytes → Hash256) (active : UInt64) {bs : List WireBlock}
    (hrun : ValidRun (bs.map WireBlock.toSm))
    (hrate : ∀ b ∈ bs, 1 ≤ b.rate.toNat ∧ b.rate.toNat ≤ 100000000)
    (hasc : ∀ b ∈ bs, ∀ tx ∈ b.txs, tx.outs.Pairwise fun o o' => o.vout ≤ o'.vout)
    (hactive : ∀ b ∈ bs, b.height < i64 active ↔ b.height < activationHeight)
    (hcount : 365 * (bs.map fun b => (b.txs.map fun tx => tx.carriers.length).sum).sum < 2 ^ 64) :
    SameRows (Fold.foldBlocks sha256 (smNew active) (bs.map WireBlock.toSm))
      ((bs.map WireBlock.toGo).foldl (applyBlock sha256) newState) := by
  have hsame : List.Forall₂ SameBlock (bs.map WireBlock.toSm) (bs.map WireBlock.toGo) := by
    rw [List.forall₂_map_left_iff, List.forall₂_map_right_iff, List.forall₂_same]
    exact fun b hb => WireBlock.same (hasc b hb)
  have hlive := Live.smNew active
  have hempty : (obs (smNew active)).Within 0 := ⟨[], le_refl 0, fun n d hd => by cases hd⟩
  have hsm := hlive.keyed.tracks.foldBlocks sha256 (bs.map WireBlock.toSm)
  have hactivation : (obs (smNew active)).activationHeight = active := rfl
  have hgo := (newState_tracks active).applyBlocks sha256 hsame hrun.heights hrun.times
    (List.forall_mem_map.mpr hrate) hactivation (List.forall_mem_map.mpr hactive)
    (fun hj => lt_of_le_of_lt (Nat.mul_le_mul_left 365 hj) hcount)
    (by rw [Nat.zero_add, carriersOf_toSm]) hlive.sound.deeds hempty
    (fun b _ who h hh => by cases hh) hrun.nonneg
  exact hgo.sameRows hsm

/-! ### Runs and their prefixes -/

theorem ValidRun.take {bs : List Fold.FoldBlock} (h : ValidRun bs) (k : ℕ) : ValidRun (bs.take k) := by
  rw [← List.take_append_drop k bs] at h
  exact h.left

/-- The C fold equals the Go fold: over blocks that both activate alike, each with its own decoder,
both hold the same rows after every block. -/
theorem fold_eq_go (sha256 : Bytes → Hash256) (active : UInt64) (bs : List WireBlock)
    (hrun : ValidRun (bs.map WireBlock.toSm))
    (hrate : ∀ b ∈ bs, 1 ≤ b.rate.toNat ∧ b.rate.toNat ≤ 100000000)
    (hasc : ∀ b ∈ bs, ∀ tx ∈ b.txs, tx.outs.Pairwise fun o o' => o.vout ≤ o'.vout)
    (hactive : ∀ b ∈ bs, b.height < i64 active ↔ b.height < activationHeight)
    (hcount : 365 * (bs.map fun b => (b.txs.map fun tx => tx.carriers.length).sum).sum < 2 ^ 64)
    (k : ℕ) :
    SameRows (Fold.foldBlocks sha256 (smNew active) ((bs.take k).map WireBlock.toSm))
      (((bs.take k).map WireBlock.toGo).foldl (applyBlock sha256) newState) := by
  have hmem : ∀ {b : WireBlock}, b ∈ bs.take k → b ∈ bs := fun hb => List.mem_of_mem_take hb
  have hsum : ((bs.take k).map fun b => (b.txs.map fun tx => tx.carriers.length).sum).sum
      ≤ (bs.map fun b => (b.txs.map fun tx => tx.carriers.length).sum).sum :=
    ((List.take_sublist k bs).map _).sum_le_sum fun _ _ => Nat.zero_le _
  refine sameRows_foldBlocks sha256 active ?_ (fun b hb => hrate b (hmem hb))
    (fun b hb => hasc b (hmem hb)) (fun b hb => hactive b (hmem hb)) ?_
  · rw [List.map_take]
    exact ValidRun.take hrun k
  · exact lt_of_le_of_lt (Nat.mul_le_mul_left 365 hsum) hcount

/-! ### A run -/

/-- The payload of an action: the magic, the opcode and the body. -/
def wirePayload (op : Byte) (body : Bytes) : Bytes := 0xFF :: 0x50 :: 0x4E :: op :: body

def wireTx (payload : Bytes) (value : UInt64) : WireTx where
  txindex := 0
  inputs := [⟨sampleActor, 0, true⟩]
  carriers := [⟨payload, value, 0⟩]
  outs := []

/-- A block with a commit, then a block with its claim. -/
def wireRun : List WireBlock :=
  [⟨10, 1000, 28, [wireTx (wirePayload 0x03 sampleCommitment.val) 0]⟩,
    ⟨11, 2000, 28, [wireTx (wirePayload 0x04 ((zeros 32).val ++ [97])) 10]⟩]

theorem fold_eq_go_sample :
    (Fold.foldBlocks sampleSha256 (smNew 0) ((wireRun.take 2).map WireBlock.toSm)).names
        = [{ name := [97], owner := sampleActor, leaseExpiry := 866000 }] ∧
      SameRows (Fold.foldBlocks sampleSha256 (smNew 0) ((wireRun.take 2).map WireBlock.toSm))
        (((wireRun.take 2).map WireBlock.toGo).foldl (applyBlock sampleSha256) newState) :=
  ⟨by decide, fold_eq_go sampleSha256 0 wireRun ⟨by decide, by decide, by decide⟩ (by decide)
    (by decide) (by decide) (by decide) 2⟩

/-- The port acts from height 0 on, whatever the activation height of the daemon: a daemon that
activates at 1 takes no commit at height 0. -/
theorem fold_ne_go_inactive :
    ¬ ∀ (sha256 : Bytes → Hash256) (active : UInt64) (bs : List WireBlock),
      ValidRun (bs.map WireBlock.toSm) →
      (∀ b ∈ bs, 1 ≤ b.rate.toNat ∧ b.rate.toNat ≤ 100000000) →
      (∀ b ∈ bs, ∀ tx ∈ b.txs, tx.outs.Pairwise fun o o' => o.vout ≤ o'.vout) →
      ∀ k, SameRows (Fold.foldBlocks sha256 (smNew active) ((bs.take k).map WireBlock.toSm))
        (((bs.take k).map WireBlock.toGo).foldl (applyBlock sha256) newState) := by
  intro h
  have hrows := h sampleSha256 1
    [⟨0, 0, 1, [wireTx (wirePayload 0x03 sampleCommitment.val) 0]⟩] ⟨by decide, by decide, by decide⟩
    (by decide) (by decide) 1
  exact absurd hrows.commits.length_eq (by decide)

end NamespaceIndexer.Go
