import NamespaceIndexer.Ledger.Anchor
import NamespaceIndexer.Ts.RefineBlock

/-!
# The TypeScript port against the daemon's fold

Both folds read the same blocks, each with its own decoder, and after every block hold the same
rows; between any two carriers the reverse index of the port is the inverse of its owners.
-/

namespace NamespaceIndexer.Ts

open Fold Lib Daemon

/-! ### Blocks as they come -/

/-- An `OP_RETURN` output whose payload nobody has decoded. -/
structure WireCarrier where
  payload : Bytes
  value : UInt64
  vout : ℕ

structure WireTx where
  txIndex : UInt32
  inputs : List FoldInput
  carriers : List WireCarrier
  outs : List SmOut

structure WireBlock where
  height : ℤ
  mtp : ℤ
  rate : UInt64
  txs : List WireTx

/-- The block as the daemon reads it. -/
def WireCarrier.toSm (w : WireCarrier) : SmCarrier where
  kind := (smDecodePayload w.payload).1
  act := (smDecodePayload w.payload).2
  value := w.value
  vout := w.vout

def WireTx.toSm (w : WireTx) : SmTx where
  txindex := w.txIndex
  inputs := w.inputs.map FoldInput.toSm
  carriers := w.carriers.map WireCarrier.toSm
  outs := w.outs

def WireBlock.toSm (w : WireBlock) : Fold.FoldBlock where
  height := w.height
  mtp := w.mtp
  rate := w.rate
  txs := w.txs.map WireTx.toSm

/-- The block as the port reads it. -/
def WireCarrier.toTs (w : WireCarrier) : FoldCarrier := ⟨w.payload, w.value.toNat, w.vout⟩

def WireTx.toTs (w : WireTx) : FoldTx where
  inputs := w.inputs
  carriers := w.carriers.map WireCarrier.toTs
  outputs := w.outs.map ofOut

/-! ### Runs of the port -/

/-- The constructor of `Fold`. -/
def newFold (activationHeight : ℤ) : FoldState := { activationHeight }

section Runs

variable (sha256 : Bytes → Hash256)

def foldTxs (s : FoldState) (txs : List WireTx) : FoldState :=
  txs.foldl (fun s tx => applyTx sha256 s tx.toTs tx.txIndex) s

/-- `beginBlock`, then `applyTx` on every transaction. -/
def foldBlock (s : FoldState) (w : WireBlock) : FoldState :=
  foldTxs sha256 (s.beginBlock w.height w.mtp w.rate.toNat) w.txs

/-- The states between the carriers of a transaction. -/
def throughTx (s : FoldState) (tx : WireTx) : List FoldState :=
  (tx.toTs.carriers.scanl (applyCarrier sha256 tx.toTs tx.txIndex)
    ⟨s, resolve tx.toTs.inputs[0]?, []⟩).map Walk.s

def throughTxs : FoldState → List WireTx → List FoldState
  | s, [] => [s]
  | s, tx :: txs => throughTx sha256 s tx ++ throughTxs (applyTx sha256 s tx.toTs tx.txIndex) txs

/-- Every state that a run goes through. -/
def throughBlocks : FoldState → List WireBlock → List FoldState
  | s, [] => [s]
  | s, w :: ws =>
    throughTxs sha256 (s.beginBlock w.height w.mtp w.rate.toNat) w.txs ++
      throughBlocks (foldBlock sha256 s w) ws

end Runs

/-! ### The same blocks -/

/-- The two decoders read one carrier. -/
theorem WireCarrier.reads (w : WireCarrier) : Reads w.toSm w.toTs := by
  have hts : Ts.decodePayload w.toTs.payload = (daemonAction w.payload).bind tsAction :=
    Daemon.Ts.decodePayload_eq w.payload
  refine ⟨rfl, (smDecodePayload_cases w.payload).imp ?_ ?_⟩
  · rintro ⟨hkind, hnone⟩
    exact ⟨hkind, by rw [hts, hnone, Option.bind_none]⟩
  · rintro ⟨hkind, hwell, haction⟩
    exact ⟨hkind, hwell, by rw [hts, haction, Option.bind_some]; rfl⟩

theorem WireTx.same {w : WireTx} (h : w.outs.Pairwise fun o o' => o.vout ≤ o'.vout) :
    SameTx w.toSm w.toTs where
  inputs := rfl
  outputs := rfl
  carriers := by
    change List.Forall₂ Reads (w.carriers.map _) (w.carriers.map _)
    rw [List.forall₂_map_left_iff, List.forall₂_map_right_iff, List.forall₂_same]
    exact fun c _ => c.reads
  ascending := h

/-! ### The same rows -/

/-- The daemon's row as the port keeps it: without its name, which is the key, and the owner's
script type. -/
def tsRow (r : SmNameRow) : NameRow :=
  { owner := r.owner, st := r.st, leaseExpiry := r.leaseExpiry, seller := r.seller,
    sellerType := r.sellerType, price := r.price.toNat, offerExpiry := r.offerExpiry,
    buyer := r.buyer, burnLeg := r.burnLeg.toNat, payLeg := r.payLeg.toNat,
    reserveExpiry := r.reserveExpiry }

def tsCommit (c : SmCommit) : Commit := ⟨c.commitment, c.commitHeight, c.txIndex, c.commitTime⟩

/-- The tables of the daemon are the maps of the port, in any order. -/
structure SameRows (s : SmState) (f : FoldState) : Prop where
  names : (s.names.map fun r => (⟨r.name, tsRow r⟩ : Sigma fun _ : Name => NameRow)).Perm f.names.entries
  commits : (s.commits.map tsCommit).Perm f.commits
  muts : (s.muts.map fun m => (⟨m.owner, m.height⟩ : Sigma fun _ : H160 => ℤ)).Perm f.muts.entries

/-- States that show the same ledger have the same rows. -/
theorem Tracks.sameRows {s : SmState} {f : FoldState} {L : Ledger} {rate : UInt64}
    (hf : Tracks f { L with rate }) (hs : NamespaceIndexer.Tracks s L) : SameRows s f where
  names := by
    refine Dict.perm_entries SmNameRow.name tsRow hs.keyed.names (hf.names.trans (funext fun n => ?_))
    rw [hs.names, Option.map_map]
    rfl
  commits := by
    have hperm : s.commits.Perm (f.commits.map Commit.smCommit) := by
      rw [← Multiset.coe_eq_coe, hf.commits, ← hs.obs_eq]
      rfl
    have hback : (f.commits.map Commit.smCommit).map tsCommit = f.commits := by
      rw [List.map_map]
      exact List.map_id' f.commits
    have hts := hperm.map tsCommit
    rw [hback] at hts
    exact hts
  muts := by
    refine Dict.perm_entries SmMut.owner SmMut.height hs.keyed.muts (hf.muts.trans ?_)
    rw [← hs.obs_eq]
    rfl

/-! ### Whole runs -/

section Run

variable {sha256 : Bytes → Hash256} {s : FoldState} {L : Ledger} {active : UInt64}

/-- The transactions of a block, and every state between two of their carriers. -/
theorem Tracks.foldTxs (t : Tracks s L) (hs : L.Sound) (hrate : L.rate ≠ 0) {txs : List WireTx}
    (hasc : ∀ tx ∈ txs, tx.outs.Pairwise fun o o' => o.vout ≤ o'.vout) :
    Tracks (foldTxs sha256 s txs) ((txs.map WireTx.toSm).foldl (Ledger.applyTx sha256) L) ∧
      ∀ v ∈ throughTxs sha256 s txs, v.Indexed := by
  induction txs generalizing s L with
  | nil =>
    refine ⟨t, fun v hv => ?_⟩
    rw [List.mem_singleton.mp hv]
    exact t.index
  | cons tx txs ih =>
    have hsame := WireTx.same (hasc tx List.mem_cons_self)
    obtain ⟨ht, hsound, hcharged⟩ := t.applyTx sha256 hs hrate hsame
    obtain ⟨hrest, hthrough⟩ :=
      ih ht hsound hcharged fun tx' htx' => hasc tx' (List.mem_cons_of_mem _ htx')
    refine ⟨hrest, fun v hv => ?_⟩
    rcases List.mem_append.mp hv with hv | hv
    · obtain ⟨w, hw, rfl⟩ := List.mem_map.mp hv
      exact Walks.scanl_indexed sha256 hsame hsame.carriers (Walks.start t hsame)
        (Steady.start hs hrate _) w hw
    · exact hthrough v hv

/-- One more block of a run, which sets the rate. -/
theorem Tracks.foldBlock {bs : List Fold.FoldBlock} {b : WireBlock} {rate : UInt64}
    (t : Tracks s { Ledger.ofRun sha256 active bs with rate }) (hrun : ValidRun (bs ++ [b.toSm]))
    (hrate : b.rate ≠ 0) (hasc : ∀ tx ∈ b.txs, tx.outs.Pairwise fun o o' => o.vout ≤ o'.vout) :
    Tracks (foldBlock sha256 s b) (Ledger.ofRun sha256 active (bs ++ [b.toSm])) ∧
      ∀ v ∈ throughTxs sha256 (s.beginBlock b.height b.mtp b.rate.toNat) b.txs, v.Indexed := by
  have hsound := Ledger.ofRun_sound sha256 active hrun.left
  obtain ⟨hstamps, hm⟩ := Ledger.ofRun_next hrun hsound
  rw [Ledger.ofRun_append]
  exact (t.beginBlock hsound.deeds hstamps b.mtp b.rate).foldTxs
    (Ledger.Sound.beginBlock hsound.deeds hstamps hm) hrate hasc

/-- The rest of a run. -/
theorem Tracks.foldBlocks {bs : List WireBlock} (done : List Fold.FoldBlock) {rate : UInt64}
    (t : Tracks s { Ledger.ofRun sha256 active done with rate })
    (hrun : ValidRun (done ++ bs.map WireBlock.toSm)) (hrate : ∀ b ∈ bs, b.rate ≠ 0)
    (hasc : ∀ b ∈ bs, ∀ tx ∈ b.txs, tx.outs.Pairwise fun o o' => o.vout ≤ o'.vout) :
    (∃ rate, Tracks (bs.foldl (Ts.foldBlock sha256) s)
        { Ledger.ofRun sha256 active (done ++ bs.map WireBlock.toSm) with rate }) ∧
      ∀ v ∈ throughBlocks sha256 s bs, v.Indexed := by
  induction bs generalizing s done rate with
  | nil =>
    rw [List.map_nil, List.append_nil]
    refine ⟨⟨rate, t⟩, fun v hv => ?_⟩
    rw [List.mem_singleton.mp hv]
    exact t.index
  | cons b bs ih =>
    rw [List.map_cons, List.append_cons] at hrun ⊢
    obtain ⟨ht, hblock⟩ :=
      t.foldBlock hrun.left (hrate b List.mem_cons_self) (hasc b List.mem_cons_self)
    obtain ⟨hrest, hthrough⟩ := ih _ ht hrun (fun b' hb' => hrate b' (List.mem_cons_of_mem _ hb'))
      fun b' hb' => hasc b' (List.mem_cons_of_mem _ hb')
    exact ⟨hrest, fun v hv => (List.mem_append.mp hv).elim (hblock v) (hthrough v)⟩

/-- The empty states, where the activation height is one that the daemon reads as it stands. -/
theorem newFold_tracks (sha256 : Bytes → Hash256) (hactive : active.toNat < 2 ^ 63) :
    Tracks (newFold active.toNat) { Ledger.ofRun sha256 active [] with rate := 1 } where
  names := rfl
  index := ReverseIndex.Inverts.empty
  commits := rfl
  muts := rfl
  scratch := rfl
  height := rfl
  mtp := rfl
  rate := rfl
  activation := (i64_eq_toNat hactive).symm
  stamps := fun _ _ hh => by cases hh

end Run

/-- The C fold equals the TypeScript fold: after every block of a run both hold the same rows, and
in every state that the port goes through `ownerNames` inverts the owners of `names`. -/
theorem fold_eq_ts (sha256 : Bytes → Hash256) (active : UInt64) (bs : List WireBlock)
    (hactive : active.toNat < 2 ^ 63) (hrun : ValidRun (bs.map WireBlock.toSm))
    (hrate : ∀ b ∈ bs, b.rate ≠ 0)
    (hasc : ∀ b ∈ bs, ∀ tx ∈ b.txs, tx.outs.Pairwise fun o o' => o.vout ≤ o'.vout) :
    (∀ k, SameRows (Fold.foldBlocks sha256 (smNew active) ((bs.take k).map WireBlock.toSm))
        ((bs.take k).foldl (foldBlock sha256) (newFold active.toNat))) ∧
      ∀ s ∈ throughBlocks sha256 (newFold active.toNat) bs, s.Indexed := by
  refine ⟨fun k => ?_, ((newFold_tracks sha256 hactive).foldBlocks [] hrun hrate hasc).2⟩
  have hprefix : ValidRun ((bs.take k).map WireBlock.toSm) := by
    rw [← List.take_append_drop k bs, List.map_append] at hrun
    exact hrun.left
  obtain ⟨⟨rate, ht⟩, -⟩ := (newFold_tracks sha256 hactive).foldBlocks [] hprefix
    (fun b hb => hrate b (List.mem_of_mem_take hb)) fun b hb => hasc b (List.mem_of_mem_take hb)
  exact ht.sameRows ((Live.smNew active).keyed.tracks.foldBlocks sha256 _)

/-! ### A run -/

def wireTx (payload : Bytes) (value : UInt64) : WireTx where
  txIndex := 0
  inputs := [⟨some sampleActor, 0, true⟩]
  carriers := [⟨payload, value, 0⟩]
  outs := []

/-- A block with a commit, then a block with its claim. -/
def wireRun : List WireBlock :=
  [⟨10, 1000, 28, [wireTx (0xFF :: 0x50 :: 0x4E :: 0x03 :: sampleCommitment.val) 0]⟩,
    ⟨11, 2000, 28, [wireTx (0xFF :: 0x50 :: 0x4E :: 0x04 :: (zeros 32).val ++ [97]) 10]⟩]

theorem fold_eq_ts_sample :
    (Fold.foldBlocks sampleSha256 (smNew 0) (wireRun.map WireBlock.toSm)).names
        = [{ name := [97], owner := sampleActor, leaseExpiry := 866000 }] ∧
      (∀ k, SameRows (Fold.foldBlocks sampleSha256 (smNew 0) ((wireRun.take k).map WireBlock.toSm))
        ((wireRun.take k).foldl (foldBlock sampleSha256) (newFold 0))) ∧
      ∀ s ∈ throughBlocks sampleSha256 (newFold 0) wireRun, s.Indexed :=
  ⟨by decide, fold_eq_ts sampleSha256 0 wireRun (by decide) ⟨by decide, by decide, by decide⟩
    (by decide) (by decide)⟩

end NamespaceIndexer.Ts
