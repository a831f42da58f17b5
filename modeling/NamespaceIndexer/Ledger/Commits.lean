import NamespaceIndexer.Ledger.Anchor
import NamespaceIndexer.Ledger.Theft
import NamespaceIndexer.Lib.Survivors

/-!
# Commits and the claims they back

The commit table of a run holds the rows of the COMMIT carriers applied so far
that no block since has outlived. A claim competes with the earliest of them
among those of its own commitment.
-/

namespace NamespaceIndexer

open Fold Lib

section Carriers

variable (sha256 : Bytes → Hash256) {s : SmState} {cx : SmTxCtx} {tx : SmTx} {car : SmCarrier}

/-- The carrier is a COMMIT, and it is applied. -/
structure AppliesCommit (s : SmState) (cx : SmTxCtx) (car : SmCarrier) : Prop where
  kind : car.kind = .ACTION
  op : SmOp.ofByte? car.act.op = some .COMMIT
  active : ¬ s.curHeight < i64 s.activationHeight
  acts : cx.actorValid = true

theorem AppliesCommit.applyCarrier_eq (h : AppliesCommit s cx car) :
    (applyCarrier sha256 tx (s, cx) car).1
      = smCommitAdd s car.act.commitment s.curHeight tx.txindex s.curMtp := by
  simp only [applyCarrier, h.kind, h.op, h.acts, if_neg h.active, ne_eq, not_true_eq_false, if_false,
    Bool.not_true, Bool.false_eq_true, dispatch]

/-- Any other carrier leaves the commits alone. -/
theorem applyCarrier_commits (hk : WellKeyed s) (h : ¬ AppliesCommit s cx car) :
    (applyCarrier sha256 tx (s, cx) car).1.commits.Perm s.commits := by
  by_cases hactive : s.curHeight < i64 s.activationHeight
  · have hidle : (applyCarrier sha256 tx (s, cx) car).1 = s := by
      simp only [applyCarrier, if_pos hactive]
      split <;> rfl
    rw [hidle]
  · obtain ⟨ht, -⟩ := hk.tracks.applyCarrier sha256 tx cx car
    rw [← Multiset.coe_eq_coe, ← ht.commits]
    rcases Ledger.applyCarrier_cases sha256 tx (obs s) cx car with ⟨he, -⟩ | ⟨op, hkind, hop, hv, hact⟩
    · rw [he]
      rfl
    · rcases hact.commits with he | ⟨rfl, -⟩
      · exact he
      · exact absurd ⟨hkind, hop, hactive, hv (by decide)⟩ h

/-- No carrier takes a commit out of the table. -/
theorem applyCarrier_keeps_commits (hk : WellKeyed s) :
    s.commits.Subperm (applyCarrier sha256 tx (s, cx) car).1.commits := by
  by_cases h : AppliesCommit s cx car
  · rw [h.applyCarrier_eq sha256]
    exact (List.sublist_append_left ..).subperm
  · exact (applyCarrier_commits sha256 hk h).symm.subperm

end Carriers

/-! ### Positions in a block -/

section Blocks

variable (sha256 : Bytes → Hash256) {s : SmState} (b : FoldBlock)

/-- The fold at a carrier has the block's height, time and rate. -/
structure OnBlock (s : SmState) (b : FoldBlock) (sc : SmState × SmTxCtx) : Prop where
  keyed : WellKeyed sc.1
  height : sc.1.curHeight = b.height
  mtp : sc.1.curMtp = b.mtp
  rate : sc.1.curRate = b.rate
  activationHeight : sc.1.activationHeight = s.activationHeight
  ctxHeight : sc.2.height = b.height
  ctxMtp : sc.2.mtp = b.mtp
  ctxRate : sc.2.rate = b.rate

variable {b}

theorem OnBlock.applyCarrier {sc : SmState × SmTxCtx} (h : OnBlock s b sc) (tx : SmTx)
    (car : SmCarrier) : OnBlock s b (applyCarrier sha256 tx sc car) := by
  obtain ⟨s', cx⟩ := sc
  obtain ⟨ht, hcx⟩ := h.keyed.tracks.applyCarrier sha256 tx cx car
  obtain ⟨h1, h2, h3⟩ := Ledger.applyCarrier_ctx sha256 tx (obs s') cx car
  have hclock : (Ledger.applyCarrier sha256 tx (obs s', cx) car).1.height = b.height ∧
      (Ledger.applyCarrier sha256 tx (obs s', cx) car).1.mtp = b.mtp ∧
      (Ledger.applyCarrier sha256 tx (obs s', cx) car).1.rate = b.rate ∧
      (Ledger.applyCarrier sha256 tx (obs s', cx) car).1.activationHeight = s.activationHeight := by
    have hobs : (obs s').height = b.height ∧ (obs s').mtp = b.mtp ∧ (obs s').rate = b.rate ∧
        (obs s').activationHeight = s.activationHeight :=
      ⟨h.height, h.mtp, h.rate, h.activationHeight⟩
    rcases Ledger.applyCarrier_cases sha256 tx (obs s') cx car with ⟨he, -⟩ | ⟨op, -, -, -, hact⟩
    · rw [he]
      exact hobs
    · obtain ⟨c1, c2, c3, c4⟩ := hact.clock
      rw [c1, c2, c3, c4]
      exact hobs
  obtain ⟨c1, c2, c3, c4⟩ := hclock
  refine ⟨ht.keyed, ht.height.symm.trans c1, ht.mtp.symm.trans c2, ht.rate.symm.trans c3,
    ht.activationHeight.symm.trans c4, ?_, ?_, ?_⟩
  · rw [hcx]
    exact h1.trans h.ctxHeight
  · rw [hcx]
    exact h2.trans h.ctxMtp
  · rw [hcx]
    exact h3.trans h.ctxRate

theorem OnBlock.foldl_applyCarrier {sc : SmState × SmTxCtx} (h : OnBlock s b sc) (tx : SmTx)
    (cars : List SmCarrier) : OnBlock s b (cars.foldl (Fold.applyCarrier sha256 tx) sc) := by
  induction cars generalizing sc with
  | nil => exact h
  | cons car cars ih => exact ih (h.applyCarrier sha256 tx car)

theorem OnBlock.initCtx {sc : SmState × SmTxCtx} (h : OnBlock s b sc) (tx : SmTx) :
    OnBlock s b (sc.1, Fold.initCtx sc.1 tx) := by
  refine ⟨h.keyed, h.height, h.mtp, h.rate, h.activationHeight, ?_, ?_, ?_⟩
  all_goals
    unfold Fold.initCtx
    cases signer tx 0
  exacts [h.height, h.height, h.mtp, h.mtp, h.rate, h.rate]

theorem OnBlock.smApplyTx {sc : SmState × SmTxCtx} (h : OnBlock s b sc) (tx : SmTx) :
    OnBlock s b (smApplyTx sha256 sc.1 tx, sc.2) := by
  have hend := (h.initCtx tx).foldl_applyCarrier sha256 tx tx.carriers
  exact ⟨hend.keyed, hend.height, hend.mtp, hend.rate, hend.activationHeight, h.ctxHeight, h.ctxMtp,
    h.ctxRate⟩

theorem onBlock_txs (hk : WellKeyed s) (txs : List SmTx) (tx : SmTx) :
    OnBlock s b (txs.foldl (Fold.smApplyTx sha256) (smBeginBlock s b.height b.mtp b.rate),
      Fold.initCtx (txs.foldl (Fold.smApplyTx sha256) (smBeginBlock s b.height b.mtp b.rate)) tx) := by
  have hact : (smBeginBlock s b.height b.mtp b.rate).activationHeight = s.activationHeight :=
    (hk.tracks.smBeginBlock b.height b.mtp b.rate).activationHeight.symm
  have hbegin : OnBlock s b (smBeginBlock s b.height b.mtp b.rate,
      Fold.initCtx (smBeginBlock s b.height b.mtp b.rate) tx) := by
    have hkeyed := (hk.tracks.smBeginBlock b.height b.mtp b.rate).keyed
    refine ⟨hkeyed, rfl, rfl, rfl, hact, ?_, ?_, ?_⟩
    all_goals
      unfold Fold.initCtx
      cases signer tx 0 <;> rfl
  suffices h : ∀ (txs : List SmTx) (s' : SmState) (cx : SmTxCtx), OnBlock s b (s', cx) →
      OnBlock s b (txs.foldl (Fold.smApplyTx sha256) s', cx) from (h txs _ _ hbegin).initCtx tx
  intro txs
  induction txs with
  | nil => exact fun _ _ h => h
  | cons t txs ih => exact fun _ _ h => ih _ _ (h.smApplyTx sha256 t)

theorem onBlock_midBlock (hk : WellKeyed s) (done : List SmTx) (tx : SmTx) (pre : List SmCarrier) :
    OnBlock s b (midBlock sha256 s b done tx pre) :=
  (onBlock_txs sha256 hk done tx).foldl_applyCarrier sha256 tx pre

end Blocks

/-! ### The commit table of a run -/

section Runs

variable (sha256 : Bytes → Hash256)

/-- `c` is the row of a COMMIT carrier applied in the block `b`, on the state `s` before it. -/
def CommitsIn (s : SmState) (b : FoldBlock) (c : SmCommit) : Prop :=
  ∃ done tx rest pre car post, b.txs = done ++ tx :: rest ∧ tx.carriers = pre ++ car :: post ∧
    AppliesCommit (midBlock sha256 s b done tx pre).1 (midBlock sha256 s b done tx pre).2 car ∧
    c = ⟨car.act.commitment, b.height, tx.txindex, b.mtp⟩

theorem mem_applyCarrier_commits {s : SmState} {b : FoldBlock} {sc : SmState × SmTxCtx}
    (h : OnBlock s b sc) (tx : SmTx) (car : SmCarrier) (c : SmCommit) :
    c ∈ (applyCarrier sha256 tx sc car).1.commits ↔ c ∈ sc.1.commits ∨
      (AppliesCommit sc.1 sc.2 car ∧ c = ⟨car.act.commitment, b.height, tx.txindex, b.mtp⟩) := by
  obtain ⟨s', cx⟩ := sc
  by_cases ha : AppliesCommit s' cx car
  · rw [ha.applyCarrier_eq sha256, ← h.height, ← h.mtp]
    simp [smCommitAdd, ha]
  · rw [(applyCarrier_commits sha256 h.keyed ha).mem_iff]
    simp [ha]

theorem mem_foldl_applyCarrier_commits {s : SmState} {b : FoldBlock} {sc : SmState × SmTxCtx}
    (h : OnBlock s b sc) (tx : SmTx) (cars : List SmCarrier) (c : SmCommit) :
    c ∈ (cars.foldl (applyCarrier sha256 tx) sc).1.commits ↔ c ∈ sc.1.commits ∨
      ∃ pre car post, cars = pre ++ car :: post ∧
        AppliesCommit (pre.foldl (applyCarrier sha256 tx) sc).1
          (pre.foldl (applyCarrier sha256 tx) sc).2 car ∧
        c = ⟨car.act.commitment, b.height, tx.txindex, b.mtp⟩ :=
  Survivors.mem_foldl_of_keep (fun sc c => c ∈ sc.1.commits) _ (OnBlock s b)
    (fun _ car h => h.applyCarrier sha256 tx car)
    (fun _ car c h => mem_applyCarrier_commits sha256 h tx car c) cars h c

theorem mem_foldl_smApplyTx_commits {s : SmState} (b : FoldBlock) (hk : WellKeyed s)
    (txs : List SmTx) (c : SmCommit) :
    c ∈ (txs.foldl (smApplyTx sha256) (smBeginBlock s b.height b.mtp b.rate)).commits ↔
      c ∈ (smBeginBlock s b.height b.mtp b.rate).commits ∨
      ∃ done tx rest, txs = done ++ tx :: rest ∧ ∃ pre car post, tx.carriers = pre ++ car :: post ∧
        AppliesCommit (midBlock sha256 s b done tx pre).1 (midBlock sha256 s b done tx pre).2 car ∧
        c = ⟨car.act.commitment, b.height, tx.txindex, b.mtp⟩ := by
  refine Survivors.mem_foldl_of_keep (fun s c => c ∈ s.commits)
    (fun s' tx c => ∃ pre car post, tx.carriers = pre ++ car :: post ∧
      AppliesCommit (pre.foldl (applyCarrier sha256 tx) (s', initCtx s' tx)).1
        (pre.foldl (applyCarrier sha256 tx) (s', initCtx s' tx)).2 car ∧
      c = ⟨car.act.commitment, b.height, tx.txindex, b.mtp⟩)
    (fun s' => ∀ tx, OnBlock s b (s', initCtx s' tx))
    (fun s' tx h tx' => ((h tx).smApplyTx sha256 tx).initCtx tx')
    (fun s' tx c h => mem_foldl_applyCarrier_commits sha256 (h tx) tx tx.carriers c) txs
    (fun tx => onBlock_txs sha256 hk [] tx) c

/-- The block boundary takes out the commits that are over, and nothing else. -/
theorem smBeginBlock_commits {s : SmState} (hk : WellKeyed s) (height mtp : ℤ) (rate : UInt64) :
    (smBeginBlock s height mtp rate).commits.Perm
      (s.commits.filter fun c => ¬ mtp > c.commitTime + commitExpiry) := by
  have ht := hk.tracks.smBeginBlock height mtp rate
  rw [← Multiset.coe_eq_coe, ← ht.commits]
  rfl

theorem mem_foldBlock_commits {s : SmState} (hk : WellKeyed s) (b : FoldBlock) (c : SmCommit) :
    c ∈ (foldBlock sha256 s b).commits ↔
      (c ∈ s.commits ∧ ¬ b.mtp > c.commitTime + commitExpiry) ∨ CommitsIn sha256 s b c := by
  have h := mem_foldl_smApplyTx_commits sha256 b hk b.txs c
  rw [(smBeginBlock_commits hk ..).mem_iff, List.mem_filter, decide_eq_true_iff] at h
  refine h.trans (or_congr_right ?_)
  constructor
  · rintro ⟨done, tx, rest, htx, pre, car, post, hcar, ha, hc⟩
    exact ⟨done, tx, rest, pre, car, post, htx, hcar, ha, hc⟩
  · rintro ⟨done, tx, rest, pre, car, post, htx, hcar, ha, hc⟩
    exact ⟨done, tx, rest, htx, pre, car, post, hcar, ha, hc⟩

theorem mem_foldBlocks_commits (activationHeight : UInt64) (bs : List FoldBlock) (c : SmCommit) :
    c ∈ (foldBlocks sha256 (smNew activationHeight) bs).commits ↔
      ∃ front b back, bs = front ++ b :: back ∧
        CommitsIn sha256 (foldBlocks sha256 (smNew activationHeight) front) b c ∧
        ∀ b' ∈ back, ¬ b'.mtp > c.commitTime + commitExpiry := by
  have h := Survivors.mem_foldl (fun s c => c ∈ s.commits)
    (fun b c => ¬ b.mtp > c.commitTime + commitExpiry)
    (fun s b c => CommitsIn sha256 s b c) WellKeyed
    (fun s b hk => (hk.tracks.foldBlock sha256 b).keyed)
    (fun s b c hk => mem_foldBlock_commits sha256 hk b c) bs (wellKeyed_smNew activationHeight) c
  refine h.trans (or_iff_right ?_)
  rintro ⟨hc, -⟩
  cases hc

/-- A commit of the run that is live at a claim in `b`: its block came before and lower, and neither
`b` nor a block since is past its expiry. -/
def LiveCommit (activationHeight : UInt64) (bs : List FoldBlock) (b : FoldBlock) (want : Hash256)
    (c : SmCommit) : Prop :=
  c.commitment = want ∧ ∃ front b₀ back, bs = front ++ b₀ :: back ∧ b₀.height < b.height ∧
    CommitsIn sha256 (foldBlocks sha256 (smNew activationHeight) front) b₀ c ∧
    ∀ b' ∈ back ++ [b], b'.mtp ≤ b₀.mtp + commitExpiry

variable {sha256}

theorem CommitsIn.height {s : SmState} {b : FoldBlock} {c : SmCommit} (h : CommitsIn sha256 s b c) :
    c.commitHeight = b.height := by
  obtain ⟨_, _, _, _, _, _, -, -, -, rfl⟩ := h
  rfl

theorem CommitsIn.time {s : SmState} {b : FoldBlock} {c : SmCommit} (h : CommitsIn sha256 s b c) :
    c.commitTime = b.mtp := by
  obtain ⟨_, _, _, _, _, _, -, -, -, rfl⟩ := h
  rfl

variable (sha256) in
/-- The commits a claim scans are the live ones. -/
theorem mem_midBlock_commits (activationHeight : UInt64) (bs : List FoldBlock) (b : FoldBlock)
    (done : List SmTx) (tx : SmTx) (pre : List SmCarrier) (want : Hash256) (c : SmCommit) :
    c ∈ (midBlock sha256 (foldBlocks sha256 (smNew activationHeight) bs) b done tx pre).1.commits ∧
        c.commitHeight < b.height ∧ c.commitment = want ↔
      LiveCommit sha256 activationHeight bs b want c := by
  have hk : WellKeyed (foldBlocks sha256 (smNew activationHeight) bs) :=
    ((wellKeyed_smNew activationHeight).tracks.foldBlocks sha256 bs).keyed
  -- what the block itself has committed so far is not below its height
  have hmid : c.commitHeight < b.height →
      (c ∈ (midBlock sha256 (foldBlocks sha256 (smNew activationHeight) bs) b done tx pre).1.commits ↔
        c ∈ (foldBlocks sha256 (smNew activationHeight) bs).commits ∧
          ¬ b.mtp > c.commitTime + commitExpiry) := by
    intro hlt
    have h1 := mem_foldl_applyCarrier_commits sha256
      (onBlock_txs (b := b) sha256 hk done tx) tx pre c
    have h2 := mem_foldl_smApplyTx_commits sha256 b hk done c
    rw [(smBeginBlock_commits hk ..).mem_iff, List.mem_filter, decide_eq_true_iff] at h2
    refine h1.trans ((or_iff_left ?_).trans (h2.trans (or_iff_left ?_)))
    · rintro ⟨_, _, _, -, -, rfl⟩
      exact lt_irrefl _ hlt
    · rintro ⟨_, _, _, -, _, _, _, -, -, rfl⟩
      exact lt_irrefl _ hlt
  constructor
  · rintro ⟨hc, hlt, hw⟩
    obtain ⟨hrun, hexp⟩ := (hmid hlt).mp hc
    obtain ⟨front, b₀, back, hbs, hin, hback⟩ :=
      (mem_foldBlocks_commits sha256 activationHeight bs c).mp hrun
    refine ⟨hw, front, b₀, back, hbs, hin.height ▸ hlt, hin, fun b' hb' => ?_⟩
    rw [← hin.time]
    rcases List.mem_append.mp hb' with hb' | hb'
    · exact not_lt.mp (hback b' hb')
    · rw [List.mem_singleton.mp hb']
      exact not_lt.mp hexp
  · rintro ⟨hw, front, b₀, back, hbs, hlt, hin, hback⟩
    have hlt' : c.commitHeight < b.height := by
      rw [hin.height]
      exact hlt
    refine ⟨(hmid hlt').mpr ⟨?_, ?_⟩, hlt', hw⟩
    · refine (mem_foldBlocks_commits sha256 activationHeight bs c).mpr
        ⟨front, b₀, back, hbs, hin, fun b' hb' => ?_⟩
      rw [hin.time]
      exact not_lt.mpr (hback b' (List.mem_append_left _ hb'))
    · rw [hin.time]
      exact not_lt.mpr (hback b (List.mem_append_right _ (List.mem_singleton.mpr rfl)))

end Runs

/-! ### Claims -/

/-- The scratch entry `find_scratch` finds. -/
def winOf (s : SmState) (n : Name) : Option SmClaimWin :=
  RowTable.lookup SmClaimWin.name s.claimsc n

section Claims

variable {sha256 : Bytes → Hash256} {s : SmState} {L : Ledger} {cx : SmTxCtx} {a : SmAction}

/-- What a CLAIM that does anything has found. -/
structure Wins (sha256 : Bytes → Hash256) (L : Ledger) (cx : SmTxCtx) (a : SmAction)
    (p : ℤ × UInt32) (d : Deed) : Prop where
  valid : smNameValid a.name = true
  best : L.IsBest (claimCommitment sha256 a.salt a.name cx.actor) cx.height p
  covers : smLeaseCoversDay cx.carValue cx.rate = true
  place : L.names a.name = none ∧ d.st = .OWNED ∨ L.names a.name = some d ∧ d.st = .OWNED ∧
    ∃ w, L.scratch a.name = some w ∧ d.owner = w.owner ∧
      (p.1 < w.commitHeight ∨ p.1 = w.commitHeight ∧ p.2 < w.commitTxIndex)
  claim_eq : L.claim sha256 cx a = L.mint cx a.name p d

variable (sha256 cx a) in
theorem Tracks.smOpClaim_cases (t : Tracks s L) :
    Fold.smOpClaim sha256 s cx a = s ∨ ∃ p d, Wins sha256 L cx a p d := by
  by_cases hv : (!smNameValid a.name) = true
  · left
    simp only [Fold.smOpClaim, if_pos hv]
  have hv' : smNameValid a.name = true := by simpa using hv
  cases hB : L.best (claimCommitment sha256 a.salt a.name cx.actor) cx.height with
  | none =>
    left
    simp only [Fold.smOpClaim, if_neg hv, t.bestCommit, hB]
  | some p =>
    have hbest := Ledger.best_eq_some.mp hB
    by_cases hday : (!smLeaseCoversDay cx.carValue cx.rate) = true
    · left
      simp only [Fold.smOpClaim, if_neg hv, t.bestCommit, hB, if_pos hday]
    have hday' : smLeaseCoversDay cx.carValue cx.rate = true := by simpa using hday
    cases hf : smFindName s a.name with
    | none =>
      right
      have hnone := t.find_none hf
      refine ⟨p, Deed.plain cx.actor cx.actorType cx.mtp, hv', hbest, hday', Or.inl ⟨hnone, rfl⟩, ?_⟩
      simp only [Ledger.claim, if_neg hv, hB, if_neg hday, hnone]
    | some r =>
      obtain ⟨-, -, hL⟩ := t.find_some hf
      cases hsc : findScratch s a.name with
      | none =>
        left
        simp only [Fold.smOpClaim, if_neg hv, t.bestCommit, hB, if_neg hday, hf, hsc]
      | some w =>
        have hw := t.scratch_some hsc ⟨a.name, 0, 0, zeros 20⟩
        by_cases hown : (s.row r).st ≠ .OWNED ∨
            (s.row r).owner ≠ (s.claimsc.getD w ⟨a.name, 0, 0, zeros 20⟩).owner
        · left
          simp only [Fold.smOpClaim, if_neg hv, t.bestCommit, hB, if_neg hday, hf, hsc, if_pos hown]
        · by_cases hpri : p.1 < (s.claimsc.getD w ⟨a.name, 0, 0, zeros 20⟩).commitHeight ∨
              (p.1 = (s.claimsc.getD w ⟨a.name, 0, 0, zeros 20⟩).commitHeight ∧
                p.2 < (s.claimsc.getD w ⟨a.name, 0, 0, zeros 20⟩).commitTxIndex)
          · right
            simp only [not_or, not_not] at hown
            refine ⟨p, deed (s.row r), hv', hbest, hday',
              Or.inr ⟨hL, hown.1, _, hw, hown.2, hpri⟩, ?_⟩
            simp only [Ledger.claim, if_neg hv, hB, if_neg hday, hL, hw]
            rw [if_neg]
            rintro (h | h | h)
            · exact h hown.1
            · exact h hown.2
            · exact h hpri
          · left
            simp only [Fold.smOpClaim, if_neg hv, t.bestCommit, hB, if_neg hday, hf, hsc,
              if_neg hown, decide_eq_false hpri, Bool.not_false, if_true]

theorem append_inj_claim {salt salt' : Fixed 32} {n n' : Name} {who who' : H160}
    (h : salt.val ++ n ++ who.val = salt'.val ++ n' ++ who'.val) : n = n' ∧ who = who' := by
  have hlen : who.val.length = who'.val.length := by rw [who.property, who'.property]
  obtain ⟨hsn, hw⟩ := List.append_inj' h hlen
  obtain ⟨-, hn⟩ := List.append_inj hsn (by rw [salt.property, salt'.property])
  exact ⟨hn, Subtype.ext hw⟩

/-- The claim at `car` in the state and context `sc` of block `b` is backed by the commit `c`, and
leaves `s'`. -/
structure Backed (sha256 : Bytes → Hash256) (activationHeight : UInt64) (bs : List FoldBlock)
    (b : FoldBlock) (sc : SmState × SmTxCtx) (car : SmCarrier) (s' : SmState) (c : SmCommit) :
    Prop where
  acts : sc.2.actorValid = true
  live : LiveCommit sha256 activationHeight bs b
    (claimCommitment sha256 car.act.salt car.act.name sc.2.actor) c
  least : ∀ c', LiveCommit sha256 activationHeight bs b
    (claimCommitment sha256 car.act.salt car.act.name sc.2.actor) c' →
    Ledger.priority c ≤ Ledger.priority c'
  covers : smLeaseCoversDay car.value b.rate = true
  owner : ∃ r, rowOf s' car.act.name = some r ∧ r.owner = sc.2.actor ∧ r.st = .OWNED
  competes : ∃ w, winOf s' car.act.name = some w ∧ w.commitHeight = c.commitHeight ∧
    w.commitTxIndex = c.txIndex ∧ w.owner = sc.2.actor
  displaces : ∀ r, rowOf sc.1 car.act.name = some r → ∃ w, winOf sc.1 car.act.name = some w ∧
    r.st = .OWNED ∧ r.owner = w.owner ∧
    (c.commitHeight < w.commitHeight ∨ c.commitHeight = w.commitHeight ∧ c.txIndex < w.commitTxIndex)
  own : ∀ H : Set Bytes, Set.InjOn sha256 H →
    car.act.salt.val ++ car.act.name ++ sc.2.actor.val ∈ H → ∀ (salt : Fixed 32) (n : Name)
      (who : H160), salt.val ++ n ++ who.val ∈ H → c.commitment = claimCommitment sha256 salt n who →
      n = car.act.name ∧ who = sc.2.actor

theorem winOf_of_obs {n : Name} {w : Win} (h : (obs s).scratch n = some w) :
    ∃ v, winOf s n = some v ∧ win v = w := Option.map_eq_some_iff.mp h

variable (sha256) in
theorem applyCarrier_claim (tx : SmTx) {car : SmCarrier} (hk : car.kind = .ACTION)
    (hop : SmOp.ofByte? car.act.op = some .CLAIM) (hactive : ¬ s.curHeight < i64 s.activationHeight)
    (hv : cx.actorValid = true) :
    (applyCarrier sha256 tx (s, cx) car).1
      = smOpClaim sha256 s { cx with carValue := car.value, carVout := car.vout } car.act := by
  simp only [applyCarrier, hk, hop, hv, if_neg hactive, ne_eq, not_true_eq_false, if_false,
    Bool.not_true, Bool.false_eq_true, dispatch]

/-- A CLAIM that changes the state is active and has an acting identity. -/
theorem claim_acts {tx : SmTx} {car : SmCarrier} (hop : SmOp.ofByte? car.act.op = some .CLAIM)
    (hne : (applyCarrier sha256 tx (s, cx) car).1 ≠ s) :
    ¬ s.curHeight < i64 s.activationHeight ∧ cx.actorValid = true := by
  constructor
  · intro hlow
    apply hne
    simp only [applyCarrier, if_pos hlow]
    split <;> rfl
  · by_contra hv
    rw [Bool.not_eq_true] at hv
    apply hne
    simp only [applyCarrier, hop, hv, Bool.not_false, if_true]
    split
    · rfl
    · split <;> rfl

/-- The best priority a claim finds is that of its earliest live commit. -/
theorem exists_least {activationHeight : UInt64} {bs : List FoldBlock} {b : FoldBlock}
    {done : List SmTx} {tx : SmTx} {pre : List SmCarrier} {want : Hash256} {p : ℤ × UInt32}
    (h : (obs (midBlock sha256 (foldBlocks sha256 (smNew activationHeight) bs) b done tx pre).1).IsBest
      want b.height p) :
    ∃ c, LiveCommit sha256 activationHeight bs b want c ∧ p = (c.commitHeight, c.txIndex) ∧
      ∀ c', LiveCommit sha256 activationHeight bs b want c' →
        Ledger.priority c ≤ Ledger.priority c' := by
  obtain ⟨⟨c, hc, hp⟩, hmin⟩ := h
  have hmem := fun c => mem_midBlock_commits sha256 activationHeight bs b done tx pre want c
  refine ⟨c, (hmem c).mp (Ledger.mem_backing.mp hc), hp, fun c' hc' => ?_⟩
  have hle := hmin c' (Ledger.mem_backing.mpr ((hmem c').mpr hc'))
  rw [hp] at hle
  exact hle

/-- A CLAIM that changes the state is backed. -/
theorem exists_backed (activationHeight : UInt64) (bs : List FoldBlock) (b : FoldBlock)
    (done : List SmTx) (tx : SmTx) (pre : List SmCarrier) {car : SmCarrier} {sc : SmState × SmTxCtx}
    (hsc : midBlock sha256 (foldBlocks sha256 (smNew activationHeight) bs) b done tx pre = sc)
    (hk : car.kind = .ACTION) (hop : SmOp.ofByte? car.act.op = some .CLAIM)
    (hne : (applyCarrier sha256 tx sc car).1 ≠ sc.1) :
    ∃ c, Backed sha256 activationHeight bs b sc car (applyCarrier sha256 tx sc car).1 c := by
  have hon : OnBlock (foldBlocks sha256 (smNew activationHeight) bs) b sc := by
    rw [← hsc]
    exact onBlock_midBlock sha256
      ((wellKeyed_smNew activationHeight).tracks.foldBlocks sha256 bs).keyed done tx pre
  obtain ⟨s, cx⟩ := sc
  obtain ⟨hactive, hv⟩ := claim_acts hop hne
  have heq := applyCarrier_claim sha256 tx hk hop hactive hv
  have t := hon.keyed.tracks
  rcases t.smOpClaim_cases sha256
    { cx with carValue := car.value, carVout := car.vout } car.act with hidle | hwins
  · exact absurd (heq.trans hidle) hne
  · obtain ⟨p, d, hw⟩ := hwins
    have hbest := hw.best
    rw [show ({ cx with carValue := car.value, carVout := car.vout } : SmTxCtx).height = b.height from
      hon.ctxHeight, show s = (midBlock sha256 (foldBlocks sha256 (smNew activationHeight) bs) b done tx
        pre).1 from (congrArg Prod.fst hsc).symm] at hbest
    obtain ⟨c, hlive, hp, hleast⟩ := exists_least hbest
    have t' := t.smOpClaim sha256 { cx with carValue := car.value, carVout := car.vout } car.act
    rw [← heq, hw.claim_eq] at t'
    have hname : (obs (applyCarrier sha256 tx (s, cx) car).1).names car.act.name = some
        (Ledger.minted { cx with carValue := car.value, carVout := car.vout } d) := by
      rw [t'.obs_eq, Ledger.mint_names, Function.update_self]
    have hscr : (obs (applyCarrier sha256 tx (s, cx) car).1).scratch car.act.name
        = some ⟨p.1, p.2, cx.actor⟩ := by
      rw [t'.obs_eq, Ledger.mint_scratch, Function.update_self]
    have hdst : d.st = .OWNED := hw.place.elim And.right fun h => h.2.1
    refine ⟨c, hv, hlive, hleast, ?_, ?_, ?_, ?_, ?_⟩
    · have hrate : cx.rate = b.rate := hon.ctxRate
      rw [← hrate]
      exact hw.covers
    · obtain ⟨r, hr, hd⟩ := Option.map_eq_some_iff.mp hname
      have ho : r.owner = (deed r).owner := rfl
      have hst : r.st = (deed r).st := rfl
      refine ⟨r, hr, ?_, ?_⟩
      · rw [ho, hd]
        rfl
      · rw [hst, hd]
        exact hdst
    · obtain ⟨v, hv', hwin⟩ := winOf_of_obs hscr
      rw [hp] at hwin
      injection hwin with h1 h2 h3
      exact ⟨v, hv', h1, h2, h3⟩
    · intro r hr
      have hold : (obs s).names car.act.name = some (deed r) := obs_of_rowOf hr
      rcases hw.place with ⟨hnone, -⟩ | ⟨hsome, -, w, hwin, ho, hpri⟩
      · rw [hnone] at hold
        cases hold
      · rw [hsome] at hold
        cases hold
        obtain ⟨v, hv', rfl⟩ := winOf_of_obs hwin
        rw [hp] at hpri
        exact ⟨v, hv', hdst, ho, hpri⟩
    · intro H hinj hmem salt n who hmem' hcommit
      have heq' : sha256 (car.act.salt.val ++ car.act.name ++ cx.actor.val)
          = sha256 (salt.val ++ n ++ who.val) := hlive.1.symm.trans hcommit
      obtain ⟨hn, hwho⟩ := append_inj_claim (hinj hmem hmem' heq')
      exact ⟨hn.symm, hwho.symm⟩

theorem foldBlocks_activationHeight (sha256 : Bytes → Hash256) (activationHeight : UInt64)
    (bs : List FoldBlock) :
    (foldBlocks sha256 (smNew activationHeight) bs).activationHeight = activationHeight := by
  induction bs using List.reverseRecOn with
  | nil => rfl
  | append_singleton bs b ih =>
    have hk := ((wellKeyed_smNew activationHeight).tracks.foldBlocks sha256 bs).keyed
    have hon := onBlock_txs (b := b) sha256 hk b.txs ⟨0, [], [], []⟩
    rw [foldBlocks, List.foldl_append]
    exact hon.activationHeight.trans ih

/-- A commit is applied at or above the activation height. -/
theorem CommitsIn.active {activationHeight : UInt64} {front : List FoldBlock} {b : FoldBlock}
    {c : SmCommit} (h : CommitsIn sha256 (foldBlocks sha256 (smNew activationHeight) front) b c) :
    i64 activationHeight ≤ b.height := by
  obtain ⟨done, tx, _, pre, car, _, -, -, ha, -⟩ := h
  have hk := ((wellKeyed_smNew activationHeight).tracks.foldBlocks sha256 front).keyed
  have hon := onBlock_midBlock (b := b) sha256 hk done tx pre
  have hact := ha.active
  rw [hon.height, hon.activationHeight, foldBlocks_activationHeight] at hact
  exact not_lt.mp hact

/-- With a live commit and no row in the way, a claim mints. -/
theorem claim_mints (activationHeight : UInt64) (bs : List FoldBlock) (b : FoldBlock)
    (done : List SmTx) (tx : SmTx) (pre : List SmCarrier) {car : SmCarrier} {sc : SmState × SmTxCtx}
    (hsc : midBlock sha256 (foldBlocks sha256 (smNew activationHeight) bs) b done tx pre = sc)
    (hk : car.kind = .ACTION) (hop : SmOp.ofByte? car.act.op = some .CLAIM)
    (hv : sc.2.actorValid = true) (hname : smNameValid car.act.name = true)
    (hday : smLeaseCoversDay car.value b.rate = true) (habsent : rowOf sc.1 car.act.name = none)
    {c : SmCommit} (hlive : LiveCommit sha256 activationHeight bs b
      (claimCommitment sha256 car.act.salt car.act.name sc.2.actor) c) :
    ∃ r, rowOf (applyCarrier sha256 tx sc car).1 car.act.name = some r ∧ r.owner = sc.2.actor ∧
      r.st = .OWNED := by
  have hon : OnBlock (foldBlocks sha256 (smNew activationHeight) bs) b sc := by
    rw [← hsc]
    exact onBlock_midBlock sha256
      ((wellKeyed_smNew activationHeight).tracks.foldBlocks sha256 bs).keyed done tx pre
  have hmem := (mem_midBlock_commits sha256 activationHeight bs b done tx pre _ c).mpr hlive
  rw [hsc] at hmem
  obtain ⟨s, cx⟩ := sc
  have hactive : ¬ s.curHeight < i64 s.activationHeight := by
    obtain ⟨-, front, b₀, back, -, hlt, hin, -⟩ := hlive
    have hle := hin.active
    rw [show s.curHeight = b.height from hon.height, show s.activationHeight = _ from
      hon.activationHeight, foldBlocks_activationHeight]
    omega
  have heq := applyCarrier_claim sha256 tx hk hop hactive hv
  have t := hon.keyed.tracks
  have t' := t.smOpClaim sha256 { cx with carValue := car.value, carVout := car.vout } car.act
  rw [← heq] at t'
  have hnone : (obs s).names car.act.name = none := obs_names_eq_none.mpr habsent
  have hbest : ∃ p, (obs s).best (claimCommitment sha256 car.act.salt car.act.name cx.actor) cx.height
      = some p := by
    have hfold := foldl_bestCommit (claimCommitment sha256 car.act.salt car.act.name cx.actor)
      cx.height s.commits
    rw [t.bestCommit] at hfold
    cases hB : (obs s).best (claimCommitment sha256 car.act.salt car.act.name cx.actor) cx.height with
    | some p => exact ⟨p, rfl⟩
    | none =>
      rw [hB] at hfold
      refine absurd ⟨?_, hmem.2.2⟩ (hfold c hmem.1)
      rw [show cx.height = b.height from hon.ctxHeight]
      exact hmem.2.1
  obtain ⟨p, hp⟩ := hbest
  have hclaim : (obs s).claim sha256 { cx with carValue := car.value, carVout := car.vout } car.act
      = (obs s).mint { cx with carValue := car.value, carVout := car.vout } car.act.name p
        (Deed.plain cx.actor cx.actorType cx.mtp) := by
    have hrate : cx.rate = b.rate := hon.ctxRate
    have hday' : smLeaseCoversDay car.value cx.rate = true := by
      rw [hrate]
      exact hday
    simp only [Ledger.claim, hname, hp, hday', hnone, Bool.not_true, Bool.false_eq_true, if_false]
  have hnames : (obs (applyCarrier sha256 tx (s, cx) car).1).names car.act.name = some
      (Ledger.minted { cx with carValue := car.value, carVout := car.vout }
        (Deed.plain cx.actor cx.actorType cx.mtp)) := by
    rw [t'.obs_eq, hclaim, Ledger.mint_names, Function.update_self]
  obtain ⟨r, hr, hd⟩ := Option.map_eq_some_iff.mp hnames
  have ho : r.owner = (deed r).owner := rfl
  have hst : r.st = (deed r).st := rfl
  refine ⟨r, hr, ?_, ?_⟩
  · rw [ho, hd]
    rfl
  · rw [hst, hd]
    rfl

end Claims

/-- At every carrier of every run: a CLAIM that changes the state is backed by a live commit of its
own, the earliest there is; with one, and no row in the way, it mints; and commits leave the table
only at a block boundary, once they are over. -/
theorem claim_backed (sha256 : Bytes → Hash256) (activationHeight : UInt64) (bs : List FoldBlock)
    (b : FoldBlock) (done : List SmTx) (tx : SmTx) (pre : List SmCarrier) (car : SmCarrier) :
    let s := foldBlocks sha256 (smNew activationHeight) bs
    let sc := midBlock sha256 s b done tx pre
    let s' := (applyCarrier sha256 tx sc car).1
    (car.kind = .ACTION → SmOp.ofByte? car.act.op = some .CLAIM → s' ≠ sc.1 →
        ∃ c, Backed sha256 activationHeight bs b sc car s' c) ∧
      (car.kind = .ACTION → SmOp.ofByte? car.act.op = some .CLAIM → sc.2.actorValid = true →
        smNameValid car.act.name = true → smLeaseCoversDay car.value b.rate = true →
        rowOf sc.1 car.act.name = none →
        (∃ c, LiveCommit sha256 activationHeight bs b
          (claimCommitment sha256 car.act.salt car.act.name sc.2.actor) c) →
        ∃ r, rowOf s' car.act.name = some r ∧ r.owner = sc.2.actor ∧ r.st = .OWNED) ∧
      sc.1.commits.Subperm s'.commits ∧
      (smBeginBlock s b.height b.mtp b.rate).commits.Perm
        (s.commits.filter fun c => ¬ b.mtp > c.commitTime + commitExpiry) := by
  intro s sc s'
  have hk : WellKeyed s := ((wellKeyed_smNew activationHeight).tracks.foldBlocks sha256 bs).keyed
  refine ⟨?_, ?_, ?_, smBeginBlock_commits hk ..⟩
  · intro hkind hop hne
    exact exists_backed activationHeight bs b done tx pre rfl hkind hop hne
  · rintro hkind hop hv hname hday habsent ⟨c, hlive⟩
    exact claim_mints activationHeight bs b done tx pre rfl hkind hop hv hname hday habsent hlive
  · exact applyCarrier_keeps_commits sha256 (onBlock_midBlock sha256 hk done tx pre).keyed

/-- The claim of the short run is backed by its commit. -/
theorem claim_backed_sample :
    let sc := midBlock sampleSha256 (foldBlocks sampleSha256 (smNew 0) (sampleRun.take 1))
      ⟨11, 2000, 28, [sampleClaim]⟩ [] sampleClaim []
    let car : SmCarrier := ⟨.ACTION, { op := 0x04, name := [97] }, 10, 0⟩
    ∃ c, Backed sampleSha256 0 (sampleRun.take 1) ⟨11, 2000, 28, [sampleClaim]⟩ sc car
      (applyCarrier sampleSha256 sampleClaim sc car).1 c := by
  refine (claim_backed sampleSha256 0 (sampleRun.take 1) ⟨11, 2000, 28, [sampleClaim]⟩ [] sampleClaim []
    ⟨.ACTION, { op := 0x04, name := [97] }, 10, 0⟩).1 rfl rfl ?_
  intro heq
  exact absurd (congrArg (fun s => s.names.length) heq) (by decide)

end NamespaceIndexer
