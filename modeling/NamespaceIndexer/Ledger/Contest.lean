import NamespaceIndexer.Ledger.Commits
import NamespaceIndexer.Ledger.Locality

/-!
# Claims for one name within a block

While nothing else touches the name, its row and its scratch entry are those of
the best claim so far, whatever came between; so the earliest commit wins.
-/

namespace NamespaceIndexer

open Fold Lib

/-! ### Claims as bids -/

/-- The iterations over the carriers of `txs`, from `s`. -/
def txsSteps (sha256 : Bytes → Hash256) : SmState → List SmTx → List CarStep
  | _, [] => []
  | s, tx :: txs =>
    carSteps sha256 tx (s, initCtx s tx) tx.carriers ++ txsSteps sha256 (smApplyTx sha256 s tx) txs

/-- A CLAIM with the priority of its backing commit. -/
abbrev Bid := CarStep × (ℤ × UInt32)

/-- `(commit_height, tx_index)`, the smaller the better. -/
def Bid.priority (w : Bid) : ℤ ×ₗ ℕ := toLex (w.2.1, w.2.2.toNat)

/-- The priority with which a step claims `n` in the block that starts in `s₀`: a CLAIM of `n` by a
valid acting identity, for at least a day, on a commit that is live at the start of the block. -/
def CarStep.bid (sha256 : Bytes → Hash256) (s₀ : SmState) (n : Name) (m : CarStep) :
    Option (ℤ × UInt32) :=
  if m.car.kind = .ACTION ∧ SmOp.ofByte? m.car.act.op = some .CLAIM ∧ m.car.act.name = n ∧
      m.before.2.actorValid = true ∧ smLeaseCoversDay m.car.value s₀.curRate = true then
    s₀.commits.foldl
      (bestCommit (claimCommitment sha256 m.car.act.salt n m.before.2.actor) s₀.curHeight) none
  else none

/-- The claims for `n` among the steps, with their priorities. -/
def bids (sha256 : Bytes → Hash256) (s₀ : SmState) (n : Name) (steps : List CarStep) : List Bid :=
  steps.filterMap fun m => (m.bid sha256 s₀ n).map (Prod.mk m)

theorem bids_append (sha256 : Bytes → Hash256) (s₀ : SmState) (n : Name) (a b : List CarStep) :
    bids sha256 s₀ n (a ++ b) = bids sha256 s₀ n a ++ bids sha256 s₀ n b :=
  List.filterMap_append

theorem bids_singleton (sha256 : Bytes → Hash256) (s₀ : SmState) (n : Name) (m : CarStep) :
    bids sha256 s₀ n [m] = ((m.bid sha256 s₀ n).map (Prod.mk m)).toList := by
  unfold bids
  cases hb : m.bid sha256 s₀ n <;> simp [hb]

/-! ### What backs a bid stays through the block -/

namespace Ledger

theorem backing_usable (L : Ledger) (want : Hash256) :
    L.backing want L.height = L.usable.filter fun c => c.commitment = want := by
  unfold backing usable
  rw [Multiset.filter_filter]
  exact Multiset.filter_congr fun c _ => by rw [and_comm]

theorem best_of_usable {L M : Ledger} (hu : L.usable = M.usable) (want : Hash256) :
    L.best want L.height = M.best want M.height := by
  have hback : L.backing want L.height = M.backing want M.height := by
    rw [backing_usable, backing_usable, hu]
  have hiff : ∀ p, L.IsBest want L.height p ↔ M.IsBest want M.height p := by
    intro p
    unfold IsBest
    rw [hback]
  have hsome : ∀ p, L.best want L.height = some p ↔ M.best want M.height = some p := by
    intro p
    rw [best_eq_some, best_eq_some, hiff]
  exact Option.ext hsome

theorem applyCarrier_usable (sha256 : Bytes → Hash256) (tx : SmTx) (L : Ledger) (cx : SmTxCtx)
    (car : SmCarrier) : (applyCarrier sha256 tx (L, cx) car).1.usable = L.usable := by
  rcases applyCarrier_cases sha256 tx L cx car with ⟨he, -⟩ | ⟨op, -, -, -, hact⟩
  · rw [he]
  · have hheight := hact.clock.1
    unfold usable
    rw [hheight]
    rcases hact.commits with he | ⟨-, he⟩
    · rw [he]
    · rw [he, Multiset.filter_cons_of_neg]
      exact lt_irrefl _

/-- A claim with an open commitment and a day's lease, on a free name and on a held one. -/
theorem claim_eq {sha256 : Bytes → Hash256} {L : Ledger} {cx : SmTxCtx} {a : SmAction}
    {p : ℤ × UInt32} (hn : smNameValid a.name = true)
    (hbest : L.best (claimCommitment sha256 a.salt a.name cx.actor) cx.height = some p)
    (hday : smLeaseCoversDay cx.carValue cx.rate = true) :
    (L.names a.name = none → L.claim sha256 cx a
      = L.mint cx a.name p (Deed.plain cx.actor cx.actorType cx.mtp)) ∧
    ∀ d w, L.names a.name = some d → L.scratch a.name = some w → L.claim sha256 cx a
      = if d.st ≠ .OWNED ∨ d.owner ≠ w.owner ∨
          ¬ (p.1 < w.commitHeight ∨ (p.1 = w.commitHeight ∧ p.2 < w.commitTxIndex)) then L
        else L.mint cx a.name p d := by
  unfold Ledger.claim
  simp only [hn, hbest, hday, Bool.not_true, Bool.false_eq_true, if_false]
  constructor
  · intro hfree
    simp only [hfree]
  · intro d w hd hw
    simp only [hd, hw]

end Ledger

/-- No commit of a run was made below the activation height. -/
theorem commits_active (sha256 : Bytes → Hash256) (activationHeight : UInt64) (bs : List FoldBlock)
    (b : FoldBlock) {c : SmCommit}
    (hc : c ∈ (smBeginBlock (foldBlocks sha256 (smNew activationHeight) bs)
      b.height b.mtp b.rate).commits) : i64 activationHeight ≤ c.commitHeight := by
  have hk := ((wellKeyed_smNew activationHeight).tracks.foldBlocks sha256 bs).keyed
  rw [(smBeginBlock_commits hk b.height b.mtp b.rate).mem_iff, List.mem_filter] at hc
  obtain ⟨front, b₀, back, -, hin, -⟩ :=
    (mem_foldBlocks_commits sha256 activationHeight bs c).mp hc.1
  rw [hin.height]
  exact hin.active

/-! ### The best bid stands -/

/-- What the winning claim writes. -/
structure Deed.WonBy (d : Deed) (b : FoldBlock) (m : CarStep) : Prop where
  owned : d.st = .OWNED
  owner : d.owner = m.before.2.actor
  lease : d.leaseExpiry = b.mtp + 86400 * min 365 (rawT m.car.value b.rate : ℤ)

/-- After the bids `ws` in the block `b` that started in `s₀`, the best of them holds `n`. -/
structure Standing (s₀ : SmState) (b : FoldBlock) (n : Name) (ws : List Bid) (s : SmState) : Prop where
  usable : (obs s).usable = (obs s₀).usable
  absent : ws = [] → (obs s).names n = none
  held : ws ≠ [] → ∃ w ∈ ws, (∀ c ∈ ws, w.priority ≤ c.priority) ∧
    (∃ d, (obs s).names n = some d ∧ d.WonBy b w.1) ∧
    (obs s).scratch n = some ⟨w.2.1, w.2.2, w.1.before.2.actor⟩

section Steps

variable {sha256 : Bytes → Hash256} {start s₀ s : SmState} {b : FoldBlock} {n : Name}
  {ws : List Bid} {tx : SmTx} {cx : SmTxCtx} {car : SmCarrier}

/-- A step that writes the scratch entry of `n` is a bid. -/
theorem bid_of_scratch (hs₀ : s₀.curHeight = b.height ∧ s₀.curRate = b.rate)
    (hk₀ : WellKeyed s₀) (hon : OnBlock start b (s, cx)) (hu : (obs s).usable = (obs s₀).usable)
    (hne : (obs (applyCarrier sha256 tx (s, cx) car).1).scratch n ≠ (obs s).scratch n) :
    CarStep.bid sha256 s₀ n ⟨tx, (s, cx), car⟩ ≠ none := by
  obtain ⟨ht, -⟩ := hon.keyed.tracks.applyCarrier sha256 tx cx car
  rw [ht.obs_eq] at hne
  have hheight : (obs s).height = (obs s₀).height := hon.height.trans hs₀.1.symm
  rcases Ledger.applyCarrier_cases sha256 tx (obs s) cx car with
    ⟨he, -⟩ | ⟨op, hkind, hop, hv, hact⟩
  · rw [he] at hne
    exact absurd rfl hne
  · have hwrote : op = .CLAIM ∧ car.act.name = n := by
      rcases hact.scratch with he | ⟨p, hclaim, he, -⟩
      · rw [he] at hne
        exact absurd rfl hne
      · refine ⟨hclaim, ?_⟩
        by_contra hnn
        rw [he, Function.update_of_ne (Ne.symm hnn)] at hne
        exact hne rfl
    obtain ⟨rfl, hname⟩ := hwrote
    obtain ⟨-, hday, p, hbest⟩ := hact.claim_best
    have hday' : smLeaseCoversDay car.value s₀.curRate = true := by
      rw [hs₀.2, ← show cx.rate = b.rate from hon.ctxRate]
      exact hday
    have hctx : (Ledger.carCtx cx car).height = (obs s).height :=
      hon.ctxHeight.trans hon.height.symm
    rw [hctx, hname] at hbest
    have hp := (Ledger.best_of_usable hu _).symm.trans (Ledger.best_eq_some.mpr hbest)
    have hfold := hk₀.tracks.bestCommit
      (claimCommitment sha256 car.act.salt n cx.actor) s₀.curHeight
    unfold CarStep.bid
    rw [if_pos ⟨hkind, hop, hname, hv (by decide), hday'⟩]
    exact fun hnone => Option.some_ne_none p (hp.symm.trans (hfold.symm.trans hnone))

/-- A bid runs `sm_op_claim` with its priority. -/
theorem claim_of_bid (hs₀ : s₀.curHeight = b.height ∧ s₀.curRate = b.rate) (hk₀ : WellKeyed s₀)
    (hactive : ∀ c ∈ s₀.commits, i64 start.activationHeight ≤ c.commitHeight)
    (hon : OnBlock start b (s, cx)) (hu : (obs s).usable = (obs s₀).usable) {p : ℤ × UInt32}
    (hbid : CarStep.bid sha256 s₀ n ⟨tx, (s, cx), car⟩ = some p) :
    obs (applyCarrier sha256 tx (s, cx) car).1
        = (obs s).claim sha256 (Ledger.carCtx cx car) car.act ∧
      car.act.name = n ∧ smLeaseCoversDay car.value cx.rate = true ∧
      (obs s).best (claimCommitment sha256 car.act.salt n cx.actor) cx.height = some p := by
  unfold CarStep.bid at hbid
  split at hbid
  · rename_i hcond
    obtain ⟨hkind, hop, hname, hv, hday⟩ := hcond
    simp only at hkind hop hname hv hday hbid
    have hfold := foldl_bestCommit (claimCommitment sha256 car.act.salt n cx.actor) s₀.curHeight
      s₀.commits
    rw [hbid] at hfold
    obtain ⟨⟨c, hc, ⟨hlow, -⟩, -⟩, -⟩ := hfold
    have hopen : ¬ s.curHeight < i64 s.activationHeight := by
      have hle := hactive c hc
      rw [show s.curHeight = b.height from hon.height,
        show s.activationHeight = start.activationHeight from hon.activationHeight]
      omega
    refine ⟨?_, hname, ?_, ?_⟩
    · rw [applyCarrier_claim sha256 tx hkind hop hopen hv]
      exact (hon.keyed.tracks.smOpClaim sha256 (Ledger.carCtx cx car) car.act).obs_eq
    · rw [show cx.rate = b.rate from hon.ctxRate, ← hs₀.2]
      exact hday
    · have hctx : cx.height = (obs s).height := hon.ctxHeight.trans hon.height.symm
      have hfold₀ := hk₀.tracks.bestCommit (claimCommitment sha256 car.act.salt n cx.actor)
        s₀.curHeight
      rw [hctx, Ledger.best_of_usable hu]
      exact hfold₀.symm.trans hbid
  · cases hbid

theorem minted_wonBy (hon : OnBlock start b (s, cx)) (d : Deed) (hst : d.st = .OWNED) :
    (Ledger.minted (Ledger.carCtx cx car) d).WonBy b ⟨tx, (s, cx), car⟩ where
  owned := hst
  owner := rfl
  lease := by
    have hm : cx.mtp = b.mtp := hon.ctxMtp
    have hr : cx.rate = b.rate := hon.ctxRate
    simp only [Ledger.minted, Ledger.carCtx, Deed.award, hm, hr]
    have hunit : (billingUnit : ℤ) = 86400 := rfl
    rw [hunit]
    push_cast
    ring

/-- The claim of a bid, and what it leaves: its own deed if it is the best so far. -/
theorem Standing.bid (h : Standing s₀ b n ws s) (hn : smNameValid n = true)
    (hs₀ : s₀.curHeight = b.height ∧ s₀.curRate = b.rate) (hk₀ : WellKeyed s₀)
    (hactive : ∀ c ∈ s₀.commits, i64 start.activationHeight ≤ c.commitHeight)
    (hon : OnBlock start b (s, cx)) {p : ℤ × UInt32}
    (hbid : CarStep.bid sha256 s₀ n ⟨tx, (s, cx), car⟩ = some p) :
    Standing s₀ b n (ws ++ [(⟨tx, (s, cx), car⟩, p)]) (applyCarrier sha256 tx (s, cx) car).1 := by
  obtain ⟨hobs, hname, hday, hbest⟩ := claim_of_bid hs₀ hk₀ hactive hon h.usable hbid
  have hu : (obs (applyCarrier sha256 tx (s, cx) car).1).usable = (obs s₀).usable := by
    have ht := (hon.keyed.tracks.applyCarrier sha256 tx cx car).1
    rw [ht.obs_eq, Ledger.applyCarrier_usable, h.usable]
  have hmint : ∀ d : Deed, d.st = .OWNED →
      (∀ c ∈ ws, Bid.priority (⟨tx, (s, cx), car⟩, p) ≤ c.priority) →
      obs (applyCarrier sha256 tx (s, cx) car).1 = (obs s).mint (Ledger.carCtx cx car) n p d →
      Standing s₀ b n (ws ++ [(⟨tx, (s, cx), car⟩, p)]) (applyCarrier sha256 tx (s, cx) car).1 := by
    intro d hst hmin heq
    refine ⟨hu, fun hnil => by simp at hnil, fun _ => ⟨(⟨tx, (s, cx), car⟩, p), by simp, ?_, ?_, ?_⟩⟩
    · intro c hc
      rcases List.mem_append.mp hc with hc | hc
      · exact hmin c hc
      · rw [List.mem_singleton.mp hc]
    · refine ⟨Ledger.minted (Ledger.carCtx cx car) d, ?_, minted_wonBy hon d hst⟩
      rw [heq, Ledger.mint_names, Function.update_self]
    · rw [heq, Ledger.mint_scratch, Function.update_self]
      rfl
  obtain ⟨hfree, hheld⟩ : ((obs s).names n = none →
        (obs s).claim sha256 (Ledger.carCtx cx car) car.act
          = (obs s).mint (Ledger.carCtx cx car) n p (Deed.plain cx.actor cx.actorType cx.mtp)) ∧
      ∀ d w, (obs s).names n = some d → (obs s).scratch n = some w →
        (obs s).claim sha256 (Ledger.carCtx cx car) car.act
          = if d.st ≠ .OWNED ∨ d.owner ≠ w.owner ∨
              ¬ (p.1 < w.commitHeight ∨ (p.1 = w.commitHeight ∧ p.2 < w.commitTxIndex)) then obs s
            else (obs s).mint (Ledger.carCtx cx car) n p d := by
    subst hname
    exact Ledger.claim_eq hn hbest hday
  by_cases hws : ws = []
  · subst hws
    rw [hfree (h.absent rfl)] at hobs
    exact hmint _ rfl (by simp) hobs
  · obtain ⟨w, hw, hmin, ⟨d, hd, hwon⟩, hscr⟩ := h.held hws
    rw [hheld d _ hd hscr] at hobs
    simp only [hwon.owned, hwon.owner, ne_eq, not_true_eq_false, false_or] at hobs
    by_cases hlt : p.1 < w.2.1 ∨ (p.1 = w.2.1 ∧ p.2 < w.2.2)
    · rw [if_neg (not_not.mpr hlt)] at hobs
      have hpri : Bid.priority (⟨tx, (s, cx), car⟩, p) < w.priority :=
        (priority_lt_iff p.1 w.2.1 p.2 w.2.2).mpr hlt
      exact hmint d hwon.owned (fun c hc => hpri.le.trans (hmin c hc)) hobs
    · rw [if_pos hlt] at hobs
      have hpri : w.priority ≤ Bid.priority (⟨tx, (s, cx), car⟩, p) := by
        rw [← not_lt]
        exact fun h' => hlt ((priority_lt_iff p.1 w.2.1 p.2 w.2.2).mp h')
      refine ⟨hu, fun hnil => by simp at hnil, fun _ => ⟨w, by simp [hw], fun c hc => ?_, ?_, ?_⟩⟩
      · rcases List.mem_append.mp hc with hc | hc
        · exact hmin c hc
        · rw [List.mem_singleton.mp hc]
          exact hpri
      · rw [hobs]
        exact ⟨d, hd, hwon⟩
      · rw [hobs, hscr]

/-- Any other step that leaves the row alone leaves the standing bid. -/
theorem Standing.aside (h : Standing s₀ b n ws s)
    (hs₀ : s₀.curHeight = b.height ∧ s₀.curRate = b.rate) (hk₀ : WellKeyed s₀)
    (hon : OnBlock start b (s, cx)) (hbid : CarStep.bid sha256 s₀ n ⟨tx, (s, cx), car⟩ = none)
    (hrow : rowOf (applyCarrier sha256 tx (s, cx) car).1 n = rowOf s n) :
    Standing s₀ b n ws (applyCarrier sha256 tx (s, cx) car).1 := by
  have hnames : (obs (applyCarrier sha256 tx (s, cx) car).1).names n = (obs s).names n := by
    change (rowOf _ n).map deed = (rowOf s n).map deed
    rw [hrow]
  have hscr : (obs (applyCarrier sha256 tx (s, cx) car).1).scratch n = (obs s).scratch n := by
    by_contra hne
    exact bid_of_scratch hs₀ hk₀ hon h.usable hne hbid
  refine ⟨?_, fun hnil => hnames.trans (h.absent hnil), fun hws => ?_⟩
  · rw [(hon.keyed.tracks.applyCarrier sha256 tx cx car).1.obs_eq, Ledger.applyCarrier_usable,
      h.usable]
  · obtain ⟨w, hw, hmin, ⟨d, hd, hwon⟩, hs⟩ := h.held hws
    exact ⟨w, hw, hmin, ⟨d, hnames.trans hd, hwon⟩, hscr.trans hs⟩

theorem Standing.step (h : Standing s₀ b n ws s) (hn : smNameValid n = true)
    (hs₀ : s₀.curHeight = b.height ∧ s₀.curRate = b.rate) (hk₀ : WellKeyed s₀)
    (hactive : ∀ c ∈ s₀.commits, i64 start.activationHeight ≤ c.commitHeight)
    (hon : OnBlock start b (s, cx))
    (haside : CarStep.bid sha256 s₀ n ⟨tx, (s, cx), car⟩ = none →
      rowOf (applyCarrier sha256 tx (s, cx) car).1 n = rowOf s n) :
    Standing s₀ b n (ws ++ bids sha256 s₀ n [⟨tx, (s, cx), car⟩])
      (applyCarrier sha256 tx (s, cx) car).1 := by
  rw [bids_singleton]
  cases hbid : CarStep.bid sha256 s₀ n ⟨tx, (s, cx), car⟩ with
  | none =>
    rw [Option.map_none, Option.toList_none, List.append_nil]
    exact h.aside hs₀ hk₀ hon hbid (haside hbid)
  | some p => exact h.bid hn hs₀ hk₀ hactive hon hbid

theorem Standing.carSteps {sc : SmState × SmTxCtx} (h : Standing s₀ b n ws sc.1)
    (hn : smNameValid n = true) (hs₀ : s₀.curHeight = b.height ∧ s₀.curRate = b.rate)
    (hk₀ : WellKeyed s₀) (hactive : ∀ c ∈ s₀.commits, i64 start.activationHeight ≤ c.commitHeight)
    (hon : OnBlock start b sc) (cars : List SmCarrier)
    (haside : ∀ m ∈ carSteps sha256 tx sc cars, m.bid sha256 s₀ n = none →
      rowOf (m.after sha256).1 n = rowOf m.before.1 n) :
    Standing s₀ b n (ws ++ bids sha256 s₀ n (carSteps sha256 tx sc cars))
      (cars.foldl (applyCarrier sha256 tx) sc).1 := by
  induction cars generalizing sc ws with
  | nil =>
    have hnil : bids sha256 s₀ n (NamespaceIndexer.carSteps sha256 tx sc []) = [] := rfl
    rw [hnil, List.append_nil]
    exact h
  | cons car cars ih =>
    obtain ⟨s, cx⟩ := sc
    have hhead := Standing.step h hn hs₀ hk₀ hactive hon (haside _ List.mem_cons_self)
    have htail := ih hhead (hon.applyCarrier sha256 tx car) fun m hm =>
      haside m (List.mem_cons_of_mem _ hm)
    rw [List.append_assoc, ← bids_append] at htail
    exact htail

theorem Standing.txsSteps (h : Standing s₀ b n ws s) (hn : smNameValid n = true)
    (hs₀ : s₀.curHeight = b.height ∧ s₀.curRate = b.rate) (hk₀ : WellKeyed s₀)
    (hactive : ∀ c ∈ s₀.commits, i64 start.activationHeight ≤ c.commitHeight)
    (hon : OnBlock start b (s, cx)) (txs : List SmTx)
    (haside : ∀ m ∈ txsSteps sha256 s txs, m.bid sha256 s₀ n = none →
      rowOf (m.after sha256).1 n = rowOf m.before.1 n) :
    Standing s₀ b n (ws ++ bids sha256 s₀ n (txsSteps sha256 s txs))
      (txs.foldl (smApplyTx sha256) s) := by
  induction txs generalizing s ws with
  | nil =>
    have hnil : bids sha256 s₀ n (NamespaceIndexer.txsSteps sha256 s []) = [] := rfl
    rw [hnil, List.append_nil]
    exact h
  | cons tx txs ih =>
    have hstart : Standing s₀ b n ws (s, initCtx s tx).1 := h
    have hhead := hstart.carSteps hn hs₀ hk₀ hactive (hon.initCtx tx) tx.carriers
      fun m hm => haside m (List.mem_append_left _ hm)
    have htail := ih hhead (hon.smApplyTx sha256 tx) fun m hm =>
      haside m (List.mem_append_right _ hm)
    rw [List.append_assoc, ← bids_append] at htail
    exact htail

/-! ### A name that is there already -/

/-- The name has a row, and no claim of this block put it there. -/
structure Settled (n : Name) (s : SmState) : Prop where
  row : rowOf s n ≠ none
  scratch : (obs s).scratch n = none

/-- A CLAIM of a settled name does nothing. -/
theorem Settled.claim_idle (h : Settled n s) (hk : car.kind = .ACTION)
    (hop : SmOp.ofByte? car.act.op = some .CLAIM) (hname : car.act.name = n) :
    (applyCarrier sha256 tx (s, cx) car).1 = s := by
  by_contra hne
  obtain ⟨hopen, hv⟩ := claim_acts hop hne
  apply hne
  rw [applyCarrier_claim sha256 tx hk hop hopen hv]
  have hfind : ∃ r, smFindName s car.act.name = some r := by
    cases hf : smFindName s car.act.name with
    | some r => exact ⟨r, rfl⟩
    | none =>
      rw [hname] at hf
      exact absurd ((RowTable.indexOf?_none SmNameRow.name).mp hf) h.row
  have hscr : findScratch s car.act.name = none := by
    rw [hname]
    exact (RowTable.indexOf?_none SmClaimWin.name).mpr (Option.map_eq_none_iff.mp h.scratch)
  obtain ⟨r, hr⟩ := hfind
  unfold smOpClaim
  split
  · rfl
  · simp only [hr, hscr]
    split
    · rfl
    · split <;> rfl

theorem Settled.step (h : Settled n s) (hk : WellKeyed s)
    (hrow : rowOf (applyCarrier sha256 tx (s, cx) car).1 n ≠ none) :
    Settled n (applyCarrier sha256 tx (s, cx) car).1 := by
  refine ⟨hrow, ?_⟩
  obtain ⟨ht, -⟩ := hk.tracks.applyCarrier sha256 tx cx car
  rw [ht.obs_eq]
  rcases Ledger.applyCarrier_cases sha256 tx (obs s) cx car with ⟨he, -⟩ | ⟨op, -, -, -, hact⟩
  · rw [he]
    exact h.scratch
  · cases hw : (Ledger.applyCarrier sha256 tx (obs s, cx) car).1.scratch n with
    | none => rfl
    | some w =>
      have hnames : (obs s).names n ≠ none := mt obs_names_eq_none.mp h.row
      obtain ⟨w', hw'⟩ := hact.scratch_old hw hnames
      rw [h.scratch] at hw'
      cases hw'

theorem Settled.carSteps {sc : SmState × SmTxCtx} (h : Settled n sc.1)
    (hon : OnBlock start b sc) (cars : List SmCarrier)
    (hrow : ∀ m ∈ carSteps sha256 tx sc cars, rowOf (m.after sha256).1 n ≠ none) :
    (∀ m ∈ carSteps sha256 tx sc cars, Settled n m.before.1) ∧
      Settled n (cars.foldl (applyCarrier sha256 tx) sc).1 := by
  induction cars generalizing sc with
  | nil => exact ⟨by simp [NamespaceIndexer.carSteps], h⟩
  | cons car cars ih =>
    have hhead : Settled n (applyCarrier sha256 tx sc car).1 :=
      Settled.step h hon.keyed (hrow _ List.mem_cons_self)
    obtain ⟨hall, hend⟩ := ih hhead (hon.applyCarrier sha256 tx car) fun m hm =>
      hrow m (List.mem_cons_of_mem _ hm)
    refine ⟨fun m hm => ?_, hend⟩
    rcases List.mem_cons.mp hm with rfl | hm
    · exact h
    · exact hall m hm

theorem Settled.txsSteps (h : Settled n s) (hon : OnBlock start b (s, cx)) (txs : List SmTx)
    (hrow : ∀ m ∈ txsSteps sha256 s txs, rowOf (m.after sha256).1 n ≠ none) :
    ∀ m ∈ txsSteps sha256 s txs, Settled n m.before.1 := by
  induction txs generalizing s with
  | nil => simp [NamespaceIndexer.txsSteps]
  | cons tx txs ih =>
    have hstart : Settled n (s, initCtx s tx).1 := h
    obtain ⟨hall, hend⟩ := hstart.carSteps (hon.initCtx tx) tx.carriers fun m hm =>
      hrow m (List.mem_append_left _ hm)
    intro m hm
    rcases List.mem_append.mp hm with hm | hm
    · exact hall m hm
    · exact ih hend (hon.smApplyTx sha256 tx) (fun m hm => hrow m (List.mem_append_right _ hm)) m hm

end Steps

/-- The claims for one name in one block of a run, in whatever order and with whatever between
them: on a name without a row the earliest commit wins; a name with a row is not theirs to take. -/
theorem claim_contest (sha256 : Bytes → Hash256) (activationHeight : UInt64) (bs : List FoldBlock)
    (b : FoldBlock) (n : Name) :
    let s := foldBlocks sha256 (smNew activationHeight) bs
    let s₀ := smBeginBlock s b.height b.mtp b.rate
    let steps := txsSteps sha256 s₀ b.txs
    let claims := bids sha256 s₀ n steps
    (smNameValid n = true → rowOf s₀ n = none → (claims.map Bid.priority).Nodup →
      (∀ m ∈ steps, m.bid sha256 s₀ n = none → rowOf (m.after sha256).1 n = rowOf m.before.1 n) →
      ∀ w ∈ claims, (∀ c ∈ claims, w.priority ≤ c.priority) →
        ∃ r, rowOf (foldBlock sha256 s b) n = some r ∧ r.owner = w.1.before.2.actor ∧
          r.leaseExpiry = b.mtp + 86400 * min 365 (rawT w.1.car.value b.rate : ℤ)) ∧
    (rowOf s₀ n ≠ none → (∀ m ∈ steps, rowOf (m.after sha256).1 n ≠ none) →
      ∀ m ∈ steps, m.car.kind = .ACTION → SmOp.ofByte? m.car.act.op = some .CLAIM →
        m.car.act.name = n → (m.after sha256).1 = m.before.1) := by
  intro s s₀ steps claims
  have hk : WellKeyed s := ((wellKeyed_smNew activationHeight).tracks.foldBlocks sha256 bs).keyed
  have hk₀ : WellKeyed s₀ := (hk.tracks.smBeginBlock b.height b.mtp b.rate).keyed
  have hon := onBlock_txs (b := b) sha256 hk [] ⟨0, [], [], []⟩
  have hscratch : (obs s₀).scratch n = none := rfl
  constructor
  · intro hn habsent hdistinct haside w hw hmin
    have hactive : ∀ c ∈ s₀.commits, i64 s.activationHeight ≤ c.commitHeight := by
      intro c hc
      rw [foldBlocks_activationHeight]
      exact commits_active sha256 activationHeight bs b hc
    have hstart : Standing s₀ b n [] s₀ :=
      ⟨rfl, fun _ => obs_names_eq_none.mpr habsent, fun hne => absurd rfl hne⟩
    have hend := hstart.txsSteps hn ⟨rfl, rfl⟩ hk₀ hactive hon b.txs haside
    obtain ⟨v, hv, hvmin, ⟨d, hd, hwon⟩, -⟩ := hend.held (List.ne_nil_of_mem hw)
    have hvw : v = w := List.inj_on_of_nodup_map hdistinct hv hw
      (le_antisymm (hvmin w hw) (hmin v hv))
    subst hvw
    obtain ⟨r, hr, hrd⟩ := Option.map_eq_some_iff.mp hd
    refine ⟨r, hr, ?_, ?_⟩
    · rw [← hwon.owner, ← hrd]
    · rw [← hwon.lease, ← hrd]
  · intro hpresent hkept m hm hkind hop hname
    have hsettled : Settled n s₀ := ⟨hpresent, hscratch⟩
    exact (hsettled.txsSteps hon b.txs hkept m hm).claim_idle hkind hop hname

/-- The same transaction by another identity, second in its block. -/
def rivalTx (a : SmAction) (value : UInt64) : SmTx :=
  { sampleTx a value with txindex := 1, inputs := [⟨zeros 20, 0, true⟩] }

/-- Both identities commit to the name `a`. -/
def rivalCommits : List FoldBlock := [⟨10, 1000, 28, [sampleCommit, rivalTx { op := 0x03 } 0]⟩]

/-- Both claim it, the later commit first. -/
def rivalClaims : FoldBlock :=
  ⟨11, 2000, 28, [rivalTx { op := 0x04, name := [97] } 30, sampleClaim]⟩

theorem claim_contest_sample :
    (∃ r, rowOf (foldBlock sampleSha256 (foldBlocks sampleSha256 (smNew 0) rivalCommits) rivalClaims)
      [97] = some r ∧ r.owner = sampleActor ∧ r.leaseExpiry = 2000 + 86400 * 10) ∧
    ∀ m ∈ txsSteps sampleSha256 (smBeginBlock (foldBlocks sampleSha256 (smNew 0)
        (rivalCommits ++ [rivalClaims])) 12 2100 28) [sampleClaim],
      (m.after sampleSha256).1 = m.before.1 := by
  constructor
  · have hbest : ∃ w ∈ bids sampleSha256 (smBeginBlock (foldBlocks sampleSha256 (smNew 0)
        rivalCommits) 11 2000 28) [97] (txsSteps sampleSha256 (smBeginBlock (foldBlocks sampleSha256
          (smNew 0) rivalCommits) 11 2000 28) rivalClaims.txs),
        (∀ c ∈ bids sampleSha256 (smBeginBlock (foldBlocks sampleSha256 (smNew 0) rivalCommits)
          11 2000 28) [97] (txsSteps sampleSha256 (smBeginBlock (foldBlocks sampleSha256 (smNew 0)
            rivalCommits) 11 2000 28) rivalClaims.txs), w.priority ≤ c.priority) ∧
        w.1.before.2.actor = sampleActor ∧ w.1.car.value = 10 := by decide +kernel
    obtain ⟨w, hw, hmin, hactor, hvalue⟩ := hbest
    obtain ⟨r, hr, howner, hlease⟩ := (claim_contest sampleSha256 0 rivalCommits rivalClaims [97]).1
      (by decide) (by decide +kernel) (by decide +kernel) (by decide +kernel) w hw hmin
    refine ⟨r, hr, howner.trans hactor, hlease.trans ?_⟩
    rw [hvalue]
    decide
  · intro m hm
    have hcar : ∀ m ∈ txsSteps sampleSha256 (smBeginBlock (foldBlocks sampleSha256 (smNew 0)
        (rivalCommits ++ [rivalClaims])) 12 2100 28) [sampleClaim],
        m.car.kind = .ACTION ∧ SmOp.ofByte? m.car.act.op = some .CLAIM ∧ m.car.act.name = [97] := by
      decide +kernel
    obtain ⟨hkind, hop, hname⟩ := hcar m hm
    exact (claim_contest sampleSha256 0 (rivalCommits ++ [rivalClaims])
      ⟨12, 2100, 28, [sampleClaim]⟩ [97]).2 (by decide +kernel) (by decide +kernel) m hm hkind hop hname

end NamespaceIndexer
