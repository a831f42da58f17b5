import NamespaceIndexer.Fold.Rest
import NamespaceIndexer.Ledger.Supply

/-!
# Nothing is overdue after a block

The boundary ends what is over by the time of the block, and no action makes a window or a lease
that is. A commitment that is recorded stays.
-/

namespace NamespaceIndexer

open Fold Lib

/-- No row is over. -/
def RowsCurrent (mtp : ℤ) (rows : List SmNameRow) : Prop := ∀ r ∈ rows, r.Current mtp

/-! ### One row -/

section Rows

variable {mtp : ℤ} {s : SmState}

theorem find_lt {n : Name} {r : ℕ} (h : smFindName s n = some r) : r < s.names.length := by
  obtain ⟨x, hget, -⟩ := RowTable.indexOf?_some SmNameRow.name h
  exact (List.getElem?_eq_some_iff.mp hget).1

theorem RowsCurrent.setRow (h : RowsCurrent mtp s.names) (r : ℕ) {v : SmNameRow}
    (hv : (s.row r).Current mtp → v.Current mtp) : RowsCurrent mtp (s.setRow r v).names := by
  by_cases hr : r < s.names.length
  · intro x hx
    rcases List.mem_or_eq_of_mem_set hx with hx | rfl
    · exact h x hx
    · exact hv (h _ (List.mem_of_getElem? (getElem?_row hr)))
  · have hset : (s.setRow r v).names = s.names := List.set_eq_of_length_le (not_lt.mp hr)
    rw [hset]
    exact h

/-- A change that leaves the sale alone, and the lease no shorter. -/
theorem current_longer {r r' : SmNameRow} (h : r.Current mtp) (hst : r'.st = r.st)
    (hreserve : r'.reserveExpiry = r.reserveExpiry) (hoffer : r'.offerExpiry = r.offerExpiry)
    (hlease : r.leaseExpiry ≤ r'.leaseExpiry) : r'.Current mtp := by
  obtain ⟨h1, h2, h3⟩ := h
  unfold SmNameRow.Current
  rw [hst, hreserve, hoffer]
  exact ⟨h1, h2, h3.trans_le hlease⟩

theorem current_owned {r : SmNameRow} (hst : r.st = .OWNED) (hlease : mtp < r.leaseExpiry) :
    r.Current mtp :=
  ⟨fun h => absurd (hst.symm.trans h) (by decide),
    fun h => absurd h (by rw [hst]; decide), hlease⟩

theorem RowsCurrent.remove (h : RowsCurrent mtp s.names) (r : ℕ) :
    RowsCurrent mtp (smRemoveName s r).names := by
  intro x hx
  have hx := (RowTable.swapRemove_perm s.names r).mem_iff.mp hx
  exact h x ((List.eraseIdx_sublist ..).mem hx)

theorem RowsCurrent.foldl {α : Type} {f : SmState → α → SmState}
    (hf : ∀ s a, RowsCurrent mtp s.names → RowsCurrent mtp (f s a).names) (l : List α)
    (h : RowsCurrent mtp s.names) : RowsCurrent mtp (l.foldl f s).names := by
  induction l generalizing s with
  | nil => exact h
  | cons a l ih => exact ih (hf s a h)

theorem RowsCurrent.awardRow (h : RowsCurrent mtp s.names) (p : ℕ × Cell) :
    RowsCurrent mtp (awardRow s p).names := by
  have hset : ∀ s : SmState, RowsCurrent mtp s.names → RowsCurrent mtp (s.setRow p.1
      { s.row p.1 with leaseExpiry := (s.row p.1).leaseExpiry + p.2.2 * billingUnit }).names := by
    intro s h
    refine h.setRow p.1 fun hr => current_longer hr rfl rfl rfl ?_
    have hnn : (0 : ℤ) ≤ p.2.2 * billingUnit := by positivity
    dsimp only
    omega
  unfold Fold.awardRow
  dsimp only
  split
  · exact hset _ h
  · exact hset _ h

theorem RowsCurrent.waterfill (h : RowsCurrent mtp s.names) (now : ℤ) (rate burn : UInt64)
    (rows : List ℕ) : RowsCurrent mtp (smWaterfill s now rate burn rows).names := by
  unfold smWaterfill
  split
  · exact h
  · dsimp only
    refine RowsCurrent.foldl (fun s p h => h.awardRow p) _ ?_
    split <;> exact h

/-- The water-fill of one row. -/
theorem names_smWaterfill_one (s : SmState) (now : ℤ) (rate burn : UInt64) (r : ℕ) :
    (smWaterfill s now rate burn [r]).names = (s.setRow r { s.row r with
      leaseExpiry := (s.row r).leaseExpiry +
        min (headroom now (s.row r).leaseExpiry) (rawT burn rate) * billingUnit }).names := by
  have hdays : waterfillDays [headroom now (s.row r).leaseExpiry] (rawT burn rate)
      = [min (headroom now (s.row r).leaseExpiry) (rawT burn rate)] := by
    rw [waterfillDays_eq, WaterFill.fill_singleton]
  have haward : ∀ (s' : SmState) (x d : ℕ), s'.names = s.names →
      (awardRow s' (r, (x, d))).names = (s.setRow r { s.row r with
        leaseExpiry := (s.row r).leaseExpiry + d * billingUnit }).names := by
    intro s' x d hs'
    have hrow : s'.row r = s.row r := by
      unfold SmState.row
      rw [hs']
    have hset : ∀ s'' : SmState, s''.names = s.names → (s''.setRow r { s''.row r with
        leaseExpiry := (s''.row r).leaseExpiry + d * billingUnit }).names
          = (s.setRow r { s.row r with
            leaseExpiry := (s.row r).leaseExpiry + d * billingUnit }).names := by
      intro s'' hs''
      unfold SmState.setRow SmState.row
      rw [hs'']
    unfold awardRow
    dsimp only
    split
    · exact hset _ hs'
    · exact hset _ hs'
  unfold smWaterfill
  rw [if_neg (by simp : ¬ [r].length = 0)]
  have hsort : sortByName s [r] = [r] := rfl
  dsimp only
  rw [hsort, List.map_singleton, hdays]
  dsimp only [List.zip_cons_cons, List.zip_nil_right, List.foldl_cons, List.foldl_nil]
  split
  · exact haward _ _ _ rfl
  · exact haward _ _ _ rfl

/-- A fresh lease that covers a day. -/
theorem lease_ahead {now : ℤ} {rate burn : UInt64} (h : smLeaseCoversDay burn rate = true) :
    now < now + (min (headroom now now) (rawT burn rate) : ℕ) * billingUnit := by
  have hburn : 0 < rawT burn rate := by
    unfold smLeaseCoversDay at h
    unfold rawT
    refine Nat.div_pos (of_decide_eq_true h) (Nat.mul_pos ?_ (by decide))
    split
    · decide
    · rename_i hrate
      exact Nat.pos_of_ne_zero fun hz => hrate (UInt64.toNat_inj.mp hz)
  rw [headroom_self]
  have hpos : 0 < min 365 (rawT burn rate) := Nat.lt_min.mpr ⟨by decide, hburn⟩
  have hunit : (billingUnit : ℤ) = 86400 := rfl
  rw [hunit]
  omega

end Rows

/-! ### Actions -/

section Actions

variable {sha256 : Bytes → Hash256} {tx : SmTx} {s : SmState} {cx : SmTxCtx} {a : SmAction}

theorem RowsCurrent.smOpClaim (h : RowsCurrent cx.mtp s.names) :
    RowsCurrent cx.mtp (smOpClaim sha256 s cx a).names := by
  unfold Fold.smOpClaim
  dsimp only
  split
  · exact h
  split
  · exact h
  split
  · exact h
  rename_i hday
  rw [Bool.not_eq_true', Bool.not_eq_false] at hday
  have hahead : cx.mtp < cx.mtp + (min (headroom cx.mtp cx.mtp) (rawT cx.carValue cx.rate) : ℕ) *
      billingUnit := lease_ahead hday
  split
  · rename_i row hfind
    split
    · exact h
    split
    · exact h
    rename_i hmine
    rw [not_or, not_not] at hmine
    split
    · exact h
    rw [names_bumpEv, setScratch_names, names_smBumpMutation, names_smWaterfill_one]
    rw [row_setRow_self (find_lt hfind)]
    -- the row is written twice
    have htwice : ∀ v v' : SmNameRow, (s.setRow row v).setRow row v' = s.setRow row v' := by
      intro v v'
      unfold SmState.setRow
      rw [List.set_set]
    rw [htwice]
    exact h.setRow row fun _ => current_owned hmine.1 hahead
  · have hlast : s.names.length < (smAddName s a.name).1.names.length := by
      simp [smAddName]
    have hmint : ∀ v : SmNameRow, v.st = .OWNED → v.leaseExpiry = cx.mtp →
        RowsCurrent cx.mtp (smWaterfill ((smAddName s a.name).1.setRow s.names.length v) cx.mtp
          cx.rate cx.carValue [s.names.length]).names := by
      intro v hst hlease
      rw [names_smWaterfill_one, row_setRow_self hlast, hlease]
      intro x hx
      simp only [SmState.setRow, smAddName, List.set_append_right _ _ le_rfl, Nat.sub_self,
        List.set_cons_zero, List.mem_append, List.mem_singleton] at hx
      rcases hx with hx | rfl
      · exact h x hx
      · exact current_owned hst hahead
    rw [names_bumpEv, setScratch_names, names_smBumpMutation]
    exact hmint _ rfl rfl

theorem RowsCurrent.smOpTrade {mtp : ℤ} (h : RowsCurrent mtp s.names) :
    RowsCurrent mtp (smOpTrade tx s cx a).names := by
  unfold Fold.smOpTrade
  repeat' split
  all_goals try exact h
  rw [names_bumpEv, names_smBumpMutation, names_smBumpMutation]
  refine (h.setRow _ ?_).setRow _ ?_
  · exact fun hr => current_longer hr rfl rfl rfl le_rfl
  · exact fun hr => current_longer hr rfl rfl rfl le_rfl

theorem RowsCurrent.giveRow {mtp : ℤ} (addr : H160) (s : SmState) (r : ℕ)
    (h : RowsCurrent mtp s.names) : RowsCurrent mtp (giveRow addr s r).names := by
  unfold Fold.giveRow
  split
  · exact h
  · exact h.setRow r fun hr => current_longer hr rfl rfl rfl le_rfl

theorem RowsCurrent.releaseOne {mtp : ℤ} (s : SmState) (n : Name)
    (h : RowsCurrent mtp s.names) : RowsCurrent mtp (releaseOne s n).names := by
  unfold Fold.releaseOne
  split
  · exact h
  · exact h.remove _

variable (sha256 tx s cx a) in
/-- A sale that is opened or reserved ends later than the block, and so does a lease that is
bought. -/
theorem RowsCurrent.dispatch (h : RowsCurrent cx.mtp s.names) (op : SmOp) :
    RowsCurrent cx.mtp (dispatch sha256 tx s cx a op).1.names := by
  cases op with
  | COMMIT => exact h
  | AS => exact h
  | TRADE => exact h
  | CLAIM => exact h.smOpClaim
  | RENEW =>
    simp only [Fold.dispatch, smOpRenew]
    repeat' split
    · exact h.waterfill _ _ _ _
    · exact h.waterfill _ _ _ _
    · exact h.waterfill _ _ _ _
    · exact h
  | RENEW_NAME =>
    simp only [Fold.dispatch, smOpRenewName]
    split
    · exact h
    · exact h.waterfill _ _ _ _
  | TRANSFER =>
    have hgive := fun rows => RowsCurrent.foldl (RowsCurrent.giveRow a.addr) rows h
    simp only [Fold.dispatch, smOpTransfer]
    repeat' split
    all_goals first
      | exact h
      | (rw [names_smBumpMutation, names_smBumpMutation]; exact hgive _)
      | exact hgive _
  | TRANSFER_NAME =>
    simp only [Fold.dispatch, smOpTransferName]
    repeat' split
    · exact h
    · exact h
    · rw [names_smBumpMutation, names_smBumpMutation]
      exact h.setRow _ fun hr => current_longer hr rfl rfl rfl le_rfl
  | RELEASE_NAME =>
    simp only [Fold.dispatch, smOpReleaseName]
    repeat' split
    · exact h
    · exact h
    · rw [names_smBumpMutation, names_bumpEv]
      exact h.remove _
  | RELEASE =>
    have hdrop := fun names => RowsCurrent.foldl RowsCurrent.releaseOne names h
    simp only [Fold.dispatch, smOpRelease]
    repeat' split
    · exact h
    · exact h
    · rw [names_smBumpMutation]
      exact hdrop _
    · exact hdrop _
  | SELL =>
    simp only [Fold.dispatch, smOpSell]
    split
    · exact h
    split
    · exact h
    split
    · exact h
    split
    · exact h
    generalize (if a.window ≠ 0 then (a.window.toNat : ℤ) else reserveWindow) = w
    split
    · exact h
    rename_i hwindow
    split
    · exact h
    have hpos : (0 : ℤ) < reserveWindow := by decide
    refine h.setRow _ fun hr => ⟨fun hst => (by cases hst), fun _ => ?_, hr.2.2⟩
    dsimp only
    omega
  | SELL_TO =>
    simp only [Fold.dispatch, smOpSellTo]
    repeat' split
    all_goals try exact h
    have hpos : (0 : ℤ) < directWindow := by decide
    refine h.setRow _ fun hr => ⟨fun hst => (by cases hst), fun _ => ?_, hr.2.2⟩
    dsimp only
    omega
  | RESERVE =>
    simp only [Fold.dispatch, smOpReserve]
    split
    · exact h
    split
    · exact h
    split
    · exact h
    rename_i r hfind hst
    rw [not_not] at hst
    split
    · exact h
    split
    · exact h
    rename_i cx' hpaid
    obtain ⟨i, -, rfl⟩ := Ledger.smConsumeOutput_eq_some hpaid
    have hpos : (0 : ℤ) < reserveWindow := by decide
    rw [names_bumpEv, apply_ite SmState.names, names_bumpEv, ite_self]
    have hoffer := (h _ (List.mem_of_getElem? (getElem?_row (find_lt hfind)))).2.1 (Or.inl hst)
    refine h.setRow r fun hr => ⟨fun _ => ?_, fun hsale => ?_, hr.2.2⟩
    · dsimp only
      split
      · exact hoffer
      · omega
    · rcases hsale with hsale | hsale
      · cases hsale
      · cases hsale
  | SETTLE =>
    simp only [Fold.dispatch, smOpSettle]
    repeat' split
    all_goals first
      | exact h
      | (rw [names_bumpEv, names_smBumpMutation, names_smBumpMutation]
         exact h.setRow _ fun hr => current_owned rfl hr.2.2)
  | PAY =>
    simp only [Fold.dispatch, smOpPay]
    repeat' split
    all_goals first
      | exact h
      | (rw [names_bumpEv, names_smBumpMutation, names_smBumpMutation]
         exact h.setRow _ fun hr => current_owned rfl hr.2.2)

end Actions

/-! ### Blocks -/

section Blocks

variable (sha256 : Bytes → Hash256)

/-- A carrier of a block leaves the rows current at the time of the block. -/
theorem RowsCurrent.applyCarrier {mtp : ℤ} (tx : SmTx) {sc : SmState × SmTxCtx}
    (hcx : sc.2.mtp = mtp) (h : RowsCurrent mtp sc.1.names) (car : SmCarrier) :
    RowsCurrent mtp (applyCarrier sha256 tx sc car).1.names := by
  subst hcx
  obtain ⟨s, cx⟩ := sc
  rcases applyCarrier_table sha256 tx s cx car with hnames | ⟨-, htrade⟩ | ⟨op, -, hop⟩
  · rw [hnames]
    exact h
  · rw [htrade]
    exact h.smOpTrade
  · rw [hop]
    exact RowsCurrent.dispatch sha256 tx s (Ledger.carCtx cx car) car.act h op

/-- The boundary leaves no row that is over. -/
theorem closeRow_current {mtp : ℤ} {r : SmNameRow} (hlease : mtp < r.leaseExpiry) :
    (closeRow mtp r).Current mtp := by
  have hreturned : ∀ r : SmNameRow, mtp < r.leaseExpiry → (returnToSeller r).Current mtp :=
    fun r h => current_owned rfl h
  have hopen : ∀ r : SmNameRow, r.st = .LISTED ∨ r.st = .OFFERED → mtp < r.leaseExpiry →
      (closeRow mtp r).Current mtp := by
    intro r hst h
    rw [closeRow_open hst]
    split
    · exact hreturned r h
    · rename_i hoffer
      refine ⟨fun hres => ?_, fun _ => not_le.mp hoffer, h⟩
      rcases hst with hst | hst
      · exact absurd (hst.symm.trans hres) (by decide)
      · exact absurd (hst.symm.trans hres) (by decide)
  cases hst : r.st with
  | OWNED =>
    rw [closeRow_owned mtp hst]
    exact current_owned hst hlease
  | LISTED => exact hopen r (Or.inl hst) hlease
  | OFFERED => exact hopen r (Or.inr hst) hlease
  | RESERVED =>
    rw [closeRow_reserved hst]
    split
    · rename_i hreserve
      exact ⟨fun _ => hreserve, fun h => absurd h (by rw [hst]; decide), hlease⟩
    · split
      · exact hopen (relisted r) (Or.inl rfl) hlease
      · exact hreturned r hlease

theorem rowsCurrent_begin (s : SmState) (height mtp : ℤ) (rate : UInt64) :
    RowsCurrent mtp (smBeginBlock s height mtp rate).names := by
  intro r hr
  have hr := (smPreblock_tables _ height mtp).1.mem_iff.mp hr
  obtain ⟨x, -, hx⟩ := List.mem_filterMap.mp hr
  unfold dueRow at hx
  split at hx
  · cases hx
  · rename_i hlease
    rw [Option.some_inj] at hx
    subst hx
    exact closeRow_current (not_le.mp hlease)

variable {s : SmState} {b : FoldBlock}

theorem RowsCurrent.foldl_applyCarrier (tx : SmTx) {sc : SmState × SmTxCtx} (hon : OnBlock s b sc)
    (h : RowsCurrent b.mtp sc.1.names) (cars : List SmCarrier) :
    RowsCurrent b.mtp (cars.foldl (Fold.applyCarrier sha256 tx) sc).1.names := by
  induction cars generalizing sc with
  | nil => exact h
  | cons car cars ih =>
    exact ih (hon.applyCarrier sha256 tx car) (h.applyCarrier sha256 tx hon.ctxMtp car)

theorem RowsCurrent.smApplyTx {tx : SmTx} {sc : SmState × SmTxCtx} (hon : OnBlock s b sc)
    (h : RowsCurrent b.mtp sc.1.names) : RowsCurrent b.mtp (smApplyTx sha256 sc.1 tx).names :=
  RowsCurrent.foldl_applyCarrier sha256 tx (hon.initCtx tx) h tx.carriers

/-- After a block nothing is over at its time. -/
theorem nothingDue_foldBlock (hk : WellKeyed s) (b : FoldBlock) :
    NothingDue (foldBlock sha256 s b) b.mtp := by
  have hrows : ∀ (txs : List SmTx) (sc : SmState × SmTxCtx), OnBlock s b sc →
      RowsCurrent b.mtp sc.1.names →
      RowsCurrent b.mtp (txs.foldl (Fold.smApplyTx sha256) sc.1).names := by
    intro txs
    induction txs with
    | nil => exact fun _ _ h => h
    | cons tx txs ih =>
      intro sc hon h
      exact ih (Fold.smApplyTx sha256 sc.1 tx, sc.2) (hon.smApplyTx sha256 tx)
        (h.smApplyTx sha256 hon)
  constructor
  · exact hrows b.txs _ (onBlock_txs sha256 hk [] ⟨0, [], [], []⟩)
      (rowsCurrent_begin s b.height b.mtp b.rate)
  · intro c hc
    have hexpiry : 0 ≤ commitExpiry := by decide
    rcases (mem_foldBlock_commits sha256 hk b c).mp hc with ⟨-, hlive⟩ | hnew
    · exact not_lt.mp hlive
    · rw [hnew.time]
      omega

end Blocks

/-! ### Commitments -/

section Growth

variable (sha256 : Bytes → Hash256) {s : SmState} {b : FoldBlock}

theorem commits_foldl_carriers (tx : SmTx) {sc : SmState × SmTxCtx} (hon : OnBlock s b sc)
    (cars : List SmCarrier) :
    sc.1.commits.length ≤ (cars.foldl (applyCarrier sha256 tx) sc).1.commits.length := by
  induction cars generalizing sc with
  | nil => exact le_rfl
  | cons car cars ih =>
    have hone : sc.1.commits.length ≤ (applyCarrier sha256 tx sc car).1.commits.length :=
      (applyCarrier_keeps_commits sha256 hon.keyed).length_le
    exact hone.trans (ih (hon.applyCarrier sha256 tx car))

theorem commits_foldl_txs {sc : SmState × SmTxCtx} (hon : OnBlock s b sc) (txs : List SmTx) :
    sc.1.commits.length ≤ (txs.foldl (smApplyTx sha256) sc.1).commits.length := by
  induction txs generalizing sc with
  | nil => exact le_rfl
  | cons tx txs ih =>
    have hone := commits_foldl_carriers sha256 tx (hon.initCtx tx) tx.carriers
    have hrest := @ih (smApplyTx sha256 sc.1 tx, sc.2) (hon.smApplyTx sha256 tx)
    exact hone.trans hrest

variable {sha256} in
/-- A commitment that a block records makes the table longer, if none has expired. -/
theorem CommitsIn.grows (hk : WellKeyed s) (hdue : NothingDue s b.mtp) {c : SmCommit}
    (h : CommitsIn sha256 s b c) :
    s.commits.length < (foldBlock sha256 s b).commits.length := by
  obtain ⟨done, tx, rest, pre, car, post, htxs, hcars, hcommits, -⟩ := h
  have hbegin : (smBeginBlock s b.height b.mtp b.rate).commits.length = s.commits.length := by
    rw [(smBeginBlock_commits hk b.height b.mtp b.rate).length_eq, List.filter_eq_self.mpr]
    intro c hc
    simpa using hdue.2 c hc
  have honStart := onBlock_txs sha256 (b := b) hk [] tx
  have honDone := onBlock_txs sha256 (b := b) hk done tx
  have honMid : OnBlock s b (midBlock sha256 s b done tx pre) :=
    honDone.foldl_applyCarrier sha256 tx pre
  have honAfter := honMid.applyCarrier sha256 tx car
  have htx : smApplyTx sha256 (done.foldl (smApplyTx sha256)
        (smBeginBlock s b.height b.mtp b.rate)) tx = (post.foldl (applyCarrier sha256 tx)
          (applyCarrier sha256 tx (midBlock sha256 s b done tx pre) car)).1 := by
    show (tx.carriers.foldl (applyCarrier sha256 tx) (_, initCtx _ tx)).1 = _
    rw [hcars, List.foldl_append, List.foldl_cons]
    rfl
  calc s.commits.length
      = (smBeginBlock s b.height b.mtp b.rate).commits.length := hbegin.symm
    _ ≤ (done.foldl (smApplyTx sha256) (smBeginBlock s b.height b.mtp b.rate)).commits.length :=
        commits_foldl_txs sha256 honStart done
    _ ≤ (midBlock sha256 s b done tx pre).1.commits.length := commits_foldl_carriers sha256 tx honDone pre
    _ < (applyCarrier sha256 tx (midBlock sha256 s b done tx pre) car).1.commits.length := by
        rw [hcommits.applyCarrier_eq sha256]
        simp [smCommitAdd]
    _ ≤ (post.foldl (applyCarrier sha256 tx)
          (applyCarrier sha256 tx (midBlock sha256 s b done tx pre) car)).1.commits.length :=
        commits_foldl_carriers sha256 tx honAfter post
    _ ≤ (foldBlock sha256 s b).commits.length := by
        have hrest := commits_foldl_txs sha256 (honAfter.foldl_applyCarrier sha256 tx post) rest
        unfold foldBlock
        rw [htxs, List.foldl_append, List.foldl_cons, htx]
        exact hrest

end Growth

end NamespaceIndexer
