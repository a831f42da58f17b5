import NamespaceIndexer.Ledger.Commits
import NamespaceIndexer.Ledger.Payments
import NamespaceIndexer.Ledger.Preblock
import NamespaceIndexer.Ledger.Waterfill
import NamespaceIndexer.Lib.Run

/-!
# Lease time is bought

What the leases of the table still run is backed by the burns of CLAIM, RENEW and RENEW_NAME. Time,
transfers, sales and removals only take away from it.
-/

namespace NamespaceIndexer

open Fold Lib

/-- Seconds that the leases of some rows still run. -/
def secondsLeft (now : ℤ) (rows : List SmNameRow) : ℕ :=
  (rows.map fun r => (r.leaseExpiry - now).toNat).sum

def leaseLeft (s : SmState) : ℕ := secondsLeft s.curMtp s.names

/-- A burn for lease time, and the rate it was priced at. -/
structure Receipt where
  burn : UInt64
  rate : UInt64
  deriving DecidableEq

/-- Seconds that a receipt is for. -/
def Receipt.seconds (c : Receipt) : ℕ := rawT c.burn c.rate * billingUnit

/-- CLAIM, RENEW and RENEW_NAME. -/
def buysLease (car : SmCarrier) : Bool :=
  match carrierOp car with
  | some .CLAIM | some .RENEW | some .RENEW_NAME => true
  | _ => false

section Receipts

variable (sha256 : Bytes → Hash256)

/-- The receipt of a carrier that changed the table. -/
def carrierReceipts (tx : SmTx) (sc : SmState × SmTxCtx) (car : SmCarrier) : List Receipt :=
  if buysLease car ∧ (applyCarrier sha256 tx sc car).1.names ≠ sc.1.names then
    [⟨car.value, sc.2.rate⟩]
  else []

def txReceipts (s : SmState) (tx : SmTx) : List Receipt :=
  Run.outputs (applyCarrier sha256 tx) (carrierReceipts sha256 tx) (s, initCtx s tx) tx.carriers

def blockReceipts (s : SmState) (b : FoldBlock) : List Receipt :=
  Run.outputs (smApplyTx sha256) (txReceipts sha256) (smBeginBlock s b.height b.mtp b.rate) b.txs

/-- The receipts of a run. -/
def receipts (s : SmState) (bs : List FoldBlock) : List Receipt :=
  Run.outputs (foldBlock sha256) (blockReceipts sha256) s bs

end Receipts

/-! ### Rows -/

section Rows

variable (now : ℤ)

theorem secondsLeft_perm {l l' : List SmNameRow} (h : l.Perm l') :
    secondsLeft now l = secondsLeft now l' := (h.map _).sum_eq

theorem secondsLeft_append (l l' : List SmNameRow) :
    secondsLeft now (l ++ l') = secondsLeft now l + secondsLeft now l' := by
  simp [secondsLeft]

theorem secondsLeft_sublist {l l' : List SmNameRow} (h : l.Sublist l') :
    secondsLeft now l ≤ secondsLeft now l' :=
  (h.map _).sum_le_sum fun _ _ => Nat.zero_le _

/-- A row that is overwritten adds at most what the new lease runs longer. -/
theorem secondsLeft_setRow_le (s : SmState) (r : ℕ) {v : SmNameRow} {d : ℕ}
    (h : (v.leaseExpiry - now).toNat ≤ ((s.row r).leaseExpiry - now).toNat + d) :
    secondsLeft now (s.setRow r v).names ≤ secondsLeft now s.names + d := by
  by_cases hr : r < s.names.length
  · have hget := getElem?_row hr
    have hrow : s.names[r] = s.row r := Option.some.inj ((List.getElem?_eq_getElem hr).symm.trans hget)
    have hset : (s.setRow r v).names = s.names.take r ++ v :: s.names.drop (r + 1) :=
      List.set_eq_take_append_cons_drop.trans (if_pos hr)
    have hold : s.names = s.names.take r ++ s.row r :: s.names.drop (r + 1) := by
      rw [← hrow, List.cons_getElem_drop_succ, List.take_append_drop]
    have hsum := congrArg (secondsLeft now) hold
    rw [hset, secondsLeft_append]
    rw [secondsLeft_append] at hsum
    simp only [secondsLeft, List.map_cons, List.sum_cons] at hsum ⊢
    omega
  · have hset : (s.setRow r v).names = s.names := List.set_eq_of_length_le (not_lt.mp hr)
    rw [hset]
    exact Nat.le_add_right _ _

theorem secondsLeft_setRow_same (s : SmState) (r : ℕ) {v : SmNameRow}
    (h : v.leaseExpiry = (s.row r).leaseExpiry) :
    secondsLeft now (s.setRow r v).names ≤ secondsLeft now s.names :=
  secondsLeft_setRow_le now s r (d := 0) (by rw [h, Nat.add_zero])

theorem secondsLeft_smRemoveName (s : SmState) (r : ℕ) :
    secondsLeft now (smRemoveName s r).names ≤ secondsLeft now s.names := by
  have hperm := secondsLeft_perm now (RowTable.swapRemove_perm s.names r)
  exact hperm.le.trans (secondsLeft_sublist now (List.eraseIdx_sublist ..))

/-- A loop whose body adds nothing adds nothing. -/
theorem secondsLeft_foldl {α : Type} {f : SmState → α → SmState}
    (hf : ∀ s a, secondsLeft now (f s a).names ≤ secondsLeft now s.names) (l : List α) (s : SmState) :
    secondsLeft now (l.foldl f s).names ≤ secondsLeft now s.names := by
  induction l generalizing s with
  | nil => exact le_rfl
  | cons a l ih => exact (ih _).trans (hf s a)

end Rows

/-! ### The water-fill -/

section Filling

variable (now : ℤ)

theorem secondsLeft_awardRow (s : SmState) (p : ℕ × Cell) :
    secondsLeft now (awardRow s p).names ≤ secondsLeft now s.names + p.2.2 * billingUnit := by
  obtain ⟨s', h, he⟩ := awardRow_eq s p
  have hnames : s'.names = s.names := by
    rcases h with rfl | rfl <;> rfl
  have hrow : s'.row p.1 = s.row p.1 := by
    unfold SmState.row
    rw [hnames]
  rw [he, ← hnames]
  apply secondsLeft_setRow_le
  rw [hrow]
  dsimp only
  omega

theorem secondsLeft_foldl_awardRow (z : List (ℕ × Cell)) (s : SmState) :
    secondsLeft now (z.foldl awardRow s).names ≤
      secondsLeft now s.names + (z.map fun p => p.2.2).sum * billingUnit := by
  induction z generalizing s with
  | nil => exact Nat.le_add_right _ _
  | cons p z ih =>
    have hhead := secondsLeft_awardRow now s p
    have hrest := ih (awardRow s p)
    rw [List.map_cons, List.sum_cons, Nat.add_mul]
    rw [List.foldl_cons]
    omega

/-- The days that reach the rows are no more than the array holds. -/
theorem sum_zip_days_le (rows : List ℕ) (h days : List ℕ) :
    ((rows.zip (h.zip days)).map fun p : ℕ × Cell => p.2.2).sum ≤ days.sum := by
  induction rows generalizing h days with
  | nil => exact Nat.zero_le _
  | cons r rows ih =>
    cases h with
    | nil => exact Nat.zero_le _
    | cons x h =>
      cases days with
      | nil => exact Nat.zero_le _
      | cons d days =>
        have hrest := ih h days
        simp only [List.zip_cons_cons, List.map_cons, List.sum_cons]
        omega

theorem waterfillDays_sum_le (h : List ℕ) (T : ℕ) : (waterfillDays h T).sum ≤ T := by
  rw [waterfillDays_eq, WaterFill.fill_sum]
  exact Nat.min_le_left _ _

theorem secondsLeft_smWaterfill (s : SmState) (mtp : ℤ) (rate burn : UInt64) (rows : List ℕ) :
    secondsLeft now (smWaterfill s mtp rate burn rows).names ≤
      secondsLeft now s.names + Receipt.seconds ⟨burn, rate⟩ := by
  unfold smWaterfill
  by_cases h0 : rows.length = 0
  · rw [if_pos h0]
    exact Nat.le_add_right _ _
  · rw [if_neg h0]
    dsimp only
    generalize sortByName s rows = sorted
    generalize (sorted.map fun r => headroom mtp (s.row r).leaseExpiry) = h
    set s1 := if rawT burn rate > h.sum ∧ h.sum > 0 then s.bumpEv .WATERFILL_FORFEIT else s with hs1
    have hnames : s1.names = s.names := by
      rw [hs1]
      split <;> rfl
    have hfill := secondsLeft_foldl_awardRow now
      (sorted.zip (h.zip (waterfillDays h (rawT burn rate)))) s1
    have hdays := (sum_zip_days_le sorted h (waterfillDays h (rawT burn rate))).trans
      (waterfillDays_sum_le h (rawT burn rate))
    have hseconds := Nat.mul_le_mul_right billingUnit hdays
    rw [hnames] at hfill
    exact hfill.trans (Nat.add_le_add_left hseconds _)

end Filling

/-! ### Actions -/

section Actions

variable {sha256 : Bytes → Hash256} {tx : SmTx} {s : SmState} {cx : SmTxCtx} {a : SmAction}

theorem setScratch_names (s : SmState) (n : Name) (h : ℤ) (i : UInt32) (owner : H160) :
    (setScratch s n h i owner).names = s.names := by
  unfold setScratch
  split <;> rfl

/-- A lease that starts anew starts at the burn. -/
theorem secondsLeft_smOpClaim : secondsLeft cx.mtp (smOpClaim sha256 s cx a).names ≤
    secondsLeft cx.mtp s.names + Receipt.seconds ⟨cx.carValue, cx.rate⟩ := by
  have hidle : secondsLeft cx.mtp s.names ≤
      secondsLeft cx.mtp s.names + Receipt.seconds ⟨cx.carValue, cx.rate⟩ := Nat.le_add_right _ _
  unfold smOpClaim
  dsimp only
  split
  · exact hidle
  split
  · exact hidle
  split
  · exact hidle
  split
  · rename_i row hfind
    split
    · exact hidle
    split
    · exact hidle
    split
    · exact hidle
    rw [names_bumpEv, setScratch_names, names_smBumpMutation]
    refine (secondsLeft_smWaterfill _ _ _ _ _ _).trans (Nat.add_le_add_right ?_ _)
    have hset := secondsLeft_setRow_le cx.mtp s row (d := 0)
      (v := { s.row row with owner := cx.actor, ownerType := cx.actorType, leaseExpiry := cx.mtp })
      (by simp)
    exact hset
  · rw [names_bumpEv, setScratch_names, names_smBumpMutation]
    refine (secondsLeft_smWaterfill _ _ _ _ _ _).trans (Nat.add_le_add_right ?_ _)
    simp only [smAddName, SmState.setRow, List.set_append_right _ _ le_rfl, Nat.sub_self,
      List.set_cons_zero, secondsLeft_append]
    simp [secondsLeft]

theorem secondsLeft_smOpRenew {now : ℤ} : secondsLeft now (smOpRenew s cx a).names ≤
    secondsLeft now s.names + Receipt.seconds ⟨cx.carValue, cx.rate⟩ := by
  unfold smOpRenew
  dsimp only
  repeat' split
  · apply secondsLeft_smWaterfill
  · apply secondsLeft_smWaterfill
  · apply secondsLeft_smWaterfill
  · exact Nat.le_add_right _ _

theorem secondsLeft_smOpRenewName {now : ℤ} : secondsLeft now (smOpRenewName s cx a).names ≤
    secondsLeft now s.names + Receipt.seconds ⟨cx.carValue, cx.rate⟩ := by
  unfold smOpRenewName
  split
  · exact Nat.le_add_right _ _
  · apply secondsLeft_smWaterfill

theorem secondsLeft_giveRow {now : ℤ} (addr : H160) (s : SmState) (r : ℕ) :
    secondsLeft now (giveRow addr s r).names ≤ secondsLeft now s.names := by
  unfold giveRow
  split
  · exact le_rfl
  · exact secondsLeft_setRow_same now s r rfl

theorem secondsLeft_releaseOne {now : ℤ} (s : SmState) (n : Name) :
    secondsLeft now (releaseOne s n).names ≤ secondsLeft now s.names := by
  unfold releaseOne
  split
  · exact le_rfl
  · exact secondsLeft_smRemoveName now s _

/-- An action that buys nothing adds nothing. -/
theorem secondsLeft_dispatch {now : ℤ} {op : SmOp} (hop : op ≠ .CLAIM ∧ op ≠ .RENEW ∧ op ≠ .RENEW_NAME) :
    secondsLeft now (dispatch sha256 tx s cx a op).1.names ≤ secondsLeft now s.names := by
  have hset := fun (r : ℕ) (v : SmNameRow) => secondsLeft_setRow_same now s r (v := v)
  cases op with
  | CLAIM => exact absurd rfl hop.1
  | RENEW => exact absurd rfl hop.2.1
  | RENEW_NAME => exact absurd rfl hop.2.2
  | COMMIT => exact le_rfl
  | AS => exact le_rfl
  | TRADE => exact le_rfl
  | TRANSFER =>
    have hgive := secondsLeft_foldl now (secondsLeft_giveRow a.addr)
    simp only [dispatch, smOpTransfer]
    repeat' split
    all_goals first
      | exact le_rfl
      | (rw [names_smBumpMutation, names_smBumpMutation]; apply hgive)
      | apply hgive
  | TRANSFER_NAME =>
    simp only [dispatch, smOpTransferName]
    repeat' split
    · exact le_rfl
    · exact le_rfl
    · rw [names_smBumpMutation, names_smBumpMutation]
      exact hset _ _ rfl
  | RELEASE_NAME =>
    simp only [dispatch, smOpReleaseName]
    repeat' split
    · exact le_rfl
    · exact le_rfl
    · rw [names_smBumpMutation, names_bumpEv]
      apply secondsLeft_smRemoveName
  | RELEASE =>
    have hdrop := secondsLeft_foldl now secondsLeft_releaseOne
    simp only [dispatch, smOpRelease]
    repeat' split
    · exact le_rfl
    · exact le_rfl
    · rw [names_smBumpMutation]
      apply hdrop
    · apply hdrop
  | SELL =>
    simp only [dispatch, smOpSell]
    repeat' split
    all_goals first | exact le_rfl | exact hset _ _ rfl
  | SELL_TO =>
    simp only [dispatch, smOpSellTo]
    repeat' split
    all_goals first | exact le_rfl | exact hset _ _ rfl
  | RESERVE =>
    simp only [dispatch, smOpReserve]
    repeat' split
    all_goals first | exact le_rfl | exact hset _ _ rfl
  | SETTLE =>
    simp only [dispatch, smOpSettle]
    repeat' split
    all_goals first
      | exact le_rfl
      | (rw [names_bumpEv, names_smBumpMutation, names_smBumpMutation]; exact hset _ _ rfl)
  | PAY =>
    simp only [dispatch, smOpPay]
    repeat' split
    all_goals first
      | exact le_rfl
      | (rw [names_bumpEv, names_smBumpMutation, names_smBumpMutation]; exact hset _ _ rfl)

theorem secondsLeft_smOpTrade {now : ℤ} :
    secondsLeft now (smOpTrade tx s cx a).names ≤ secondsLeft now s.names := by
  unfold smOpTrade
  repeat' split
  all_goals try exact le_rfl
  rw [names_bumpEv, names_smBumpMutation, names_smBumpMutation]
  refine le_trans (secondsLeft_setRow_same _ _ _ ?_) (secondsLeft_setRow_same _ s _ ?_)
  · rfl
  · rfl

variable (sha256 tx s cx a) in
/-- A handler adds at most what the burn of its carrier is for. -/
theorem secondsLeft_dispatch_le (op : SmOp) : secondsLeft cx.mtp (dispatch sha256 tx s cx a op).1.names ≤
    secondsLeft cx.mtp s.names + Receipt.seconds ⟨cx.carValue, cx.rate⟩ := by
  by_cases hop : op ≠ .CLAIM ∧ op ≠ .RENEW ∧ op ≠ .RENEW_NAME
  · exact (secondsLeft_dispatch hop).trans (Nat.le_add_right _ _)
  · have hbuys : op = .CLAIM ∨ op = .RENEW ∨ op = .RENEW_NAME := by tauto
    rcases hbuys with rfl | rfl | rfl
    · apply secondsLeft_smOpClaim
    · apply secondsLeft_smOpRenew
    · apply secondsLeft_smOpRenewName

end Actions

/-! ### Runs -/

section Runs

variable (sha256 : Bytes → Hash256)

/-- A carrier leaves the table alone, trades, or acts by its opcode. -/
theorem applyCarrier_table (tx : SmTx) (s : SmState) (cx : SmTxCtx) (car : SmCarrier) :
    (applyCarrier sha256 tx (s, cx) car).1.names = s.names ∨
      (carrierOp car = some .TRADE ∧ (applyCarrier sha256 tx (s, cx) car).1 =
        smOpTrade tx s (Ledger.carCtx cx car) car.act) ∨
      ∃ op, carrierOp car = some op ∧ applyCarrier sha256 tx (s, cx) car =
        dispatch sha256 tx s (Ledger.carCtx cx car) car.act op := by
  unfold applyCarrier carrierOp
  by_cases hkind : car.kind = .ACTION
  · simp only [hkind, ne_eq, not_true_eq_false, if_false, if_true]
    by_cases hact : s.curHeight < i64 s.activationHeight
    · rw [if_pos hact]
      exact Or.inl rfl
    · rw [if_neg hact]
      cases SmOp.ofByte? car.act.op with
      | none => exact Or.inl rfl
      | some op =>
        cases op with
        | AS =>
          left
          dsimp only
          split <;> rfl
        | TRADE => exact Or.inr (Or.inl ⟨rfl, rfl⟩)
        | _ =>
          dsimp only
          split
          · exact Or.inl rfl
          · exact Or.inr (Or.inr ⟨_, rfl, rfl⟩)
  · simp only [ne_eq, hkind, not_false_eq_true, if_true]
    exact Or.inl trivial

/-- A carrier adds at most what its receipt is for. -/
theorem secondsLeft_applyCarrier (tx : SmTx) (sc : SmState × SmTxCtx) (car : SmCarrier) :
    secondsLeft sc.2.mtp (applyCarrier sha256 tx sc car).1.names ≤ secondsLeft sc.2.mtp sc.1.names +
      ((carrierReceipts sha256 tx sc car).map Receipt.seconds).sum := by
  obtain ⟨s, cx⟩ := sc
  rcases applyCarrier_table sha256 tx s cx car with hsame | ⟨-, htrade⟩ | ⟨op, hop, hdispatch⟩
  · rw [hsame]
    exact Nat.le_add_right _ _
  · rw [htrade]
    exact secondsLeft_smOpTrade.trans (Nat.le_add_right _ _)
  · by_cases hsame : (applyCarrier sha256 tx (s, cx) car).1.names = s.names
    · rw [hsame]
      exact Nat.le_add_right _ _
    · unfold carrierReceipts
      cases hbuys : buysLease car with
      | true =>
        rw [if_pos ⟨rfl, hsame⟩, hdispatch, List.map_singleton, List.sum_singleton]
        exact secondsLeft_dispatch_le sha256 tx s (Ledger.carCtx cx car) car.act op
      | false =>
        rw [if_neg (by simp), hdispatch]
        apply secondsLeft_dispatch
        unfold buysLease at hbuys
        rw [hop] at hbuys
        refine ⟨?_, ?_, ?_⟩
        all_goals
          rintro rfl
          cases hbuys

variable {s : SmState} {b : FoldBlock}

/-- In a block the leases are measured at its time. -/
theorem leaseLeft_smApplyTx {s' : SmState} (hs : ∀ tx, OnBlock s b (s', initCtx s' tx)) (tx : SmTx) :
    leaseLeft (smApplyTx sha256 s' tx) ≤
      leaseLeft s' + ((txReceipts sha256 s' tx).map Receipt.seconds).sum := by
  have hend := (hs tx).smApplyTx sha256 tx
  have hcar : ∀ sc car, OnBlock s b sc → True → OnBlock s b (applyCarrier sha256 tx sc car) ∧
      secondsLeft b.mtp (applyCarrier sha256 tx sc car).1.names ≤ secondsLeft b.mtp sc.1.names +
        ((carrierReceipts sha256 tx sc car).map Receipt.seconds).sum := by
    intro sc car h _
    have hle := secondsLeft_applyCarrier sha256 tx sc car
    rw [h.ctxMtp] at hle
    exact ⟨h.applyCarrier sha256 tx car, hle⟩
  have hle := Run.measure_le_outputs (fun sc => secondsLeft b.mtp sc.1.names) Receipt.seconds hcar
    tx.carriers (hs tx) (Run.along_of_forall (fun _ _ => trivial) _ _)
  unfold leaseLeft
  rw [show s'.curMtp = b.mtp from (hs tx).mtp,
    show (smApplyTx sha256 s' tx).curMtp = b.mtp from hend.mtp]
  exact hle

/-- The boundary takes the time that went by, and the leases that ended. -/
theorem leaseLeft_smBeginBlock (s : SmState) (height : ℤ) {mtp : ℤ} (rate : UInt64) (h : s.curMtp ≤ mtp) :
    leaseLeft (smBeginBlock s height mtp rate) ≤ leaseLeft s := by
  have hperm := (smPreblock_tables s height mtp).1
  have hrows : ∀ rows : List SmNameRow,
      secondsLeft mtp (rows.filterMap (dueRow mtp)) ≤ secondsLeft s.curMtp rows := by
    intro rows
    induction rows with
    | nil => exact le_rfl
    | cons r rows ih =>
      have hclose : (closeRow mtp r).leaseExpiry = r.leaseExpiry := closeRow_leaseExpiry mtp r
      have hcons : secondsLeft s.curMtp (r :: rows) =
          (r.leaseExpiry - s.curMtp).toNat + secondsLeft s.curMtp rows := rfl
      rw [List.filterMap_cons, hcons]
      split
      · omega
      · rename_i r' hdue
        have hr' : r'.leaseExpiry = r.leaseExpiry := by
          unfold dueRow at hdue
          split at hdue
          · cases hdue
          · cases hdue
            exact hclose
        have hcons' : secondsLeft mtp (r' :: rows.filterMap (dueRow mtp)) =
            (r'.leaseExpiry - mtp).toNat + secondsLeft mtp (rows.filterMap (dueRow mtp)) := rfl
        rw [hcons', hr']
        omega
  exact (secondsLeft_perm _ hperm).le.trans (hrows s.names)

theorem leaseLeft_foldBlock (hk : WellKeyed s) (hm : s.curMtp ≤ b.mtp) :
    leaseLeft (foldBlock sha256 s b) ≤
      leaseLeft s + ((blockReceipts sha256 s b).map Receipt.seconds).sum := by
  have hstart : ∀ tx, OnBlock s b (smBeginBlock s b.height b.mtp b.rate,
      initCtx (smBeginBlock s b.height b.mtp b.rate) tx) := onBlock_txs sha256 hk []
  have hbegin := leaseLeft_smBeginBlock s b.height b.rate hm
  have hkeep : ∀ (s' : SmState) (tx : SmTx), (∀ tx, OnBlock s b (s', initCtx s' tx)) →
      ∀ tx', OnBlock s b (smApplyTx sha256 s' tx, initCtx (smApplyTx sha256 s' tx) tx') :=
    fun s' tx h tx' => ((h tx).smApplyTx sha256 tx).initCtx tx'
  have hle := Run.measure_le_outputs (P := fun _ _ => True) leaseLeft Receipt.seconds
    (fun s' tx h _ => ⟨hkeep s' tx h, leaseLeft_smApplyTx sha256 h tx⟩) b.txs hstart
    (Run.along_of_forall (fun _ _ => trivial) _ _)
  exact hle.trans (Nat.add_le_add_right hbegin _)

/-- Seconds times rate are paid for in koinu, at `LEASE_QUANTUM` to the koinu. -/
theorem Receipt.seconds_mul_le {c : Receipt} {floor : ℕ} (h : floor ≤ max 1 c.rate.toNat) :
    c.seconds * floor ≤ c.burn.toNat * leaseQuantum := by
  have hrate : (if c.rate = 0 then (1 : UInt64) else c.rate).toNat = max 1 c.rate.toNat := by
    split
    · rename_i h0
      rw [h0]
      rfl
    · rename_i h0
      have hpos : c.rate.toNat ≠ 0 := fun hz => h0 (UInt64.toNat_inj.mp hz)
      omega
  have hdiv := Nat.div_mul_le_self (c.burn.toNat * leaseQuantum) (max 1 c.rate.toNat * billingUnit)
  unfold Receipt.seconds rawT
  dsimp only
  rw [hrate]
  calc c.burn.toNat * leaseQuantum / (max 1 c.rate.toNat * billingUnit) * billingUnit * floor
      ≤ c.burn.toNat * leaseQuantum / (max 1 c.rate.toNat * billingUnit) * billingUnit *
          max 1 c.rate.toNat := Nat.mul_le_mul_left _ h
    _ = c.burn.toNat * leaseQuantum / (max 1 c.rate.toNat * billingUnit) *
          (max 1 c.rate.toNat * billingUnit) := by ring
    _ ≤ c.burn.toNat * leaseQuantum := hdiv

/-- The clock of a run does not go back. -/
theorem along_of_chain (hk : WellKeyed s) {bs : List FoldBlock}
    (h : (s.curMtp :: bs.map FoldBlock.mtp).IsChain (· ≤ ·)) :
    Run.Along (foldBlock sha256) (fun s b => s.curMtp ≤ b.mtp) s bs := by
  induction bs generalizing s with
  | nil => trivial
  | cons b bs ih =>
    obtain ⟨hle, hrest⟩ := List.isChain_cons_cons.mp h
    have hclock : (foldBlock sha256 s b).curMtp = b.mtp := by
      have hend := onBlock_txs sha256 (b := b) hk b.txs ⟨0, [], [], []⟩
      exact hend.mtp
    exact ⟨hle, ih (hk.tracks.foldBlock sha256 b).keyed (by rwa [hclock])⟩

/-- In every run the leases that are left are backed by what was burned for them: at most the days of
the receipts, and at most `LEASE_QUANTUM` seconds to the koinu at the lowest rate of a receipt. -/
theorem lease_backed (activationHeight : UInt64) (bs : List FoldBlock)
    (h : (0 :: bs.map FoldBlock.mtp).IsChain (· ≤ ·)) :
    let s := foldBlocks sha256 (smNew activationHeight) bs
    let paid := receipts sha256 (smNew activationHeight) bs
    leaseLeft s ≤ (paid.map Receipt.seconds).sum ∧
      ∀ floor : ℕ, (∀ c ∈ paid, floor ≤ max 1 c.rate.toNat) →
        leaseLeft s * floor ≤ (paid.map fun c => c.burn.toNat).sum * leaseQuantum := by
  intro s paid
  have hk := wellKeyed_smNew activationHeight
  have hleft : leaseLeft s ≤ (paid.map Receipt.seconds).sum := by
    have hle := Run.measure_le_outputs leaseLeft Receipt.seconds (fun s b hs hm =>
      ⟨(hs.tracks.foldBlock sha256 b).keyed, leaseLeft_foldBlock sha256 hs hm⟩) bs hk
      (along_of_chain sha256 hk h)
    exact hle.trans_eq (Nat.zero_add _)
  refine ⟨hleft, fun floor hfloor => ?_⟩
  have hsum : ∀ l : List Receipt, (∀ c ∈ l, floor ≤ max 1 c.rate.toNat) →
      (l.map Receipt.seconds).sum * floor ≤ (l.map fun c => c.burn.toNat).sum * leaseQuantum := by
    intro l
    induction l with
    | nil => exact fun _ => by simp
    | cons c l ih =>
      intro hl
      have hc := Receipt.seconds_mul_le (hl c List.mem_cons_self)
      have hrest := ih fun x hx => hl x (List.mem_cons_of_mem _ hx)
      simp only [List.map_cons, List.sum_cons, Nat.add_mul]
      omega
  exact (Nat.mul_le_mul_right floor hleft).trans (hsum paid hfloor)

/-- Ten days that cost ten koinu at 28 to the four weeks; nothing went by yet. -/
theorem lease_backed_sampleRun :
    (0 :: sampleRun.map FoldBlock.mtp).IsChain (· ≤ ·) ∧
      receipts sampleSha256 (smNew 0) sampleRun = [⟨10, 28⟩] ∧
      leaseLeft (foldBlocks sampleSha256 (smNew 0) sampleRun) = 10 * 86400 ∧
      leaseLeft (foldBlocks sampleSha256 (smNew 0) sampleRun) * 28 ≤ 10 * 2419200 := by
  have hchain : (0 :: sampleRun.map FoldBlock.mtp).IsChain (· ≤ ·) := by decide
  have hpaid : receipts sampleSha256 (smNew 0) sampleRun = [⟨10, 28⟩] := by decide +kernel
  have hrate : ∀ c ∈ receipts sampleSha256 (smNew 0) sampleRun, 28 ≤ max 1 c.rate.toNat := by
    rw [hpaid]
    decide
  have hbacked := (lease_backed sampleSha256 0 sampleRun hchain).2 28 hrate
  rw [hpaid] at hbacked
  exact ⟨hchain, hpaid, by decide +kernel, hbacked⟩

end Runs

end NamespaceIndexer
