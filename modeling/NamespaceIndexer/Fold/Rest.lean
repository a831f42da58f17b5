import NamespaceIndexer.Fold.Clock

/-!
# Blocks that leave the tables alone

What must hold of a state and of the carriers of a block for its fold to change no row. Each handler
comes with its guard; a carrier whose guard fails counts an event at most.
-/

namespace NamespaceIndexer.Fold

open Lib

/-! ### What falls due -/

/-- No window of the row is over, nor its lease. -/
def SmNameRow.Current (mtp : ℤ) (r : SmNameRow) : Prop :=
  (r.st = .RESERVED → mtp < r.reserveExpiry) ∧
    (r.st = .LISTED ∨ r.st = .OFFERED → mtp < r.offerExpiry) ∧ mtp < r.leaseExpiry

/-- Nothing falls due at `mtp`. -/
def NothingDue (s : SmState) (mtp : ℤ) : Prop :=
  (∀ r ∈ s.names, r.Current mtp) ∧ ∀ c ∈ s.commits, mtp ≤ c.commitTime + commitExpiry

/-! ### What acts -/

/-- The burn buys a day, and a row has room for it. -/
def Grows (s : SmState) (cx : SmTxCtx) (rows : List ℕ) : Prop :=
  0 < rawT cx.carValue cx.rate ∧ ∃ r ∈ rows, 0 < headroom cx.mtp (s.row r).leaseExpiry

/-- One of the rows is not locked by a sale. -/
def AnyUnlocked (s : SmState) (rows : List ℕ) : Prop := ∃ r ∈ rows, (s.row r).st = .OWNED

variable (sha256 : Bytes → Hash256)

/-- What the handlers ask before they write, in a block that has minted no name yet. -/
def Acts (s : SmState) (tx : SmTx) (cx : SmTxCtx) (a : SmAction) : SmOp → Prop
  | .COMMIT => True
  | .CLAIM => smNameValid a.name ∧
      (∃ c ∈ s.commits, c.commitHeight < cx.height ∧
        c.commitment = claimCommitment sha256 a.salt a.name cx.actor) ∧
      smLeaseCoversDay cx.carValue cx.rate ∧ smFindName s a.name = none
  | .RENEW =>
      (if a.hasAnchor then anchorOk s cx.actor a.anchor cx.height = true else a.flags = []) ∧
        Grows s cx (if a.flags = [] then smCollectOwned s cx.actor
          else selectBitmap a.flags (smCollectOwned s cx.actor))
  | .TRANSFER => (a.hasAnchor → anchorOk s cx.actor a.anchor cx.height) ∧
      AnyUnlocked s (if a.hasAnchor then selectBitmap a.flags (smCollectOwned s cx.actor)
        else smCollectOwned s cx.actor)
  | .RELEASE => a.hasAnchor ∧ anchorOk s cx.actor a.anchor cx.height ∧
      AnyUnlocked s (selectBitmap a.flags (smCollectOwned s cx.actor))
  | .RENEW_NAME => ∃ r ∈ findMine s cx.actor a, Grows s cx [r]
  | .TRANSFER_NAME | .RELEASE_NAME => ∃ r ∈ findMine s cx.actor a, (s.row r).st = .OWNED
  | .SELL => smNameValid a.name ∧ sellPriceFloor ≤ a.price ∧ ∃ r ∈ smFindName s a.name,
      (s.row r).st = .OWNED ∧ (s.row r).owner = cx.actor ∧
        let w : ℤ := if a.window ≠ 0 then (a.window.toNat : ℤ) else reserveWindow
        reserveWindow ≤ w ∧ cx.mtp + w + reorgBuffer ≤ (s.row r).leaseExpiry
  | .SELL_TO => smNameValid a.name ∧ dustFloor ≤ a.price ∧ ∃ r ∈ smFindName s a.name,
      (s.row r).st = .OWNED ∧ (s.row r).owner = cx.actor ∧
        cx.mtp + directWindow + reorgBuffer ≤ (s.row r).leaseExpiry
  | .RESERVE => smNameValid a.name ∧ ∃ r ∈ smFindName s a.name,
      (s.row r).st = .LISTED ∧ depositLeg (s.row r).price reserveBurnBps ≤ cx.carValue ∧
        (smConsumeOutput tx cx (s.row r).seller (s.row r).sellerType
          (depositLeg (s.row r).price reservePayBps)).isSome
  | .SETTLE => smNameValid a.name ∧ ∃ r ∈ smFindName s a.name,
      (s.row r).st = .RESERVED ∧ (s.row r).buyer = cx.actor ∧ cx.mtp < (s.row r).reserveExpiry ∧
        (smConsumeOutput tx cx (s.row r).seller (s.row r).sellerType
          ((s.row r).price - (s.row r).burnLeg - (s.row r).payLeg)).isSome
  | .PAY => smNameValid a.name ∧ ∃ r ∈ smFindName s a.name,
      (s.row r).st = .OFFERED ∧ (s.row r).buyer = cx.actor ∧ cx.mtp < (s.row r).offerExpiry ∧
        (smConsumeOutput tx cx (s.row r).seller (s.row r).sellerType (s.row r).price).isSome
  | .AS => False
  | .TRADE => ∃ inA ∈ tx.inputs[a.idxA.val]?, ∃ inB ∈ tx.inputs[a.idxB.val]?, a.idxA ≠ a.idxB ∧
      inA.sighashAll ∧ inB.sighashAll ∧ smNameValid a.name ∧ smNameValid a.nameB ∧
      a.name ≠ a.nameB ∧ ∃ rA ∈ smFindName s a.name, ∃ rB ∈ smFindName s a.nameB,
        (s.row rA).st = .OWNED ∧ (s.row rA).owner = inA.h160 ∧
          (s.row rB).st = .OWNED ∧ (s.row rB).owner = inB.h160

/-- The context in which a carrier stands. -/
def carrierCtx (cx : SmTxCtx) (car : SmCarrier) : SmTxCtx :=
  { cx with carValue := car.value, carVout := car.vout }

/-- The protocol is not active yet. -/
def Dormant (s : SmState) : Prop := s.curHeight < i64 s.activationHeight

/-- The carrier is an action of an identity that may act, and its guard holds. -/
def CarrierActs (s : SmState) (tx : SmTx) (cx : SmTxCtx) (car : SmCarrier) : Prop :=
  car.kind = .ACTION ∧ ¬ Dormant s ∧ ∃ op ∈ SmOp.ofByte? car.act.op,
    (op ≠ .TRADE → cx.actorValid = true) ∧ Acts sha256 s tx (carrierCtx cx car) car.act op

/-- Who acts after a carrier: `AS` names an input. -/
def turn (active : Bool) (tx : SmTx) (cx : SmTxCtx) (car : SmCarrier) : SmTxCtx :=
  let cx := carrierCtx cx car
  if car.kind = .ACTION ∧ active = true ∧ SmOp.ofByte? car.act.op = some .AS then
    match signer tx car.act.asIndex.val with
    | some i => { cx with actor := i.h160, actorType := i.type, actorValid := true }
    | none => { cx with actorValid := false }
  else cx

/-- The carriers, each with the context it stands in while no output is spent. -/
def turns (active : Bool) (tx : SmTx) : SmTxCtx → List SmCarrier → List (SmTxCtx × SmCarrier)
  | _, [] => []
  | cx, car :: cars => (cx, car) :: turns active tx (turn active tx cx car) cars

instance (s : SmState) : Decidable (Dormant s) := inferInstanceAs (Decidable (_ < _))

/-- No carrier of the transaction acts. -/
def TxRests (s : SmState) (tx : SmTx) : Prop :=
  ∀ p ∈ turns (!decide (Dormant s)) tx (initCtx s tx) tx.carriers, ¬ CarrierActs sha256 s tx p.1 p.2

/-- The state with the clock of the block. -/
def clocked (s : SmState) (b : FoldBlock) : SmState :=
  { s with curHeight := b.height, curMtp := b.mtp, curRate := b.rate, claimsc := [] }

/-- Nothing falls due at the time of the block, and no carrier of its transactions acts. -/
def BlockRests (s : SmState) (b : FoldBlock) : Prop :=
  NothingDue s b.mtp ∧ ∀ tx ∈ b.txs, TxRests sha256 (clocked s b) tx

section Decidable

instance (mtp : ℤ) (r : SmNameRow) : Decidable (r.Current mtp) :=
  inferInstanceAs (Decidable ((_ → _) ∧ (_ → _) ∧ _ < _))

instance (s : SmState) (mtp : ℤ) : Decidable (NothingDue s mtp) :=
  inferInstanceAs (Decidable ((∀ r ∈ s.names, r.Current mtp) ∧ ∀ c ∈ s.commits, _ ≤ _))

instance (s : SmState) (cx : SmTxCtx) (rows : List ℕ) : Decidable (Grows s cx rows) :=
  inferInstanceAs (Decidable (_ < _ ∧ ∃ r ∈ rows, _ < _))

instance (s : SmState) (rows : List ℕ) : Decidable (AnyUnlocked s rows) :=
  inferInstanceAs (Decidable (∃ r ∈ rows, (s.row r).st = .OWNED))

instance (s : SmState) (tx : SmTx) (cx : SmTxCtx) (a : SmAction) :
    (op : SmOp) → Decidable (Acts sha256 s tx cx a op)
  | .COMMIT => isTrue trivial
  | .AS => isFalse id
  | .CLAIM | .RENEW | .TRANSFER | .RELEASE | .SELL | .SELL_TO | .RESERVE | .SETTLE | .PAY =>
    inferInstanceAs (Decidable (_ ∧ _))
  | .RENEW_NAME => inferInstanceAs (Decidable (∃ r ∈ findMine s cx.actor a, Grows s cx [r]))
  | .TRANSFER_NAME | .RELEASE_NAME =>
    inferInstanceAs (Decidable (∃ r ∈ findMine s cx.actor a, (s.row r).st = .OWNED))
  | .TRADE => inferInstanceAs (Decidable (∃ inA ∈ tx.inputs[a.idxA.val]?, ∃ inB ∈ _, _))

instance (s : SmState) (tx : SmTx) (cx : SmTxCtx) (car : SmCarrier) :
    Decidable (CarrierActs sha256 s tx cx car) :=
  inferInstanceAs (Decidable (_ ∧ _ ∧ ∃ op ∈ SmOp.ofByte? car.act.op,
    (op ≠ .TRADE → cx.actorValid = true) ∧ Acts sha256 s tx (carrierCtx cx car) car.act op))

instance (s : SmState) (tx : SmTx) : Decidable (TxRests sha256 s tx) :=
  inferInstanceAs (Decidable (∀ p ∈ turns _ tx _ tx.carriers, ¬ CarrierActs sha256 s tx p.1 p.2))

instance (s : SmState) (b : FoldBlock) : Decidable (BlockRests sha256 s b) :=
  inferInstanceAs (Decidable (NothingDue s b.mtp ∧ ∀ tx ∈ b.txs, TxRests sha256 (clocked s b) tx))

end Decidable

/-! ### Counters only -/

section Counters

variable {s : SmState}

/-- The state with other counters. -/
def SmState.withEv (s : SmState) (ev : SmEv → ℕ) : SmState := { s with ev }

theorem setRow_row (s : SmState) (r : ℕ) : s.setRow r (s.row r) = s := by
  have hnames : s.names.set r (s.row r) = s.names := by
    unfold SmState.row
    by_cases hr : r < s.names.length
    · rw [List.getD_eq_getElem?_getD, List.getElem?_eq_getElem hr, Option.getD_some,
        List.set_getElem_self]
    · exact List.set_eq_of_length_le (not_lt.mp hr)
  unfold SmState.setRow
  rw [hnames]

theorem awardRow_none {p : ℕ × Cell} (h : p.2.2 = 0) : ∃ ev, awardRow s p = s.withEv ev := by
  unfold awardRow
  rw [h]
  dsimp only
  simp only [Nat.cast_zero, zero_mul, add_zero]
  rw [setRow_row]
  split
  · exact ⟨_, rfl⟩
  · exact ⟨s.ev, rfl⟩

theorem fillRemainder_zero (c : List Cell) : fillRemainder c 0 = c := by
  induction c with
  | nil => rfl
  | cons x c ih =>
    rw [fillRemainder, if_neg fun h => absurd h.1 (lt_irrefl 0), ih]

theorem waterfillDays_none {h : List ℕ} {T : ℕ} (hnone : T = 0 ∨ ∀ d ∈ h, d = 0) :
    ∀ d ∈ waterfillDays h T, d = 0 := by
  unfold waterfillDays
  split
  · rename_i hsum
    rcases hnone with rfl | hnone
    · intro d hd
      have hle := List.le_sum_of_mem hd
      omega
    · exact hnone
  · rename_i hsum
    rcases hnone with rfl | hnone
    · simp [fillLoop, fillRemainder_zero]
    · rw [List.sum_eq_zero hnone] at hsum
      exact absurd (Nat.zero_le T) hsum

/-- A burn that buys nothing, or rows that are full. -/
theorem smWaterfill_rests {cx : SmTxCtx} {rows : List ℕ} (h : ¬ Grows s cx rows) :
    ∃ ev, smWaterfill s cx.mtp cx.rate cx.carValue rows = s.withEv ev := by
  have hfoldl : ∀ (l : List (ℕ × Cell)) (ev : SmEv → ℕ), (∀ p ∈ l, p.2.2 = 0) →
      ∃ ev', l.foldl awardRow (s.withEv ev) = s.withEv ev' := by
    intro l
    induction l with
    | nil => exact fun ev _ => ⟨ev, rfl⟩
    | cons p l ih =>
      intro ev hl
      obtain ⟨ev', hp⟩ := awardRow_none (s := s.withEv ev) (hl p List.mem_cons_self)
      rw [List.foldl_cons, hp]
      exact ih ev' fun q hq => hl q (List.mem_cons_of_mem _ hq)
  unfold smWaterfill
  split
  · exact ⟨s.ev, rfl⟩
  · dsimp only
    generalize hh : (sortByName s rows).map (fun r => headroom cx.mtp (s.row r).leaseExpiry) = room
    have hnone : rawT cx.carValue cx.rate = 0 ∨ ∀ d ∈ room, d = 0 := by
      by_contra hcon
      rw [not_or, not_forall] at hcon
      obtain ⟨hburn, d, hd⟩ := hcon
      rw [Classical.not_imp] at hd
      obtain ⟨hd, hpos⟩ := hd
      rw [← hh] at hd
      obtain ⟨r, hr, rfl⟩ := List.mem_map.mp hd
      unfold sortByName at hr
      rw [List.mem_insertionSort] at hr
      exact h ⟨Nat.pos_of_ne_zero hburn, r, hr, Nat.pos_of_ne_zero hpos⟩
    have hdays := waterfillDays_none hnone
    have hzip : ∀ p ∈ (sortByName s rows).zip (room.zip (waterfillDays room (rawT cx.carValue cx.rate))),
        p.2.2 = 0 := by
      intro p hp
      exact hdays _ (List.of_mem_zip (List.of_mem_zip hp).2).2
    split
    · exact hfoldl _ _ hzip
    · exact hfoldl _ s.ev hzip

end Counters

/-! ### Handlers whose guard fails -/

section Handlers

variable {s : SmState} {tx : SmTx} {cx : SmTxCtx} {a : SmAction}

theorem smOpClaim_rests (hfresh : s.claimsc = []) (h : ¬ Acts sha256 s tx cx a .CLAIM) :
    ∃ ev, smOpClaim sha256 s cx a = s.withEv ev := by
  have hscratch : findScratch s a.name = none := by
    unfold findScratch
    rw [hfresh]
    rfl
  unfold smOpClaim
  split
  · exact ⟨s.ev, rfl⟩
  · rename_i hvalid
    rw [Bool.not_eq_true', Bool.not_eq_false] at hvalid
    dsimp only
    split
    · exact ⟨s.ev, rfl⟩
    · rename_i bestCh bestTi hbest
      split
      · exact ⟨s.ev, rfl⟩
      · rename_i hday
        rw [Bool.not_eq_true', Bool.not_eq_false] at hday
        split
        · rw [hscratch]
          exact ⟨s.ev, rfl⟩
        · rename_i hname
          refine absurd ⟨hvalid, ?_, hday, hname⟩ h
          by_contra hnone
          push_neg at hnone
          have hskip : ∀ (l : List SmCommit), (∀ c ∈ l, c ∈ s.commits) →
              l.foldl (bestCommit (claimCommitment sha256 a.salt a.name cx.actor) cx.height) none
                = none := by
            intro l
            induction l with
            | nil => exact fun _ => rfl
            | cons c l ih =>
              intro hl
              have hc : ¬ (c.commitHeight < cx.height ∧
                  c.commitment = claimCommitment sha256 a.salt a.name cx.actor) :=
                fun hb => hnone c (hl c List.mem_cons_self) hb.1 hb.2
              rw [List.foldl_cons, bestCommit, if_neg hc]
              exact ih fun x hx => hl x (List.mem_cons_of_mem _ hx)
          rw [hskip s.commits fun _ hc => hc] at hbest
          cases hbest

theorem smOpRenew_rests (h : ¬ Acts sha256 s tx cx a .RENEW) :
    ∃ ev, smOpRenew s cx a = s.withEv ev := by
  unfold Acts at h
  unfold smOpRenew
  dsimp only
  cases hanchor : a.hasAnchor with
  | false =>
    simp only [hanchor, Bool.false_eq_true, if_false, Bool.not_false, Bool.true_and, Bool.false_and,
      beq_iff_eq, List.length_eq_zero_iff] at h ⊢
    split
    · rename_i hflags
      rw [if_pos hflags] at h
      exact smWaterfill_rests fun hg => h ⟨hflags, hg⟩
    · exact ⟨s.ev, rfl⟩
  | true =>
    simp only [hanchor, if_true, Bool.not_true, Bool.false_and, Bool.false_eq_true, if_false,
      Bool.true_and, beq_iff_eq, List.length_eq_zero_iff] at h ⊢
    split
    · rename_i hok
      by_cases hflags : a.flags = []
      · rw [if_pos hflags] at h ⊢
        exact smWaterfill_rests fun hg => h ⟨hok, hg⟩
      · rw [if_neg hflags] at h ⊢
        exact smWaterfill_rests fun hg => h ⟨hok, hg⟩
    · exact ⟨s.ev, rfl⟩

theorem foldl_giveRow_rests {rows : List ℕ} (h : ¬ AnyUnlocked s rows) (addr : H160) :
    rows.foldl (giveRow addr) s = s := by
  induction rows with
  | nil => rfl
  | cons r rows ih =>
    have hr : (s.row r).st ≠ .OWNED := fun hst => h ⟨r, List.mem_cons_self, hst⟩
    rw [List.foldl_cons, giveRow, if_pos hr]
    exact ih fun ⟨x, hx, hst⟩ => h ⟨x, List.mem_cons_of_mem _ hx, hst⟩

theorem smOpTransfer_rests (h : ¬ Acts sha256 s tx cx a .TRANSFER) : smOpTransfer s cx a = s := by
  unfold Acts at h
  unfold smOpTransfer
  dsimp only
  split
  · rfl
  · rename_i hok
    rw [Bool.and_eq_true, not_and, Bool.not_eq_true', Bool.not_eq_false] at hok
    have hlocked : ¬ AnyUnlocked s (if (!a.hasAnchor) = true then smCollectOwned s cx.actor
        else selectBitmap a.flags (smCollectOwned s cx.actor)) := by
      intro hany
      refine h ⟨hok, ?_⟩
      cases hanchor : a.hasAnchor with
      | true => simpa [hanchor] using hany
      | false => simpa [hanchor] using hany
    have hcount : ((if (!a.hasAnchor) = true then smCollectOwned s cx.actor
        else selectBitmap a.flags (smCollectOwned s cx.actor)).countP
          fun r => (s.row r).st = .OWNED) = 0 := by
      rw [List.countP_eq_zero]
      intro r hr hst
      exact hlocked ⟨r, hr, by simpa using hst⟩
    rw [foldl_giveRow_rests hlocked, if_neg (by omega)]

theorem smOpRelease_rests (h : ¬ Acts sha256 s tx cx a .RELEASE) : smOpRelease s cx a = s := by
  unfold Acts at h
  unfold smOpRelease
  split
  · rfl
  · rename_i hanchor
    rw [Bool.not_eq_true', Bool.not_eq_false] at hanchor
    split
    · rfl
    · rename_i hok
      rw [Bool.not_eq_true', Bool.not_eq_false] at hok
      dsimp only
      have hnone : ((selectBitmap a.flags (smCollectOwned s cx.actor)).filter fun r =>
          (s.row r).st = .OWNED) = [] := by
        rw [List.filter_eq_nil_iff]
        intro r hr hst
        exact h ⟨hanchor, hok, r, hr, by simpa using hst⟩
      rw [hnone]
      rfl

theorem smOpRenewName_rests (h : ¬ Acts sha256 s tx cx a .RENEW_NAME) :
    ∃ ev, smOpRenewName s cx a = s.withEv ev := by
  unfold smOpRenewName
  split
  · exact ⟨s.ev, rfl⟩
  · rename_i r hr
    exact smWaterfill_rests fun hg => h ⟨r, hr, hg⟩

theorem smOpTransferName_rests (h : ¬ Acts sha256 s tx cx a .TRANSFER_NAME) :
    smOpTransferName s cx a = s := by
  unfold smOpTransferName
  split
  · rfl
  · rename_i r hr
    rw [if_pos fun hst => h ⟨r, hr, hst⟩]

theorem smOpReleaseName_rests (h : ¬ Acts sha256 s tx cx a .RELEASE_NAME) :
    smOpReleaseName s cx a = s := by
  unfold smOpReleaseName
  split
  · rfl
  · rename_i r hr
    rw [if_pos fun hst => h ⟨r, hr, hst⟩]

theorem smOpSell_rests (h : ¬ Acts sha256 s tx cx a .SELL) : smOpSell s cx a = s := by
  unfold smOpSell
  split
  · rfl
  · rename_i hvalid
    rw [Bool.not_eq_true', Bool.not_eq_false] at hvalid
    split
    · rfl
    · rename_i hprice
      split
      · rfl
      · rename_i r hr
        split
        · rfl
        · rename_i hmine
          rw [not_or, not_not, not_not] at hmine
          dsimp only
          generalize hw : (if a.window ≠ 0 then (a.window.toNat : ℤ) else reserveWindow) = w
          split
          · rfl
          · rename_i hlong
            split
            · rfl
            · rename_i hlease
              refine absurd ⟨hvalid, UInt64.not_lt.mp hprice, r, hr, hmine.1, hmine.2, ?_⟩ h
              dsimp only
              rw [hw]
              exact ⟨not_lt.mp hlong, not_lt.mp hlease⟩

theorem smOpSellTo_rests (h : ¬ Acts sha256 s tx cx a .SELL_TO) : smOpSellTo s cx a = s := by
  unfold smOpSellTo
  split
  · rfl
  · rename_i hvalid
    rw [Bool.not_eq_true', Bool.not_eq_false] at hvalid
    split
    · rfl
    · rename_i hprice
      split
      · rfl
      · rename_i r hr
        split
        · rfl
        · rename_i hmine
          rw [not_or, not_not, not_not] at hmine
          split
          · rfl
          · rename_i hlease
            exact absurd ⟨hvalid, UInt64.not_lt.mp hprice, r, hr, hmine.1, hmine.2,
              not_lt.mp hlease⟩ h

theorem smOpReserve_rests (h : ¬ Acts sha256 s tx cx a .RESERVE) :
    smOpReserve tx s cx a = (s, cx) := by
  unfold smOpReserve
  split
  · rfl
  · rename_i hvalid
    rw [Bool.not_eq_true', Bool.not_eq_false] at hvalid
    split
    · rfl
    · rename_i r hr
      split
      · rfl
      · rename_i hlisted
        rw [not_not] at hlisted
        dsimp only
        split
        · rfl
        · rename_i hburn
          split
          · rfl
          · rename_i cx' hpaid
            exact absurd ⟨hvalid, r, hr, hlisted, UInt64.not_lt.mp hburn,
              Option.isSome_of_eq_some hpaid⟩ h

theorem smOpSettle_rests (h : ¬ Acts sha256 s tx cx a .SETTLE) :
    smOpSettle tx s cx a = (s, cx) := by
  unfold smOpSettle
  split
  · rfl
  · rename_i hvalid
    rw [Bool.not_eq_true', Bool.not_eq_false] at hvalid
    split
    · rfl
    · rename_i r hr
      split
      · rfl
      · rename_i hreserved
        rw [not_not] at hreserved
        split
        · rfl
        · rename_i hbuyer
          rw [not_not] at hbuyer
          split
          · rfl
          · rename_i htime
            dsimp only
            split
            · rfl
            · rename_i cx' hpaid
              exact absurd ⟨hvalid, r, hr, hreserved, hbuyer, not_le.mp htime,
                Option.isSome_of_eq_some hpaid⟩ h

theorem smOpPay_rests (h : ¬ Acts sha256 s tx cx a .PAY) : smOpPay tx s cx a = (s, cx) := by
  unfold smOpPay
  split
  · rfl
  · rename_i hvalid
    rw [Bool.not_eq_true', Bool.not_eq_false] at hvalid
    split
    · rfl
    · rename_i r hr
      split
      · rfl
      · rename_i hoffered
        rw [not_not] at hoffered
        split
        · rfl
        · rename_i hbuyer
          rw [not_not] at hbuyer
          split
          · rfl
          · rename_i htime
            split
            · rfl
            · rename_i cx' hpaid
              exact absurd ⟨hvalid, r, hr, hoffered, hbuyer, not_le.mp htime,
                Option.isSome_of_eq_some hpaid⟩ h

theorem smOpTrade_rests (h : ¬ Acts sha256 s tx cx a .TRADE) : smOpTrade tx s cx a = s := by
  unfold smOpTrade
  split
  · rename_i inA inB hA hB
    split
    · rfl
    · rename_i hidx
      split
      · rfl
      · rename_i hsigned
        rw [Bool.or_eq_true, Bool.not_eq_true', Bool.not_eq_true', not_or, Bool.not_eq_false,
          Bool.not_eq_false] at hsigned
        split
        · rfl
        · rename_i hvalid
          rw [Bool.or_eq_true, Bool.not_eq_true', Bool.not_eq_true', not_or, Bool.not_eq_false,
            Bool.not_eq_false] at hvalid
          split
          · rfl
          · rename_i hname
            split
            · rename_i rA rB hrA hrB
              split
              · rfl
              · rename_i hmineA
                rw [not_or, not_not, not_not] at hmineA
                split
                · rfl
                · rename_i hmineB
                  rw [not_or, not_not, not_not] at hmineB
                  exact absurd ⟨inA, hA, inB, hB, hidx, hsigned.1, hsigned.2, hvalid.1, hvalid.2,
                    hname, rA, hrA, rB, hrB, hmineA.1, hmineA.2, hmineB.1, hmineB.2⟩ h
            · rfl
  · rfl

end Handlers

/-! ### Carriers, transactions, blocks -/

section Blocks

variable {sha256} {s : SmState} {tx : SmTx} {cx : SmTxCtx} {car : SmCarrier}

theorem dispatch_rests (hfresh : s.claimsc = []) {a : SmAction} {op : SmOp}
    (h : ¬ Acts sha256 s tx cx a op) : ∃ ev, dispatch sha256 tx s cx a op = (s.withEv ev, cx) := by
  have hstill : ∀ {s' : SmState}, s' = s → ∃ ev, (s', cx) = (s.withEv ev, cx) :=
    fun hs => ⟨s.ev, by rw [hs]; rfl⟩
  have hcount : ∀ {s' : SmState}, (∃ ev, s' = s.withEv ev) → ∃ ev, (s', cx) = (s.withEv ev, cx) :=
    fun ⟨ev, hs⟩ => ⟨ev, by rw [hs]⟩
  have hpaid : ∀ {out : SmState × SmTxCtx}, out = (s, cx) → ∃ ev, out = (s.withEv ev, cx) :=
    fun hs => ⟨s.ev, hs⟩
  cases op with
  | COMMIT => exact absurd trivial h
  | CLAIM => exact hcount (smOpClaim_rests sha256 hfresh h)
  | RENEW => exact hcount (smOpRenew_rests sha256 h)
  | TRANSFER => exact hstill (smOpTransfer_rests sha256 h)
  | RENEW_NAME => exact hcount (smOpRenewName_rests sha256 h)
  | TRANSFER_NAME => exact hstill (smOpTransferName_rests sha256 h)
  | RELEASE_NAME => exact hstill (smOpReleaseName_rests sha256 h)
  | SELL => exact hstill (smOpSell_rests sha256 h)
  | RESERVE => exact hpaid (smOpReserve_rests sha256 h)
  | SETTLE => exact hpaid (smOpSettle_rests sha256 h)
  | RELEASE => exact hstill (smOpRelease_rests sha256 h)
  | SELL_TO => exact hstill (smOpSellTo_rests sha256 h)
  | PAY => exact hpaid (smOpPay_rests sha256 h)
  | AS => exact hstill rfl
  | TRADE => exact hstill rfl

/-- A carrier that does not act. -/
theorem applyCarrier_rests (hfresh : s.claimsc = []) (h : ¬ CarrierActs sha256 s tx cx car) :
    ∃ ev, applyCarrier sha256 tx (s, cx) car =
      (s.withEv ev, turn (!decide (Dormant s)) tx cx car) := by
  unfold applyCarrier turn
  dsimp only
  split
  · rename_i hkind
    rw [if_neg fun hh => hkind hh.1]
    exact ⟨s.ev, rfl⟩
  · rename_i hkind
    rw [not_not] at hkind
    split
    · rename_i hdormant
      have hoff : ¬ (!decide (Dormant s)) = true := by
        rw [Bool.not_eq_true', decide_eq_false_iff_not, not_not]
        exact hdormant
      rw [if_neg fun hh => hoff hh.2.1]
      exact ⟨s.ev, rfl⟩
    · rename_i hactive
      have hon : (!decide (Dormant s)) = true := by
        rw [Bool.not_eq_true', decide_eq_false_iff_not]
        exact hactive
      cases hop : SmOp.ofByte? car.act.op with
      | none =>
        rw [if_neg fun hh => by cases hh.2.2]
        exact ⟨s.ev, rfl⟩
      | some op =>
        have hguard : (op ≠ .TRADE → cx.actorValid = true) →
            ¬ Acts sha256 s tx (carrierCtx cx car) car.act op :=
          fun hv hacts => h ⟨hkind, hactive, op, hop, hv, hacts⟩
        cases op with
        | AS =>
          rw [if_pos ⟨hkind, hon, rfl⟩]
          cases signer tx car.act.asIndex.val with
          | some i => exact ⟨s.ev, rfl⟩
          | none => exact ⟨_, rfl⟩
        | TRADE =>
          rw [if_neg fun hh => by cases hh.2.2]
          dsimp only
          have hstill := smOpTrade_rests sha256 (hguard fun hne => absurd rfl hne)
          exact ⟨s.ev, congrArg (·, carrierCtx cx car) hstill⟩
        | _ =>
          rw [if_neg fun hh => by cases hh.2.2]
          dsimp only
          split
          · exact ⟨s.ev, rfl⟩
          · rename_i hvalid
            rw [Bool.not_eq_true', Bool.not_eq_false] at hvalid
            exact dispatch_rests hfresh (hguard fun _ => hvalid)

theorem smApplyTx_rests (hfresh : s.claimsc = []) (h : TxRests sha256 s tx) :
    ∃ ev, smApplyTx sha256 s tx = s.withEv ev := by
  have hloop : ∀ (cars : List SmCarrier) (cx : SmTxCtx) (ev : SmEv → ℕ),
      (∀ p ∈ turns (!decide (Dormant s)) tx cx cars, ¬ CarrierActs sha256 s tx p.1 p.2) →
      ∃ ev', (cars.foldl (applyCarrier sha256 tx) (s.withEv ev, cx)).1 = s.withEv ev' := by
    intro cars
    induction cars with
    | nil => exact fun _ ev _ => ⟨ev, rfl⟩
    | cons car cars ih =>
      intro cx ev hcars
      -- the guards do not read the counters
      obtain ⟨ev', hcar⟩ := applyCarrier_rests (s := s.withEv ev) hfresh
        (hcars (cx, car) List.mem_cons_self)
      rw [List.foldl_cons, hcar]
      exact ih _ ev' fun p hp => hcars p (List.mem_cons_of_mem _ hp)
  exact hloop tx.carriers (initCtx s tx) s.ev h

theorem preblockLoop_rests {height mtp : ℤ} (h : ∀ r ∈ s.names, r.Current mtp) (fuel i : ℕ) :
    preblockLoop height mtp fuel s i = s := by
  induction fuel generalizing i with
  | zero => rfl
  | succ fuel ih =>
    rw [preblockLoop]
    split
    · rename_i hi
      obtain ⟨hreserve, hoffer, hlease⟩ : (s.row i).Current mtp := by
        apply h
        unfold SmState.row
        rw [List.getD_eq_getElem?_getD, List.getElem?_eq_getElem hi, Option.getD_some]
        exact List.getElem_mem hi
      have hclose : closeRow mtp (s.row i) = s.row i := by
        have hstep : closeReserve mtp (s.row i) = s.row i :=
          if_neg fun hh => absurd (hreserve hh.1) (not_lt.mpr hh.2)
        unfold closeRow
        rw [hstep]
        exact if_neg fun hh => absurd (hoffer hh.1) (not_lt.mpr hh.2)
      unfold preblockStep
      dsimp only
      rw [hclose, setRow_row, if_neg (not_le.mpr hlease)]
      exact ih (i + 1)
    · rfl

theorem pruneCommits_rests {mtp : ℤ} {commits : List SmCommit}
    (h : ∀ c ∈ commits, mtp ≤ c.commitTime + commitExpiry) (fuel i : ℕ) :
    pruneCommits mtp fuel commits i = commits := by
  induction fuel generalizing i with
  | zero => rfl
  | succ fuel ih =>
    rw [pruneCommits]
    split
    · rfl
    · rename_i c hc
      rw [if_neg (not_lt.mpr (h c (List.mem_of_getElem? hc)))]
      exact ih (i + 1)

/-- A block that rests sets the clock, and leaves the rest of the state as it is. -/
theorem foldBlock_rests {b : FoldBlock} (h : BlockRests sha256 s b) :
    ∃ ev, foldBlock sha256 s b = (clocked s b).withEv ev := by
  have hbegin : smBeginBlock s b.height b.mtp b.rate = clocked s b := by
    unfold smBeginBlock smPreblock
    dsimp only
    rw [preblockLoop_rests h.1.1, pruneCommits_rests h.1.2]
    rfl
  have hloop : ∀ (txs : List SmTx) (ev : SmEv → ℕ), (∀ tx ∈ txs, TxRests sha256 (clocked s b) tx) →
      ∃ ev', txs.foldl (smApplyTx sha256) ((clocked s b).withEv ev) = (clocked s b).withEv ev' := by
    intro txs
    induction txs with
    | nil => exact fun ev _ => ⟨ev, rfl⟩
    | cons tx txs ih =>
      intro ev htxs
      obtain ⟨ev', htx⟩ := smApplyTx_rests (s := (clocked s b).withEv ev) rfl
        (htxs tx List.mem_cons_self)
      rw [List.foldl_cons, htx]
      exact ih ev' fun x hx => htxs x (List.mem_cons_of_mem _ hx)
  unfold foldBlock
  rw [hbegin]
  exact hloop b.txs s.ev h.2

end Blocks

end NamespaceIndexer.Fold
