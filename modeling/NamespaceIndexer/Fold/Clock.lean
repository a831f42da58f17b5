import NamespaceIndexer.Fold.Apply

/-!
# The clock of the state

A block sets the height of the state; no action moves it.
-/

namespace NamespaceIndexer.Fold

open Lib

section Updates

variable (s : SmState)

@[simp] theorem bumpEv_curHeight (e : SmEv) : (s.bumpEv e).curHeight = s.curHeight := rfl

@[simp] theorem setRow_curHeight (r : ℕ) (v : SmNameRow) :
    (s.setRow r v).curHeight = s.curHeight := rfl

@[simp] theorem smRemoveName_curHeight (r : ℕ) : (smRemoveName s r).curHeight = s.curHeight := rfl

@[simp] theorem smAddName_curHeight (n : Name) : (smAddName s n).1.curHeight = s.curHeight := rfl

@[simp] theorem smCommitAdd_curHeight (c : Hash256) (h : ℤ) (i : UInt32) (t : ℤ) :
    (smCommitAdd s c h i t).curHeight = s.curHeight := rfl

@[simp] theorem smBumpMutation_curHeight (owner : H160) (h : ℤ) :
    (smBumpMutation s owner h).curHeight = s.curHeight := by
  unfold smBumpMutation
  split
  · split <;> rfl
  · rfl

@[simp] theorem setScratch_curHeight (n : Name) (h : ℤ) (i : UInt32) (owner : H160) :
    (setScratch s n h i owner).curHeight = s.curHeight := by
  unfold setScratch
  split <;> rfl

/-- A loop whose body does not move the clock does not move it. -/
theorem foldl_curHeight {α : Type} {f : SmState → α → SmState}
    (hf : ∀ s a, (f s a).curHeight = s.curHeight) (l : List α) :
    (l.foldl f s).curHeight = s.curHeight := by
  induction l generalizing s with
  | nil => rfl
  | cons a l ih => rw [List.foldl_cons, ih, hf]

theorem awardRow_curHeight (s : SmState) (p : ℕ × Cell) :
    (awardRow s p).curHeight = s.curHeight := by
  unfold awardRow
  dsimp only
  split <;> rfl

@[simp] theorem smWaterfill_curHeight (mtp : ℤ) (rate burn : UInt64) (rows : List ℕ) :
    (smWaterfill s mtp rate burn rows).curHeight = s.curHeight := by
  unfold smWaterfill
  split
  · rfl
  · dsimp only
    rw [foldl_curHeight _ awardRow_curHeight]
    split <;> rfl

end Updates

section Actions

variable (s : SmState) (tx : SmTx) (cx : SmTxCtx) (a : SmAction)

theorem giveRow_curHeight (addr : H160) (s : SmState) (r : ℕ) :
    (giveRow addr s r).curHeight = s.curHeight := by
  unfold giveRow
  split <;> rfl

theorem releaseOne_curHeight (s : SmState) (n : Name) :
    (releaseOne s n).curHeight = s.curHeight := by
  unfold releaseOne
  split <;> rfl

@[simp] theorem smOpClaim_curHeight (sha256 : Bytes → Hash256) :
    (smOpClaim sha256 s cx a).curHeight = s.curHeight := by
  unfold smOpClaim
  dsimp only
  repeat' split
  all_goals simp

@[simp] theorem smOpRenew_curHeight : (smOpRenew s cx a).curHeight = s.curHeight := by
  unfold smOpRenew
  dsimp only
  repeat' split
  all_goals simp

@[simp] theorem smOpTransfer_curHeight : (smOpTransfer s cx a).curHeight = s.curHeight := by
  have hgive := foldl_curHeight s (giveRow_curHeight a.addr)
  unfold smOpTransfer
  dsimp only
  repeat' split
  all_goals simp [hgive]

@[simp] theorem smOpRenewName_curHeight : (smOpRenewName s cx a).curHeight = s.curHeight := by
  unfold smOpRenewName
  split
  · rfl
  · rw [smWaterfill_curHeight]

@[simp] theorem smOpTransferName_curHeight :
    (smOpTransferName s cx a).curHeight = s.curHeight := by
  unfold smOpTransferName
  repeat' split
  all_goals simp

@[simp] theorem smOpReleaseName_curHeight :
    (smOpReleaseName s cx a).curHeight = s.curHeight := by
  unfold smOpReleaseName
  repeat' split
  all_goals simp

@[simp] theorem smOpRelease_curHeight : (smOpRelease s cx a).curHeight = s.curHeight := by
  unfold smOpRelease
  dsimp only
  repeat' split
  · rfl
  · rfl
  · rw [smBumpMutation_curHeight, foldl_curHeight _ releaseOne_curHeight]
  · rw [foldl_curHeight _ releaseOne_curHeight]

@[simp] theorem smOpSell_curHeight : (smOpSell s cx a).curHeight = s.curHeight := by
  unfold smOpSell
  dsimp only
  repeat' split
  all_goals rfl

@[simp] theorem smOpSellTo_curHeight : (smOpSellTo s cx a).curHeight = s.curHeight := by
  unfold smOpSellTo
  repeat' split
  all_goals rfl

@[simp] theorem smOpReserve_curHeight : (smOpReserve tx s cx a).1.curHeight = s.curHeight := by
  unfold smOpReserve
  dsimp only
  repeat' split
  all_goals rfl

@[simp] theorem smOpSettle_curHeight : (smOpSettle tx s cx a).1.curHeight = s.curHeight := by
  unfold smOpSettle
  dsimp only
  repeat' split
  all_goals simp

@[simp] theorem smOpPay_curHeight : (smOpPay tx s cx a).1.curHeight = s.curHeight := by
  unfold smOpPay
  dsimp only
  repeat' split
  all_goals simp

@[simp] theorem smOpTrade_curHeight : (smOpTrade tx s cx a).curHeight = s.curHeight := by
  unfold smOpTrade
  dsimp only
  repeat' split
  all_goals simp

end Actions

section Blocks

variable {sha256 : Bytes → Hash256}

theorem dispatch_curHeight (tx : SmTx) (s : SmState) (cx : SmTxCtx) (a : SmAction) (op : SmOp) :
    (dispatch sha256 tx s cx a op).1.curHeight = s.curHeight := by
  cases op <;> simp [dispatch]

theorem applyCarrier_curHeight (tx : SmTx) (sc : SmState × SmTxCtx) (car : SmCarrier) :
    (applyCarrier sha256 tx sc car).1.curHeight = sc.1.curHeight := by
  obtain ⟨s, cx⟩ := sc
  unfold applyCarrier
  dsimp only
  repeat' split
  all_goals simp [dispatch_curHeight]

theorem smApplyTx_curHeight (s : SmState) (tx : SmTx) :
    (smApplyTx sha256 s tx).curHeight = s.curHeight := by
  have hloop : ∀ (cars : List SmCarrier) (sc : SmState × SmTxCtx),
      (cars.foldl (applyCarrier sha256 tx) sc).1.curHeight = sc.1.curHeight := by
    intro cars
    induction cars with
    | nil => exact fun _ => rfl
    | cons car cars ih => exact fun sc => (ih _).trans (applyCarrier_curHeight tx sc car)
  exact hloop tx.carriers _

variable (sha256) in
/-- A block leaves its own height on the clock. -/
theorem foldBlock_curHeight (s : SmState) (b : FoldBlock) :
    (foldBlock sha256 s b).curHeight = b.height :=
  foldl_curHeight _ smApplyTx_curHeight b.txs

end Blocks

end NamespaceIndexer.Fold
