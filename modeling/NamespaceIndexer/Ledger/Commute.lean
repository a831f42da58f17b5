import NamespaceIndexer.Ledger.Agreement
import NamespaceIndexer.Ledger.Locality
import NamespaceIndexer.Ledger.Reachable

/-!
# Transactions by name commute

Two transactions of a block that act by name and have no name in common leave the same tables in
either order.
-/

namespace NamespaceIndexer

open Fold Lib

/-- The opcodes that do not select from the owned set of the actor. -/
def byName : SmOp → Bool
  | .RENEW | .TRANSFER | .RELEASE => false
  | _ => true

/-- The names an action spells out. -/
def namesOf (a : SmAction) : SmOp → List Name
  | .AS | .COMMIT | .RENEW | .TRANSFER | .RELEASE => []
  | .TRADE => [a.name, a.nameB]
  | _ => [a.name]

def carrierNames (car : SmCarrier) : List Name :=
  match car.kind, SmOp.ofByte? car.act.op with
  | .ACTION, some op => namesOf car.act op
  | _, _ => []

theorem carrierNames_eq {car : SmCarrier} {op : SmOp} (hk : car.kind = .ACTION)
    (hop : SmOp.ofByte? car.act.op = some op) : carrierNames car = namesOf car.act op := by
  unfold carrierNames
  rw [hk, hop]

def txNames (tx : SmTx) : List Name := tx.carriers.flatMap carrierNames

/-- Every action of the transaction acts by name. -/
def ActsByName (tx : SmTx) : Prop :=
  ∀ car ∈ tx.carriers, car.kind = .ACTION → (SmOp.ofByte? car.act.op).any byName = true

instance (tx : SmTx) : Decidable (ActsByName tx) :=
  inferInstanceAs (Decidable (∀ car ∈ tx.carriers, car.kind = .ACTION →
    (SmOp.ofByte? car.act.op).any byName = true))

/-! ### One transaction, seen from two ledgers -/

namespace Ledger

variable (sha256 : Bytes → Hash256) {S : Set Name} {L M : Ledger} (tx : SmTx)

theorem dispatch_inStep (h : AlikeOn S L M) {cx : SmTxCtx} (hk : cx.height = L.height) {a : SmAction}
    {op : SmOp} (hop : byName op = true) (hn : ∀ n ∈ namesOf a op, n ∈ S) :
    InStep S L M (L.dispatch sha256 tx cx a op).1 (M.dispatch sha256 tx cx a op).1 ∧
      (L.dispatch sha256 tx cx a op).2 = (M.dispatch sha256 tx cx a op).2 := by
  have hname : namesOf a op = [a.name] → a.name ∈ S := fun he =>
    hn _ (he ▸ List.mem_singleton.mpr rfl)
  cases op with
  | RENEW => cases hop
  | TRANSFER => cases hop
  | RELEASE => cases hop
  | AS => exact ⟨InStep.refl h, rfl⟩
  | TRADE => exact ⟨InStep.refl h, rfl⟩
  | COMMIT => exact ⟨InStep.commit h tx a, rfl⟩
  | CLAIM => exact ⟨InStep.claim h (hname rfl) hk sha256, rfl⟩
  | RENEW_NAME => exact ⟨InStep.renewName h (hname rfl), rfl⟩
  | TRANSFER_NAME => exact ⟨InStep.transferName h (hname rfl) hk, rfl⟩
  | RELEASE_NAME => exact ⟨InStep.releaseName h (hname rfl) hk, rfl⟩
  | SELL => exact ⟨InStep.sell h (hname rfl), rfl⟩
  | SELL_TO => exact ⟨InStep.sellTo h (hname rfl), rfl⟩
  | RESERVE => exact InStep.reserve h (hname rfl) tx
  | SETTLE => exact InStep.buy h (hname rfl) hk tx _ _ _
  | PAY => exact InStep.buy h (hname rfl) hk tx _ _ _

theorem applyCarrier_inStep (h : AlikeOn S L M) {cx : SmTxCtx} (hk : cx.height = L.height)
    {car : SmCarrier} (hby : car.kind = .ACTION → (SmOp.ofByte? car.act.op).any byName = true)
    (hn : ∀ n ∈ carrierNames car, n ∈ S) :
    InStep S L M (applyCarrier sha256 tx (L, cx) car).1 (applyCarrier sha256 tx (M, cx) car).1 ∧
      (applyCarrier sha256 tx (L, cx) car).2 = (applyCarrier sha256 tx (M, cx) car).2 := by
  have hk' : (carCtx cx car).height = L.height := hk
  unfold applyCarrier
  simp only
  cases hkind : car.kind with
  | IGNORE =>
    rw [if_pos (by decide), if_pos (by decide)]
    exact ⟨InStep.refl h, rfl⟩
  | ACTION =>
    rw [if_neg (not_not.mpr rfl), if_neg (not_not.mpr rfl), ← h.clock.height,
      ← h.clock.activationHeight]
    split
    · exact ⟨InStep.refl h, rfl⟩
    · cases hop : SmOp.ofByte? car.act.op with
      | none => exact ⟨InStep.refl h, rfl⟩
      | some op =>
        rw [carrierNames_eq hkind hop] at hn
        have hbyop : byName op = true := by simpa [hop] using hby hkind
        cases op with
        | AS => cases signer tx car.act.asIndex.val <;> exact ⟨InStep.refl h, rfl⟩
        | TRADE =>
          refine ⟨InStep.trade h (hn _ ?_) (hn _ ?_) hk' tx, rfl⟩
          · exact List.mem_cons_self
          · exact List.mem_cons_of_mem _ (List.mem_singleton.mpr rfl)
        | _ =>
          dsimp only
          split
          · exact ⟨InStep.refl h, rfl⟩
          · exact dispatch_inStep sha256 tx h hk' hbyop hn

theorem foldl_applyCarrier_inStep (h : AlikeOn S L M) {cx : SmTxCtx} (hk : cx.height = L.height)
    {cars : List SmCarrier}
    (hby : ∀ car ∈ cars, car.kind = .ACTION → (SmOp.ofByte? car.act.op).any byName = true)
    (hn : ∀ car ∈ cars, ∀ n ∈ carrierNames car, n ∈ S) :
    InStep S L M (cars.foldl (applyCarrier sha256 tx) (L, cx)).1
      (cars.foldl (applyCarrier sha256 tx) (M, cx)).1 := by
  induction cars generalizing L M cx with
  | nil => exact InStep.refl h
  | cons car cars ih =>
    have hstep := applyCarrier_inStep sha256 tx h hk (hby car List.mem_cons_self)
      (hn car List.mem_cons_self)
    have hheight := (applyCarrier_ctx sha256 tx L cx car).1
    rw [List.foldl_cons, List.foldl_cons]
    generalize applyCarrier sha256 tx (L, cx) car = x at hstep hheight
    generalize applyCarrier sha256 tx (M, cx) car = y at hstep
    obtain ⟨L', cx'⟩ := x
    obtain ⟨M', cx''⟩ := y
    obtain ⟨hin, rfl⟩ := hstep
    obtain ⟨C, B, hwrote, -⟩ := hin.wrote
    have hk' : cx'.height = L'.height := hheight.trans (hk.trans hwrote.clock.height.symm)
    exact hin.trans (ih hin.alike hk' (fun c hc => hby c (List.mem_cons_of_mem _ hc))
      fun c hc => hn c (List.mem_cons_of_mem _ hc))

theorem applyTx_inStep (h : AlikeOn S L M) (hby : ActsByName tx) (hn : ∀ n ∈ txNames tx, n ∈ S) :
    InStep S L M (L.applyTx sha256 tx) (M.applyTx sha256 tx) := by
  have hinit : M.initCtx tx = L.initCtx tx := by
    unfold initCtx
    rw [h.clock.height, h.clock.mtp, h.clock.rate]
  unfold applyTx
  rw [hinit]
  exact foldl_applyCarrier_inStep sha256 tx h (L.initCtx_clock tx).1 hby fun car hc n hm =>
    hn n (List.mem_flatMap.mpr ⟨car, hc, hm⟩)

/-- What a transaction by name does to a ledger, it does next to one on other names. -/
theorem applyTx_beside (L : Ledger) {t u : SmTx} (ht : ActsByName t) (hu : ActsByName u)
    (htu : ∀ n ∈ txNames t, n ∉ txNames u) :
    InStep {n | n ∈ txNames t} L (L.applyTx sha256 u) (L.applyTx sha256 t)
      ((L.applyTx sha256 u).applyTx sha256 t) := by
  have hL : AlikeOn {n | n ∈ txNames u} L L :=
    ⟨SameClock.refl L, fun _ _ => rfl, fun _ _ => rfl, rfl⟩
  obtain ⟨D, B, hwrote, -⟩ := (applyTx_inStep sha256 u hL hu fun _ hn => hn).wrote
  exact applyTx_inStep sha256 t (hwrote.alikeOn htu) ht fun _ hn => hn

theorem applyTx_comm (L : Ledger) {t u : SmTx} (ht : ActsByName t) (hu : ActsByName u)
    (htu : ∀ n ∈ txNames t, n ∉ txNames u) :
    (L.applyTx sha256 t).applyTx sha256 u = (L.applyTx sha256 u).applyTx sha256 t :=
  InStep.meet (applyTx_beside sha256 L ht hu htu)
    (applyTx_beside sha256 L hu ht fun n hn hn' => htu n hn' hn) htu

end Ledger

/-! ### The claim scratch has one row per name -/

/-- One win per name. -/
def WinsDistinct (s : SmState) : Prop := RowTable.Distinct SmClaimWin.name s.claimsc

section Wins

variable (s : SmState)

@[simp] theorem claimsc_setRow (r : ℕ) (v : SmNameRow) : (s.setRow r v).claimsc = s.claimsc := rfl

@[simp] theorem claimsc_bumpEv (e : SmEv) : (s.bumpEv e).claimsc = s.claimsc := rfl

@[simp] theorem claimsc_smBumpMutation (who : H160) (h : ℤ) :
    (smBumpMutation s who h).claimsc = s.claimsc := by
  unfold smBumpMutation
  split
  · split <;> rfl
  · rfl

theorem claimsc_foldl {α : Type} {f : SmState → α → SmState}
    (hf : ∀ s x, (f s x).claimsc = s.claimsc) (l : List α) : (l.foldl f s).claimsc = s.claimsc := by
  induction l generalizing s with
  | nil => rfl
  | cons x l ih => exact (ih (f s x)).trans (hf s x)

@[simp] theorem claimsc_smWaterfill (now : ℤ) (rate burn : UInt64) (rows : List ℕ) :
    (smWaterfill s now rate burn rows).claimsc = s.claimsc := by
  have haward : ∀ (s : SmState) (p : ℕ × Cell), (awardRow s p).claimsc = s.claimsc := by
    intro s p
    unfold awardRow
    rw [claimsc_setRow]
    split <;> rfl
  unfold smWaterfill
  split
  · rfl
  · rw [claimsc_foldl _ haward]
    split <;> rfl

theorem claimsc_smOpRenew (cx : SmTxCtx) (a : SmAction) :
    (smOpRenew s cx a).claimsc = s.claimsc := by
  unfold smOpRenew
  dsimp only
  repeat' split
  all_goals simp

theorem claimsc_smOpTransfer (cx : SmTxCtx) (a : SmAction) :
    (smOpTransfer s cx a).claimsc = s.claimsc := by
  have hgive : ∀ (s : SmState) (r : ℕ), (giveRow a.addr s r).claimsc = s.claimsc := by
    intro s r
    unfold giveRow
    split <;> rfl
  unfold smOpTransfer
  dsimp only
  repeat' split
  all_goals simp [claimsc_foldl _ hgive]

theorem claimsc_smOpRelease (cx : SmTxCtx) (a : SmAction) :
    (smOpRelease s cx a).claimsc = s.claimsc := by
  have hrelease : ∀ (s : SmState) (n : Name), (releaseOne s n).claimsc = s.claimsc := by
    intro s n
    unfold releaseOne
    split <;> rfl
  unfold smOpRelease
  dsimp only
  repeat' split
  all_goals simp [claimsc_foldl _ hrelease]

theorem claimsc_byName (cx : SmTxCtx) (a : SmAction) :
    (smOpRenewName s cx a).claimsc = s.claimsc ∧ (smOpTransferName s cx a).claimsc = s.claimsc ∧
      (smOpReleaseName s cx a).claimsc = s.claimsc := by
  unfold smOpRenewName smOpTransferName smOpReleaseName
  cases findMine s cx.actor a with
  | none => exact ⟨rfl, rfl, rfl⟩
  | some r =>
    dsimp only
    refine ⟨claimsc_smWaterfill .., ?_, ?_⟩
    · split <;> simp
    · split
      · rfl
      · rw [claimsc_smBumpMutation]
        rfl

theorem claimsc_market (tx : SmTx) (cx : SmTxCtx) (a : SmAction) :
    (smOpSell s cx a).claimsc = s.claimsc ∧ (smOpSellTo s cx a).claimsc = s.claimsc ∧
      (smOpReserve tx s cx a).1.claimsc = s.claimsc ∧
      (smOpSettle tx s cx a).1.claimsc = s.claimsc ∧ (smOpPay tx s cx a).1.claimsc = s.claimsc := by
  unfold smOpSell smOpSellTo smOpReserve smOpSettle smOpPay
  dsimp only
  refine ⟨?_, ?_, ?_, ?_, ?_⟩
  all_goals repeat' split
  all_goals simp

theorem claimsc_smOpTrade (tx : SmTx) (cx : SmTxCtx) (a : SmAction) :
    (smOpTrade tx s cx a).claimsc = s.claimsc := by
  unfold smOpTrade
  repeat' split
  all_goals simp

variable {s}

theorem WinsDistinct.of_eq {s' : SmState} (h : WinsDistinct s) (he : s'.claimsc = s.claimsc) :
    WinsDistinct s' := by
  unfold WinsDistinct
  rw [he]
  exact h

theorem WinsDistinct.setScratch (h : WinsDistinct s) (n : Name) (ch : ℤ) (ti : UInt32)
    (owner : H160) : WinsDistinct (setScratch s n ch ti owner) := by
  unfold Fold.setScratch
  cases hi : findScratch s n with
  | none => exact RowTable.distinct_append _ h ((RowTable.indexOf?_none _).mp hi)
  | some i =>
    obtain ⟨w, hw, hname, -⟩ := RowTable.indexOf?_some _ hi
    exact RowTable.distinct_set _ h hw hname.symm

variable (sha256 : Bytes → Hash256)

/-- The last steps of a mint. -/
theorem WinsDistinct.mint {s' : SmState} (h : WinsDistinct s) (he : s'.claimsc = s.claimsc)
    (cx : SmTxCtx) (r : ℕ) (n : Name) (ch : ℤ) (ti : UInt32) (e : SmEv) :
    WinsDistinct ((Fold.setScratch (smBumpMutation (smWaterfill s' cx.mtp cx.rate cx.carValue [r])
      cx.actor cx.height) n ch ti cx.actor).bumpEv e) := by
  have hwins : WinsDistinct (smBumpMutation (smWaterfill s' cx.mtp cx.rate cx.carValue [r])
      cx.actor cx.height) :=
    h.of_eq (by rw [claimsc_smBumpMutation, claimsc_smWaterfill, he])
  exact (hwins.setScratch n ch ti cx.actor).of_eq (claimsc_bumpEv _ e)

theorem WinsDistinct.smOpClaim (h : WinsDistinct s) (cx : SmTxCtx) (a : SmAction) :
    WinsDistinct (smOpClaim sha256 s cx a) := by
  unfold Fold.smOpClaim
  split
  · exact h
  · dsimp only
    split
    · exact h
    · split
      · exact h
      · split
        · split
          · exact h
          · split
            · exact h
            · split
              · exact h
              · refine h.mint ?_ cx _ _ _ _ _
                rfl
        · refine h.mint ?_ cx _ _ _ _ _
          rfl

theorem WinsDistinct.dispatch (h : WinsDistinct s) (tx : SmTx) (cx : SmTxCtx) (a : SmAction)
    (op : SmOp) : WinsDistinct (dispatch sha256 tx s cx a op).1 := by
  have hbyName := claimsc_byName s cx a
  have hmarket := claimsc_market s tx cx a
  cases op with
  | COMMIT => exact h
  | AS => exact h
  | TRADE => exact h
  | CLAIM => exact h.smOpClaim sha256 cx a
  | RENEW => exact h.of_eq (claimsc_smOpRenew s cx a)
  | TRANSFER => exact h.of_eq (claimsc_smOpTransfer s cx a)
  | RELEASE => exact h.of_eq (claimsc_smOpRelease s cx a)
  | RENEW_NAME => exact h.of_eq hbyName.1
  | TRANSFER_NAME => exact h.of_eq hbyName.2.1
  | RELEASE_NAME => exact h.of_eq hbyName.2.2
  | SELL => exact h.of_eq hmarket.1
  | SELL_TO => exact h.of_eq hmarket.2.1
  | RESERVE => exact h.of_eq hmarket.2.2.1
  | SETTLE => exact h.of_eq hmarket.2.2.2.1
  | PAY => exact h.of_eq hmarket.2.2.2.2

theorem WinsDistinct.applyCarrier (h : WinsDistinct s) (tx : SmTx) (cx : SmTxCtx)
    (car : SmCarrier) : WinsDistinct (applyCarrier sha256 tx (s, cx) car).1 := by
  unfold Fold.applyCarrier
  simp only
  split
  · exact h
  · split
    · exact h
    · cases SmOp.ofByte? car.act.op with
      | none => exact h
      | some op =>
        cases op with
        | AS => cases signer tx car.act.asIndex.val <;> exact h
        | TRADE => exact h.of_eq (claimsc_smOpTrade s tx _ _)
        | _ =>
          dsimp only
          split
          · exact h
          · exact h.dispatch sha256 tx _ _ _

theorem WinsDistinct.smApplyTx (h : WinsDistinct s) (tx : SmTx) :
    WinsDistinct (smApplyTx sha256 s tx) := by
  have hrun : ∀ (cars : List SmCarrier) (sc : SmState × SmTxCtx), WinsDistinct sc.1 →
      WinsDistinct (cars.foldl (Fold.applyCarrier sha256 tx) sc).1 := by
    intro cars
    induction cars with
    | nil => exact fun _ hsc => hsc
    | cons car cars ih => exact fun sc hsc => ih _ (hsc.applyCarrier sha256 tx sc.2 car)
  exact hrun tx.carriers (s, initCtx s tx) h

/-- The scratch table starts empty in every block. -/
theorem winsDistinct_foldBlock (s : SmState) (b : FoldBlock) :
    WinsDistinct (foldBlock sha256 s b) := by
  have hrun : ∀ (txs : List SmTx) (s : SmState), WinsDistinct s →
      WinsDistinct (txs.foldl (smApplyTx sha256) s) := by
    intro txs
    induction txs with
    | nil => exact fun _ hs => hs
    | cons tx txs ih => exact fun s hs => ih _ (hs.smApplyTx sha256 tx)
  exact hrun b.txs _ (RowTable.distinct_nil SmClaimWin.name)

end Wins

/-! ### The two orders -/

theorem win_ext {w w' : SmClaimWin} (hn : w.name = w'.name) (hw : win w = win w') : w = w' := by
  cases w
  cases w'
  simp only [win, Win.mk.injEq] at hw
  simp_all

/-- Inside a block, two transactions by name with no name in common give the same rows of every
table in either order. -/
theorem byName_comm (sha256 : Bytes → Hash256) (activationHeight : UInt64) (bs : List FoldBlock)
    (b : FoldBlock) (t u : SmTx) (ht : ActsByName t) (hu : ActsByName u)
    (htu : ∀ n ∈ txNames t, n ∉ txNames u) :
    let s := foldBlock sha256 (foldBlocks sha256 (smNew activationHeight) bs) b
    let stu := smApplyTx sha256 (smApplyTx sha256 s t) u
    let sut := smApplyTx sha256 (smApplyTx sha256 s u) t
    SameRows stu sut ∧ stu.claimsc.Perm sut.claimsc := by
  intro s stu sut
  have hs := ((wellKeyed_smNew activationHeight).tracks.foldBlocks sha256 bs).foldBlock sha256 b
  have hstu := (hs.smApplyTx sha256 t).smApplyTx sha256 u
  have hsut := (hs.smApplyTx sha256 u).smApplyTx sha256 t
  have hobs : obs stu = obs sut := by
    rw [hstu.obs_eq, hsut.obs_eq]
    exact Ledger.applyTx_comm sha256 _ ht hu htu
  have hwins : WinsDistinct s := winsDistinct_foldBlock sha256 _ b
  constructor
  · refine SameTables.sameRows hstu.keyed hsut.keyed ?_
    rw [hobs]
    exact SameTables.mk rfl rfl rfl rfl
  · refine RowTable.perm_of_lookup SmClaimWin.name
      ((hwins.smApplyTx sha256 t).smApplyTx sha256 u)
      ((hwins.smApplyTx sha256 u).smApplyTx sha256 t) fun n => ?_
    exact RowTable.lookup_of_map_eq SmClaimWin.name win_ext (congrFun (congrArg Ledger.scratch hobs) n)

/-- A claim beside a commit to the same name. -/
theorem byName_comm_sample :
    let s := foldBlock sampleSha256
      (foldBlocks sampleSha256 (smNew 0) [⟨10, 1000, 28, [sampleCommit]⟩]) ⟨11, 2000, 28, []⟩
    let stu := smApplyTx sampleSha256 (smApplyTx sampleSha256 s sampleClaim) sampleCommit
    let sut := smApplyTx sampleSha256 (smApplyTx sampleSha256 s sampleCommit) sampleClaim
    SameRows stu sut ∧ stu.claimsc.Perm sut.claimsc :=
  byName_comm sampleSha256 0 [⟨10, 1000, 28, [sampleCommit]⟩] ⟨11, 2000, 28, []⟩ sampleClaim
    sampleCommit (by decide) (by decide) (by decide)

end NamespaceIndexer
