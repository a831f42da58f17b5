import NamespaceIndexer.Daemon.Chain

/-!
# Lazy attribution (`adapter.c`)

`idx_adapt_tx` attributes `vin[0]` and the inputs its pre-scan saw a carrier
name; the other slots stay zero. Two transactions that agree on these inputs
fold alike, whatever stands in the others.
-/

namespace NamespaceIndexer.Daemon

open Fold

variable (sha256 : Bytes → Hash256) (idxAttribute : Bytes → ℕ → Option (H160 × Byte))

/-- The inputs a walk over these carriers may look at. -/
def Readable (carriers : List SmCarrier) (k : ℕ) : Prop :=
  k = 0 ∨ ∃ car ∈ carriers, names car.act k

/-- The same transaction, but for inputs no carrier names. -/
structure ReadAlike (t u : SmTx) : Prop where
  txindex : t.txindex = u.txindex
  carriers : t.carriers = u.carriers
  outs : t.outs = u.outs
  inputs : ∀ k, Readable t.carriers k → t.inputs[k]? = u.inputs[k]?

theorem ReadAlike.signer_eq {t u : SmTx} (h : ReadAlike t u) {k : ℕ} (hk : Readable t.carriers k) :
    signer t k = signer u k := by
  unfold signer
  rw [h.inputs k hk]

theorem ReadAlike.initCtx_eq {t u : SmTx} (h : ReadAlike t u) (s : SmState) :
    initCtx s t = initCtx s u := by
  have h0 : signer t 0 = signer u 0 := h.signer_eq (Or.inl rfl)
  simp only [initCtx, h0, h.txindex, h.outs]

/-- An output is looked for among the outputs only. -/
theorem ReadAlike.consume_eq {t u : SmTx} (h : ReadAlike t u) (cx : SmTxCtx) (dest : H160)
    (type : Byte) (amount : UInt64) :
    smConsumeOutput t cx dest type amount = smConsumeOutput u cx dest type amount := by
  have hp : payable t cx.outConsumed dest type amount = payable u cx.outConsumed dest type amount := by
    funext i
    simp only [payable, h.outs]
  have hb : bestOutput t = bestOutput u := by
    funext best i
    simp only [bestOutput, h.outs]
  simp only [smConsumeOutput, findOutput, hp, hb, h.outs]

theorem ReadAlike.dispatch_eq {t u : SmTx} (h : ReadAlike t u) (s : SmState) (cx : SmTxCtx)
    (a : SmAction) (op : SmOp) : dispatch sha256 t s cx a op = dispatch sha256 u s cx a op := by
  cases op with
  | COMMIT => simp only [dispatch, h.txindex]
  | RESERVE => simp only [dispatch, smOpReserve, h.consume_eq]
  | SETTLE => simp only [dispatch, smOpSettle, h.consume_eq]
  | PAY => simp only [dispatch, smOpPay, h.consume_eq]
  | _ => rfl

/-- One iteration of the carrier loop reads no input but those its own carrier names. -/
theorem ReadAlike.applyCarrier_eq {t u : SmTx} (h : ReadAlike t u) (sc : SmState × SmTxCtx)
    {car : SmCarrier} (hcar : car ∈ t.carriers) :
    applyCarrier sha256 t sc car = applyCarrier sha256 u sc car := by
  have hread : ∀ k, names car.act k → Readable t.carriers k :=
    fun k hk => Or.inr ⟨car, hcar, hk⟩
  obtain ⟨s, cx⟩ := sc
  simp only [applyCarrier]
  split
  · rfl
  · split
    · rfl
    · cases hop : SmOp.ofByte? car.act.op with
      | none => rfl
      | some op =>
        cases op with
        | AS =>
          have hs : signer t car.act.asIndex.val = signer u car.act.asIndex.val :=
            h.signer_eq (hread _ (by simp [names, hop]))
          simp only [hs]
        | TRADE =>
          have hA : t.inputs[car.act.idxA.val]? = u.inputs[car.act.idxA.val]? :=
            h.inputs _ (hread _ (by simp [names, hop]))
          have hB : t.inputs[car.act.idxB.val]? = u.inputs[car.act.idxB.val]? :=
            h.inputs _ (hread _ (by simp [names, hop]))
          simp only [smOpTrade, hA, hB]
        | _ => simp only [h.dispatch_eq sha256]

/-- The walk over any part of the carriers. -/
theorem ReadAlike.walk_eq {t u : SmTx} (h : ReadAlike t u) (cars : List SmCarrier) :
    (∀ car ∈ cars, car ∈ t.carriers) → ∀ sc : SmState × SmTxCtx,
      cars.foldl (applyCarrier sha256 t) sc = cars.foldl (applyCarrier sha256 u) sc := by
  induction cars with
  | nil => intros; rfl
  | cons car cars ih =>
    intro hmem sc
    have hcar : car ∈ t.carriers := hmem car List.mem_cons_self
    show cars.foldl _ (applyCarrier sha256 t sc car) = cars.foldl _ (applyCarrier sha256 u sc car)
    rw [h.applyCarrier_eq sha256 sc hcar]
    exact ih (fun c hc => hmem c (List.mem_cons_of_mem _ hc)) _

theorem ReadAlike.smApplyTx_eq {t u : SmTx} (h : ReadAlike t u) (s : SmState) :
    smApplyTx sha256 s t = smApplyTx sha256 s u := by
  unfold smApplyTx
  rw [h.walk_eq sha256 t.carriers (fun _ hc => hc), h.initCtx_eq, h.carriers]

/-! ### The eager adapter -/

/-- The input slot `k`, attributed whether or not a carrier names it. -/
def eagerSlot (tx : IdxTx) (k : ℕ) : SmInput :=
  match idxAttribute tx.raw k with
  | some (identity, type) => ⟨identity, type, true⟩
  | none => ⟨zeros 20, 0, false⟩

/-- The transaction with every input attributed. -/
def eagerTx (tx : IdxTx) (txindex : UInt32) : SmTx where
  txindex := txindex
  inputs := (List.range tx.ins.length).map (eagerSlot idxAttribute tx)
  carriers := tx.outs.filterMap outCarrier
  outs := tx.outs.filterMap outPayee

/-- `idx_adapt_tx` with its call of `sm_apply_tx`. -/
def idxAdaptApply (s : SmState) (tx : IdxTx) (txindex : UInt32) : SmState :=
  match idxAdaptTx idxAttribute tx txindex with
  | none => s
  | some t => smApplyTx sha256 s t

theorem inputSlot_of_readable (tx : IdxTx) {carriers : List SmCarrier} {k : ℕ}
    (hk : Readable carriers k) :
    inputSlot idxAttribute tx carriers k = eagerSlot idxAttribute tx k := by
  have hslot : ¬(k ≠ 0 ∧ (!carriers.any fun car => names car.act k) = true) := by
    intro ⟨hne, hany⟩
    rcases hk with h0 | ⟨car, hcar, hn⟩
    · exact hne h0
    · have hin : carriers.any (fun car => names car.act k) = true :=
        List.any_eq_true.mpr ⟨car, hcar, hn⟩
      simp [hin] at hany
  unfold inputSlot eagerSlot
  exact if_neg hslot

theorem eager_readAlike (tx : IdxTx) (txindex : UInt32) {t : SmTx}
    (ht : idxAdaptTx idxAttribute tx txindex = some t) :
    ReadAlike t (eagerTx idxAttribute tx txindex) := by
  simp only [idxAdaptTx] at ht
  split at ht
  · cases ht
  · cases ht
    refine ⟨rfl, rfl, rfl, ?_⟩
    intro k hk
    have hslot := inputSlot_of_readable idxAttribute tx hk
    simp only [eagerTx, List.getElem?_map]
    cases hr : (List.range tx.ins.length)[k]? with
    | none => rfl
    | some j =>
      have hj : j = k := by
        obtain ⟨hlt, hget⟩ := List.getElem?_eq_some_iff.mp hr
        simpa using hget.symm
      subst hj
      simp only [Option.map_some, hslot]

/-- Attributing every input instead changes nothing in the state. -/
theorem idxAdaptApply_eq_eager (s : SmState) (tx : IdxTx) (txindex : UInt32) :
    idxAdaptApply sha256 idxAttribute s tx txindex =
      smApplyTx sha256 s (eagerTx idxAttribute tx txindex) := by
  unfold idxAdaptApply
  cases ht : idxAdaptTx idxAttribute tx txindex with
  | some t => exact (eager_readAlike idxAttribute tx txindex ht).smApplyTx_eq sha256 s
  | none =>
    -- no carrier at all: the walk is over the empty list
    have hnil : tx.outs.filterMap outCarrier = [] := by
      simp only [idxAdaptTx] at ht
      split at ht
      · rename_i he
        exact List.isEmpty_iff.mp he
      · cases ht
    have hcars : (eagerTx idxAttribute tx txindex).carriers = [] := hnil
    simp [smApplyTx, hcars]

/-- The transactions of a block folded one after another, each through the adapter. -/
theorem foldl_adaptTxs (txs : List IdxTx) (s : SmState) :
    (adaptTxs idxAttribute txs).foldl (smApplyTx sha256) s =
      (txs.zipIdx.map fun t => eagerTx idxAttribute t.1 (UInt32.ofNat t.2)).foldl
        (smApplyTx sha256) s := by
  unfold adaptTxs
  induction txs.zipIdx generalizing s with
  | nil => rfl
  | cons t ts ih =>
    have h1 := idxAdaptApply_eq_eager sha256 idxAttribute s t.1 (UInt32.ofNat t.2)
    simp only [List.map_cons, List.foldl_cons, ← h1, ← ih]
    unfold idxAdaptApply
    cases ht : idxAdaptTx idxAttribute t.1 (UInt32.ofNat t.2) with
    | none => simp [ht]
    | some u => simp [ht]

end NamespaceIndexer.Daemon
