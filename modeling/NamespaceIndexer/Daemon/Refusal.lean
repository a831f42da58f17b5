import NamespaceIndexer.Daemon.Tables
import NamespaceIndexer.Daemon.Replay
import NamespaceIndexer.Ledger.Overdue

/-!
# Refused blocks

`connect_block` folds while it parses. What a refused block has left behind by then.
-/

namespace NamespaceIndexer.Daemon

open Fold Lib

/-! ### Loops that leave their start alone -/

section Loops

variable {σ τ α : Type} {r : τ → τ → Prop} {f : σ → α → σ} {π : σ → τ}

/-- Where a step reads only `π` of its state, so does a loop. -/
theorem foldl_reads (hf : ∀ {s s'} a, π s = π s' → π (f s a) = π (f s' a)) (l : List α) {s s' : σ}
    (h : π s = π s') : π (l.foldl f s) = π (l.foldl f s') := by
  induction l generalizing s s' with
  | nil => exact h
  | cons a l ih => exact ih (hf a h)

/-- Each step goes up in an order, so a loop ends where it began only if no step moves it. -/
theorem foldl_still (hrefl : ∀ t, r t t) (htrans : ∀ {t t' t''}, r t t' → r t' t'' → r t t'')
    (hanti : ∀ {t t'}, r t t' → r t' t → t' = t) (hup : ∀ s a, r (π s) (π (f s a)))
    (hf : ∀ {s s'} a, π s = π s' → π (f s a) = π (f s' a)) (l : List α) (s : σ) :
    r (π s) (π (l.foldl f s)) ∧ (π (l.foldl f s) = π s ↔ ∀ a ∈ l, π (f s a) = π s) := by
  induction l generalizing s with
  | nil => exact ⟨hrefl _, fun _ a ha => absurd ha List.not_mem_nil, fun _ => rfl⟩
  | cons a l ih =>
    obtain ⟨hle, hiff⟩ := ih (f s a)
    refine ⟨htrans (hup s a) hle, ?_⟩
    rw [List.foldl_cons, List.forall_mem_cons]
    constructor
    · intro hend
      rw [hend] at hle
      have hstep : π (f s a) = π s := hanti (hup s a) hle
      refine ⟨hstep, ?_⟩
      intro b hb
      rw [← hf b hstep, hiff.mp (hend.trans hstep.symm) b hb, hstep]
    · rintro ⟨hstep, hrest⟩
      rw [foldl_reads hf l hstep]
      exact ((ih s).2).mpr hrest

end Loops

/-! ### The wallet -/

section Wallet

variable {height : ℤ} {utxos utxos' utxos'' : List Utxo}

/-- A row, or the row spent at `height`. -/
def MarkedAt (height : ℤ) (u u' : Utxo) : Prop :=
  u' = u ∨ u' = { u with spentHeight := some height }

theorem MarkedAt.trans {u u' u'' : Utxo} (h : MarkedAt height u u') (h' : MarkedAt height u' u'') :
    MarkedAt height u u'' := by
  rcases h with rfl | rfl
  · exact h'
  · rcases h' with rfl | rfl
    · exact Or.inr rfl
    · exact Or.inr rfl

theorem MarkedAt.antisymm {u u' : Utxo} (h : MarkedAt height u u') (h' : MarkedAt height u' u) :
    u' = u := by
  rcases h with rfl | rfl
  · rfl
  · rcases h' with h' | h'
    · exact h'.symm
    · exact h'.symm

/-- Rows have been marked spent at `height`, and rows have been added. -/
def Grown (height : ℤ) (utxos utxos' : List Utxo) : Prop :=
  ∀ (i : ℕ) (u : Utxo), utxos[i]? = some u → ∃ u', utxos'[i]? = some u' ∧ MarkedAt height u u'

theorem Grown.refl (utxos : List Utxo) : Grown height utxos utxos :=
  fun _ u hu => ⟨u, hu, Or.inl rfl⟩

theorem Grown.trans (h : Grown height utxos utxos') (h' : Grown height utxos' utxos'') :
    Grown height utxos utxos'' := by
  intro i u hu
  obtain ⟨u', hu', hmark⟩ := h i u hu
  obtain ⟨u'', hu'', hmark'⟩ := h' i u' hu'
  exact ⟨u'', hu'', hmark.trans hmark'⟩

theorem Grown.antisymm (h : Grown height utxos utxos') (h' : Grown height utxos' utxos) :
    utxos' = utxos := by
  apply List.ext_getElem?
  intro i
  cases hu : utxos[i]? with
  | some u =>
    obtain ⟨u', hu', hmark⟩ := h i u hu
    obtain ⟨u0, hu0, hmark'⟩ := h' i u' hu'
    rw [hu, Option.some_inj] at hu0
    subst hu0
    rw [hu', hmark.antisymm hmark']
  | none =>
    cases hu' : utxos'[i]? with
    | none => rfl
    | some u' =>
      obtain ⟨u0, hu0, _⟩ := h' i u' hu'
      rw [hu] at hu0
      cases hu0

theorem grown_put (utxos : List Utxo) (u : Utxo) : Grown height utxos (idxDbUtxoPut utxos u) := by
  intro i u0 hu0
  refine ⟨u0, ?_, Or.inl rfl⟩
  unfold idxDbUtxoPut
  split
  · exact hu0
  · rw [List.getElem?_append_left (List.getElem?_eq_some_iff.mp hu0).1]
    exact hu0

theorem grown_spend (utxos : List Utxo) (p : OutPoint) :
    Grown height utxos (idxDbUtxoSpend utxos p height).1 := by
  intro i u hu
  refine ⟨_, (List.getElem?_map ..).trans (congrArg _ hu), ?_⟩
  dsimp only
  split
  · exact Or.inr rfl
  · exact Or.inl rfl

theorem put_still (utxos : List Utxo) (u : Utxo) :
    idxDbUtxoPut utxos u = utxos ↔ u.point ∈ utxos.map Utxo.point := by
  unfold idxDbUtxoPut
  split
  · rename_i hmem
    exact ⟨fun _ => hmem, fun _ => rfl⟩
  · rename_i hmem
    exact ⟨fun h => absurd h (by simp), fun h => absurd h hmem⟩

theorem spend_still (utxos : List Utxo) (p : OutPoint) :
    (idxDbUtxoSpend utxos p height).1 = utxos ↔
      ∀ u ∈ utxos, u.point = p → u.spentHeight = some height := by
  unfold idxDbUtxoSpend
  conv_lhs => rw [← List.map_id utxos, List.map_map, List.map_inj_left]
  apply forall₂_congr
  intro u _
  show (if u.point = p then { u with spentHeight := some height } else u) = u ↔ _
  split
  · rename_i hp
    constructor
    · intro h _
      rw [← h]
    · intro h
      rw [← h hp]
  · rename_i hp
    exact ⟨fun _ h => absurd h hp, fun _ => rfl⟩

/-- The transactions pay and spend nothing that the table has not down already. -/
def WalletKnows (watch : List H160) (height : ℤ) (utxos : List Utxo) (txs : List IdxTx) : Prop :=
  watch = [] ∨ ∀ tx ∈ txs,
    (∀ o ∈ tx.outs, (watchedPayee watch o).isSome → ⟨tx.txid, o.vout⟩ ∈ utxos.map Utxo.point) ∧
    ∀ i ∈ tx.ins, ∀ u ∈ utxos, spentPoint i = some u.point → u.spentHeight = some height

section Loops

variable {watch : List H160}

theorem watchOut_reads {txid : Hash256} {w w' : List Utxo × Bool} (o : IdxOut) (h : w.1 = w'.1) :
    (watchOut watch height txid w o).1 = (watchOut watch height txid w' o).1 := by
  unfold watchOut
  cases watchedPayee watch o with
  | none => exact h
  | some h160 => exact congrArg (idxDbUtxoPut · _) h

theorem watchIn_reads {w w' : List Utxo × Bool} (i : IdxIn) (h : w.1 = w'.1) :
    (watchIn height w i).1 = (watchIn height w' i).1 := by
  unfold watchIn
  cases spentPoint i with
  | none => exact h
  | some p => exact congrArg (fun utxos => (idxDbUtxoSpend utxos p height).1) h

theorem watchTx_reads {w w' : List Utxo × Bool} (tx : IdxTx) (h : w.1 = w'.1) :
    (watchTx watch height w tx).1 = (watchTx watch height w' tx).1 := by
  unfold watchTx
  split
  · exact h
  · exact foldl_reads watchIn_reads tx.ins (foldl_reads watchOut_reads tx.outs h)

variable (height watch) (w : List Utxo × Bool)

theorem watchOut_still (txid : Hash256) (o : IdxOut) :
    Grown height w.1 (watchOut watch height txid w o).1 ∧
      ((watchOut watch height txid w o).1 = w.1 ↔
        ((watchedPayee watch o).isSome → ⟨txid, o.vout⟩ ∈ w.1.map Utxo.point)) := by
  unfold watchOut
  cases watchedPayee watch o with
  | none => exact ⟨Grown.refl _, fun _ h => absurd h (by simp), fun _ => rfl⟩
  | some h160 =>
    refine ⟨grown_put _ _, (put_still _ _).trans ?_⟩
    exact ⟨fun h _ => h, fun h => h rfl⟩

theorem watchIn_still (i : IdxIn) :
    Grown height w.1 (watchIn height w i).1 ∧
      ((watchIn height w i).1 = w.1 ↔
        ∀ u ∈ w.1, spentPoint i = some u.point → u.spentHeight = some height) := by
  unfold watchIn
  cases spentPoint i with
  | none => exact ⟨Grown.refl _, fun _ _ _ h => absurd h (by simp), fun _ => rfl⟩
  | some p =>
    refine ⟨grown_spend _ _, (spend_still _ _).trans ?_⟩
    apply forall₂_congr
    intro u _
    rw [Option.some_inj, eq_comm]

theorem watchOuts_still (txid : Hash256) (outs : List IdxOut) :
    Grown height w.1 (outs.foldl (watchOut watch height txid) w).1 ∧
      ((outs.foldl (watchOut watch height txid) w).1 = w.1 ↔
        ∀ o ∈ outs, (watchedPayee watch o).isSome → ⟨txid, o.vout⟩ ∈ w.1.map Utxo.point) := by
  obtain ⟨hup, hiff⟩ := foldl_still (π := Prod.fst) Grown.refl Grown.trans Grown.antisymm
    (fun w o => (watchOut_still height watch w txid o).1)
    watchOut_reads outs w
  exact ⟨hup, hiff.trans (forall₂_congr fun o _ => (watchOut_still height watch w txid o).2)⟩

theorem watchIns_still (ins : List IdxIn) :
    Grown height w.1 (ins.foldl (watchIn height) w).1 ∧
      ((ins.foldl (watchIn height) w).1 = w.1 ↔
        ∀ i ∈ ins, ∀ u ∈ w.1, spentPoint i = some u.point → u.spentHeight = some height) := by
  obtain ⟨hup, hiff⟩ := foldl_still (π := Prod.fst) Grown.refl Grown.trans Grown.antisymm
    (fun w i => (watchIn_still height w i).1) watchIn_reads ins w
  exact ⟨hup, hiff.trans (forall₂_congr fun i _ => (watchIn_still height w i).2)⟩

theorem watchTx_still (tx : IdxTx) :
    Grown height w.1 (watchTx watch height w tx).1 ∧
      ((watchTx watch height w tx).1 = w.1 ↔ WalletKnows watch height w.1 [tx]) := by
  unfold watchTx WalletKnows
  rw [List.forall_mem_singleton]
  by_cases hempty : watch.isEmpty
  · rw [if_pos hempty]
    exact ⟨Grown.refl _, fun _ => Or.inl (List.isEmpty_iff.mp hempty), fun _ => rfl⟩
  · rw [if_neg hempty, or_iff_right fun h => hempty (List.isEmpty_iff.mpr h)]
    obtain ⟨houts, hout⟩ := watchOuts_still height watch w tx.txid tx.outs
    obtain ⟨hins, hin⟩ := watchIns_still height
      (tx.outs.foldl (watchOut watch height tx.txid) w) tx.ins
    refine ⟨houts.trans hins, ?_⟩
    constructor
    · intro hend
      rw [hend] at hins
      have hmid := houts.antisymm hins
      rw [hend, hmid] at hin
      exact ⟨hout.mp hmid, hin.mp rfl⟩
    · rintro ⟨ho, hi⟩
      have hmid := hout.mpr ho
      rw [hmid] at hin
      exact hin.mpr hi

/-- A block leaves the table alone where the wallet knows what it brings, and nowhere else. -/
theorem watchBlock_still (utxos : List Utxo) (txs : List IdxTx) :
    (watchBlock watch height utxos txs).1 = utxos ↔ WalletKnows watch height utxos txs := by
  obtain ⟨_, hiff⟩ := foldl_still (π := Prod.fst) Grown.refl Grown.trans Grown.antisymm
    (fun w tx => (watchTx_still height watch w tx).1) watchTx_reads txs
    (utxos, false)
  refine hiff.trans ((forall₂_congr fun tx _ => (watchTx_still height watch _ tx).2).trans ?_)
  unfold WalletKnows
  simp only [List.forall_mem_singleton]
  by_cases hnil : watch = []
  · exact ⟨fun _ => Or.inl hnil, fun _ _ _ => Or.inl hnil⟩
  · simp only [or_iff_right hnil]

end Loops

end Wallet

/-! ### A refusal -/

section Refusal

variable (sha256 : Bytes → Hash256) (idxAttribute : Bytes → ℕ → Option (H160 × Byte))
variable (watch : List H160) (s : SmState) (oracle : OracleFeed) (t : Tables) (height : ℤ) (raw : Bytes)

/-- If the block is refused, the state, the feed and the tables are as before. -/
def LeavesNoTrace : Prop :=
  let o := connectTables sha256 idxAttribute watch s oracle t height raw
  o.ok = false →
    (o.s.names = s.names ∧ o.s.commits = s.commits ∧ o.s.muts = s.muts ∧
      o.s.curHeight = s.curHeight) ∧ o.oracle = oracle ∧ o.tables = t

/-- What a refused block leaves behind are the height, the fold of what parsed, and the wallet rows. -/
theorem leavesNoTrace_split :
    let s' := foldBlock sha256 s (blockAt sha256 idxAttribute oracle height raw)
    LeavesNoTrace sha256 idxAttribute watch s oracle t height raw ↔
      Parses sha256 raw ∨ height = s.curHeight ∧
        (s'.names = s.names ∧ s'.commits = s.commits ∧ s'.muts = s.muts) ∧
        WalletKnows watch height t.utxos (idxParseBlock sha256 raw).1 := by
  have hclock := foldBlock_curHeight sha256 s
    (blockAt sha256 idxAttribute oracle height raw)
  rw [← watchBlock_still]
  unfold LeavesNoTrace Parses connectTables connectBlock
  dsimp only
  cases hparse : (idxParseBlock sha256 raw).2 with
  | some m => simp
  | none =>
    -- the only table that a refused block can have changed
    have htables : ∀ utxos, ({ t with utxos, db := t.db.writes [] } : Tables) = t ↔
        utxos = t.utxos := by
      intro utxos
      exact ⟨fun h => congrArg Tables.utxos h, fun h => h ▸ rfl⟩
    have hheight : (blockAt sha256 idxAttribute oracle height raw).height = height := rfl
    rw [hheight] at hclock
    simp only [Bool.false_eq_true, if_false, forall_const, Option.isSome_none, false_or, hclock,
      htables, true_and]
    tauto

/-- A block that parses is not refused. Any other one sets the clock, and leaves behind what was
folded and watched before the parser failed: nothing, where the state and the wallet rest. What fell
due, what was committed and what the wallet did not know are such traces. -/
theorem refused_leaves_no_trace :
    (Parses sha256 raw ∨ height = s.curHeight ∧
          BlockRests sha256 s (blockAt sha256 idxAttribute oracle height raw) ∧
          WalletKnows watch height t.utxos (idxParseBlock sha256 raw).1 →
        LeavesNoTrace sha256 idxAttribute watch s oracle t height raw) ∧
      (LeavesNoTrace sha256 idxAttribute watch s oracle t height raw →
        Parses sha256 raw ∨ height = s.curHeight ∧
          (WellKeyed s → NothingDue s (blockAt sha256 idxAttribute oracle height raw).mtp ∧
            ∀ c, ¬ CommitsIn sha256 s (blockAt sha256 idxAttribute oracle height raw) c) ∧
          WalletKnows watch height t.utxos (idxParseBlock sha256 raw).1) := by
  have hiff := leavesNoTrace_split sha256 idxAttribute watch s oracle t height raw
  constructor
  · rintro (hp | ⟨hheight, hrests, hknows⟩)
    · exact hiff.mpr (Or.inl hp)
    · obtain ⟨ev, hfold⟩ := foldBlock_rests hrests
      refine hiff.mpr (Or.inr ⟨hheight, ?_, hknows⟩)
      rw [hfold]
      exact ⟨rfl, rfl, rfl⟩
  · intro h
    rcases hiff.mp h with hp | ⟨hheight, ⟨hnames, hcommits, -⟩, hknows⟩
    · exact Or.inl hp
    · refine Or.inr ⟨hheight, fun hk => ?_, hknows⟩
      have hdue : NothingDue s (blockAt sha256 idxAttribute oracle height raw).mtp := by
        have hafter := nothingDue_foldBlock sha256 hk
          (blockAt sha256 idxAttribute oracle height raw)
        unfold NothingDue at hafter ⊢
        rwa [hnames, hcommits] at hafter
      refine ⟨hdue, fun c hc => ?_⟩
      have hlonger := hc.grows hk hdue
      rw [hcommits] at hlonger
      exact lt_irrefl _ hlonger

end Refusal

/-- A refused block that holds one of its two transactions, on a state that is at its height already;
the transaction is an ordinary one. -/
theorem refused_block_rests :
    LeavesNoTrace chainSha256 (fun _ _ => none) [] { smNew 0 with curHeight := 1 }
      { subsidy := commitCoin.subsidy } {} 1 (header1 ++ [2] ++ commitTx) := by
  have hrests : BlockRests chainSha256 { smNew 0 with curHeight := 1 }
      (blockAt chainSha256 (fun _ _ => none) { subsidy := commitCoin.subsidy } 1
        (header1 ++ [2] ++ commitTx)) := by
    decide +kernel
  exact (refused_leaves_no_trace chainSha256 (fun _ _ => none) [] { smNew 0 with curHeight := 1 }
    { subsidy := commitCoin.subsidy } {} 1 (header1 ++ [2] ++ commitTx)).1
    (Or.inr ⟨rfl, hrests, Or.inl rfl⟩)

/-- The block announces two transactions and holds one. It is refused after that one's commitment
has been recorded. -/
theorem refused_block_commits :
    ¬ LeavesNoTrace chainSha256 commitAttribute [] (smNew 0) { subsidy := commitCoin.subsidy } {} 1
      (header1 ++ [2] ++ commitTx) := by
  intro h
  have hrefused : (connectTables chainSha256 commitAttribute [] (smNew 0)
      { subsidy := commitCoin.subsidy } {} 1 (header1 ++ [2] ++ commitTx)).ok = false := by
    decide +kernel
  have hcommits := (h hrefused).1.2.1
  revert hcommits
  decide +kernel

end NamespaceIndexer.Daemon
