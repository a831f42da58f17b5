import NamespaceIndexer.Daemon.Tables
import NamespaceIndexer.Daemon.Refusal
import NamespaceIndexer.Lib.Run

/-!
# The wallet over a run

Registrations, passes, connected blocks, rollbacks and refolds, and what `idx_db_utxos` reports after
them.
-/

namespace NamespaceIndexer.Daemon

open Fold Lib

/-! ### The chain behind the tables -/

/-- A block of the current chain: the addresses that were registered when it was connected, and
whether its bytes were kept. -/
structure ChainBlock where
  height : ℤ
  raw : Bytes
  watch : List H160
  kept : Bool

/-- A pass: `watch` is the list in its `FoldCtx`. -/
structure WalletNode where
  s : SmState
  oracle : OracleFeed
  tables : Tables
  height : ℤ
  watch : List H160 := []
  chain : List ChainBlock := []

inductive WalletOp where
  | register (h160 : H160)
  | loadWatch
  | connect (raw : Bytes)
  | rollback (toHeight : ℤ)
  | refold

variable (sha256 : Bytes → Hash256) (idxAttribute : Bytes → ℕ → Option (H160 × Byte))
variable (coin : Coin) (activation : UInt64)

namespace WalletNode

/-- `cmd_watch`. -/
def register (n : WalletNode) (h160 : H160) : WalletNode :=
  { n with tables := { n.tables with watch := idxDbWatchAdd n.tables.watch h160 } }

/-- `fold_load_watch`, at the start of a pass. -/
def loadWatch (n : WalletNode) : WalletNode := { n with watch := idxDbWatchList n.tables.watch }

/-- The block that joins the chain. -/
def nextBlock (n : WalletNode) (raw : Bytes) : ChainBlock :=
  let touched := (watchBlock n.watch (n.height + 1) n.tables.utxos (idxParseBlock sha256 raw).1).2
  ⟨n.height + 1, raw, n.tables.watch, !(blockTxs sha256 idxAttribute raw).isEmpty || touched⟩

/-- `connect_block` at `tip + 1`. -/
def connect (n : WalletNode) (raw : Bytes) : WalletNode :=
  let o := connectTables sha256 idxAttribute n.watch n.s n.oracle n.tables (n.height + 1) raw
  if o.ok then
    { n with
      s := o.s, oracle := o.oracle, tables := o.tables, height := n.height + 1,
      chain := n.chain ++ [n.nextBlock sha256 idxAttribute raw] }
  else { n with s := o.s, oracle := o.oracle, tables := o.tables }

/-- `idx_sync_rollback`, which loads a list of its own, then `idx_db_save_sync`. -/
def rollback (n : WalletNode) (toHeight : ℤ) : WalletNode :=
  let o := rollbackTables sha256 idxAttribute n.oracle n.tables activation toHeight
  if o.ok then
    let tip := (idxDbBlockGet o.tables.db toHeight).getD coin.startHash
    { n with
      s := o.s, oracle := o.oracle,
      tables := { o.tables with db := o.tables.db.writes (idxDbSaveSync toHeight tip) },
      height := toHeight, chain := n.chain.filter fun b => b.height ≤ toHeight }
  else { n with s := o.s, oracle := o.oracle, tables := o.tables }

/-- `cmd_refold`. -/
def refold (n : WalletNode) : WalletNode :=
  match n.tables.db.height with
  | none => n
  | some height =>
    let oracle := idxDbOracleWarm n.tables.db { subsidy := coin.subsidy }
    let t := { n.tables with epochs := [], epochsFrom := some 0 }
    let o := rollbackTables sha256 idxAttribute oracle t activation height
    { n with s := o.s, oracle := o.oracle, tables := o.tables }

def op (n : WalletNode) : WalletOp → WalletNode
  | .register h160 => n.register h160
  | .loadWatch => n.loadWatch
  | .connect raw => n.connect sha256 idxAttribute raw
  | .rollback toHeight => n.rollback sha256 idxAttribute coin activation toHeight
  | .refold => n.refold sha256 idxAttribute coin activation

end WalletNode

/-- The empty database. -/
def freshWallet : WalletNode where
  s := smNew activation
  oracle := { subsidy := coin.subsidy }
  tables := {}
  height := coin.start

/-! ### What the wallet should report -/

/-- A transaction of the block pays the address with this output. -/
def Pays (raw : Bytes) (h160 : H160) (point : OutPoint) (value : ℤ) : Prop :=
  ∃ tx ∈ (idxParseBlock sha256 raw).1, ∃ o ∈ tx.outs,
    idxScriptPayee o.spk = some (h160, 0) ∧ ⟨tx.txid, o.vout⟩ = point ∧ o.value = value

def Spends (raw : Bytes) (point : OutPoint) : Prop :=
  ∃ tx ∈ (idxParseBlock sha256 raw).1, ∃ i ∈ tx.ins, spentPoint i = some point

/-- Paid to the address by a block connected after its registration, and not spent in the chain. -/
def Owed (chain : List ChainBlock) (h160 : H160) (point : OutPoint) (value : ℤ) : Prop :=
  (∃ b ∈ chain, h160 ∈ b.watch ∧ Pays sha256 b.raw h160 point value) ∧
    ¬ ∃ b ∈ chain, Spends sha256 b.raw point

/-- `idx_db_utxos` reports every watched address's outputs, each once. -/
def WalletCorrect (n : WalletNode) : Prop :=
  ∀ h160 ∈ n.tables.watch,
    ((idxDbUtxos n.tables.utxos h160).map Utxo.point).Nodup ∧
      ∀ point value, (∃ u ∈ idxDbUtxos n.tables.utxos h160, u.point = point ∧ u.value = value) ↔
        Owed sha256 n.chain h160 point value

/-! ### The steps that keep it -/

/-- What the chain did to an outpoint, as the wallet saw it. -/
def history (chain : List ChainBlock) (point : OutPoint) : List (Coin.Block (H160 × ℤ)) :=
  chain.map fun b => ⟨b.height, blockEvents b.watch point (idxParseBlock sha256 b.raw).1, b.kept⟩

/-- No watched output of the block is created once its outpoint has been spent, or a second time
with another payee or value. -/
def InOrder (n : WalletNode) (raw : Bytes) : Prop :=
  ∀ tx ∈ (idxParseBlock sha256 raw).1, ∀ o ∈ tx.outs, (watchedPayee n.watch o).isSome →
    let point : OutPoint := ⟨tx.txid, o.vout⟩
    Coin.Orderly (n.height + 1) (Coin.Spent (history sha256 n.chain point))
      (markOf n.tables.utxos point) (blockEvents n.watch point (idxParseBlock sha256 raw).1)

/-- The block pays no address that was registered after the pass had loaded its list. -/
def NoneTooLate (n : WalletNode) (raw : Bytes) : Prop :=
  ∀ tx ∈ (idxParseBlock sha256 raw).1, ∀ o ∈ tx.outs,
    ∀ h160 ∈ watchedPayee n.tables.watch o, h160 ∈ n.watch

/-- No kept block up to `toHeight` pays an address that was registered after it. -/
def NoLateWatch (watch : List H160) (chain : List ChainBlock) (toHeight : ℤ) : Prop :=
  ∀ b ∈ chain, b.kept = true → b.height ≤ toHeight →
    ∀ tx ∈ (idxParseBlock sha256 b.raw).1, ∀ o ∈ tx.outs,
      ∀ h160 ∈ watchedPayee watch o, h160 ∈ b.watch

/-- The condition on a step. A refused block is harmless if it brings the wallet nothing new. -/
def WalletOp.Safe (n : WalletNode) : WalletOp → Prop
  | .register h160 => (idxDbWatchAdd n.tables.watch h160).length ≤ maxWatch
  | .loadWatch => True
  | .connect raw =>
    if Parses sha256 raw then InOrder sha256 n raw ∧ NoneTooLate sha256 n raw
    else WalletKnows n.watch (n.height + 1) n.tables.utxos (idxParseBlock sha256 raw).1
  | .rollback toHeight =>
    coin.start ≤ toHeight ∧ toHeight ≤ n.height ∧ NoLateWatch sha256 n.tables.watch n.chain toHeight
  | .refold => NoLateWatch sha256 n.tables.watch n.chain n.height

section Decidable

variable {sha256 coin}

instance (raw : Bytes) (h160 : H160) (point : OutPoint) (value : ℤ) :
    Decidable (Pays sha256 raw h160 point value) :=
  inferInstanceAs (Decidable (∃ tx ∈ (idxParseBlock sha256 raw).1, ∃ o ∈ tx.outs,
    idxScriptPayee o.spk = some (h160, 0) ∧ ⟨tx.txid, o.vout⟩ = point ∧ o.value = value))

instance (raw : Bytes) (point : OutPoint) : Decidable (Spends sha256 raw point) :=
  inferInstanceAs (Decidable (∃ tx ∈ (idxParseBlock sha256 raw).1, ∃ i ∈ tx.ins,
    spentPoint i = some point))

instance (chain : List ChainBlock) (h160 : H160) (point : OutPoint) (value : ℤ) :
    Decidable (Owed sha256 chain h160 point value) :=
  inferInstanceAs (Decidable ((∃ b ∈ chain, h160 ∈ b.watch ∧ Pays sha256 b.raw h160 point value) ∧
    ¬ ∃ b ∈ chain, Spends sha256 b.raw point))

instance (watch : List H160) (height : ℤ) (utxos : List Utxo) (txs : List IdxTx) :
    Decidable (WalletKnows watch height utxos txs) :=
  inferInstanceAs (Decidable (_ ∨ _))

instance (n : WalletNode) (raw : Bytes) : Decidable (InOrder sha256 n raw) :=
  inferInstanceAs (Decidable (∀ tx ∈ (idxParseBlock sha256 raw).1, ∀ o ∈ tx.outs,
    (watchedPayee n.watch o).isSome →
    Coin.Orderly (n.height + 1) (Coin.Spent (history sha256 n.chain ⟨tx.txid, o.vout⟩))
      (markOf n.tables.utxos ⟨tx.txid, o.vout⟩)
      (blockEvents n.watch ⟨tx.txid, o.vout⟩ (idxParseBlock sha256 raw).1)))

instance (n : WalletNode) (raw : Bytes) : Decidable (NoneTooLate sha256 n raw) :=
  inferInstanceAs (Decidable (∀ tx ∈ (idxParseBlock sha256 raw).1, ∀ o ∈ tx.outs,
    ∀ h160 ∈ watchedPayee n.tables.watch o, h160 ∈ n.watch))

instance (watch : List H160) (chain : List ChainBlock) (toHeight : ℤ) :
    Decidable (NoLateWatch sha256 watch chain toHeight) :=
  inferInstanceAs (Decidable (∀ b ∈ chain, b.kept = true → b.height ≤ toHeight →
    ∀ tx ∈ (idxParseBlock sha256 b.raw).1, ∀ o ∈ tx.outs,
      ∀ h160 ∈ watchedPayee watch o, h160 ∈ b.watch))

instance (n : WalletNode) : (op : WalletOp) → Decidable (op.Safe sha256 coin n)
  | .register _ => inferInstanceAs (Decidable (_ ≤ _))
  | .loadWatch => isTrue trivial
  | .connect raw => inferInstanceAs (Decidable (if Parses sha256 raw then _ else _))
  | .rollback _ => inferInstanceAs (Decidable (_ ∧ _ ∧ _))
  | .refold => inferInstanceAs (Decidable (NoLateWatch _ _ _ _))

end Decidable

/-! ### One block, one outpoint -/

section Events

variable {point : OutPoint} {txs : List IdxTx}

theorem mem_outEvents {watch : List H160} {txid : Hash256} {o : IdxOut}
    {e : Coin.Event (H160 × ℤ)} :
    e ∈ outEvents watch point txid o ↔ ∃ h160, watchedPayee watch o = some h160 ∧
      ⟨txid, o.vout⟩ = point ∧ e = .fund (h160, o.value) := by
  unfold outEvents
  cases watchedPayee watch o with
  | none => simp
  | some h160 =>
    dsimp only
    split
    · rename_i hp
      simp [hp]
    · rename_i hp
      simp [hp]

theorem mem_inEvents {i : IdxIn} {e : Coin.Event (H160 × ℤ)} :
    e ∈ inEvents point i ↔ spentPoint i = some point ∧ e = .spend := by
  unfold inEvents
  split
  · rename_i hp
    simp [hp]
  · rename_i hp
    simp [hp]

theorem fund_mem_blockEvents {watch : List H160} {h160 : H160} {value : ℤ} :
    .fund (h160, value) ∈ blockEvents watch point txs ↔
      ∃ tx ∈ txs, ∃ o ∈ tx.outs, watchedPayee watch o = some h160 ∧ ⟨tx.txid, o.vout⟩ = point ∧
        o.value = value := by
  simp only [blockEvents, txEvents, List.mem_flatMap, List.mem_append, mem_outEvents, mem_inEvents]
  constructor
  · rintro ⟨tx, htx, ⟨o, ho, h', hpay, hp, he⟩ | ⟨i, _, _, he⟩⟩
    · cases he
      exact ⟨tx, htx, o, ho, hpay, hp, rfl⟩
    · cases he
  · rintro ⟨tx, htx, o, ho, hpay, hp, rfl⟩
    exact ⟨tx, htx, Or.inl ⟨o, ho, h160, hpay, hp, rfl⟩⟩

theorem spend_mem_blockEvents {watch : List H160} :
    .spend ∈ blockEvents watch point txs ↔ ∃ tx ∈ txs, ∃ i ∈ tx.ins, spentPoint i = some point := by
  simp only [blockEvents, txEvents, List.mem_flatMap, List.mem_append, mem_outEvents, mem_inEvents]
  constructor
  · rintro ⟨tx, htx, ⟨o, _, h160, _, _, he⟩ | ⟨i, hi, hp, _⟩⟩
    · cases he
    · exact ⟨tx, htx, i, hi, hp⟩
  · rintro ⟨tx, htx, i, hi, hp⟩
    exact ⟨tx, htx, Or.inr ⟨i, hi, hp, trivial⟩⟩

theorem watchedPayee_eq_some {watch : List H160} {o : IdxOut} {h160 : H160} :
    watchedPayee watch o = some h160 ↔ idxScriptPayee o.spk = some (h160, 0) ∧ h160 ∈ watch := by
  unfold watchedPayee
  cases hpayee : idxScriptPayee o.spk with
  | none => simp
  | some p =>
    obtain ⟨h, type⟩ := p
    dsimp only
    split
    · rename_i hw
      obtain ⟨rfl, hmem⟩ := hw
      constructor
      · intro h'
        cases h'
        exact ⟨rfl, hmem⟩
      · rintro ⟨h', _⟩
        cases h'
        rfl
    · rename_i hw
      constructor
      · intro h'
        cases h'
      · rintro ⟨h', hmem⟩
        cases h'
        exact absurd ⟨rfl, hmem⟩ hw

end Events

/-! ### The tables after a call -/

section Calls

@[simp] theorem recordEpochs_db (t : Tables) (s s' : SmState) (b : FoldBlock) :
    (recordEpochs t s s' b).db = t.db := by
  unfold recordEpochs
  split <;> rfl

@[simp] theorem recordEpochs_watch (t : Tables) (s s' : SmState) (b : FoldBlock) :
    (recordEpochs t s s' b).watch = t.watch := by
  unfold recordEpochs
  split <;> rfl

@[simp] theorem recordEpochs_utxos (t : Tables) (s s' : SmState) (b : FoldBlock) :
    (recordEpochs t s s' b).utxos = t.utxos := by
  unfold recordEpochs
  split <;> rfl

variable {sha256 idxAttribute activation}
variable {s : SmState} {oracle : OracleFeed} {t : Tables} {height : ℤ} {raw : Bytes}

variable (idxAttribute s oracle t height) in
theorem connectTables_parses (watch : List H160) (h : Parses sha256 raw) :
    let w := watchBlock watch height t.utxos (idxParseBlock sha256 raw).1
    let o := connectTables sha256 idxAttribute watch s oracle t height raw
    o.ok = true ∧ o.tables.watch = t.watch ∧ o.tables.utxos = w.1 ∧
      o.tables.db.height = some height ∧
      o.tables.db.rawBlocks = if !(blockTxs sha256 idxAttribute raw).isEmpty || w.2 then
        OrderedTable.put RawRow.height ⟨height, raw⟩ t.db.rawBlocks else t.db.rawBlocks := by
  obtain ⟨m, hm⟩ := Option.isSome_iff_exists.mp h
  unfold connectTables connectBlock
  simp only [hm, if_true, recordEpochs_db, recordEpochs_watch, recordEpochs_utxos,
    connectWrites_db, blockAt_txs, and_self]

variable (idxAttribute s oracle t height) in
theorem connectTables_refused (watch : List H160) (h : ¬ Parses sha256 raw) :
    let w := watchBlock watch height t.utxos (idxParseBlock sha256 raw).1
    let o := connectTables sha256 idxAttribute watch s oracle t height raw
    o.ok = false ∧ o.tables = { t with utxos := w.1 } := by
  have hnone := Option.not_isSome_iff_eq_none.mp h
  unfold connectTables connectBlock
  simp only [hnone, Bool.false_eq_true, if_false, Db.writes_nil, and_self]

variable (sha256) in
/-- The wallet's part of a replay. -/
def replayUtxos (watch : List H160) (utxos : List Utxo) (rows : List RawRow) : List Utxo :=
  rows.foldl (fun utxos r => (watchBlock watch r.height utxos (idxParseBlock sha256 r.raw).1).1)
    utxos

variable (idxAttribute oracle s t) in
theorem replayTables_parses (watch : List H160) {rows : List RawRow}
    (h : ∀ r ∈ rows, Parses sha256 r.raw) :
    ∃ s' t', replayTables sha256 idxAttribute oracle watch rows s t = (true, s', t') ∧
      t'.db = t.db ∧ t'.watch = t.watch ∧ t'.utxos = replayUtxos sha256 watch t.utxos rows := by
  induction rows generalizing s t with
  | nil => exact ⟨s, t, rfl, rfl, rfl, rfl⟩
  | cons r rows ih =>
    obtain ⟨m, hm⟩ := Option.isSome_iff_exists.mp (h r (List.mem_cons_self ..))
    rw [replayTables]
    simp only [hm]
    obtain ⟨s', t', heq, hdb, hwatch, hutxos⟩ :=
      ih _ _ (fun r' hr' => h r' (List.mem_cons_of_mem _ hr'))
    refine ⟨s', t', heq, ?_, ?_, ?_⟩
    · rw [hdb, recordEpochs_db]
    · rw [hwatch, recordEpochs_watch]
    · rw [hutxos, recordEpochs_utxos]
      rfl

variable (idxAttribute activation oracle) in
theorem rollbackTables_parses {toHeight : ℤ}
    (h : ∀ r ∈ OrderedTable.upTo RawRow.height toHeight t.db.rawBlocks, Parses sha256 r.raw) :
    let o := rollbackTables sha256 idxAttribute oracle t activation toHeight
    o.ok = true ∧ o.tables.watch = t.watch ∧ o.tables.db.height = t.db.height ∧
      o.tables.db.rawBlocks = OrderedTable.upTo RawRow.height toHeight t.db.rawBlocks ∧
      o.tables.utxos = replayUtxos sha256 (idxDbWatchList t.watch) (pruneUtxos toHeight t.utxos)
        (OrderedTable.upTo RawRow.height toHeight t.db.rawBlocks) := by
  have hrows : idxDbRawblockIter (pruneTables t toHeight).db toHeight =
      OrderedTable.upTo RawRow.height toHeight t.db.rawBlocks :=
    OrderedTable.upTo_upTo RawRow.height le_rfl
  obtain ⟨s', t', heq, hdb, hwatch, hutxos⟩ := replayTables_parses idxAttribute
    (smNew activation) (oracleRollback oracle (toHeight + 1)) (pruneTables t toHeight)
    (idxDbWatchList t.watch) h
  have hwatch' : (pruneTables t toHeight).watch = t.watch := rfl
  unfold rollbackTables
  dsimp only
  rw [hrows, hwatch', heq]
  refine ⟨rfl, hwatch, ?_, ?_, hutxos⟩
  · show (projectDb t'.db _).height = _
    rw [projectDb_height, hdb]
    rfl
  · show (projectDb t'.db _).rawBlocks = _
    rw [projectDb_rawBlocks, hdb]
    rfl

end Calls

/-! ### What every state of a run meets -/

section Invariant

variable {sha256 idxAttribute coin activation}

variable (sha256) in
/-- The wallet's tables are true to the chain, and the kept bytes are those of its blocks. -/
structure TrueTo (t : Tables) (chain : List ChainBlock) : Prop where
  distinct : RowTable.Distinct Utxo.point t.utxos
  noRows : NoRows t.watch t.utxos
  few : t.watch.length ≤ maxWatch
  rows : t.db.rawBlocks = (chain.filter ChainBlock.kept).map fun b => ⟨b.height, b.raw⟩
  parses : ∀ b ∈ chain, Parses sha256 b.raw
  traces : ∀ point, Coin.Traces (markOf t.utxos point) (history sha256 chain point)

variable (sha256) in
/-- The list of the pass holds registered addresses, among them all that a block of the chain paid. -/
structure WalletSound (n : WalletNode) : Prop where
  tables : TrueTo sha256 n.tables n.chain
  below : ∀ b ∈ n.chain, b.height ≤ n.height
  saved : ∀ height, n.tables.db.height = some height → height = n.height
  loaded : ∀ h160 ∈ n.watch, h160 ∈ n.tables.watch
  paid : ∀ b ∈ n.chain, ∀ tx ∈ (idxParseBlock sha256 b.raw).1, ∀ o ∈ tx.outs,
    ∀ h160 ∈ watchedPayee b.watch o, h160 ∈ n.watch

theorem idxDbWatchList_eq {watch : List H160} (h : watch.length ≤ maxWatch) :
    idxDbWatchList watch = watch := List.take_of_length_le h

theorem walletSound_fresh : WalletSound sha256 (freshWallet coin activation) where
  tables :=
    { distinct := RowTable.distinct_nil _
      noRows := fun _ => rfl
      few := Nat.zero_le _
      rows := rfl
      parses := fun b hb => absurd hb List.not_mem_nil
      traces := fun _ => Coin.traces_nil }
  below := fun b hb => absurd hb List.not_mem_nil
  saved := fun height h => by cases h
  loaded := fun _ hh => absurd hh List.not_mem_nil
  paid := fun b hb => absurd hb List.not_mem_nil

theorem mem_idxDbUtxos {utxos : List Utxo} {h160 : H160} {u : Utxo} :
    u ∈ idxDbUtxos utxos h160 ↔ u ∈ utxos ∧ u.h160 = h160 ∧ u.spentHeight = none := by
  unfold idxDbUtxos
  rw [List.mem_insertionSort, List.mem_filter, decide_eq_true_eq]

/-- A reported output is an outpoint whose mark is unspent. -/
theorem reported_iff {utxos : List Utxo} (h : RowTable.Distinct Utxo.point utxos) {h160 : H160}
    {point : OutPoint} {value : ℤ} :
    (∃ u ∈ idxDbUtxos utxos h160, u.point = point ∧ u.value = value) ↔
      ∃ k, markOf utxos point = some k ∧ k.value = (h160, value) ∧ k.spent = none := by
  constructor
  · rintro ⟨u, hu, rfl, rfl⟩
    obtain ⟨hmem, rfl, hspent⟩ := mem_idxDbUtxos.mp hu
    refine ⟨⟨(u.h160, u.value), u.height, u.spentHeight⟩, ?_, rfl, hspent⟩
    unfold markOf
    rw [RowTable.lookup_of_mem Utxo.point h hmem, Option.map_some]
  · rintro ⟨k, hk, hvalue, hspent⟩
    obtain ⟨u, hu, rfl⟩ := Option.map_eq_some_iff.mp hk
    obtain ⟨hmem, hpoint⟩ := RowTable.lookup_mem Utxo.point hu
    obtain ⟨rfl, rfl⟩ := Prod.mk.inj hvalue
    exact ⟨u, mem_idxDbUtxos.mpr ⟨hmem, rfl, hspent⟩, hpoint, rfl⟩

theorem exists_mem_history {chain : List ChainBlock} {point : OutPoint}
    {p : Coin.Block (H160 × ℤ) → Prop} :
    (∃ b ∈ history sha256 chain point, p b) ↔ ∃ b ∈ chain,
      p ⟨b.height, blockEvents b.watch point (idxParseBlock sha256 b.raw).1, b.kept⟩ := by
  unfold history
  simp only [List.mem_map, exists_exists_and_eq_and]

theorem spent_history {chain : List ChainBlock} {point : OutPoint} :
    Coin.Spent (history sha256 chain point) ↔ ∃ b ∈ chain, Spends sha256 b.raw point := by
  unfold Coin.Spent Spends
  rw [exists_mem_history]
  exact exists_congr fun b => and_congr_right fun _ => spend_mem_blockEvents

theorem WalletSound.correct {n : WalletNode} (hn : WalletSound sha256 n) :
    WalletCorrect sha256 n := by
  have hn := hn.tables
  intro h160 _
  constructor
  · have hperm := List.perm_insertionSort (fun a b : Utxo => b.value ≤ a.value)
      (n.tables.utxos.filter fun u => u.h160 = h160 ∧ u.spentHeight = none)
    have hsub : RowTable.Distinct Utxo.point
        (n.tables.utxos.filter fun u => u.h160 = h160 ∧ u.spentHeight = none) :=
      hn.distinct.sublist (List.filter_sublist.map _)
    exact hsub.perm Utxo.point hperm.symm
  · intro point value
    rw [reported_iff hn.distinct, (hn.traces point).unspent, spent_history]
    apply and_congr_left
    intro _
    unfold Pays
    rw [exists_mem_history]
    apply exists_congr
    intro b
    apply and_congr_right
    intro _
    dsimp only
    rw [fund_mem_blockEvents]
    simp only [watchedPayee_eq_some]
    constructor
    · rintro ⟨tx, htx, o, ho, ⟨hpay, hmem⟩, hp, hv⟩
      exact ⟨hmem, tx, htx, o, ho, hpay, hp, hv⟩
    · rintro ⟨hmem, tx, htx, o, ho, hpay, hp, hv⟩
      exact ⟨tx, htx, o, ho, ⟨hpay, hmem⟩, hp, hv⟩

theorem mem_idxDbWatchAdd {watch : List H160} {h160 h : H160} :
    h ∈ idxDbWatchAdd watch h160 ↔ h ∈ watch ∨ h = h160 := by
  unfold idxDbWatchAdd
  split
  · rename_i hmem
    exact ⟨Or.inl, fun hh => hh.elim id fun heq => heq ▸ hmem⟩
  · rw [List.mem_append, List.mem_singleton]

theorem WalletSound.register {n : WalletNode} (hn : WalletSound sha256 n) (h160 : H160)
    (hfew : (idxDbWatchAdd n.tables.watch h160).length ≤ maxWatch) :
    WalletSound sha256 (n.register h160) where
  tables :=
    { hn.tables with
      noRows := by
        intro hnil
        have hmem : h160 ∈ (n.register h160).tables.watch := mem_idxDbWatchAdd.mpr (Or.inr rfl)
        rw [hnil] at hmem
        cases hmem
      few := hfew }
  below := hn.below
  saved := hn.saved
  loaded := fun h hh => mem_idxDbWatchAdd.mpr (Or.inl (hn.loaded h hh))
  paid := hn.paid

theorem WalletSound.loadWatch {n : WalletNode} (hn : WalletSound sha256 n) :
    WalletSound sha256 n.loadWatch := by
  have hlist : n.loadWatch.watch = n.tables.watch := idxDbWatchList_eq hn.tables.few
  refine ⟨hn.tables, hn.below, hn.saved, ?_, ?_⟩
  · rw [hlist]
    exact fun _ hh => hh
  · intro b hb tx htx o ho h hh
    rw [hlist]
    exact hn.loaded h (hn.paid b hb tx htx o ho h hh)

/-- While the pass watches nothing, nothing is in the table. -/
theorem WalletSound.noRows {n : WalletNode} (hn : WalletSound sha256 n) :
    NoRows n.watch n.tables.utxos := by
  intro hnil
  refine List.eq_nil_iff_forall_not_mem.mpr fun u hu => ?_
  have hmark : markOf n.tables.utxos u.point =
      some ⟨(u.h160, u.value), u.height, u.spentHeight⟩ := by
    unfold markOf
    rw [RowTable.lookup_of_mem Utxo.point hn.tables.distinct hu, Option.map_some]
  obtain ⟨b', hb', -, hfund⟩ := (hn.tables.traces u.point).made _ hmark
  obtain ⟨b, hb, rfl⟩ := List.mem_map.mp hb'
  obtain ⟨tx, htx, o, ho, hpay, -, -⟩ := fund_mem_blockEvents.mp hfund
  have hmem := hn.paid b hb tx htx o ho _ hpay
  rw [hnil] at hmem
  cases hmem

/-- Where no output pays an address of one list only, the lists see the same. -/
theorem blockEvents_congr {watch watch' : List H160} (point : OutPoint) {txs : List IdxTx}
    (hsub : ∀ h160 ∈ watch, h160 ∈ watch')
    (h : ∀ tx ∈ txs, ∀ o ∈ tx.outs, ∀ h160 ∈ watchedPayee watch' o, h160 ∈ watch) :
    blockEvents watch point txs = blockEvents watch' point txs := by
  have hpayee : ∀ tx ∈ txs, ∀ o ∈ tx.outs, watchedPayee watch o = watchedPayee watch' o := by
    intro tx htx o ho
    apply Option.ext
    intro h160
    rw [watchedPayee_eq_some, watchedPayee_eq_some]
    refine and_congr_right fun hpay => ⟨hsub h160, fun hmem => ?_⟩
    exact h tx htx o ho h160 (watchedPayee_eq_some.mpr ⟨hpay, hmem⟩)
  unfold blockEvents
  refine List.flatMap_congr fun tx htx => ?_
  unfold txEvents
  congr 1
  refine List.flatMap_congr fun o ho => ?_
  unfold outEvents
  rw [hpayee tx htx o ho]

/-- Where no watched output is made, an outpoint is in order. -/
theorem orderly_of_not_fund {ν : Type} {height : ℤ} {before : Prop} {m : Option (Coin.Mark ν)}
    {es : List (Coin.Event ν)} (h : ∀ v, .fund v ∉ es) : Coin.Orderly height before m es := by
  induction es generalizing before m with
  | nil => trivial
  | cons e es ih =>
    have hrest : ∀ v, .fund v ∉ es := fun v hv => h v (List.mem_cons_of_mem _ hv)
    cases e with
    | fund v => exact absurd (List.mem_cons_self ..) (h v)
    | spend => exact ih hrest

theorem InOrder.orderly {n : WalletNode} {raw : Bytes} (h : InOrder sha256 n raw)
    (point : OutPoint) :
    Coin.Orderly (n.height + 1) (Coin.Spent (history sha256 n.chain point))
      (markOf n.tables.utxos point)
      (blockEvents n.watch point (idxParseBlock sha256 raw).1) := by
  by_cases hfund : ∃ v, .fund v ∈ blockEvents n.watch point (idxParseBlock sha256 raw).1
  · obtain ⟨⟨h160, value⟩, hv⟩ := hfund
    obtain ⟨tx, htx, o, ho, hpay, rfl, _⟩ := fund_mem_blockEvents.mp hv
    exact h tx htx o ho (Option.isSome_of_eq_some hpay)
  · exact orderly_of_not_fund fun v hv => hfund ⟨v, hv⟩

theorem WalletSound.connect {n : WalletNode} (hn : WalletSound sha256 n) (raw : Bytes)
    (hp : Parses sha256 raw) (hord : InOrder sha256 n raw) (hlate : NoneTooLate sha256 n raw) :
    WalletSound sha256 (n.connect sha256 idxAttribute raw) := by
  obtain ⟨hok, hwatch, hutxos, hheight, hrows⟩ :=
    connectTables_parses idxAttribute n.s n.oracle n.tables (n.height + 1) n.watch hp
  have hrow := hn.noRows
  unfold WalletNode.connect
  dsimp only
  rw [if_pos hok]
  refine ⟨⟨?_, ?_, ?_, ?_, ?_, ?_⟩, ?_, ?_, ?_, ?_⟩
  · rw [hutxos]
    exact distinct_watchBlock hn.tables.distinct _
  · rw [hutxos, hwatch]
    intro hnil
    refine noRows_watchBlock (n.height + 1) hrow _ (List.eq_nil_iff_forall_not_mem.mpr ?_)
    intro h hh
    have hmem := hn.loaded h hh
    rw [hnil] at hmem
    cases hmem
  · rw [hwatch]
    exact hn.tables.few
  · rw [hrows, List.filter_append, List.map_append, ← hn.tables.rows]
    by_cases hkept : (n.nextBlock sha256 idxAttribute raw).kept
    · rw [List.filter_cons_of_pos hkept]
      refine (if_pos hkept).trans (OrderedTable.put_of_above RawRow.height fun r hr => ?_)
      rw [hn.tables.rows] at hr
      obtain ⟨b, hb, rfl⟩ := List.mem_map.mp hr
      have hle := hn.below b (List.mem_of_mem_filter hb)
      show b.height < n.height + 1
      omega
    · rw [List.filter_cons_of_neg hkept]
      exact (if_neg hkept).trans (List.append_nil _).symm
  · intro b hb
    rcases List.mem_append.mp hb with hb | hb
    · exact hn.tables.parses b hb
    · rw [List.mem_singleton.mp hb]
      exact hp
  · intro point
    unfold history
    rw [hutxos, markOf_watchBlock _ _ hrow, List.map_append, List.map_singleton]
    change Coin.Traces _ (_ ++ [⟨_, blockEvents n.tables.watch point (idxParseBlock sha256 raw).1, _⟩])
    rw [← blockEvents_congr point hn.loaded hlate]
    refine (hn.tables.traces point).connect ?_ (hord.orderly point) ?_
    · intro b' hb'
      obtain ⟨b, hb, rfl⟩ := List.mem_map.mp hb'
      have hle := hn.below b hb
      show b.height < n.height + 1
      omega
    · by_cases htouched : (watchBlock n.watch (n.height + 1) n.tables.utxos
          (idxParseBlock sha256 raw).1).2
      · right
        show (!(blockTxs sha256 idxAttribute raw).isEmpty || _) = true
        rw [htouched, Bool.or_true]
      · exact Or.inl (missed_watchBlock hrow (Bool.eq_false_iff.mpr htouched))
  · intro b hb
    rcases List.mem_append.mp hb with hb | hb
    · have hle := hn.below b hb
      dsimp only
      omega
    · rw [List.mem_singleton.mp hb]
      exact le_rfl
  · intro height h
    dsimp only at h
    rw [hheight] at h
    exact (Option.some_inj.mp h).symm
  · rw [hwatch]
    exact hn.loaded
  · intro b hb
    rcases List.mem_append.mp hb with hb | hb
    · exact hn.paid b hb
    · rw [List.mem_singleton.mp hb]
      exact hlate

theorem WalletSound.refused {n : WalletNode} (hn : WalletSound sha256 n) (raw : Bytes)
    (hp : ¬ Parses sha256 raw)
    (hknows : WalletKnows n.watch (n.height + 1) n.tables.utxos (idxParseBlock sha256 raw).1) :
    WalletSound sha256 (n.connect sha256 idxAttribute raw) := by
  obtain ⟨hok, htables⟩ :=
    connectTables_refused idxAttribute n.s n.oracle n.tables (n.height + 1) n.watch hp
  rw [(watchBlock_still _ _ _ _).mpr hknows] at htables
  unfold WalletNode.connect
  dsimp only
  rw [if_neg (by rw [hok]; exact Bool.false_ne_true), htables]
  exact ⟨hn.tables, hn.below, hn.saved, hn.loaded, hn.paid⟩

/-! ### A replay -/

theorem distinct_replayUtxos {watch : List H160} {utxos : List Utxo}
    (h : RowTable.Distinct Utxo.point utxos) (rows : List RawRow) :
    RowTable.Distinct Utxo.point (replayUtxos sha256 watch utxos rows) := by
  induction rows generalizing utxos with
  | nil => exact h
  | cons r rows ih => exact ih (distinct_watchBlock h _)

variable (sha256) in
theorem replayUtxos_flat {watch : List H160} {utxos : List Utxo} (h : NoRows watch utxos)
    (rows : List RawRow) :
    NoRows watch (replayUtxos sha256 watch utxos rows) ∧ ∀ point,
      markOf (replayUtxos sha256 watch utxos rows) point =
        Coin.replay (markOf utxos point)
          (rows.map fun r => (r.height, blockEvents watch point (idxParseBlock sha256 r.raw).1)) := by
  induction rows generalizing utxos with
  | nil => exact ⟨h, fun _ => rfl⟩
  | cons r rows ih =>
    obtain ⟨hrows, hmark⟩ := ih (noRows_watchBlock r.height h
      (idxParseBlock sha256 r.raw).1)
    refine ⟨hrows, fun point => ?_⟩
    have hfirst := markOf_watchBlock r.height point h
      (idxParseBlock sha256 r.raw).1
    refine (hmark point).trans ?_
    rw [hfirst]
    rfl

/-- Where no block is paid late, the events of a kept block are played again as they were. -/
theorem NoLateWatch.events {watch : List H160} {chain : List ChainBlock} {toHeight : ℤ}
    (h : NoLateWatch sha256 watch chain toHeight) {b : ChainBlock} (hb : b ∈ chain)
    (hkept : b.kept = true) (hle : b.height ≤ toHeight) {point : OutPoint}
    {e : Coin.Event (H160 × ℤ)}
    (he : e ∈ blockEvents watch point (idxParseBlock sha256 b.raw).1) :
    e ∈ blockEvents b.watch point (idxParseBlock sha256 b.raw).1 := by
  cases e with
  | spend => exact spend_mem_blockEvents.mpr (spend_mem_blockEvents.mp he)
  | fund v =>
    obtain ⟨h160, value⟩ := v
    obtain ⟨tx, htx, o, ho, hpay, hp, hv⟩ := fund_mem_blockEvents.mp he
    have hmem := h b hb hkept hle tx htx o ho h160 hpay
    refine fund_mem_blockEvents.mpr ⟨tx, htx, o, ho, ?_, hp, hv⟩
    exact watchedPayee_eq_some.mpr ⟨(watchedPayee_eq_some.mp hpay).1, hmem⟩

variable (idxAttribute activation) in
/-- After a rollback the tables are true to the chain up to that height. -/
theorem TrueTo.rollback {t : Tables} {chain : List ChainBlock}
    (ht : TrueTo sha256 t chain) {toHeight : ℤ}
    (hlate : NoLateWatch sha256 t.watch chain toHeight) (oracle : OracleFeed) :
    let o := rollbackTables sha256 idxAttribute oracle t activation toHeight
    o.ok = true ∧ o.tables.watch = t.watch ∧ o.tables.db.height = t.db.height ∧
      TrueTo sha256 o.tables (chain.filter fun b => b.height ≤ toHeight) := by
  have hrow : ∀ r, r ∈ OrderedTable.upTo RawRow.height toHeight t.db.rawBlocks ↔
      ∃ b ∈ chain, b.kept = true ∧ b.height ≤ toHeight ∧ (⟨b.height, b.raw⟩ : RawRow) = r := by
    intro r
    rw [OrderedTable.mem_upTo, ht.rows, List.mem_map]
    constructor
    · rintro ⟨⟨b, hb, rfl⟩, hle⟩
      obtain ⟨hb, hkept⟩ := List.mem_filter.mp hb
      exact ⟨b, hb, hkept, hle, rfl⟩
    · rintro ⟨b, hb, hkept, hle, rfl⟩
      exact ⟨⟨b, List.mem_filter.mpr ⟨hb, hkept⟩, rfl⟩, hle⟩
  have hparses : ∀ r ∈ OrderedTable.upTo RawRow.height toHeight t.db.rawBlocks,
      Parses sha256 r.raw := by
    intro r hr
    obtain ⟨b, hb, _, _, rfl⟩ := (hrow r).mp hr
    exact ht.parses b hb
  obtain ⟨hok, hwatch, hheight, hraw, hutxos⟩ :=
    rollbackTables_parses idxAttribute activation oracle hparses
  have hlist := idxDbWatchList_eq ht.few
  rw [hlist] at hutxos
  have hcut : NoRows t.watch (pruneUtxos toHeight t.utxos) := by
    intro hnil
    rw [ht.noRows hnil]
    rfl
  obtain ⟨hrows, hmark⟩ := replayUtxos_flat sha256 hcut
    (OrderedTable.upTo RawRow.height toHeight t.db.rawBlocks)
  refine ⟨hok, hwatch, hheight, ?_, ?_, ?_, ?_, ?_, ?_⟩
  · rw [hutxos]
    exact distinct_replayUtxos (distinct_prune ht.distinct) _
  · rw [hutxos, hwatch]
    exact hrows
  · rw [hwatch]
    exact ht.few
  · rw [hraw, ht.rows]
    unfold OrderedTable.upTo
    rw [List.filter_map, List.filter_filter, List.filter_filter]
    congr 2
    funext b
    exact Bool.and_comm _ _
  · exact fun b hb => ht.parses b (List.mem_of_mem_filter hb)
  · intro point
    rw [hutxos, hmark point, markOf_prune ht.distinct]
    refine (ht.traces point).rollback ?_ ?_ ?_
    · intro b
      unfold history
      rw [List.mem_map, List.mem_map]
      constructor
      · rintro ⟨b, hb, rfl⟩
        obtain ⟨hb, hle⟩ := List.mem_filter.mp hb
        exact ⟨⟨b, hb, rfl⟩, of_decide_eq_true hle⟩
      · rintro ⟨⟨b, hb, rfl⟩, hle⟩
        exact ⟨b, List.mem_filter.mpr ⟨hb, decide_eq_true hle⟩, rfl⟩
    · intro r' hr'
      obtain ⟨r, hr, rfl⟩ := List.mem_map.mp hr'
      obtain ⟨b, hb, hkept, hle, rfl⟩ := (hrow r).mp hr
      have hmem : b ∈ chain.filter fun b => b.height ≤ toHeight :=
        List.mem_filter.mpr ⟨hb, decide_eq_true hle⟩
      exact ⟨_, List.mem_map_of_mem hmem, rfl, hlate.events hb hkept hle,
        fun v => hlate.events hb hkept hle⟩
    · intro b' hb' hkept hspend
      obtain ⟨b, hb, rfl⟩ := List.mem_map.mp hb'
      obtain ⟨hb, hle⟩ := List.mem_filter.mp hb
      have hr := (hrow ⟨b.height, b.raw⟩).mpr ⟨b, hb, hkept, of_decide_eq_true hle, rfl⟩
      exact ⟨_, List.mem_map_of_mem hr, spend_mem_blockEvents.mpr (spend_mem_blockEvents.mp hspend)⟩

theorem WalletSound.rollback {n : WalletNode} (hn : WalletSound sha256 n) {toHeight : ℤ}
    (hlate : NoLateWatch sha256 n.tables.watch n.chain toHeight) :
    WalletSound sha256 (n.rollback sha256 idxAttribute coin activation toHeight) := by
  obtain ⟨hok, hwatch, -, ht⟩ := hn.tables.rollback idxAttribute activation hlate n.oracle
  unfold WalletNode.rollback
  dsimp only
  rw [if_pos hok]
  refine ⟨⟨ht.distinct, ht.noRows, ht.few, ht.rows, ht.parses, ht.traces⟩, ?_, ?_, ?_, ?_⟩
  · intro b hb
    exact of_decide_eq_true (List.mem_filter.mp hb).2
  · intro height h
    exact (Option.some_inj.mp h).symm
  · rw [hwatch]
    exact hn.loaded
  · exact fun b hb => hn.paid b (List.mem_of_mem_filter hb)

theorem WalletSound.refold {n : WalletNode} (hn : WalletSound sha256 n)
    (hlate : NoLateWatch sha256 n.tables.watch n.chain n.height) :
    WalletSound sha256 (n.refold sha256 idxAttribute coin activation) := by
  unfold WalletNode.refold
  cases hheight : n.tables.db.height with
  | none => exact hn
  | some height =>
    have hsaved := hn.saved height hheight
    subst hsaved
    have ht0 : TrueTo sha256
        { n.tables with epochs := [], epochsFrom := some 0 } n.chain :=
      ⟨hn.tables.distinct, hn.tables.noRows, hn.tables.few, hn.tables.rows, hn.tables.parses,
        hn.tables.traces⟩
    obtain ⟨-, hwatch, hheight', ht⟩ := ht0.rollback idxAttribute activation hlate
      (idxDbOracleWarm n.tables.db { subsidy := coin.subsidy })
    have hall : (n.chain.filter fun b => b.height ≤ n.height) = n.chain :=
      List.filter_eq_self.mpr fun b hb => decide_eq_true (hn.below b hb)
    rw [hall] at ht
    refine ⟨ht, hn.below, ?_, ?_, hn.paid⟩
    · intro height h
      exact hn.saved height (hheight'.symm.trans h)
    · rw [hwatch]
      exact hn.loaded

theorem WalletSound.op {n : WalletNode} (hn : WalletSound sha256 n) {op : WalletOp}
    (hop : op.Safe sha256 coin n) :
    WalletSound sha256 (n.op sha256 idxAttribute coin activation op) := by
  cases op with
  | register h160 => exact hn.register h160 hop
  | loadWatch => exact hn.loadWatch
  | connect raw =>
    by_cases hp : Parses sha256 raw
    · simp only [WalletOp.Safe, if_pos hp] at hop
      exact hn.connect raw hp hop.1 hop.2
    · simp only [WalletOp.Safe, if_neg hp] at hop
      exact hn.refused raw hp hop
  | rollback toHeight => exact hn.rollback hop.2.2
  | refold => exact hn.refold hop

end Invariant

/-- In a run of safe steps the wallet is right about every watched address, in every state. -/
theorem wallet_correct (ops : List WalletOp)
    (hops : Run.Along (WalletNode.op sha256 idxAttribute coin activation)
      (WalletOp.Safe sha256 coin) (freshWallet coin activation) ops) :
    Run.Throughout (WalletNode.op sha256 idxAttribute coin activation) (WalletCorrect sha256)
      (freshWallet coin activation) ops :=
  Run.throughout_of_keeps (fun _ _ hn hop => hn.op hop) (fun _ hn => hn.correct) ops
    walletSound_fresh hops

/-! ### A payment from before the registration -/

/-- A coinbase that pays one address. -/
def coinbaseTx : Bytes :=
  ofHex 32 0x0100000001000000000000000000000000000000000000000000000000000000 ++
  ofHex 32 0x0000000000ffffffff020101ffffffff010010a5d4e80000001976a914751e76 ++
  ofHex 23 0xe8199196d454941c45d1b3a323f1433bd688ac00000000

def payee : H160 := copyFrom 20 (ofHex 20 0x751e76e8199196d454941c45d1b3a323f1433bd6)

def payHeader : Bytes :=
  headerOf 0 0x917410728538518267b3fd1d2de5a70c17068449fe79237c22e832e81c26c4cd 1000

/-- The coinbase, and a transaction with a carrier. -/
def payBlock : Bytes := payHeader ++ [2] ++ coinbaseTx ++ commitTx

def paySha256 : Bytes → Hash256 := hashTable (chainHashes ++
  [(coinbaseTx, 0x5d5a760835e65a8283845b2a6ee407b41f3fdb091c76064f8162f8353749afd2),
   (ofHex 32 0x5d5a760835e65a8283845b2a6ee407b41f3fdb091c76064f8162f8353749afd2,
    0x1c333ea39e368aea3475073a9b7c7e1410b73dc910bef483a047b901830b7140),
   (ofHex 32 0x1c333ea39e368aea3475073a9b7c7e1410b73dc910bef483a047b901830b7140 ++
      ofHex 32 0xb738d74202a89b68fb1b4f871b66aa83cb0b3a2c6219c3eb538203c080d6a7b6,
    0xc4446fd2204224aa5a0ee6bbb96fa1b82f0125f5c099e77f6bc7e84f65a1b591),
   (ofHex 32 0xc4446fd2204224aa5a0ee6bbb96fa1b82f0125f5c099e77f6bc7e84f65a1b591,
    0x917410728538518267b3fd1d2de5a70c17068449fe79237c22e832e81c26c4cd),
   (payHeader, 0xfdeb4b2bb92aff42af43b6ce4fdcaf32ddcb54fa7cfef638237667f4b6e4a60e),
   (ofHex 32 0xfdeb4b2bb92aff42af43b6ce4fdcaf32ddcb54fa7cfef638237667f4b6e4a60e,
    0x4637b16b025e0d78a65c1d12f8d98ad58534b2ade28a57b1cb809f3c88653bf9)])

/-- Registered before the block, rolled back to it and refolded: the payment is reported. -/
theorem wallet_correct_sample :
    let ops : List WalletOp := [.register payee, .loadWatch, .connect payBlock, .rollback 1, .refold]
    let step := WalletNode.op paySha256 commitAttribute commitCoin 0
    Run.Throughout step (WalletCorrect paySha256) (freshWallet commitCoin 0) ops ∧
      (ops.foldl step (freshWallet commitCoin 0)).tables.utxos.length = 1 :=
  ⟨wallet_correct paySha256 commitAttribute commitCoin 0 _
    ⟨by decide +kernel, trivial, by decide +kernel, by decide +kernel, by decide +kernel, trivial⟩,
    by decide +kernel⟩

/-- Registered after the block: a refold reports the payment all the same. Registered in the middle of
a pass: the pass goes on with the list it loaded, and the payment of its next block is not reported. -/
theorem late_watch_misreported :
    let step := WalletNode.op paySha256 commitAttribute commitCoin 0
    (¬ Run.Throughout step (WalletCorrect paySha256) (freshWallet commitCoin 0)
      [.loadWatch, .connect payBlock, .register payee, .refold]) ∧
    ¬ Run.Throughout step (WalletCorrect paySha256) (freshWallet commitCoin 0)
      [.loadWatch, .register payee, .connect payBlock] := by
  intro step
  constructor
  · intro h
    have hwatched : payee ∈ ([.loadWatch, .connect payBlock, .register payee, .refold].foldl step
        (freshWallet commitCoin 0)).tables.watch := by
      decide +kernel
    have hlast := h.last payee hwatched
    have hrow : ∃ u ∈ idxDbUtxos ([.loadWatch, .connect payBlock, .register payee, .refold].foldl step
        (freshWallet commitCoin 0)).tables.utxos payee,
        u.point = ⟨idxSha256d paySha256 coinbaseTx, 0⟩ ∧ u.value = 1000000000000 := by
      decide +kernel
    obtain ⟨⟨b, hb, hwatch, -⟩, -⟩ := (hlast.2 _ _).mp hrow
    have hnone : ∀ b ∈ ([.loadWatch, .connect payBlock, .register payee, .refold].foldl step
        (freshWallet commitCoin 0)).chain, payee ∉ b.watch := by
      decide +kernel
    exact hnone b hb hwatch
  · intro h
    have hwatched : payee ∈ ([.loadWatch, .register payee, .connect payBlock].foldl step
        (freshWallet commitCoin 0)).tables.watch := by
      decide +kernel
    have hlast := h.last payee hwatched
    have howed : Owed paySha256 ([.loadWatch, .register payee, .connect payBlock].foldl step
        (freshWallet commitCoin 0)).chain payee ⟨idxSha256d paySha256 coinbaseTx, 0⟩ 1000000000000 := by
      decide +kernel
    obtain ⟨u, hu, -, -⟩ := (hlast.2 _ _).mpr howed
    have hnone : idxDbUtxos ([.loadWatch, .register payee, .connect payBlock].foldl step
        (freshWallet commitCoin 0)).tables.utxos payee = [] := by
      decide +kernel
    rw [hnone] at hu
    cases hu

end NamespaceIndexer.Daemon
