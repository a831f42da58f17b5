import NamespaceIndexer.Daemon.History
import NamespaceIndexer.Daemon.Wallet
import NamespaceIndexer.Ledger.Behind
import NamespaceIndexer.Ledger.Preblock

/-!
# The ownership history over a run

Connected blocks and rollbacks, and what `idx_db_owner_at` says of every height of the chain after
them.
-/

namespace NamespaceIndexer.Daemon

open Fold Lib

/-- A pass, with which blocks of its chain the fold in memory has begun, and the states that the fold
had at the end of the blocks. -/
structure Chronicle extends WalletNode where
  begun : List Bool := []
  past : ℤ → SmState

inductive ChronicleOp where
  | register (h160 : H160)
  | loadWatch
  | connect (raw : Bytes)
  | rollback (toHeight : ℤ)

variable (sha256 : Bytes → Hash256) (idxAttribute : Bytes → ℕ → Option (H160 × Byte))
variable (coin : Coin) (activation : UInt64)

namespace Chronicle

def register (n : Chronicle) (h160 : H160) : Chronicle :=
  { n with toWalletNode := n.toWalletNode.register h160 }

def loadWatch (n : Chronicle) : Chronicle := { n with toWalletNode := n.toWalletNode.loadWatch }

/-- `connect_block` at `tip + 1`. -/
def connect (n : Chronicle) (raw : Bytes) : Chronicle :=
  let node := n.toWalletNode.connect sha256 idxAttribute raw
  if Parses sha256 raw then
    ⟨node, n.begun ++ [true], Function.update n.past node.height node.s⟩
  else { n with toWalletNode := node }

/-- `idx_sync_rollback`; what the fold in memory begins are the blocks that were kept. -/
def rollback (n : Chronicle) (toHeight : ℤ) : Chronicle :=
  let node := n.toWalletNode.rollback sha256 idxAttribute coin activation toHeight
  if (rollbackTables sha256 idxAttribute n.oracle n.tables activation toHeight).ok then
    { n with toWalletNode := node, begun := node.chain.map ChainBlock.kept }
  else { n with toWalletNode := node }

def op (n : Chronicle) : ChronicleOp → Chronicle
  | .register h160 => n.register h160
  | .loadWatch => n.loadWatch
  | .connect raw => n.connect sha256 idxAttribute raw
  | .rollback toHeight => n.rollback sha256 idxAttribute coin activation toHeight

end Chronicle

/-- The empty state, on a database whose history starts at 0. -/
def freshChronicle : Chronicle where
  s := smNew activation
  oracle := { subsidy := coin.subsidy }
  tables := { epochsFrom := some 0 }
  height := coin.start
  past := fun _ => smNew activation

/-! ### What the history should say -/

/-- `idx_db_owner_at` gives every height of the chain the owner that the fold had at its end. -/
def HistoryExact (n : Chronicle) : Prop :=
  ∀ (name : Name) (height : ℤ), 0 ≤ height → height ≤ n.height →
    let answer := idxDbOwnerAt n.tables.epochs n.tables.epochsFrom n.tables.db.names name height
    match ownerOf (n.past height).names name with
    | some owner => ∃ type, answer = .owned owner type
    | none => answer = .unowned

theorem HistoryExact.owner_eq {n : Chronicle} (h : HistoryExact n) (name : Name) (height : ℤ)
    (who who' : H160) (type : Byte) (h0 : 0 ≤ height) (hle : height ≤ n.height)
    (hpast : ownerOf (n.past height).names name = some who)
    (hanswer : idxDbOwnerAt n.tables.epochs n.tables.epochsFrom n.tables.db.names name height
      = .owned who' type) : who' = who := by
  have hexact := h name height h0 hle
  simp only [hpast, hanswer] at hexact
  obtain ⟨type', howned⟩ := hexact
  cases howned
  rfl

/-- No call of `idx_db_epochs_update` in the replay of a rollback changes a row: after every replayed
block the table is what the cut left. -/
def ReplayIdle (n : Chronicle) (toHeight : ℤ) : Prop :=
  let t := pruneTables n.tables toHeight
  let oracle := oracleRollback n.oracle (toHeight + 1)
  ∀ i, (replayTables sha256 idxAttribute oracle (idxDbWatchList t.watch)
    ((idxDbRawblockIter t.db toHeight).take i) (smNew activation) t).2.2.epochs = t.epochs

def RollbackIdle (n : Chronicle) : ChronicleOp → Prop
  | .rollback toHeight => ReplayIdle sha256 idxAttribute activation n toHeight
  | _ => True

/-! ### The steps that keep it -/

def runOf (chain : List ChainBlock) : RawRun := chain.map fun b => (b.raw, b.kept)

/-- The blocks of a chain as the fold sees them, each with whether it was begun. -/
def marked (chain : List ChainBlock) (begun : List Bool) : List (FoldBlock × Bool) :=
  ((liveRun sha256 idxAttribute coin activation (runOf chain)).map Prod.fst).zip begun

/-- The condition on a step: a connected block parses, a rollback stays on the chain, and what the
blocks end that the fold has not begun then is made up for. -/
def ChronicleOp.Safe (n : Chronicle) : ChronicleOp → Prop
  | .register _ => True
  | .loadWatch => True
  | .connect raw => Parses sha256 raw ∧
      Timely sha256 (smNew activation) (marked sha256 idxAttribute coin activation
        (n.chain ++ [n.nextBlock sha256 idxAttribute raw]) (n.begun ++ [true]))
  | .rollback toHeight => coin.start ≤ toHeight ∧ toHeight ≤ n.height ∧
      let chain := n.chain.filter fun b => b.height ≤ toHeight
      Timely sha256 (smNew activation)
        (marked sha256 idxAttribute coin activation chain (chain.map ChainBlock.kept))

instance (n : Chronicle) (op : ChronicleOp) :
    Decidable (op.Safe sha256 idxAttribute coin activation n) :=
  match op with
  | .register _ => isTrue trivial
  | .loadWatch => isTrue trivial
  | .connect _ => inferInstanceAs (Decidable (_ ∧ _))
  | .rollback _ => inferInstanceAs (Decidable (_ ∧ _ ∧ _))

/-! ### Chains of blocks -/

section Chains

variable {sha256 idxAttribute coin activation} {chain : List ChainBlock} {begun : List Bool}

/-- The state of the live fold after `k` blocks of a chain. -/
def liveAt (sha256 : Bytes → Hash256) (idxAttribute : Bytes → ℕ → Option (H160 × Byte)) (coin : Coin)
    (activation : UInt64) (chain : List ChainBlock) (k : ℕ) : SmState :=
  foldBlocks sha256 (smNew activation)
    (((liveRun sha256 idxAttribute coin activation (runOf chain)).map Prod.fst).take k)

theorem runOf_take (k : ℕ) : runOf (chain.take k) = (runOf chain).take k := List.map_take

theorem parses_runOf (h : ∀ b ∈ chain, Parses sha256 b.raw) :
    ∀ blk ∈ runOf chain, Parses sha256 blk.1 := by
  intro blk hblk
  obtain ⟨b, hb, rfl⟩ := List.mem_map.mp hblk
  exact h b hb

theorem liveRun_length :
    (liveRun sha256 idxAttribute coin activation (runOf chain)).length = chain.length := by
  unfold liveRun runOf
  rw [liveBlocks_length, List.length_map]

theorem liveRun_take (k : ℕ) : liveRun sha256 idxAttribute coin activation (runOf (chain.take k))
    = (liveRun sha256 idxAttribute coin activation (runOf chain)).take k := by
  unfold liveRun
  rw [runOf_take, liveBlocks_take]

theorem liveAt_take {j k : ℕ} (h : j ≤ k) :
    liveAt sha256 idxAttribute coin activation (chain.take k) j
      = liveAt sha256 idxAttribute coin activation chain j := by
  unfold liveAt
  rw [liveRun_take, List.map_take, List.take_take, min_eq_left h]

variable (idxAttribute coin activation) in
/-- The block that `raw` is to the fold at the tip. -/
theorem liveRun_snoc (h : ∀ b ∈ chain, Parses sha256 b.raw) (b : ChainBlock) :
    let tip := connectAll sha256 idxAttribute (fresh coin activation) (runOf chain)
    (liveRun sha256 idxAttribute coin activation (runOf (chain ++ [b]))).map Prod.fst
      = (liveRun sha256 idxAttribute coin activation (runOf chain)).map Prod.fst ++
        [blockAt sha256 idxAttribute tip.oracle (tip.height + 1) b.raw] := by
  intro tip
  have hsnoc := liveBlocks_snoc idxAttribute (n := fresh coin activation) (parses_runOf h)
    (b.raw, b.kept)
  have hrun : runOf (chain ++ [b]) = runOf chain ++ [(b.raw, b.kept)] := List.map_append
  have hall := congrArg (List.map Prod.fst) hsnoc
  rw [List.map_append] at hall
  unfold liveRun
  rw [hrun]
  exact hall

variable (idxAttribute coin activation) in
theorem liveAt_snoc (h : ∀ b ∈ chain, Parses sha256 b.raw) (b : ChainBlock) :
    let tip := connectAll sha256 idxAttribute (fresh coin activation) (runOf chain)
    (∀ k ≤ chain.length, liveAt sha256 idxAttribute coin activation (chain ++ [b]) k
      = liveAt sha256 idxAttribute coin activation chain k) ∧
    liveAt sha256 idxAttribute coin activation (chain ++ [b]) (chain.length + 1)
      = foldBlock sha256 (liveAt sha256 idxAttribute coin activation chain chain.length)
          (blockAt sha256 idxAttribute tip.oracle (tip.height + 1) b.raw) := by
  intro tip
  have hsnoc := liveRun_snoc idxAttribute coin activation h b
  have hlen : ((liveRun sha256 idxAttribute coin activation (runOf chain)).map Prod.fst).length
      = chain.length := by
    rw [List.length_map, liveRun_length]
  unfold liveAt
  rw [hsnoc]
  refine ⟨fun k hk => ?_, ?_⟩
  · rw [List.take_append_of_le_length (hlen.symm ▸ hk)]
  · rw [← hlen, List.take_length, List.take_of_length_le (by simp)]
    unfold foldBlocks
    rw [List.foldl_append]
    rfl

variable (sha256 idxAttribute coin activation) in
theorem marked_fst (h : begun.length = chain.length) :
    (marked sha256 idxAttribute coin activation chain begun).map Prod.fst
      = (liveRun sha256 idxAttribute coin activation (runOf chain)).map Prod.fst := by
  unfold marked
  refine List.map_fst_zip ?_
  rw [List.length_map, liveRun_length, h]

variable (idxAttribute coin activation) in
theorem marked_snoc (h : ∀ b ∈ chain, Parses sha256 b.raw) (hlen : begun.length = chain.length)
    (b : ChainBlock) :
    let tip := connectAll sha256 idxAttribute (fresh coin activation) (runOf chain)
    marked sha256 idxAttribute coin activation (chain ++ [b]) (begun ++ [true])
      = marked sha256 idxAttribute coin activation chain begun ++
        [(blockAt sha256 idxAttribute tip.oracle (tip.height + 1) b.raw, true)] := by
  intro tip
  have hsnoc := liveRun_snoc idxAttribute coin activation h b
  unfold marked
  rw [hsnoc, List.zip_append]
  · rfl
  · rw [List.length_map, liveRun_length, hlen]

/-- Where a rollback went, the blocks that were begun are the ones kept. -/
theorem marked_kept (h : ∀ b ∈ chain, b.kept = false →
      (blockTxs sha256 idxAttribute b.raw).isEmpty = true) :
    marked sha256 idxAttribute coin activation chain (chain.map ChainBlock.kept)
      = liveRun sha256 idxAttribute coin activation (runOf chain) := by
  have hlive : ∀ (chain : List ChainBlock), (∀ b ∈ chain, b.kept = false →
      (blockTxs sha256 idxAttribute b.raw).isEmpty = true) → ∀ (oracle : OracleFeed) (height : ℤ),
      ((liveBlocks sha256 idxAttribute oracle height (runOf chain)).map Prod.fst).zip
          (chain.map ChainBlock.kept)
        = liveBlocks sha256 idxAttribute oracle height (runOf chain) := by
    intro chain
    induction chain with
    | nil => exact fun _ _ _ => rfl
    | cons b chain ih =>
      intro hb oracle height
      have hrest := ih (fun b' hb' => hb b' (List.mem_cons_of_mem _ hb'))
        (recordBlock sha256 oracle (height + 1) b.raw) (height + 1)
      have hflag : (!(blockTxs sha256 idxAttribute b.raw).isEmpty || b.kept) = b.kept := by
        cases hk : b.kept with
        | true => exact Bool.or_true _
        | false => rw [hb b (List.mem_cons_self ..) hk]; rfl
      change (blockAt sha256 idxAttribute oracle (height + 1) b.raw, b.kept) :: _
        = (blockAt sha256 idxAttribute oracle (height + 1) b.raw,
            !(blockTxs sha256 idxAttribute b.raw).isEmpty || b.kept) :: _
      rw [hflag]
      exact congrArg (List.cons _) hrest
  exact hlive chain h _ _

variable (coin activation) in
theorem marked_rising (hlen : begun.length = chain.length)
    (hbare : ∀ bk ∈ chain.zip begun, bk.2 = false →
      (blockTxs sha256 idxAttribute bk.1.raw).isEmpty = true) :
    Rising (marked sha256 idxAttribute coin activation chain begun) := by
  have hempty : ∀ (chain : List ChainBlock) (begun : List Bool),
      (∀ bk ∈ chain.zip begun, bk.2 = false →
        (blockTxs sha256 idxAttribute bk.1.raw).isEmpty = true) →
      ∀ (oracle : OracleFeed) (height : ℤ),
      ∀ x ∈ ((liveBlocks sha256 idxAttribute oracle height (runOf chain)).map Prod.fst).zip begun,
        x.2 = false → x.1.txs = [] := by
    intro chain
    induction chain with
    | nil => exact fun _ _ _ _ x hx => absurd hx List.not_mem_nil
    | cons b chain ih =>
      intro begun hb oracle height x hx hf
      cases begun with
      | nil => exact absurd hx (by simp)
      | cons k begun =>
        rcases List.mem_cons.mp hx with rfl | hx
        · exact List.isEmpty_iff.mp (hb (b, k) (List.mem_cons_self ..) hf)
        · exact ih begun (fun bk hbk => hb bk (List.mem_cons_of_mem _ hbk)) _ _ x hx hf
  obtain ⟨hlow, hup⟩ : (∀ bk ∈ liveRun sha256 idxAttribute coin activation (runOf chain),
      (coin.start : ℤ) < bk.1.height) ∧ ((liveRun sha256 idxAttribute coin activation
        (runOf chain)).map Prod.fst).Pairwise fun b b' : FoldBlock => b.height < b'.height :=
    liveBlocks_heights idxAttribute _ _
  have hfst := marked_fst sha256 idxAttribute coin activation hlen
  refine ⟨hempty chain begun hbare _ _, fun bk hbk => ?_, ?_⟩
  · have hmem : bk.1 ∈ (marked sha256 idxAttribute coin activation chain begun).map Prod.fst :=
      List.mem_map_of_mem hbk
    rw [hfst] at hmem
    obtain ⟨x, hx, hxb⟩ := List.mem_map.mp hmem
    have hlt := hlow x hx
    rw [hxb] at hlt
    omega
  · rw [← List.pairwise_map (f := Prod.fst) (R := fun b b' : FoldBlock => b.height < b'.height), hfst]
    exact hup

end Chains

/-! ### A replay -/

section Replay

variable {sha256 idxAttribute}

theorem mem_of_ownerOn {epochs : List Epoch} {name : Name} {height : ℤ} {owner : H160}
    (h : ownerOn epochs name height = some owner) : ∃ e ∈ epochs, e.name = name := by
  obtain ⟨e, he, -⟩ := Option.bind_eq_some_iff.mp h
  obtain ⟨hmem, hn, -⟩ := lastEpoch_some he
  exact ⟨e, hmem, hn⟩

theorem ownerOf_mem {s : SmState} (hs : WellKeyed s) {r : SmNameRow} (hr : r ∈ s.names) :
    ownerOf s.names r.name = some r.owner := by
  unfold ownerOf
  rw [RowTable.lookup_of_mem SmNameRow.name hs.names hr]
  rfl

theorem ownerOf_obs (s : SmState) (name : Name) :
    ownerOf s.names name = ((obs s).names name).map Deed.owner := by
  change _ = ((RowTable.lookup SmNameRow.name s.names name).map deed).map Deed.owner
  rw [Option.map_map]
  rfl

theorem recordEpochs_same {t : Tables} {s s' : SmState} {b : FoldBlock}
    (hfrom : t.epochsFrom = some 0) (h : idxDbEpochsUpdate t.epochs s' b.height = t.epochs) :
    recordEpochs t s s' b = t := by
  unfold recordEpochs
  split
  · rw [h, hfrom]
    change { t with epochsFrom := some 0 } = t
    rw [← hfrom]
  · rfl

/-- A replay behind the live fold finds every owner on record. -/
theorem replayTables_idle {n : Node} {blocks : RawRun} {oracle : OracleFeed} (watch : List H160)
    (hn : Chained n) (hp : ∀ blk ∈ blocks, Parses sha256 blk.1)
    (ho : oracle.below ((connectAll sha256 idxAttribute n blocks).height + 1)
      = (connectAll sha256 idxAttribute n blocks).oracle)
    {c r : SmState} {ms : List ℤ} {P : H160 → ℤ → Prop}
    (howes : Owes sha256 c r (liveBlocks sha256 idxAttribute n.oracle n.height blocks) ms P)
    {t : Tables} (hk : Keyed t.epochs) (hfrom : t.epochsFrom = some 0)
    (hexact : ∀ j < blocks.length, ∀ name, ownerOn t.epochs name (n.height + j + 1)
      = ownerOf (foldBlocks sha256 c (((liveBlocks sha256 idxAttribute n.oracle n.height
          blocks).map Prod.fst).take (j + 1))).names name)
    (hnames : ∀ r' ∈ r.names, ∃ e ∈ t.epochs, e.name = r'.name) :
    let rows := keptRows sha256 idxAttribute n.height blocks
    let s' := foldBlocks sha256 r
      (keptBlocks (liveBlocks sha256 idxAttribute n.oracle n.height blocks))
    (∀ i, (replayTables sha256 idxAttribute oracle watch (rows.take i) r t).2.2.epochs = t.epochs) ∧
      (∃ utxos, replayTables sha256 idxAttribute oracle watch rows r t
        = (true, s', { t with utxos })) ∧
      ∀ r' ∈ s'.names, ∃ e ∈ t.epochs, e.name = r'.name := by
  induction blocks generalizing n c r ms P t with
  | nil =>
    refine ⟨fun i => ?_, ⟨t.utxos, rfl⟩, hnames⟩
    change (replayTables sha256 idxAttribute oracle watch (List.take i []) r t).2.2.epochs = _
    rw [List.take_nil]
    rfl
  | cons blk blocks ih =>
    obtain ⟨raw, walletTouched⟩ := blk
    have hblk := hp (raw, walletTouched) (List.mem_cons_self ..)
    have htail := fun b hb => hp b (List.mem_cons_of_mem _ hb)
    obtain ⟨m, hm, -, hor, hh, -, -⟩ := connect_parses idxAttribute n walletTouched hblk
    have hblock := blockAt_feed idxAttribute hn hp ho raw
    have hchained := hn.connect idxAttribute walletTouched hblk
    have hrest := @ih (n.connect sha256 idxAttribute raw walletTouched)
    rw [hor, hh] at hrest
    let b := blockAt sha256 idxAttribute n.oracle (n.height + 1) raw
    have hshift : ∀ j < blocks.length, ∀ name, ownerOn t.epochs name (n.height + 1 + j + 1)
        = ownerOf (foldBlocks sha256 (foldBlock sha256 c b) (((liveBlocks sha256 idxAttribute
            (recordBlock sha256 n.oracle (n.height + 1) raw) (n.height + 1)
            blocks).map Prod.fst).take (j + 1))).names name := by
      intro j hj name
      have hnext := hexact (j + 1) (Nat.succ_lt_succ hj) name
      rw [show n.height + ((j + 1 : ℕ) : ℤ) + 1 = n.height + 1 + j + 1 by push_cast; ring] at hnext
      exact hnext
    simp only [keptRows, liveBlocks, blockAt_txs] at howes ⊢
    cases hkept : (!(blockTxs sha256 idxAttribute raw).isEmpty || walletTouched) with
    | false =>
      rw [hkept] at howes
      obtain ⟨ms', P', howes'⟩ := howes.skipped
      simp only [Bool.false_eq_true, if_false, List.nil_append]
      exact hrest hchained htail ho howes' hk hfrom hshift hnames
    | true =>
      rw [hkept] at howes
      obtain ⟨halike, howes'⟩ := howes.begun
      have hkeyed := howes'.keyed
      have hsame : ∀ name, ownerOn t.epochs name b.height = ownerOf (foldBlock sha256 r b).names name := by
        intro name
        have hfirst := hexact 0 (Nat.succ_pos _) name
        rw [show n.height + ((0 : ℕ) : ℤ) + 1 = n.height + 1 by simp] at hfirst
        refine Eq.trans hfirst ?_
        change ownerOf (foldBlock sha256 c b).names name = _
        rw [ownerOf_obs, ownerOf_obs, halike.names]
      have hidle := idxDbEpochsUpdate_same hk hkeyed.names hsame
      have hnames' : ∀ r' ∈ (foldBlock sha256 r b).names, ∃ e ∈ t.epochs, e.name = r'.name :=
        fun r' hr' => mem_of_ownerOn ((hsame r'.name).trans (ownerOf_mem hkeyed hr'))
      -- the tables after this block differ in the wallet's part at most
      let t' : Tables := { t with
        utxos := (watchBlock watch (n.height + 1) t.utxos (idxParseBlock sha256 raw).1).1 }
      have hrecord : recordEpochs t' r (foldBlock sha256 r b) b = t' := recordEpochs_same hfrom hidle
      have htables : Keyed t'.epochs := hk
      obtain ⟨htake, ⟨utxos, hreplay⟩, hlast⟩ :=
        hrest hchained htail ho howes' htables hfrom hshift hnames'
      have hstep : ∀ rows, replayTables sha256 idxAttribute oracle watch (⟨n.height + 1, raw⟩ :: rows) r t
          = replayTables sha256 idxAttribute oracle watch rows (foldBlock sha256 r b) t' := by
        intro rows
        rw [replayTables]
        simp only [hm, hblock]
        rw [hrecord]
      simp only [if_true, List.singleton_append]
      refine ⟨fun i => ?_, ⟨utxos, ?_⟩, hlast⟩
      · cases i with
        | zero => rfl
        | succ i =>
          rw [List.take_succ_cons, hstep]
          exact htake i
      · rw [hstep, hreplay]
        rfl

end Replay

/-! ### What every state of a run meets -/

section Invariant

variable {sha256 idxAttribute coin activation}

variable (sha256 idxAttribute coin activation) in
/-- The history is that of the live fold of the chain. -/
structure Records (t : Tables) (chain : List ChainBlock) : Prop where
  keyed : Keyed t.epochs
  since : t.epochsFrom = some 0
  above : ∀ e ∈ t.epochs, (coin.start : ℤ) < e.startHeight
  upTo : ∀ e ∈ t.epochs, e.startHeight ≤ coin.start + chain.length
  owners : ∀ k ≤ chain.length, ∀ name, ownerOn t.epochs name (coin.start + k)
    = ownerOf (liveAt sha256 idxAttribute coin activation chain k).names name
  projected : ∀ r ∈ t.db.names, ∃ e ∈ t.epochs, e.name = r.name

variable (sha256 idxAttribute coin activation) in
/-- The chain, and the fold in memory behind the live fold of it. -/
structure ChronicleSound (n : Chronicle) : Prop where
  parses : ∀ b ∈ n.chain, Parses sha256 b.raw
  bare : ∀ b ∈ n.chain, b.kept = false → (blockTxs sha256 idxAttribute b.raw).isEmpty = true
  cut : ∀ k ≤ n.chain.length,
    n.chain.filter (fun b => b.height ≤ (coin.start : ℤ) + (k : ℤ)) = n.chain.take k
  height : n.height = coin.start + n.chain.length
  oracle : n.oracle = (connectAll sha256 idxAttribute (fresh coin activation) (runOf n.chain)).oracle
  rows : n.tables.db.rawBlocks
    = (connectAll sha256 idxAttribute (fresh coin activation) (runOf n.chain)).db.rawBlocks
  marks : n.begun.length = n.chain.length
  unbegun : ∀ bk ∈ n.chain.zip n.begun, bk.2 = false → bk.1.kept = false
  keyed : WellKeyed n.s
  state : SameTables (obs n.s) (obs (foldBlocks sha256 (smNew activation)
    (keptBlocks (marked sha256 idxAttribute coin activation n.chain n.begun))))
  records : Records sha256 idxAttribute coin activation n.tables n.chain
  past : ∀ k ≤ n.chain.length, ∀ name, ownerOf (n.past (coin.start + k)).names name
    = ownerOf (liveAt sha256 idxAttribute coin activation n.chain k).names name
  early : ∀ height < (coin.start : ℤ), n.past height = smNew activation

theorem chronicleSound_fresh :
    ChronicleSound sha256 idxAttribute coin activation (freshChronicle coin activation) where
  parses := fun b hb => absurd hb List.not_mem_nil
  bare := fun b hb => absurd hb List.not_mem_nil
  cut := fun k _ => (List.take_nil (i := k)).symm
  height := (add_zero _).symm
  oracle := rfl
  rows := rfl
  marks := rfl
  unbegun := fun bk hbk => absurd hbk List.not_mem_nil
  keyed := wellKeyed_smNew activation
  state := ⟨rfl, rfl, rfl, rfl⟩
  records :=
    { keyed := List.nodup_nil
      since := rfl
      above := fun e he => absurd he List.not_mem_nil
      upTo := fun e he => absurd he List.not_mem_nil
      owners := fun k hk name => by
        rw [show k = 0 from Nat.le_zero.mp hk]
        rfl
      projected := fun r hr => absurd hr List.not_mem_nil }
  past := fun k hk name => by
    rw [show k = 0 from Nat.le_zero.mp hk]
    rfl
  early := fun _ _ => rfl

/-- The history gives what the fold had. -/
theorem ChronicleSound.historyExact {n : Chronicle}
    (hn : ChronicleSound sha256 idxAttribute coin activation n) : HistoryExact n := by
  intro name height h0 hle
  have hrec := hn.records
  have hpos : ∀ e ∈ n.tables.epochs, 0 < e.startHeight := by
    intro e he
    have hlt := hrec.above e he
    omega
  have hanswer := idxDbOwnerAt_eq hpos hrec.projected h0 name
  have howner : ownerOn n.tables.epochs name height = ownerOf (n.past height).names name := by
    by_cases hlow : height < coin.start
    · have hnone : lastEpoch n.tables.epochs name height = none :=
        Timeline.last_none.mpr fun e he _ => lt_trans hlow (hrec.above e he)
      unfold ownerOn
      rw [hnone, hn.early height hlow]
      rfl
    · obtain ⟨k, rfl⟩ : ∃ k : ℕ, height = coin.start + k := ⟨(height - coin.start).toNat, by omega⟩
      have hk : k ≤ n.chain.length := by
        rw [hn.height] at hle
        omega
      rw [hrec.owners k hk, hn.past k hk]
  intro answer
  have hgoal : answer
      = idxDbOwnerAt n.tables.epochs (some 0) n.tables.db.names name height := by
    change idxDbOwnerAt _ _ _ _ _ = _
    rw [hrec.since]
  rw [hgoal, ← howner]
  exact hanswer

/-! ### Connecting a block -/

section Connect

variable {n : Chronicle} (hn : ChronicleSound sha256 idxAttribute coin activation n)

include hn

theorem ChronicleSound.rising : Rising (marked sha256 idxAttribute coin activation n.chain n.begun) :=
  marked_rising coin activation hn.marks fun bk hbk hf =>
    hn.bare bk.1 (List.of_mem_zip hbk).1 (hn.unbegun bk hbk hf)

omit hn in
/-- Blocks do not see what the tables do not hold. -/
theorem obs_foldBlock_congr {s t : SmState} (hs : WellKeyed s) (ht : WellKeyed t)
    (h : SameTables (obs s) (obs t)) (b : FoldBlock) :
    obs (foldBlock sha256 s b) = obs (foldBlock sha256 t b) := by
  rw [(hs.tracks.foldBlock sha256 b).obs_eq, (ht.tracks.foldBlock sha256 b).obs_eq]
  unfold Ledger.foldBlock
  rw [beginBlock_of_sameTables h]

/-- The fold in memory, the live fold, and the block they both begin next. -/
theorem ChronicleSound.next {b : FoldBlock}
    (htimely : Timely sha256 (smNew activation)
      (marked sha256 idxAttribute coin activation n.chain n.begun ++ [(b, true)]))
    (hrising : Rising (marked sha256 idxAttribute coin activation n.chain n.begun ++ [(b, true)])) :
    let live := liveAt sha256 idxAttribute coin activation n.chain n.chain.length
    (obs n.s).SellersOwn ∧
      (∀ name, ownerOf (foldBlock sha256 n.s b).names name
        = ownerOf (foldBlock sha256 live b).names name) ∧
      ∀ name owner, ownerOf live.names name = some owner → ownerOf n.s.names name = some owner := by
  intro live
  have hself := owes_self (wellKeyed_smNew activation)
    (fun name d hd => by cases hd) htimely hrising
  obtain ⟨ms, P, howes⟩ := hself.run
  have hlen : ((liveRun sha256 idxAttribute coin activation (runOf n.chain)).map Prod.fst).length
      = n.chain.length := by
    rw [List.length_map, liveRun_length]
  have hlive : foldBlocks sha256 (smNew activation)
      ((marked sha256 idxAttribute coin activation n.chain n.begun).map Prod.fst) = live := by
    change _ = liveAt _ _ _ _ _ _
    unfold liveAt
    rw [marked_fst sha256 idxAttribute coin activation hn.marks, ← hlen, List.take_length]
  rw [hlive] at howes
  have hown : (obs n.s).SellersOwn := by
    intro name d hd
    rw [hn.state.names] at hd
    exact howes.owns name d hd
  refine ⟨hown, fun name => ?_, fun name owner ho => ?_⟩
  · rw [ownerOf_obs, ownerOf_obs, obs_foldBlock_congr hn.keyed howes.keyed hn.state b,
      howes.begun.1.names]
  · rw [ownerOf_obs] at ho ⊢
    obtain ⟨d, hd, rfl⟩ := Option.map_eq_some_iff.mp ho
    obtain ⟨e, he, heq⟩ := howes.behind.owner howes.owns hd
    rw [hn.state.names, he, Option.map_some, heq]

end Connect

/-- A block that moves no name leaves every owner. -/
theorem ownerOf_quiet {s : SmState} {b : FoldBlock} (hs : WellKeyed s) (hown : (obs s).SellersOwn)
    (h : movesNames s (foldBlock sha256 s b) b = false) :
    b.txs = [] ∧ ∀ name, ownerOf (foldBlock sha256 s b).names name = ownerOf s.names name := by
  unfold movesNames at h
  rw [Bool.or_eq_false_iff, Bool.not_eq_false', List.isEmpty_iff, decide_eq_false_iff_not,
    not_not] at h
  obtain ⟨htxs, hev⟩ := h
  have hstart : foldBlock sha256 s b = smBeginBlock s b.height b.mtp b.rate := by
    unfold foldBlock
    rw [htxs]
    rfl
  rw [hstart] at hev
  have hquiet := (noLapse_of_ev hev).beginBlock b.height b.rate
  refine ⟨htxs, fun name => ?_⟩
  have hnames : (obs (foldBlock sha256 s b)).names name = ((obs s).names name).map (Deed.close b.mtp) := by
    rw [(hs.tracks.foldBlock sha256 b).obs_eq]
    unfold Ledger.foldBlock
    rw [htxs]
    exact congrFun hquiet.names name
  rw [ownerOf_obs, ownerOf_obs, hnames]
  cases hd : (obs s).names name with
  | none => rfl
  | some d => exact congrArg some ((hown name d hd).close b.mtp).1

/-- A block without transactions gives no name an owner. -/
theorem ownerOf_bare {s : SmState} {b : FoldBlock} (hs : WellKeyed s) (htxs : b.txs = [])
    {name : Name} (h : ownerOf s.names name = none) :
    ownerOf (foldBlock sha256 s b).names name = none := by
  rw [ownerOf_obs] at h ⊢
  have hnone : (obs s).names name = none := by
    cases hd : (obs s).names name with
    | none => rfl
    | some d =>
      rw [hd] at h
      cases h
  rw [(hs.tracks.foldBlock sha256 b).obs_eq]
  unfold Ledger.foldBlock
  rw [htxs]
  change ((Ledger.beginBlock (obs s) b.height b.mtp b.rate).names name).map Deed.owner = none
  rw [Ledger.beginBlock_names, hnone]
  rfl

theorem wellKeyed_liveAt (chain : List ChainBlock) (k : ℕ) :
    WellKeyed (liveAt sha256 idxAttribute coin activation chain k) :=
  ((wellKeyed_smNew activation).tracks.foldBlocks sha256 _).keyed

variable (idxAttribute) in
theorem connectTables_connected (watch : List H160) (s : SmState) (oracle : OracleFeed) (t : Tables)
    (height : ℤ) {raw : Bytes} (h : Parses sha256 raw) :
    let b := blockAt sha256 idxAttribute oracle height raw
    let o := connectTables sha256 idxAttribute watch s oracle t height raw
    o.s = foldBlock sha256 s b ∧ o.oracle = recordBlock sha256 oracle height raw ∧
      o.tables.db.names = t.db.names ∧
      o.tables.epochs = (recordEpochs t s (foldBlock sha256 s b) b).epochs ∧
      o.tables.epochsFrom = (recordEpochs t s (foldBlock sha256 s b) b).epochsFrom := by
  obtain ⟨m, hm⟩ := Option.isSome_iff_exists.mp h
  unfold connectTables connectBlock recordBlock
  simp only [hm, if_true, recordEpochs_db, connectWrites_db]
  unfold recordEpochs
  refine ⟨trivial, trivial, trivial, ?_, ?_⟩ <;> split <;> rfl

/-- What a block adds to the history. -/
theorem Records.connect {t t' : Tables} {chain : List ChainBlock}
    (hrec : Records sha256 idxAttribute coin activation t chain)
    (hp : ∀ b ∈ chain, Parses sha256 b.raw) {s : SmState} (hs : WellKeyed s)
    (hown : (obs s).SellersOwn) {nb : ChainBlock} {b : FoldBlock}
    (hb : b = blockAt sha256 idxAttribute
      (connectAll sha256 idxAttribute (fresh coin activation) (runOf chain)).oracle
      ((connectAll sha256 idxAttribute (fresh coin activation) (runOf chain)).height + 1) nb.raw)
    (hheight : b.height = coin.start + chain.length + 1)
    (hsame : ∀ name, ownerOf (foldBlock sha256 s b).names name
      = ownerOf (foldBlock sha256
          (liveAt sha256 idxAttribute coin activation chain chain.length) b).names name)
    (hback : ∀ name owner,
      ownerOf (liveAt sha256 idxAttribute coin activation chain chain.length).names name = some owner →
        ownerOf s.names name = some owner)
    (hnames : t'.db.names = t.db.names)
    (hepochs : t'.epochs = (recordEpochs t s (foldBlock sha256 s b) b).epochs)
    (hfrom : t'.epochsFrom = (recordEpochs t s (foldBlock sha256 s b) b).epochsFrom) :
    Records sha256 idxAttribute coin activation t' (chain ++ [nb]) := by
  have hs' := (hs.tracks.foldBlock sha256 b).keyed
  obtain ⟨hold, hnew⟩ := liveAt_snoc idxAttribute coin activation hp nb
  rw [← hb] at hnew
  have hlen : (chain ++ [nb]).length = chain.length + 1 := List.length_append
  have hupTo : ∀ e ∈ t.epochs, e.startHeight ≤ b.height := by
    intro e he
    have hle := hrec.upTo e he
    omega
  -- the heights of the chain so far, and the new one
  have howners : ∀ epochs' : List Epoch,
      (∀ name h, h < b.height → lastEpoch epochs' name h = lastEpoch t.epochs name h) →
      (∀ name, ownerOn epochs' name b.height = ownerOf (foldBlock sha256 s b).names name) →
      ∀ k ≤ (chain ++ [nb]).length, ∀ name, ownerOn epochs' name (coin.start + k)
        = ownerOf (liveAt sha256 idxAttribute coin activation (chain ++ [nb]) k).names name := by
    intro epochs' hbefore hat k hk name
    rw [hlen] at hk
    rcases Nat.lt_or_ge chain.length k with hlt | hle
    · have hkn : k = chain.length + 1 := by omega
      subst hkn
      rw [hnew, ← hsame, ← hat, hheight]
      push_cast
      rw [add_assoc]
    · rw [hold k hle, ← hrec.owners k hle]
      unfold ownerOn
      rw [hbefore name _ (by omega)]
  unfold recordEpochs at hepochs hfrom
  cases hmoves : movesNames s (foldBlock sha256 s b) b with
  | true =>
    rw [hmoves] at hepochs hfrom
    obtain ⟨hw, hat⟩ := idxDbEpochsUpdate_writes hrec.keyed hupTo hs'.names
    change t'.epochs = idxDbEpochsUpdate t.epochs (foldBlock sha256 s b) b.height at hepochs
    change t'.epochsFrom = idxDbEpochsMark t.epochsFrom b.height at hfrom
    rw [← hepochs] at hw hat
    refine ⟨hw.keyed, ?_, fun e he => ?_, fun e he => ?_, howners _ hw.before hat, fun r hr => ?_⟩
    · rw [hfrom, hrec.since]
      rfl
    · rcases hw.rows e he with hx | hx
      · exact hrec.above e hx
      · omega
    · have hle := hw.upTo e he
      rw [hlen]
      push_cast
      omega
    · rw [hnames] at hr
      obtain ⟨e, he, hn⟩ := hrec.projected r hr
      obtain ⟨e', he', hn'⟩ := hw.kept e he
      exact ⟨e', he', hn'.trans hn⟩
  | false =>
    rw [hmoves] at hepochs hfrom
    change t'.epochs = t.epochs at hepochs
    change t'.epochsFrom = t.epochsFrom at hfrom
    obtain ⟨htxs, hquiet⟩ := ownerOf_quiet hs hown hmoves
    have hat : ∀ name, ownerOn t.epochs name b.height = ownerOf (foldBlock sha256 s b).names name := by
      intro name
      have hlast : lastEpoch t.epochs name b.height
          = lastEpoch t.epochs name (coin.start + chain.length) :=
        Timeline.last_later (by omega) hrec.upTo
      have hprev : ownerOn t.epochs name b.height
          = ownerOf (liveAt sha256 idxAttribute coin activation chain chain.length).names name := by
        rw [← hrec.owners chain.length le_rfl]
        unfold ownerOn
        rw [hlast]
      rw [hprev]
      cases ho : ownerOf (liveAt sha256 idxAttribute coin activation chain chain.length).names name with
      | some owner => rw [hquiet, hback name owner ho]
      | none => rw [hsame, ownerOf_bare (wellKeyed_liveAt chain _) htxs ho]
    rw [← hepochs] at hat
    have hbefore : ∀ name h, h < b.height → lastEpoch t'.epochs name h = lastEpoch t.epochs name h := by
      intro name h _
      rw [hepochs]
    refine ⟨hepochs ▸ hrec.keyed, hfrom.trans hrec.since, fun e he => ?_, fun e he => ?_,
      howners _ hbefore hat, fun r hr => ?_⟩
    · exact hrec.above e (hepochs ▸ he)
    · have hle := hrec.upTo e (hepochs ▸ he)
      rw [hlen]
      push_cast
      omega
    · rw [hepochs]
      exact hrec.projected r (hnames ▸ hr)

theorem keptBlocks_snoc (bs : List (FoldBlock × Bool)) (b : FoldBlock) :
    keptBlocks (bs ++ [(b, true)]) = keptBlocks bs ++ [b] := by
  unfold keptBlocks
  rw [List.filter_append, List.map_append]
  rfl

theorem ChronicleSound.connect {n : Chronicle}
    (hn : ChronicleSound sha256 idxAttribute coin activation n) {raw : Bytes}
    (hp : Parses sha256 raw)
    (htimely : Timely sha256 (smNew activation) (marked sha256 idxAttribute coin activation
      (n.chain ++ [n.nextBlock sha256 idxAttribute raw]) (n.begun ++ [true]))) :
    ChronicleSound sha256 idxAttribute coin activation (n.connect sha256 idxAttribute raw) := by
  let nb := n.nextBlock sha256 idxAttribute raw
  let b := blockAt sha256 idxAttribute n.oracle (n.height + 1) raw
  have htipHeight : (connectAll sha256 idxAttribute (fresh coin activation) (runOf n.chain)).height
      = n.height := by
    rw [connectAll_height idxAttribute (parses_runOf hn.parses), hn.height]
    unfold runOf
    rw [List.length_map]
    rfl
  have hb : b = blockAt sha256 idxAttribute
      (connectAll sha256 idxAttribute (fresh coin activation) (runOf n.chain)).oracle
      ((connectAll sha256 idxAttribute (fresh coin activation) (runOf n.chain)).height + 1) nb.raw := by
    rw [htipHeight, ← hn.oracle]
    rfl
  have hmarked : marked sha256 idxAttribute coin activation (n.chain ++ [nb]) (n.begun ++ [true])
      = marked sha256 idxAttribute coin activation n.chain n.begun ++ [(b, true)] := by
    rw [hb]
    exact marked_snoc idxAttribute coin activation hn.parses hn.marks nb
  have hbare : ∀ b' ∈ n.chain ++ [nb], b'.kept = false →
      (blockTxs sha256 idxAttribute b'.raw).isEmpty = true := by
    intro b' hb' hk
    rcases List.mem_append.mp hb' with hx | hx
    · exact hn.bare b' hx hk
    · rw [List.mem_singleton.mp hx] at hk ⊢
      have hor := (Bool.or_eq_false_iff.mp hk).1
      rwa [Bool.not_eq_false'] at hor
  have hlen : (n.chain ++ [nb]).length = n.chain.length + 1 := List.length_append
  have hmarks : (n.begun ++ [true]).length = (n.chain ++ [nb]).length := by
    rw [List.length_append, List.length_append, hn.marks]
    rfl
  have hunbegun : ∀ bk ∈ (n.chain ++ [nb]).zip (n.begun ++ [true]), bk.2 = false →
      bk.1.kept = false := by
    intro bk hbk hf
    rw [List.zip_append hn.marks.symm] at hbk
    rcases List.mem_append.mp hbk with hx | hx
    · exact hn.unbegun bk hx hf
    · rw [List.mem_singleton.mp hx] at hf
      cases hf
  have hrising := marked_rising coin activation hmarks fun bk hbk hf =>
      hbare bk.1 (List.of_mem_zip hbk).1 (hunbegun bk hbk hf)
  change Timely sha256 (smNew activation) (marked sha256 idxAttribute coin activation
    (n.chain ++ [nb]) (n.begun ++ [true])) at htimely
  rw [hmarked] at htimely hrising
  obtain ⟨hown, hsame, hback⟩ := hn.next htimely hrising
  obtain ⟨hok, -, -, -, hrows⟩ :=
    connectTables_parses idxAttribute n.s n.oracle n.tables (n.height + 1) n.watch hp
  obtain ⟨hs, ho, hnames, hepochs, hfrom⟩ := connectTables_connected idxAttribute n.watch n.s n.oracle
    n.tables (n.height + 1) hp
  -- the node after the block
  have hnode : n.connect sha256 idxAttribute raw
      = { s := foldBlock sha256 n.s b, oracle := recordBlock sha256 n.oracle (n.height + 1) raw,
          tables := (connectTables sha256 idxAttribute n.watch n.s n.oracle n.tables (n.height + 1)
            raw).tables,
          height := n.height + 1, watch := n.watch, chain := n.chain ++ [nb], begun := n.begun ++ [true],
          past := Function.update n.past (n.height + 1) (foldBlock sha256 n.s b) } := by
    unfold Chronicle.connect WalletNode.connect
    simp only [hok, if_true, if_pos hp, hs, ho]
    rfl
  rw [hnode]
  have hrun : runOf (n.chain ++ [nb]) = runOf n.chain ++ [(raw, nb.kept)] := List.map_append
  obtain ⟨m, -, -, hto, -, -, htdb⟩ := connect_parses idxAttribute
    (connectAll sha256 idxAttribute (fresh coin activation) (runOf n.chain)) nb.kept hp
  rw [htipHeight, ← hn.oracle] at hto
  have htip : connectAll sha256 idxAttribute (fresh coin activation) (runOf (n.chain ++ [nb]))
      = (connectAll sha256 idxAttribute (fresh coin activation) (runOf n.chain)).connect sha256
          idxAttribute raw nb.kept := by
    rw [hrun, connectAll_append]
    rfl
  have hall : n.chain.filter (fun b => b.height ≤ (coin.start : ℤ) + (n.chain.length : ℤ)) = n.chain := by
    rw [hn.cut _ le_rfl, List.take_length]
  obtain ⟨hold, hnew⟩ := liveAt_snoc idxAttribute coin activation hn.parses nb
  rw [← hb] at hnew
  refine ⟨?_, hbare, ?_, ?_, ?_, ?_, hmarks, hunbegun, (hn.keyed.tracks.foldBlock sha256 b).keyed,
    ?_, ?_, ?_, ?_⟩
  · intro b' hb'
    rcases List.mem_append.mp hb' with hx | hx
    · exact hn.parses b' hx
    · rw [List.mem_singleton.mp hx]
      exact hp
  · intro k hk
    change k ≤ (n.chain ++ [nb]).length at hk
    change (n.chain ++ [nb]).filter _ = (n.chain ++ [nb]).take k
    have hnb : nb.height = coin.start + n.chain.length + 1 := by
      change n.height + 1 = _
      rw [hn.height]
    rw [List.filter_append]
    rcases Nat.lt_or_ge n.chain.length k with hlt | hle
    · have hkn : k = n.chain.length + 1 := by omega
      have hself : n.chain.filter (fun b => b.height ≤ (coin.start : ℤ) + (k : ℤ)) = n.chain := by
        refine List.filter_eq_self.mpr fun b' hb' => ?_
        have hle := List.filter_eq_self.mp hall b' hb'
        rw [decide_eq_true_eq] at hle ⊢
        omega
      rw [hself, List.filter_cons_of_pos (by rw [decide_eq_true_eq]; omega),
        List.take_of_length_le (by rw [hlen]; omega)]
      rfl
    · rw [hn.cut k hle, List.take_append_of_le_length hle,
        List.filter_cons_of_neg (by rw [decide_eq_true_eq]; omega)]
      exact List.append_nil _
  · change n.height + 1 = coin.start + ((n.chain ++ [nb]).length : ℤ)
    rw [hlen, hn.height]
    push_cast
    ring
  · change recordBlock sha256 n.oracle (n.height + 1) raw = _
    rw [htip]
    exact hto.symm
  · refine hrows.trans ?_
    rw [htip, htdb, ← hn.rows, htipHeight]
    have hflag : (!(blockTxs sha256 idxAttribute raw).isEmpty || nb.kept) = nb.kept := by
      change (_ || (_ || _)) = (_ || _)
      rw [← Bool.or_assoc, Bool.or_self]
    rw [hflag]
    rfl
  · rw [hmarked, keptBlocks_snoc]
    have hkept := ((wellKeyed_smNew activation).tracks.foldBlocks sha256
      (keptBlocks (marked sha256 idxAttribute coin activation n.chain n.begun))).keyed
    unfold foldBlocks at hkept ⊢
    rw [List.foldl_append]
    change SameTables (obs (foldBlock sha256 n.s b)) (obs (foldBlock sha256 _ b))
    rw [obs_foldBlock_congr hn.keyed hkept hn.state b]
    exact SameTables.refl _
  · exact hn.records.connect hn.parses hn.keyed hown hb
      (by change n.height + 1 = _; rw [hn.height]) hsame hback hnames hepochs hfrom
  · intro k hk name
    change k ≤ (n.chain ++ [nb]).length at hk
    change ownerOf (Function.update n.past (n.height + 1) (foldBlock sha256 n.s b)
      (coin.start + k)).names name = ownerOf (liveAt _ _ _ _ (n.chain ++ [nb]) k).names name
    rcases Nat.lt_or_ge n.chain.length k with hlt | hle
    · have hkn : k = n.chain.length + 1 := by omega
      subst hkn
      have hat : (coin.start : ℤ) + ((n.chain.length + 1 : ℕ) : ℤ) = n.height + 1 := by
        rw [hn.height]
        push_cast
        ring
      rw [hat, Function.update_self, hnew, hsame]
    · rw [Function.update_of_ne (by rw [hn.height]; omega), hold k hle]
      exact hn.past k hle name
  · intro height hlt
    change Function.update n.past (n.height + 1) (foldBlock sha256 n.s b) height = _
    rw [Function.update_of_ne (by rw [hn.height]; omega)]
    exact hn.early height hlt

/-! ### Rolling back -/

/-- A cut of the table leaves what it says of the heights below. -/
theorem ownerOn_cut {epochs : List Epoch} {name : Name} {height cut : ℤ} (h : height ≤ cut) :
    ownerOn (epochs.filter fun e => e.startHeight ≤ cut) name height = ownerOn epochs name height := by
  unfold ownerOn
  exact congrArg (fun o => Option.bind o Epoch.owner) (Timeline.last_cut h)

section Rollback

variable {n : Chronicle} (hn : ChronicleSound sha256 idxAttribute coin activation n) {k : ℕ}
  (hk : k ≤ n.chain.length)
  (htimely : Timely sha256 (smNew activation)
    (liveRun sha256 idxAttribute coin activation (runOf (n.chain.take k))))

include hn hk htimely

/-- The replay up to a height of the chain. -/
theorem ChronicleSound.replay :
    let t := pruneTables n.tables (coin.start + k)
    let oracle := oracleRollback n.oracle (coin.start + k + 1)
    let s' := foldBlocks sha256 (smNew activation)
      (keptBlocks (liveRun sha256 idxAttribute coin activation (runOf (n.chain.take k))))
    oracle = (connectAll sha256 idxAttribute (fresh coin activation) (runOf (n.chain.take k))).oracle ∧
    idxDbRawblockIter t.db (coin.start + k)
      = keptRows sha256 idxAttribute coin.start (runOf (n.chain.take k)) ∧
    ReplayIdle sha256 idxAttribute activation n (coin.start + k) ∧
    (∃ utxos, replayTables sha256 idxAttribute oracle (idxDbWatchList t.watch)
      (idxDbRawblockIter t.db (coin.start + k)) (smNew activation) t = (true, s', { t with utxos })) ∧
    ∀ r ∈ s'.names, ∃ e ∈ t.epochs, e.name = r.name := by
  intro t oracle s'
  have hparses := parses_runOf hn.parses
  have hkrun : k ≤ (runOf n.chain).length := by
    unfold runOf
    rw [List.length_map]
    exact hk
  have hfeed : oracle
      = (connectAll sha256 idxAttribute (fresh coin activation) (runOf (n.chain.take k))).oracle := by
    change oracleRollback n.oracle _ = _
    rw [hn.oracle, rollback_feed sha256 idxAttribute coin activation hparses hkrun, runOf_take]
  have hrows : idxDbRawblockIter t.db (coin.start + k)
      = keptRows sha256 idxAttribute coin.start (runOf (n.chain.take k)) := by
    change OrderedTable.upTo RawRow.height _ (OrderedTable.upTo RawRow.height _ n.tables.db.rawBlocks) = _
    rw [OrderedTable.upTo_upTo RawRow.height (le_refl _), hn.rows,
      rollback_rows sha256 idxAttribute coin activation hparses hkrun, runOf_take]
  have hpre : ∀ blk ∈ runOf (n.chain.take k), Parses sha256 blk.1 :=
    parses_runOf fun b hb => hn.parses b (List.mem_of_mem_take hb)
  have hchain := chained_fresh coin activation
  have hrising : Rising (liveRun sha256 idxAttribute coin activation (runOf (n.chain.take k))) := by
    refine ⟨liveBlocks_empty idxAttribute _ _, fun bk hbk => ?_, ?_⟩
    · have hlt := (liveBlocks_heights idxAttribute _ _).1 bk hbk
      omega
    · have hup : ((liveRun sha256 idxAttribute coin activation (runOf (n.chain.take k))).map
          Prod.fst).Pairwise fun b b' : FoldBlock => b.height < b'.height :=
        (liveBlocks_heights idxAttribute _ _).2
      rw [List.pairwise_map] at hup
      exact hup
  have howes := owes_self (wellKeyed_smNew activation) (fun name d hd => by cases hd) htimely hrising
  have hlen : (runOf (n.chain.take k)).length = k := by
    unfold runOf
    rw [List.length_map, List.length_take, min_eq_left hk]
  have hexact : ∀ j < (runOf (n.chain.take k)).length, ∀ name,
      ownerOn t.epochs name ((fresh coin activation).height + j + 1)
        = ownerOf (foldBlocks sha256 (smNew activation) (((liveBlocks sha256 idxAttribute
            (fresh coin activation).oracle (fresh coin activation).height
            (runOf (n.chain.take k))).map Prod.fst).take (j + 1))).names name := by
    intro j hj name
    rw [hlen] at hj
    have hat : (fresh coin activation).height + (j : ℤ) + 1 = coin.start + ((j + 1 : ℕ) : ℤ) := by
      change (coin.start : ℤ) + j + 1 = _
      push_cast
      ring
    have hprev := hn.records.owners (j + 1) (by omega) name
    rw [← liveAt_take (show j + 1 ≤ k from hj)] at hprev
    rw [hat]
    refine Eq.trans (ownerOn_cut ?_) hprev
    push_cast
    omega
  have hkeyed : Keyed t.epochs := List.Nodup.sublist (List.filter_sublist.map _) hn.records.keyed
  have hoself : oracle.below ((connectAll sha256 idxAttribute (fresh coin activation)
      (runOf (n.chain.take k))).height + 1)
      = (connectAll sha256 idxAttribute (fresh coin activation) (runOf (n.chain.take k))).oracle := by
    rw [hfeed]
    exact (hchain.run idxAttribute hpre).below_self
  obtain ⟨hidle, hreplay, hnames⟩ := replayTables_idle (idxDbWatchList t.watch) hchain hpre
    hoself howes hkeyed hn.records.since hexact fun r hr => absurd hr List.not_mem_nil
  refine ⟨hfeed, hrows, ?_, ?_, hnames⟩
  · intro i
    change (replayTables sha256 idxAttribute oracle _ ((idxDbRawblockIter t.db _).take i) _ t).2.2.epochs
      = t.epochs
    rw [hrows]
    exact hidle i
  · rw [hrows]
    exact hreplay

/-- The node that the rollback leaves. -/
theorem ChronicleSound.rollback_eq :
    ∃ t : Tables,
      n.rollback sha256 idxAttribute coin activation (coin.start + k)
        = { s := { foldBlocks sha256 (smNew activation) (keptBlocks (liveRun sha256 idxAttribute coin
              activation (runOf (n.chain.take k)))) with curHeight := coin.start + k },
            oracle := oracleRollback n.oracle (coin.start + k + 1),
            tables := t, height := coin.start + k, watch := n.watch, chain := n.chain.take k,
            begun := (n.chain.take k).map ChainBlock.kept, past := n.past } ∧
      t.epochs = (pruneTables n.tables (coin.start + k)).epochs ∧
      t.epochsFrom = n.tables.epochsFrom ∧
      t.db.rawBlocks = (pruneTables n.tables (coin.start + k)).db.rawBlocks ∧
      ∀ r ∈ t.db.names, ∃ e ∈ t.epochs, e.name = r.name := by
  obtain ⟨-, -, -, ⟨utxos, hreplay⟩, hnames⟩ := hn.replay hk htimely
  have hkeyed : WellKeyed (foldBlocks sha256 (smNew activation) (keptBlocks (liveRun sha256
      idxAttribute coin activation (runOf (n.chain.take k))))) :=
    ((wellKeyed_smNew activation).tracks.foldBlocks sha256 _).keyed
  generalize hs : foldBlocks sha256 (smNew activation) (keptBlocks (liveRun sha256 idxAttribute coin
    activation (runOf (n.chain.take k)))) = s' at hreplay hnames hkeyed ⊢
  have hout : rollbackTables sha256 idxAttribute n.oracle n.tables activation (coin.start + k)
      = ⟨true, { s' with curHeight := coin.start + k }, oracleRollback n.oracle (coin.start + k + 1),
          { pruneTables n.tables (coin.start + k) with
            utxos, db := projectDb (pruneTables n.tables (coin.start + k)).db
              { s' with curHeight := coin.start + k } }⟩ := by
    unfold rollbackTables
    dsimp only
    rw [hreplay]
    rfl
  have hnode : ∃ db : Db, db.names = (projectDb (pruneTables n.tables (coin.start + k)).db
        { s' with curHeight := coin.start + k }).names ∧
      db.rawBlocks = (projectDb (pruneTables n.tables (coin.start + k)).db
        { s' with curHeight := coin.start + k }).rawBlocks ∧
      n.rollback sha256 idxAttribute coin activation (coin.start + k)
        = { s := { s' with curHeight := coin.start + k },
            oracle := oracleRollback n.oracle (coin.start + k + 1),
            tables := { pruneTables n.tables (coin.start + k) with utxos, db },
            height := coin.start + k, watch := n.watch,
            chain := n.chain.filter fun b => b.height ≤ (coin.start : ℤ) + (k : ℤ),
            begun := (n.chain.filter fun b => b.height ≤ (coin.start : ℤ) + (k : ℤ)).map
              ChainBlock.kept,
            past := n.past } := by
    unfold Chronicle.rollback WalletNode.rollback
    simp only [hout, if_true]
    exact ⟨Db.writes _ (idxDbSaveSync (coin.start + k) _), rfl, rfl, rfl⟩
  obtain ⟨db, hdbNames, hdbRows, hnode⟩ := hnode
  rw [hn.cut k hk] at hnode
  refine ⟨_, hnode, rfl, rfl, hdbRows.trans (projectDb_rawBlocks _ _), fun r hr => hnames r ?_⟩
  have hproject : (projectDb (pruneTables n.tables (coin.start + k)).db
      { s' with curHeight := coin.start + k }).names = s'.names := by
    unfold projectDb
    rw [if_pos ⟨hkeyed.names, hkeyed.muts⟩]
  rw [← hproject, ← hdbNames]
  exact hr

theorem ChronicleSound.rollback :
    ChronicleSound sha256 idxAttribute coin activation
      (n.rollback sha256 idxAttribute coin activation (coin.start + k)) := by
  obtain ⟨hfeed, hrows, -, -, -⟩ := hn.replay hk htimely
  obtain ⟨t, hnode, hepochs, hfrom, hraw, hnames⟩ := hn.rollback_eq hk htimely
  have hkeyed : WellKeyed (foldBlocks sha256 (smNew activation) (keptBlocks (liveRun sha256
      idxAttribute coin activation (runOf (n.chain.take k))))) :=
    ((wellKeyed_smNew activation).tracks.foldBlocks sha256 _).keyed
  have hbare : ∀ b ∈ n.chain.take k, b.kept = false →
      (blockTxs sha256 idxAttribute b.raw).isEmpty = true :=
    fun b hb => hn.bare b (List.mem_of_mem_take hb)
  have hlen : (n.chain.take k).length = k := by
    rw [List.length_take, min_eq_left hk]
  have hcut : ∀ j ≤ (n.chain.take k).length,
      (n.chain.take k).filter (fun b => b.height ≤ (coin.start : ℤ) + (j : ℤ))
        = (n.chain.take k).take j := by
    intro j hj
    rw [hlen] at hj
    rw [← hn.cut k hk, List.filter_filter, hn.cut k hk, List.take_take, min_eq_left hj,
      ← hn.cut j (hj.trans hk)]
    refine List.filter_congr fun b _ => ?_
    rw [← Bool.decide_and, decide_eq_decide]
    omega
  have hrowsEq : t.db.rawBlocks
      = (connectAll sha256 idxAttribute (fresh coin activation) (runOf (n.chain.take k))).db.rawBlocks := by
    have hpre : ∀ blk ∈ runOf (n.chain.take k), Parses sha256 blk.1 :=
      parses_runOf fun b hb => hn.parses b (List.mem_of_mem_take hb)
    rw [hraw, (chained_fresh coin activation).run_rawBlocks idxAttribute hpre]
    change _ = [] ++ keptRows sha256 idxAttribute coin.start _
    rw [List.nil_append, ← hrows]
    exact (OrderedTable.upTo_upTo RawRow.height (le_refl _)).symm
  have hunbegun : ∀ bk ∈ (n.chain.take k).zip ((n.chain.take k).map ChainBlock.kept),
      bk.2 = false → bk.1.kept = false := by
    intro bk hbk hf
    rw [← List.map_prod_left_eq_zip, List.mem_map] at hbk
    obtain ⟨b, -, rfl⟩ := hbk
    exact hf
  have hrecords : Records sha256 idxAttribute coin activation t (n.chain.take k) := by
    have hrec := hn.records
    refine ⟨?_, hfrom.trans hrec.since, fun e he => ?_, fun e he => ?_, fun j hj name => ?_, hnames⟩
    · rw [hepochs]
      exact List.Nodup.sublist (List.filter_sublist.map _) hrec.keyed
    · rw [hepochs] at he
      exact hrec.above e (List.mem_of_mem_filter he)
    · rw [hepochs] at he
      have hle := (List.mem_filter.mp he).2
      rw [decide_eq_true_eq] at hle
      rw [hlen]
      exact hle
    · rw [hlen] at hj
      rw [liveAt_take hj, ← hrec.owners j (hj.trans hk), hepochs]
      exact ownerOn_cut (by omega)
  rw [hnode]
  refine ⟨fun b hb => hn.parses b (List.mem_of_mem_take hb), hbare, hcut, ?_, hfeed, hrowsEq,
    List.length_map _, hunbegun, ⟨hkeyed.names, hkeyed.muts⟩, ?_, hrecords, fun j hj name => ?_,
    hn.early⟩
  · rw [hlen]
  · rw [marked_kept hbare]
    exact ⟨rfl, rfl, rfl, rfl⟩
  · rw [hlen] at hj
    rw [liveAt_take hj]
    exact hn.past j (hj.trans hk) name

end Rollback

/-- A safe step keeps the history, and a safe rollback writes none of it anew. -/
theorem ChronicleSound.op {n : Chronicle}
    (hn : ChronicleSound sha256 idxAttribute coin activation n) {op : ChronicleOp}
    (hop : op.Safe sha256 idxAttribute coin activation n) :
    ChronicleSound sha256 idxAttribute coin activation (n.op sha256 idxAttribute coin activation op) ∧
      RollbackIdle sha256 idxAttribute activation n op := by
  cases op with
  | register h160 =>
    refine ⟨⟨hn.parses, hn.bare, hn.cut, hn.height, hn.oracle, hn.rows, hn.marks, hn.unbegun, hn.keyed,
      hn.state, ?_, hn.past, hn.early⟩, trivial⟩
    exact ⟨hn.records.keyed, hn.records.since, hn.records.above, hn.records.upTo, hn.records.owners,
      hn.records.projected⟩
  | loadWatch =>
    exact ⟨⟨hn.parses, hn.bare, hn.cut, hn.height, hn.oracle, hn.rows, hn.marks, hn.unbegun, hn.keyed,
      hn.state, hn.records, hn.past, hn.early⟩, trivial⟩
  | connect raw => exact ⟨hn.connect hop.1 hop.2, trivial⟩
  | rollback toHeight =>
    obtain ⟨hlow, hhigh, htimely⟩ := hop
    obtain ⟨k, rfl⟩ : ∃ k : ℕ, toHeight = coin.start + k :=
      ⟨(toHeight - coin.start).toNat, by omega⟩
    have hk : k ≤ n.chain.length := by
      rw [hn.height] at hhigh
      omega
    change Timely sha256 (smNew activation) (marked sha256 idxAttribute coin activation
      (n.chain.filter fun b => b.height ≤ (coin.start : ℤ) + (k : ℤ))
      ((n.chain.filter fun b => b.height ≤ (coin.start : ℤ) + (k : ℤ)).map ChainBlock.kept)) at htimely
    rw [hn.cut k hk, marked_kept fun b hb => hn.bare b (List.mem_of_mem_take hb)] at htimely
    exact ⟨hn.rollback hk htimely, (hn.replay hk htimely).2.2.1⟩

end Invariant

/-- In a run of safe steps the history is exact in every state, and no replay writes to it. -/
theorem history_exact (ops : List ChronicleOp)
    (hops : Run.Along (Chronicle.op sha256 idxAttribute coin activation)
      (fun n op => op.Safe sha256 idxAttribute coin activation n) (freshChronicle coin activation)
      ops) :
    Run.Throughout (Chronicle.op sha256 idxAttribute coin activation) HistoryExact
        (freshChronicle coin activation) ops ∧
      Run.Along (Chronicle.op sha256 idxAttribute coin activation)
        (RollbackIdle sha256 idxAttribute activation) (freshChronicle coin activation) ops := by
  have hstep : ∀ (n : Chronicle) (op : ChronicleOp),
      ChronicleSound sha256 idxAttribute coin activation n →
      op.Safe sha256 idxAttribute coin activation n →
      ChronicleSound sha256 idxAttribute coin activation
          (n.op sha256 idxAttribute coin activation op) ∧
        RollbackIdle sha256 idxAttribute activation n op := fun n op hn hop => hn.op hop
  refine ⟨?_, Run.along_of_keeps hstep ops chronicleSound_fresh hops⟩
  exact Run.throughout_of_keeps (fun n op hn hop => (hstep n op hn hop).1)
    (fun n hn => hn.historyExact) ops chronicleSound_fresh hops

/-! ### A lease that ends at a block that is not kept -/

/-- Commits to the names `a` and `b`. -/
def commitsTx : Bytes :=
  ofHex 32 0x0100000001111111111111111111111111111111111111111111111111111111 ++
  ofHex 32 0x1111111111000000006b483045022100aca800e06c2cf2e649e702d967086a69 ++
  ofHex 32 0xb5fd3e9f649b3f4ee4ea297d311f3a95022058c67977c40484a7a367ae6de19b ++
  ofHex 32 0xfdaedd00362230f4abe3be7691265666d78401210279be667ef9dcbbac55a062 ++
  ofHex 32 0x95ce870b07029bfcdb2dce28d959f2815b16f81798ffffffff02000000000000 ++
  ofHex 32 0x0000266a24ff504e032e8ff201d5a3ee1c5a8f45c5a1f2c8e52fd7d280751277 ++
  ofHex 32 0x3b6aa6e2a73e9d9b620000000000000000266a24ff504e032acfb6f6cc369bf6 ++
  ofHex 28 0xa28577d561457a1424bc8e11d091b4ea8bb827de820228fe00000000

/-- Claims `a` for 28 days and `b` for a year. -/
def claimsTx : Bytes :=
  ofHex 32 0x0100000001222222222222222222222222222222222222222222222222222222 ++
  ofHex 32 0x2222222222000000006a47304402205762621faa82fcff56d2c36c74b81c8fd4 ++
  ofHex 32 0xe9a507a76a2a5251c71553abe7f1030220658679b1ad6bd1e8b8af72f18cce26 ++
  ofHex 32 0x64d7912535263d56760cc97be4c417553501210279be667ef9dcbbac55a06295 ++
  ofHex 32 0xce870b07029bfcdb2dce28d959f2815b16f81798ffffffff0201000000000000 ++
  ofHex 32 0x00276a25ff504e04000000000000000000000000000000000000000000000000 ++
  ofHex 32 0x0000000000000000610e00000000000000276a25ff504e040000000000000000 ++
  ofHex 29 0x0000000000000000000000000000000000000000000000006200000000

/-- Gives away the first name of the signer, as seen at height 3. -/
def giftTx : Bytes :=
  ofHex 32 0x0100000001333333333333333333333333333333333333333333333333333333 ++
  ofHex 32 0x3333333333000000006b483045022100f6620fe9ab1efa558206a3aedf8f5585 ++
  ofHex 32 0x43cd49c8fb84962f3b4afa0cde331f0402203668c1d9567e75e71ce5b87051da ++
  ofHex 32 0x341ec084906183386176a5812cb145ba657201210279be667ef9dcbbac55a062 ++
  ofHex 32 0x95ce870b07029bfcdb2dce28d959f2815b16f81798ffffffff01000000000000 ++
  ofHex 32 0x0000206a1eff504e061111111111111111111111111111111111111111030000 ++
  ofHex 7 0x00000100000000

/-- The coinbase of the block at `height`. -/
def coinbaseAt (height : Byte) : Bytes :=
  ofHex 32 0x0100000001000000000000000000000000000000000000000000000000000000 ++
  ofHex 10 0x0000000000ffffffff02 ++ [1, height] ++
  ofHex 32 0xffffffff010010a5d4e80000001976a914751e76e8199196d454941c45d1b3a3 ++
  ofHex 11 0x23f1433bd688ac00000000

/-- The headers; `a` has run out at the third. -/
def leaseHeader : ℕ → Bytes
  | 1 => headerOf 0
      0xa6afa258340fd43250da238e7552671e0225dab9371d3fe0598622259b25d846 1000
  | 2 => headerOf 0xf76ef0e47bb2c7c84932e70d0cc40239f22a284fb96fe6a55ce58f8689e4c52d
      0x04e410c2c7450354eb32955955b0e25dece564094cb28c59bb42646c6d596c3e 3000000
  | 3 => headerOf 0xfdbe0060e94e184d86fbac1a11502ecabd034c3e4e15b95cc9bec8bf6f43e59a
      0xc39c78bc3f8b91902cc7f4b4ba39b2798ec71d9f62c0ec3427c90210db9d5ca5 3000001
  | _ => headerOf 0x01eed093375a6f86fc306e136df9d1cc91ed4642e704ead631ac767b02e252b1
      0xfc2ddc7c1396206d6441aed75c7a1d459a6e68408a34385665071b96389e0b0c 3000002

/-- The blocks; the third has no carrier. -/
def leaseBlock : ℕ → Bytes
  | 1 => leaseHeader 1 ++ [2] ++ coinbaseAt 1 ++ commitsTx
  | 2 => leaseHeader 2 ++ [2] ++ coinbaseAt 2 ++ claimsTx
  | 3 => leaseHeader 3 ++ [1] ++ coinbaseAt 3
  | _ => leaseHeader 4 ++ [2] ++ coinbaseAt 4 ++ giftTx

/-- What is hashed twice, with both hashes. -/
def leaseHashes : List (Bytes × ℕ × ℕ) :=
  [(coinbaseAt 1,
    0x5d5a760835e65a8283845b2a6ee407b41f3fdb091c76064f8162f8353749afd2,
    0x1c333ea39e368aea3475073a9b7c7e1410b73dc910bef483a047b901830b7140),
   (commitsTx,
    0xf4963475a3e5424192a7d9517ca8f2463a787aeb40abbb7587ccbdbbfd895a3e,
    0x44e3978cdf01df234651d600a4bcc1bb999936f49749e038ec4e79342e41bc29),
   (ofHex 32 0x1c333ea39e368aea3475073a9b7c7e1410b73dc910bef483a047b901830b7140 ++
      ofHex 32 0x44e3978cdf01df234651d600a4bcc1bb999936f49749e038ec4e79342e41bc29,
    0xee5f65c7c4b4c30e6fb90a92df70a18a58aadd6a53372d75cbef2c9d8d4c6e1f,
    0xa6afa258340fd43250da238e7552671e0225dab9371d3fe0598622259b25d846),
   (leaseHeader 1,
    0xe31727d57478d0aa24b90fd6ab57776319229dc1b6d937e732ec114cec78c231,
    0xf76ef0e47bb2c7c84932e70d0cc40239f22a284fb96fe6a55ce58f8689e4c52d),
   (coinbaseAt 2,
    0x87300bacddc3d9970f93c8897d03d098f06d3dabf8f289578b09210a2dc43583,
    0x1ff9f798bec6f747b9f3c0767b81d7ed0f4c5fbb282b8c7e3c70c898bafdc6dd),
   (claimsTx,
    0x33cf68975470246954a84610c3844a956a7a1b141b55759796cbb6d40b965819,
    0x0e615f9e920266d79b857435d2b8112e086d11139fc9a4f5acd2bb4d7b059529),
   (ofHex 32 0x1ff9f798bec6f747b9f3c0767b81d7ed0f4c5fbb282b8c7e3c70c898bafdc6dd ++
      ofHex 32 0x0e615f9e920266d79b857435d2b8112e086d11139fc9a4f5acd2bb4d7b059529,
    0xff3f7dc78eac0068a11b7bcb364ea35c521e6ad2139ea369b987cd5e76c2a770,
    0x04e410c2c7450354eb32955955b0e25dece564094cb28c59bb42646c6d596c3e),
   (leaseHeader 2,
    0xf014358acb0cad88f344f83e8b2cf84e68f35f9b628f2094c89ee35e276716ca,
    0xfdbe0060e94e184d86fbac1a11502ecabd034c3e4e15b95cc9bec8bf6f43e59a),
   (coinbaseAt 3,
    0x24e0988cea303579eaf5a72b6385fc39b72e08553fa26afcace8c57da0f2704a,
    0xc39c78bc3f8b91902cc7f4b4ba39b2798ec71d9f62c0ec3427c90210db9d5ca5),
   (leaseHeader 3,
    0x9f7d859e8b9247a7097d5762fc9e9f51a87a618e5ffbf51a430d75774f65d67d,
    0x01eed093375a6f86fc306e136df9d1cc91ed4642e704ead631ac767b02e252b1),
   (coinbaseAt 4,
    0x07150d3e88ac40d5c2e21c5bedf807b2b20b0dd03190739ed346438b5c58e8b6,
    0xb314b1d1c7d139d947cbcbee606f1c9aa99f79ace41e8368718f17996ea02337),
   (giftTx,
    0xcb8170db8415f19b519b35512f6430c366c8b53045637a16c809c76150c2c17c,
    0xadfe7a8d5e56ddba277f2bce020a130ecf0f4b138b8be8e1fd74b9c9b1b1b499),
   (ofHex 32 0xb314b1d1c7d139d947cbcbee606f1c9aa99f79ace41e8368718f17996ea02337 ++
      ofHex 32 0xadfe7a8d5e56ddba277f2bce020a130ecf0f4b138b8be8e1fd74b9c9b1b1b499,
    0x3adbf67fbca5e845fc34535c5dbb48f3576e70417e8ace47c8087636e3456aa2,
    0xfc2ddc7c1396206d6441aed75c7a1d459a6e68408a34385665071b96389e0b0c),
   (leaseHeader 4,
    0x67322bfc7366bc26efc29ff19e9ecce125b02cedb6034e62c42fc791f627ca07,
    0xae1543157e762fe67d94c54ffefd63b615b1902a4a640ebe6a5a80de05d3a028)]

def tenant : H160 := copyFrom 20 (ofHex 20 0x751e76e8199196d454941c45d1b3a323f1433bd6)

def receiver : H160 := copyFrom 20 (ofHex 20 0x1111111111111111111111111111111111111111)

def leaseSha256 : Bytes → Hash256 := hashTable (
  [((zeros 32).val ++ [97] ++ tenant.val,
    0x2e8ff201d5a3ee1c5a8f45c5a1f2c8e52fd7d2807512773b6aa6e2a73e9d9b62),
   ((zeros 32).val ++ [98] ++ tenant.val,
    0x2acfb6f6cc369bf6a28577d561457a1424bc8e11d091b4ea8bb827de820228fe)] ++
  leaseHashes.flatMap fun h => [(h.1, h.2.1), (ofHex 32 h.2.1, h.2.2)])

def leaseAttribute (raw : Bytes) (k : ℕ) : Option (H160 × Byte) :=
  if (raw = commitsTx ∨ raw = claimsTx ∨ raw = giftTx) ∧ k = 0 then some (tenant, 0) else none

/-- The block that ends the lease is connected, rolled back to, and connected again. -/
theorem history_exact_sample :
    let ops : List ChronicleOp := [.connect (leaseBlock 1), .connect (leaseBlock 2),
      .connect (leaseBlock 3), .rollback 3, .rollback 2, .connect (leaseBlock 3)]
    let step := Chronicle.op leaseSha256 leaseAttribute commitCoin 0
    Run.Throughout step HistoryExact (freshChronicle commitCoin 0) ops ∧
      Run.Along step (RollbackIdle leaseSha256 leaseAttribute 0) (freshChronicle commitCoin 0) ops :=
  history_exact leaseSha256 leaseAttribute commitCoin 0 _
    ⟨by decide +kernel, by decide +kernel, by decide +kernel, by decide +kernel, by decide +kernel,
      by decide +kernel, trivial⟩

/-- The fourth block gives `b` away, and its view is of the height where the lease of `a` ends. A
rollback to it ends that lease at the fourth block, refuses the gift, and writes the giver down as
the owner at a height where the fold had the receiver. -/
theorem replay_rewrites_owner :
    let ops : List ChronicleOp := [.connect (leaseBlock 1), .connect (leaseBlock 2),
      .connect (leaseBlock 3), .connect (leaseBlock 4), .rollback 4]
    let step := Chronicle.op leaseSha256 leaseAttribute commitCoin 0
    (∀ k ∈ [1, 2, 3, 4], Parses leaseSha256 (leaseBlock k)) ∧
      ¬ Run.Throughout step HistoryExact (freshChronicle commitCoin 0) ops ∧
      ¬ Run.Along step (RollbackIdle leaseSha256 leaseAttribute 0) (freshChronicle commitCoin 0)
        ops := by
  intro ops step
  refine ⟨by decide +kernel, fun h => ?_, fun h => ?_⟩
  · have hlast := @Run.Throughout.last _ _ step HistoryExact ops _ h
    have howner := hlast.owner_eq [98] 4 receiver tenant 0 (by norm_num) (by decide +kernel)
      (by decide +kernel) (by decide +kernel)
    exact absurd howner (by decide +kernel)
  · have hidle := h.2.2.2.2.1 3
    revert hidle
    decide +kernel

end NamespaceIndexer.Daemon
