import NamespaceIndexer.Daemon.Chain
import NamespaceIndexer.Lib.Coin
import NamespaceIndexer.Lib.RowTable

/-!
# Watched outputs (`db.c`, and `tx_cb` of `sync.c`)

The tables `watch` and `utxos`, what a block does to them, and what a rollback cuts.
-/

namespace NamespaceIndexer.Daemon

open Fold Lib

structure OutPoint where
  txid : Hash256
  vout : ℕ
  deriving DecidableEq

/-- A row of `utxos`, whose primary key is the outpoint. -/
structure Utxo where
  point : OutPoint
  h160 : H160
  value : ℤ
  height : ℤ
  spentHeight : Option ℤ := none
  deriving DecidableEq

/-- `IDX_MAX_WATCH`. -/
def maxWatch : ℕ := 16

/-- `idx_db_watch_add`. -/
def idxDbWatchAdd (watch : List H160) (h160 : H160) : List H160 :=
  if h160 ∈ watch then watch else watch ++ [h160]

/-- `idx_db_watch_list`, as `fold_load_watch` calls it. -/
def idxDbWatchList (watch : List H160) : List H160 := watch.take maxWatch

/-- `idx_db_utxo_put`: a row that is there stays as it is. -/
def idxDbUtxoPut (utxos : List Utxo) (u : Utxo) : List Utxo :=
  if u.point ∈ utxos.map Utxo.point then utxos else utxos ++ [u]

/-- `idx_db_utxo_spend`, with the number of rows it hit. -/
def idxDbUtxoSpend (utxos : List Utxo) (point : OutPoint) (height : ℤ) : List Utxo × ℕ :=
  (utxos.map fun u => if u.point = point then { u with spentHeight := some height } else u,
    (utxos.filter fun u => u.point = point).length)

/-- `idx_db_utxos`: the unspent rows of an address, the largest value first. -/
def idxDbUtxos (utxos : List Utxo) (h160 : H160) : List Utxo :=
  (utxos.filter fun u => u.h160 = h160 ∧ u.spentHeight = none).insertionSort
    fun a b => b.value ≤ a.value

/-- What `idx_db_block_prune_above` does to `utxos`. -/
def pruneUtxos (height : ℤ) (utxos : List Utxo) : List Utxo :=
  (utxos.filter fun u => u.height ≤ height).map fun u =>
    { u with spentHeight := u.spentHeight.filter fun h => h ≤ height }

/-- The watched address an output pays by P2PKH. -/
def watchedPayee (watch : List H160) (o : IdxOut) : Option H160 :=
  match idxScriptPayee o.spk with
  | some (h160, type) => if type = 0 ∧ h160 ∈ watch then some h160 else none
  | none => none

/-- The outpoint an input spends; a coinbase spends none. -/
def spentPoint (i : IdxIn) : Option OutPoint :=
  let vout := leVal ((i.prevout.drop 32).take 4)
  if vout = 0xFFFFFFFF then none else some ⟨copyFrom 32 i.prevout, vout⟩

variable (watch : List H160) (height : ℤ)

/-- One output in `tx_cb`; the flag is `wallet_touched`. -/
def watchOut (txid : Hash256) (w : List Utxo × Bool) (o : IdxOut) : List Utxo × Bool :=
  match watchedPayee watch o with
  | some h160 => (idxDbUtxoPut w.1 ⟨⟨txid, o.vout⟩, h160, o.value, height, none⟩, true)
  | none => w

/-- One input in `tx_cb`. -/
def watchIn (w : List Utxo × Bool) (i : IdxIn) : List Utxo × Bool :=
  match spentPoint i with
  | some point =>
    let (utxos, hits) := idxDbUtxoSpend w.1 point height
    (utxos, w.2 || decide (0 < hits))
  | none => w

/-- The wallet's part of `tx_cb`. -/
def watchTx (w : List Utxo × Bool) (tx : IdxTx) : List Utxo × Bool :=
  if watch.isEmpty then w
  else tx.ins.foldl (watchIn height) (tx.outs.foldl (watchOut watch height tx.txid) w)

/-- What the transactions of a block do to `utxos`, and whether they touched the wallet. -/
def watchBlock (utxos : List Utxo) (txs : List IdxTx) : List Utxo × Bool :=
  txs.foldl (watchTx watch height) (utxos, false)

/-! ### One outpoint -/

/-- What the table holds of an outpoint. -/
def markOf (utxos : List Utxo) (point : OutPoint) : Option (Coin.Mark (H160 × ℤ)) :=
  (RowTable.lookup Utxo.point utxos point).map fun u => ⟨(u.h160, u.value), u.height, u.spentHeight⟩

/-- What an output is to an outpoint. -/
def outEvents (point : OutPoint) (txid : Hash256) (o : IdxOut) : List (Coin.Event (H160 × ℤ)) :=
  match watchedPayee watch o with
  | some h160 => if ⟨txid, o.vout⟩ = point then [.fund (h160, o.value)] else []
  | none => []

def inEvents (point : OutPoint) (i : IdxIn) : List (Coin.Event (H160 × ℤ)) :=
  if spentPoint i = some point then [.spend] else []

def txEvents (point : OutPoint) (tx : IdxTx) : List (Coin.Event (H160 × ℤ)) :=
  tx.outs.flatMap (outEvents watch point tx.txid) ++ tx.ins.flatMap (inEvents point)

def blockEvents (point : OutPoint) (txs : List IdxTx) : List (Coin.Event (H160 × ℤ)) :=
  txs.flatMap (txEvents watch point)

section Outpoint

variable {watch height} {utxos : List Utxo} {point : OutPoint} {w : List Utxo × Bool}

theorem markOf_put (u : Utxo) (hu : u.spentHeight = none) :
    markOf (idxDbUtxoPut utxos u) point =
      if u.point = point then
        Coin.act u.height (markOf utxos point) (.fund (u.h160, u.value))
      else markOf utxos point := by
  unfold idxDbUtxoPut markOf
  by_cases hmem : u.point ∈ utxos.map Utxo.point
  · rw [if_pos hmem]
    by_cases hp : u.point = point
    · rw [if_pos hp]
      have hsome : RowTable.lookup Utxo.point utxos point ≠ none := by
        intro h
        rw [RowTable.lookup_eq_none, ← hp] at h
        exact h hmem
      obtain ⟨r, hr⟩ := Option.ne_none_iff_exists'.mp hsome
      rw [hr]
      rfl
    · rw [if_neg hp]
  · rw [if_neg hmem, RowTable.lookup_append, RowTable.lookup_cons, RowTable.lookup_nil]
    by_cases hp : u.point = point
    · have hnone : RowTable.lookup Utxo.point utxos point = none := by
        rw [RowTable.lookup_eq_none, ← hp]
        exact hmem
      rw [if_pos hp, if_pos hp, hnone, Option.none_or, Option.map_some, hu]
      rfl
    · rw [if_neg hp, if_neg hp, Option.or_none]

theorem markOf_spend (p : OutPoint) :
    markOf (idxDbUtxoSpend utxos p height).1 point =
      if p = point then Coin.act height (markOf utxos point) .spend else markOf utxos point := by
  have hkey : ∀ u : Utxo, (if u.point = p then { u with spentHeight := some height } else u).point =
      u.point := by
    intro u
    split <;> rfl
  unfold idxDbUtxoSpend markOf
  rw [RowTable.lookup_map Utxo.point hkey]
  cases hr : RowTable.lookup Utxo.point utxos point with
  | none =>
    split <;> rfl
  | some u =>
    have hu := RowTable.lookup_key Utxo.point hr
    by_cases hp : p = point
    · rw [if_pos hp, Option.map_some, if_pos (hu.trans hp.symm)]
      rfl
    · rw [if_neg hp, Option.map_some, if_neg fun h => hp (h.symm.trans hu)]

theorem spend_hits (p : OutPoint) :
    0 < (idxDbUtxoSpend utxos p height).2 ↔ markOf utxos p ≠ none := by
  unfold idxDbUtxoSpend markOf
  rw [List.length_pos_iff, Ne, List.filter_eq_nil_iff, Ne, Option.map_eq_none_iff,
    RowTable.lookup_eq_none, List.mem_map]
  simp only [decide_eq_true_eq, not_forall, not_not, exists_prop]

theorem distinct_put (h : RowTable.Distinct Utxo.point utxos) (u : Utxo) :
    RowTable.Distinct Utxo.point (idxDbUtxoPut utxos u) := by
  unfold idxDbUtxoPut
  split
  · exact h
  · rename_i hmem
    exact RowTable.distinct_append Utxo.point h ((RowTable.lookup_eq_none Utxo.point).mpr hmem)

theorem distinct_spend (h : RowTable.Distinct Utxo.point utxos) (p : OutPoint) :
    RowTable.Distinct Utxo.point (idxDbUtxoSpend utxos p height).1 := by
  refine (RowTable.distinct_map Utxo.point ?_).mpr h
  intro u
  split <;> rfl

theorem pruneUtxos_eq : pruneUtxos height utxos = utxos.filterMap fun u =>
    if u.height ≤ height then
      some { u with spentHeight := u.spentHeight.filter fun h => h ≤ height }
    else none := by
  unfold pruneUtxos
  induction utxos with
  | nil => rfl
  | cons u utxos ih =>
    rw [List.filter_cons, List.filterMap_cons]
    by_cases hu : u.height ≤ height
    · rw [if_pos (decide_eq_true hu), if_pos hu, List.map_cons, ih]
    · rw [if_neg (by simpa using hu), if_neg hu, ih]

theorem prune_key (u u' : Utxo) (h : (if u.height ≤ height then
      some { u with spentHeight := u.spentHeight.filter fun h => h ≤ height } else none) = some u') :
    u'.point = u.point := by
  split at h
  · cases h
    rfl
  · cases h

theorem distinct_prune (h : RowTable.Distinct Utxo.point utxos) :
    RowTable.Distinct Utxo.point (pruneUtxos height utxos) := by
  rw [pruneUtxos_eq]
  exact RowTable.distinct_filterMap Utxo.point h prune_key

theorem markOf_prune (h : RowTable.Distinct Utxo.point utxos) :
    markOf (pruneUtxos height utxos) point = Coin.cut height (markOf utxos point) := by
  unfold markOf
  rw [pruneUtxos_eq, RowTable.lookup_filterMap Utxo.point h prune_key]
  cases RowTable.lookup Utxo.point utxos point with
  | none => rfl
  | some u =>
    rw [Option.bind_some, Option.map_some]
    unfold Coin.cut
    by_cases hu : u.height ≤ height
    · rw [if_pos hu, Option.map_some, Option.filter_some, if_pos (decide_eq_true hu)]
      rfl
    · rw [if_neg hu, Option.filter_some, if_neg (by simpa using hu)]
      rfl

/-! ### The loops of `tx_cb` -/

theorem markOf_outs (txid : Hash256) (outs : List IdxOut) :
    markOf (outs.foldl (watchOut watch height txid) w).1 point =
      Coin.pass height (markOf w.1 point) (outs.flatMap (outEvents watch point txid)) := by
  induction outs generalizing w with
  | nil => rfl
  | cons o outs ih =>
    rw [List.foldl_cons, ih, List.flatMap_cons, Coin.pass_append]
    congr 1
    unfold watchOut outEvents
    cases watchedPayee watch o with
    | none => rfl
    | some h160 =>
      show markOf (idxDbUtxoPut w.1 _) point = _
      rw [markOf_put _ rfl]
      dsimp only
      split <;> rfl

theorem markOf_ins (ins : List IdxIn) :
    markOf (ins.foldl (watchIn height) w).1 point =
      Coin.pass height (markOf w.1 point) (ins.flatMap (inEvents point)) := by
  induction ins generalizing w with
  | nil => rfl
  | cons i ins ih =>
    rw [List.foldl_cons, ih, List.flatMap_cons, Coin.pass_append]
    congr 1
    unfold watchIn inEvents
    cases spentPoint i with
    | none =>
      rw [if_neg (Option.some_ne_none point).symm]
      rfl
    | some p =>
      show markOf (idxDbUtxoSpend w.1 p height).1 point = _
      rw [markOf_spend]
      by_cases hp : p = point
      · rw [if_pos hp, if_pos (congrArg some hp)]
        rfl
      · rw [if_neg hp, if_neg fun h => hp (Option.some_inj.mp h)]
        rfl

variable (point) in
/-- Where the flag stays down, no output paid a watched address. -/
theorem missed_outs {txid : Hash256} {outs : List IdxOut}
    (h : (outs.foldl (watchOut watch height txid) w).2 = false) :
    w.2 = false ∧
      Coin.Missed height (markOf w.1 point) (outs.flatMap (outEvents watch point txid)) := by
  induction outs generalizing w with
  | nil => exact ⟨h, trivial⟩
  | cons o outs ih =>
    rw [List.foldl_cons] at h
    obtain ⟨hflag, hrest⟩ := ih h
    rw [List.flatMap_cons]
    unfold watchOut at hflag hrest
    unfold outEvents
    cases hpay : watchedPayee watch o with
    | none =>
      rw [hpay] at hflag hrest
      exact ⟨hflag, hrest⟩
    | some h160 =>
      rw [hpay] at hflag
      cases hflag

variable (point) in
theorem missed_ins {ins : List IdxIn} (h : (ins.foldl (watchIn height) w).2 = false) :
    w.2 = false ∧ Coin.Missed height (markOf w.1 point) (ins.flatMap (inEvents point)) := by
  induction ins generalizing w with
  | nil => exact ⟨h, trivial⟩
  | cons i ins ih =>
    rw [List.foldl_cons] at h
    obtain ⟨hflag, hrest⟩ := ih h
    rw [List.flatMap_cons]
    unfold watchIn at hflag hrest
    unfold inEvents
    cases hpoint : spentPoint i with
    | none =>
      rw [hpoint] at hflag hrest
      rw [if_neg (Option.some_ne_none point).symm]
      exact ⟨hflag, hrest⟩
    | some p =>
      rw [hpoint] at hflag hrest
      dsimp only at hflag hrest
      rw [Bool.or_eq_false_iff, decide_eq_false_iff_not, spend_hits, not_not] at hflag
      refine ⟨hflag.1, ?_⟩
      rw [markOf_spend] at hrest
      by_cases hp : p = point
      · rw [if_pos (congrArg some hp)]
        rw [if_pos hp] at hrest
        exact ⟨hp ▸ hflag.2, hrest⟩
      · rw [if_neg fun h => hp (Option.some_inj.mp h)]
        rw [if_neg hp] at hrest
        exact hrest

theorem not_fund_of_nil (tx : IdxTx) (v : H160 × ℤ) :
    .fund v ∉ txEvents [] point tx := by
  intro hv
  rcases List.mem_append.mp hv with hv | hv
  · obtain ⟨o, _, ho⟩ := List.mem_flatMap.mp hv
    have hpay : watchedPayee [] o = none := by
      unfold watchedPayee
      split
      · exact if_neg fun h => absurd h.2 List.not_mem_nil
      · rfl
    unfold outEvents at ho
    rw [hpay] at ho
    cases ho
  · obtain ⟨i, _, hi⟩ := List.mem_flatMap.mp hv
    unfold inEvents at hi
    split at hi
    · rw [List.mem_singleton] at hi
      cases hi
    · cases hi

/-- While nothing is watched nothing is in the table. -/
def NoRows (watch : List H160) (utxos : List Utxo) : Prop := watch = [] → utxos = []

theorem markOf_nil {hnil : watch = []} (hw : NoRows watch utxos) : markOf utxos point = none := by
  rw [hw hnil]
  rfl

/-- While nothing is watched the loops do not run. -/
theorem markOf_watchTx (hw : NoRows watch w.1) (tx : IdxTx) :
    markOf (watchTx watch height w tx).1 point =
      Coin.pass height (markOf w.1 point) (txEvents watch point tx) := by
  unfold watchTx
  by_cases hempty : watch.isEmpty
  · have hnil := List.isEmpty_iff.mp hempty
    rw [if_pos hempty, markOf_nil hw, Coin.pass_none]
    · rw [hnil]
      exact not_fund_of_nil tx
    · exact hnil
  · rw [if_neg hempty, markOf_ins, markOf_outs]
    exact (Coin.pass_append ..).symm

variable (height) in
theorem noRows_watchTx (hw : NoRows watch w.1) (tx : IdxTx) :
    NoRows watch (watchTx watch height w tx).1 := by
  intro hnil
  unfold watchTx
  rw [if_pos (List.isEmpty_iff.mpr hnil)]
  exact hw hnil

variable (point) in
theorem missed_watchTx (hw : NoRows watch w.1) {tx : IdxTx}
    (h : (watchTx watch height w tx).2 = false) :
    w.2 = false ∧ Coin.Missed height (markOf w.1 point) (txEvents watch point tx) := by
  unfold watchTx at h
  by_cases hempty : watch.isEmpty
  · have hnil := List.isEmpty_iff.mp hempty
    rw [if_pos hempty] at h
    refine ⟨h, ?_⟩
    rw [markOf_nil hw, hnil]
    · exact Coin.missed_none (not_fund_of_nil tx)
    · exact hnil
  · rw [if_neg hempty] at h
    obtain ⟨hflag, hins⟩ := missed_ins point h
    obtain ⟨hflag, houts⟩ := missed_outs point hflag
    rw [markOf_outs] at hins
    exact ⟨hflag, Coin.missed_append.mpr ⟨houts, hins⟩⟩

/-! ### A block -/

variable (point) in
theorem watchTxs_flat (txs : List IdxTx) (hw : NoRows watch w.1) :
    markOf (txs.foldl (watchTx watch height) w).1 point =
        Coin.pass height (markOf w.1 point) (blockEvents watch point txs) ∧
      ((txs.foldl (watchTx watch height) w).2 = false → w.2 = false ∧
        Coin.Missed height (markOf w.1 point) (blockEvents watch point txs)) ∧
      NoRows watch (txs.foldl (watchTx watch height) w).1 := by
  induction txs generalizing w with
  | nil => exact ⟨rfl, fun h => ⟨h, trivial⟩, hw⟩
  | cons tx txs ih =>
    obtain ⟨hmark, hmissed, hrows⟩ := ih (noRows_watchTx height hw tx)
    rw [List.foldl_cons]
    unfold blockEvents at hmark hmissed ⊢
    rw [List.flatMap_cons]
    rw [markOf_watchTx hw] at hmark hmissed
    refine ⟨by rw [hmark, Coin.pass_append], ?_, hrows⟩
    intro hflag
    obtain ⟨hflag, hrest⟩ := hmissed hflag
    obtain ⟨hflag, hthis⟩ := missed_watchTx point hw hflag
    exact ⟨hflag, Coin.missed_append.mpr ⟨hthis, hrest⟩⟩

variable (height point) in
/-- A block acts on each outpoint by its events there. -/
theorem markOf_watchBlock (hw : NoRows watch utxos) (txs : List IdxTx) :
    markOf (watchBlock watch height utxos txs).1 point =
      Coin.pass height (markOf utxos point) (blockEvents watch point txs) :=
  (watchTxs_flat point txs (w := (utxos, false)) hw).1

theorem missed_watchBlock (hw : NoRows watch utxos) {txs : List IdxTx}
    (h : (watchBlock watch height utxos txs).2 = false) :
    Coin.Missed height (markOf utxos point) (blockEvents watch point txs) :=
  ((watchTxs_flat point txs (w := (utxos, false)) hw).2.1 h).2

variable (height) in
theorem noRows_watchBlock (hw : NoRows watch utxos) (txs : List IdxTx) :
    NoRows watch (watchBlock watch height utxos txs).1 :=
  (watchTxs_flat ⟨zeros 32, 0⟩ txs (w := (utxos, false)) hw).2.2

theorem distinct_watchBlock (h : RowTable.Distinct Utxo.point utxos) (txs : List IdxTx) :
    RowTable.Distinct Utxo.point (watchBlock watch height utxos txs).1 := by
  have houts : ∀ (txid : Hash256) (outs : List IdxOut) (w : List Utxo × Bool),
      RowTable.Distinct Utxo.point w.1 →
        RowTable.Distinct Utxo.point (outs.foldl (watchOut watch height txid) w).1 := by
    intro txid outs
    induction outs with
    | nil => exact fun w hw => hw
    | cons o outs ih =>
      intro w hw
      apply ih
      unfold watchOut
      split
      · exact distinct_put hw _
      · exact hw
  have hins : ∀ (ins : List IdxIn) (w : List Utxo × Bool), RowTable.Distinct Utxo.point w.1 →
      RowTable.Distinct Utxo.point (ins.foldl (watchIn height) w).1 := by
    intro ins
    induction ins with
    | nil => exact fun w hw => hw
    | cons i ins ih =>
      intro w hw
      apply ih
      unfold watchIn
      split
      · exact distinct_spend hw _
      · exact hw
  have htxs : ∀ (txs : List IdxTx) (w : List Utxo × Bool), RowTable.Distinct Utxo.point w.1 →
      RowTable.Distinct Utxo.point (txs.foldl (watchTx watch height) w).1 := by
    intro txs
    induction txs with
    | nil => exact fun w hw => hw
    | cons tx txs ih =>
      intro w hw
      apply ih
      unfold watchTx
      split
      · exact hw
      · exact hins _ _ (houts _ _ _ hw)
  exact htxs txs _ h

end Outpoint

end NamespaceIndexer.Daemon
