import NamespaceIndexer.Ledger.RefineMarket

/-!
# Transactions, block boundaries and runs implement their rules

The row loop of `sm_preblock` moves rows while it walks them, so its
invariant splits the table into rows that are done and rows that are left: on
the ledger side exactly the names that are left are still to be settled.
-/

namespace NamespaceIndexer

open Fold Lib

/-! ### Rows at a block boundary -/

theorem closeReserve_name (mtp : ℤ) (r : SmNameRow) : (closeReserve mtp r).name = r.name := by
  unfold closeReserve returnToSeller
  split
  · split <;> rfl
  · rfl

theorem closeReserve_leaseExpiry (mtp : ℤ) (r : SmNameRow) :
    (closeReserve mtp r).leaseExpiry = r.leaseExpiry := by
  unfold closeReserve returnToSeller
  split
  · split <;> rfl
  · rfl

theorem closeRow_name (mtp : ℤ) (r : SmNameRow) : (closeRow mtp r).name = r.name := by
  rw [← closeReserve_name mtp r]
  unfold closeRow closeOffer returnToSeller
  split <;> rfl

theorem closeRow_leaseExpiry (mtp : ℤ) (r : SmNameRow) :
    (closeRow mtp r).leaseExpiry = r.leaseExpiry := by
  rw [← closeReserve_leaseExpiry mtp r]
  unfold closeRow closeOffer returnToSeller
  split <;> rfl

theorem deed_closeReserve (mtp : ℤ) (r : SmNameRow) :
    deed (closeReserve mtp r) = (deed r).closeReserve mtp := by
  unfold closeReserve Deed.closeReserve
  by_cases h : r.st = .RESERVED ∧ mtp ≥ r.reserveExpiry
  · rw [if_pos h, if_pos h]
    by_cases ho : r.reserveExpiry < r.offerExpiry
    · rw [if_pos ho, if_pos ho]
    · rw [if_neg ho, if_neg ho]
      rfl
  · rw [if_neg h, if_neg h]

theorem deed_closeOffer (mtp : ℤ) (r : SmNameRow) :
    deed (closeOffer mtp r) = (deed r).closeOffer mtp := by
  unfold closeOffer Deed.closeOffer
  by_cases h : (r.st = .LISTED ∨ r.st = .OFFERED) ∧ mtp ≥ r.offerExpiry
  · rw [if_pos h, if_pos h]
    rfl
  · rw [if_neg h, if_neg h]

theorem deed_closeRow (mtp : ℤ) (r : SmNameRow) :
    deed (closeRow mtp r) = (deed r).close mtp := by
  unfold closeRow Deed.close
  rw [deed_closeOffer, deed_closeReserve]

/-! ### One name settled -/

namespace Ledger

theorem raise_raise (o : Option ℤ) (h : ℤ) : raise (some (raise o h)) h = raise o h := by
  cases o with
  | none => exact max_self h
  | some h0 => exact max_eq_left (le_max_right h0 h)

/-- A name that stays, settled first. -/
theorem settleDue_insert_keep {L : Ledger} {S : Set Name} {height mtp : ℤ} {n : Name} {d : Deed}
    (hn : n ∉ S) (hd : L.names n = some d) (hl : ¬ mtp ≥ d.leaseExpiry) :
    L.settleDue (insert n S) height mtp = (L.put n (d.close mtp)).settleDue S height mtp := by
  have hlap : ∀ who, L.Lapses (insert n S) mtp who ↔ (L.put n (d.close mtp)).Lapses S mtp who := by
    intro who
    constructor
    · rintro ⟨m, hm, e, he, hle, ho⟩
      rcases hm with rfl | hm
      · rw [hd] at he
        cases he
        exact absurd hle hl
      · have hne : m ≠ n := fun h => hn (h ▸ hm)
        exact ⟨m, hm, e, by rw [put_names, Function.update_of_ne hne]; exact he, hle, ho⟩
    · rintro ⟨m, hm, e, he, hle, ho⟩
      have hne : m ≠ n := fun h => hn (h ▸ hm)
      rw [put_names, Function.update_of_ne hne] at he
      exact ⟨m, Or.inr hm, e, he, hle, ho⟩
  refine Ledger.ext rfl rfl rfl rfl ?_ rfl ?_ rfl
  · funext m
    by_cases hm : m = n
    · subst hm
      rw [settleDue_mem (Set.mem_insert _ _), settleDue_notMem hn, put_names, Function.update_self,
        hd, Option.bind_some, Deed.due, if_neg hl]
    · by_cases hS : m ∈ S
      · rw [settleDue_mem (Set.mem_insert_of_mem _ hS), settleDue_mem hS, put_names,
          Function.update_of_ne hm]
      · rw [settleDue_notMem (by simp [hm, hS]), settleDue_notMem hS, put_names,
          Function.update_of_ne hm]
  · funext who
    by_cases h : L.Lapses (insert n S) mtp who
    · rw [settleDue_lapse h, settleDue_lapse ((hlap who).mp h), put_muts]
    · rw [settleDue_noLapse h, settleDue_noLapse (fun h' => h ((hlap who).mpr h')), put_muts]

/-- A name that lapses, settled first. -/
theorem settleDue_insert_lapse {L : Ledger} {S : Set Name} {height mtp : ℤ} {n : Name} {d : Deed}
    (hn : n ∉ S) (hd : L.names n = some d) (hl : mtp ≥ d.leaseExpiry) :
    L.settleDue (insert n S) height mtp
      = ((L.bump (d.close mtp).owner height).erase n).settleDue S height mtp := by
  set L1 := (L.bump (d.close mtp).owner height).erase n with hL1
  have hnames : ∀ m, m ≠ n → L1.names m = L.names m := fun m hm => by
    rw [hL1, erase_names, Function.update_of_ne hm, bump_names]
  have hlap : ∀ who, L.Lapses (insert n S) mtp who ↔
      L1.Lapses S mtp who ∨ who = (d.close mtp).owner := by
    intro who
    constructor
    · rintro ⟨m, hm, e, he, hle, ho⟩
      rcases hm with rfl | hm
      · rw [hd] at he
        cases he
        exact Or.inr ho.symm
      · have hne : m ≠ n := fun h => hn (h ▸ hm)
        exact Or.inl ⟨m, hm, e, by rw [hnames m hne]; exact he, hle, ho⟩
    · rintro (⟨m, hm, e, he, hle, ho⟩ | rfl)
      · have hne : m ≠ n := fun h => hn (h ▸ hm)
        rw [hnames m hne] at he
        exact ⟨m, Or.inr hm, e, he, hle, ho⟩
      · exact ⟨n, Set.mem_insert _ _, d, hd, hl, rfl⟩
  refine Ledger.ext rfl rfl rfl rfl ?_ rfl ?_ rfl
  · funext m
    by_cases hm : m = n
    · subst hm
      have hnone : L1.names m = none := by rw [hL1, erase_names, Function.update_self]
      rw [settleDue_mem (Set.mem_insert _ _), settleDue_notMem hn, hnone, hd, Option.bind_some,
        Deed.due, if_pos hl]
    · by_cases hS : m ∈ S
      · rw [settleDue_mem (Set.mem_insert_of_mem _ hS), settleDue_mem hS, hnames m hm]
      · rw [settleDue_notMem (by simp [hm, hS]), settleDue_notMem hS, hnames m hm]
  · funext who
    by_cases hw : who = (d.close mtp).owner
    · have hm : L1.muts who = some (raise (L.muts who) height) := by
        rw [hL1, erase_muts, hw]
        exact Function.update_self _ _ _
      rw [settleDue_lapse ((hlap who).mpr (Or.inr hw))]
      by_cases h : L1.Lapses S mtp who
      · rw [settleDue_lapse h, hm, raise_raise]
      · rw [settleDue_noLapse h, hm]
    · have hm : L1.muts who = L.muts who := by
        rw [hL1, erase_muts]
        exact Function.update_of_ne hw _ _
      by_cases h : L1.Lapses S mtp who
      · rw [settleDue_lapse h, settleDue_lapse ((hlap who).mpr (Or.inl h)), hm]
      · rw [settleDue_noLapse h, settleDue_noLapse (fun h' => ((hlap who).mp h').elim h hw), hm]

theorem settleDue_empty (L : Ledger) {S : Set Name} (hS : ∀ n ∈ S, L.names n = none)
    (height mtp : ℤ) : L.settleDue S height mtp = L := by
  refine Ledger.ext rfl rfl rfl rfl ?_ rfl ?_ rfl
  · funext n
    by_cases h : n ∈ S
    · rw [settleDue_mem h, hS n h]
      rfl
    · rw [settleDue_notMem h]
  · funext who
    rw [settleDue_noLapse]
    rintro ⟨n, hn, d, hd, -⟩
    rw [hS n hn] at hd
    cases hd

/-- Only names with a deed matter. -/
theorem settleDue_univ {L : Ledger} {S : Set Name} (hS : ∀ n, n ∉ S → L.names n = none)
    (height mtp : ℤ) : L.settleDue Set.univ height mtp = L.settleDue S height mtp := by
  have hlap : ∀ who, L.Lapses Set.univ mtp who ↔ L.Lapses S mtp who := by
    intro who
    constructor
    · rintro ⟨n, -, d, hd, h⟩
      by_cases hn : n ∈ S
      · exact ⟨n, hn, d, hd, h⟩
      · rw [hS n hn] at hd
        cases hd
    · rintro ⟨n, -, h⟩
      exact ⟨n, Set.mem_univ n, h⟩
  refine Ledger.ext rfl rfl rfl rfl ?_ rfl ?_ rfl
  · funext n
    rw [settleDue_mem (Set.mem_univ n)]
    by_cases hn : n ∈ S
    · rw [settleDue_mem hn]
    · rw [settleDue_notMem hn, hS n hn]
      rfl
  · funext who
    by_cases h : L.Lapses S mtp who
    · rw [settleDue_lapse h, settleDue_lapse ((hlap who).mpr h)]
    · rw [settleDue_noLapse h, settleDue_noLapse (fun h' => h ((hlap who).mp h'))]

end Ledger

/-! ### The row loop -/

theorem row_of_split {s : SmState} {p q : List SmNameRow} {r : SmNameRow}
    (h : s.names = p ++ r :: q) : s.row p.length = r := by
  unfold SmState.row
  rw [h]
  simp

theorem Tracks.preblockStep {s : SmState} {L : Ledger} (t : Tracks s L) (height mtp : ℤ)
    {p q : List SmNameRow} {r : SmNameRow} (h : s.names = p ++ r :: q) :
    (¬ mtp ≥ r.leaseExpiry ∧ (Fold.preblockStep height mtp s p.length).2 = p.length + 1 ∧
        (Fold.preblockStep height mtp s p.length).1.names = (p ++ [closeRow mtp r]) ++ q ∧
        Tracks (Fold.preblockStep height mtp s p.length).1 (L.put r.name ((deed r).close mtp))) ∨
      (mtp ≥ r.leaseExpiry ∧ (Fold.preblockStep height mtp s p.length).2 = p.length ∧
        (∃ q', q'.Perm q ∧ (Fold.preblockStep height mtp s p.length).1.names = p ++ q') ∧
        Tracks (Fold.preblockStep height mtp s p.length).1
          ((L.bump ((deed r).close mtp).owner height).erase r.name)) := by
  have hlt : p.length < s.names.length := by
    rw [h]
    simp
  have hrow := row_of_split h
  have hname := closeRow_name mtp r
  have hset := t.setRow (r := p.length) (v := closeRow mtp r) hlt (by rw [hname, hrow])
  rw [hname, deed_closeRow] at hset
  have hsplit : (s.setRow p.length (closeRow mtp r)).names = p ++ closeRow mtp r :: q := by
    change s.names.set _ _ = _
    rw [h, List.set_append_right _ _ (Nat.le_refl _)]
    simp
  unfold Fold.preblockStep
  simp only [hrow]
  by_cases hl : mtp ≥ r.leaseExpiry
  · right
    rw [if_pos (by rw [closeRow_leaseExpiry]; exact hl)]
    refine ⟨hl, rfl, ?_, ?_⟩
    · -- the last row moves into the freed slot, so what is left is a permutation
      obtain ⟨q', hq', hswap⟩ := RowTable.swapRemove_append p (closeRow mtp r) q
      refine ⟨q', hq', ?_⟩
      change RowTable.swapRemove (smBumpMutation _ _ _).names p.length = _
      rw [names_smBumpMutation, hsplit, hswap]
    · have hrem := (hset.bump (closeRow mtp r).owner height).remove (r := p.length) (by
        rw [names_smBumpMutation, names_length_setRow]
        exact hlt)
      have hrow' : (smBumpMutation (s.setRow p.length (closeRow mtp r)) (closeRow mtp r).owner
          height).row p.length = closeRow mtp r := by
        unfold SmState.row
        rw [names_smBumpMutation]
        exact row_setRow_self hlt _
      have howner : (closeRow mtp r).owner = ((deed r).close mtp).owner := by
        rw [← deed_closeRow]
      rw [hrow', hname, howner] at hrem
      have hL : ((L.put r.name ((deed r).close mtp)).bump ((deed r).close mtp).owner height).erase
          r.name = (L.bump ((deed r).close mtp).owner height).erase r.name := by
        refine Ledger.ext rfl rfl rfl rfl ?_ rfl rfl rfl
        simp only [Ledger.erase_names, Ledger.bump_names, Ledger.put_names, Function.update_idem]
      rw [hL] at hrem
      rw [howner]
      exact hrem.bumpEv _
  · left
    rw [if_neg (by rw [closeRow_leaseExpiry]; exact hl)]
    refine ⟨hl, rfl, ?_, hset⟩
    rw [hsplit]
    simp

/-- The loop settles the names of the rows that are left. -/
theorem Tracks.preblockLoop {s : SmState} {L : Ledger} (t : Tracks s L) (height mtp : ℤ)
    (fuel : ℕ) {p q : List SmNameRow} (h : s.names = p ++ q) (hf : q.length ≤ fuel) :
    Tracks (Fold.preblockLoop height mtp fuel s p.length)
      (L.settleDue {n | n ∈ q.map SmNameRow.name} height mtp) := by
  induction fuel generalizing s L p q with
  | zero =>
    have hq : q = [] := List.length_eq_zero_iff.mp (by omega)
    subst hq
    rw [L.settleDue_empty (by simp)]
    exact t
  | succ fuel ih =>
    unfold Fold.preblockLoop
    cases q with
    | nil =>
      rw [if_neg (by rw [h]; simp), L.settleDue_empty (by simp)]
      exact t
    | cons r q =>
      rw [if_pos (by rw [h]; simp)]
      have hd : L.names r.name = some (deed r) := by
        have hget : s.names[p.length]? = some r := by
          rw [h]
          simp
        rw [t.names, RowTable.lookup_of_getElem? _ t.keyed.names hget]
        rfl
      have hset : {n | n ∈ (r :: q).map SmNameRow.name}
          = insert r.name {n | n ∈ q.map SmNameRow.name} := by
        ext n
        simp
      have hfresh : r.name ∉ {n | n ∈ q.map SmNameRow.name} := by
        have hdist := t.keyed.names
        rw [h] at hdist
        unfold RowTable.Distinct at hdist
        rw [List.map_append, List.map_cons, List.nodup_append, List.nodup_cons] at hdist
        exact hdist.2.1.1
      have hstep := t.preblockStep height mtp h
      generalize Fold.preblockStep height mtp s p.length = si at hstep
      obtain ⟨s', i'⟩ := si
      simp only at hstep
      rcases hstep with ⟨hl, hi, hn, ht⟩ | ⟨hl, hi, ⟨q', hq', hn⟩, ht⟩
      · rw [hset, Ledger.settleDue_insert_keep hfresh hd hl, hi]
        have hlen : p.length + 1 = (p ++ [closeRow mtp r]).length := by simp
        rw [hlen]
        exact ih ht hn (by simp at hf; omega)
      · rw [hset, Ledger.settleDue_insert_lapse hfresh hd hl, hi]
        have hnames : {n | n ∈ q.map SmNameRow.name} = {n | n ∈ q'.map SmNameRow.name} := by
          ext n
          exact (hq'.map SmNameRow.name).mem_iff.symm
        rw [hnames]
        exact ih ht hn (by rw [hq'.length_eq]; simp at hf; omega)

/-- The commit loop keeps the live commits. -/
theorem pruneCommits_perm (mtp : ℤ) (fuel : ℕ) (p q : List SmCommit) (hf : q.length ≤ fuel) :
    (pruneCommits mtp fuel (p ++ q) p.length).Perm
      (p ++ q.filter fun c => ¬ mtp > c.commitTime + commitExpiry) := by
  induction fuel generalizing p q with
  | zero =>
    have hq : q = [] := List.length_eq_zero_iff.mp (by omega)
    subst hq
    exact List.Perm.refl _
  | succ fuel ih =>
    unfold pruneCommits
    cases q with
    | nil => simp
    | cons c q =>
      have hget : (p ++ c :: q)[p.length]? = some c := by simp
      rw [hget]
      simp only
      by_cases hc : mtp > c.commitTime + commitExpiry
      · rw [if_pos hc]
        obtain ⟨q', hq', hswap⟩ := RowTable.swapRemove_append p c q
        rw [hswap, List.filter_cons_of_neg (by simpa using hc)]
        refine (ih p q' (by rw [hq'.length_eq]; simp at hf; omega)).trans ?_
        exact (hq'.filter _).append_left p
      · rw [if_neg hc, List.filter_cons_of_pos (by simpa using hc)]
        have hstep := ih (p ++ [c]) q (by simp at hf; omega)
        simpa using hstep

namespace Tracks

variable {s : SmState} {L : Ledger}

theorem smPreblock (t : Tracks s L) (height mtp : ℤ) :
    Tracks (Fold.smPreblock s height mtp) (L.preblock height mtp) := by
  have hloop := t.preblockLoop height mtp s.names.length (p := []) (q := s.names) rfl (le_refl _)
  have huniv : L.settleDue {n | n ∈ s.names.map SmNameRow.name} height mtp
      = L.settleDue Set.univ height mtp := by
    symm
    refine Ledger.settleDue_univ (fun n hn => ?_) height mtp
    rw [t.names, (RowTable.lookup_eq_none _).mpr hn]
    rfl
  rw [huniv] at hloop
  unfold Fold.smPreblock Ledger.preblock
  simp only
  set s1 := Fold.preblockLoop height mtp s.names.length s 0 with hs1
  have hprune := pruneCommits_perm mtp s1.commits.length [] s1.commits (le_refl _)
  refine ⟨⟨hloop.keyed.names, hloop.keyed.muts⟩, ?_⟩
  have hcommits : (s1.commits : Multiset SmCommit) = L.commits :=
    congrArg Ledger.commits hloop.obs_eq
  have hperm : ((pruneCommits mtp s1.commits.length s1.commits 0 : List SmCommit)
      : Multiset SmCommit) = L.commits.filter fun c => ¬ mtp > c.commitTime + commitExpiry := by
    rw [← hcommits, Multiset.filter_coe, Multiset.coe_eq_coe]
    exact hprune
  change ({ obs s1 with commits := (pruneCommits mtp s1.commits.length s1.commits 0 :) } : Ledger)
    = _
  rw [hperm, show obs s1 = L.settleDue Set.univ height mtp from hloop.obs_eq]

theorem smBeginBlock (t : Tracks s L) (height mtp : ℤ) (rate : UInt64) :
    Tracks (Fold.smBeginBlock s height mtp rate) (L.beginBlock height mtp rate) := by
  have h := t.smPreblock height mtp
  refine ⟨⟨h.keyed.names, h.keyed.muts⟩, ?_⟩
  unfold Ledger.beginBlock
  rw [← h.obs_eq]
  rfl

/-! ### The carrier walk -/

theorem dispatch (t : Tracks s L) (sha256 : Bytes → Hash256) (tx : SmTx) (cx : SmTxCtx)
    (a : SmAction) (op : SmOp) :
    Tracks (Fold.dispatch sha256 tx s cx a op).1 (L.dispatch sha256 tx cx a op).1 ∧
      (Fold.dispatch sha256 tx s cx a op).2 = (L.dispatch sha256 tx cx a op).2 := by
  cases op with
  | COMMIT => exact ⟨t.commitAdd tx a, rfl⟩
  | CLAIM => exact ⟨t.smOpClaim sha256 cx a, rfl⟩
  | RENEW => exact ⟨t.smOpRenew cx a, rfl⟩
  | TRANSFER => exact ⟨t.smOpTransfer cx a, rfl⟩
  | RENEW_NAME => exact ⟨t.smOpRenewName cx a, rfl⟩
  | TRANSFER_NAME => exact ⟨t.smOpTransferName cx a, rfl⟩
  | RELEASE_NAME => exact ⟨t.smOpReleaseName cx a, rfl⟩
  | SELL => exact ⟨t.smOpSell cx a, rfl⟩
  | RESERVE => exact t.smOpReserve tx cx a
  | SETTLE => exact t.smOpSettle tx cx a
  | RELEASE => exact ⟨t.smOpRelease cx a, rfl⟩
  | SELL_TO => exact ⟨t.smOpSellTo cx a, rfl⟩
  | PAY => exact t.smOpPay tx cx a
  | AS => exact ⟨t, rfl⟩
  | TRADE => exact ⟨t, rfl⟩

theorem applyCarrier (t : Tracks s L) (sha256 : Bytes → Hash256) (tx : SmTx) (cx : SmTxCtx)
    (car : SmCarrier) :
    Tracks (Fold.applyCarrier sha256 tx (s, cx) car).1
        (Ledger.applyCarrier sha256 tx (L, cx) car).1 ∧
      (Fold.applyCarrier sha256 tx (s, cx) car).2
        = (Ledger.applyCarrier sha256 tx (L, cx) car).2 := by
  unfold Fold.applyCarrier Ledger.applyCarrier
  simp only [t.height, t.activationHeight]
  split
  · exact ⟨t, rfl⟩
  · split
    · exact ⟨t, rfl⟩
    · cases SmOp.ofByte? car.act.op with
      | none => exact ⟨t, rfl⟩
      | some op =>
        cases op with
        | AS =>
          cases signer tx car.act.asIndex.val with
          | none => exact ⟨t.bumpEv _, rfl⟩
          | some i => exact ⟨t, rfl⟩
        | TRADE => exact ⟨t.smOpTrade tx _ _, rfl⟩
        | _ =>
          simp only
          split
          · exact ⟨t, rfl⟩
          · exact t.dispatch sha256 tx _ _ _

theorem foldl_applyCarrier (t : Tracks s L) (sha256 : Bytes → Hash256) (tx : SmTx) (cx : SmTxCtx)
    (cars : List SmCarrier) :
    Tracks (cars.foldl (Fold.applyCarrier sha256 tx) (s, cx)).1
        (cars.foldl (Ledger.applyCarrier sha256 tx) (L, cx)).1 ∧
      (cars.foldl (Fold.applyCarrier sha256 tx) (s, cx)).2
        = (cars.foldl (Ledger.applyCarrier sha256 tx) (L, cx)).2 := by
  induction cars generalizing s L cx with
  | nil => exact ⟨t, rfl⟩
  | cons car cars ih =>
    obtain ⟨ht, hcx⟩ := t.applyCarrier sha256 tx cx car
    rw [List.foldl_cons, List.foldl_cons]
    have hstep := ih ht (Fold.applyCarrier sha256 tx (s, cx) car).2
    rw [Prod.mk.eta, hcx, Prod.mk.eta] at hstep
    exact hstep

theorem initCtx (t : Tracks s L) (tx : SmTx) : Fold.initCtx s tx = L.initCtx tx := by
  rw [← t.obs_eq]
  rfl

theorem smApplyTx (t : Tracks s L) (sha256 : Bytes → Hash256) (tx : SmTx) :
    Tracks (Fold.smApplyTx sha256 s tx) (L.applyTx sha256 tx) := by
  unfold Fold.smApplyTx Ledger.applyTx
  rw [← t.initCtx]
  exact (t.foldl_applyCarrier sha256 tx _ tx.carriers).1

theorem foldl_smApplyTx (t : Tracks s L) (sha256 : Bytes → Hash256) (txs : List SmTx) :
    Tracks (txs.foldl (Fold.smApplyTx sha256) s) (txs.foldl (Ledger.applyTx sha256) L) := by
  induction txs generalizing s L with
  | nil => exact t
  | cons tx txs ih => exact ih (t.smApplyTx sha256 tx)

theorem foldBlock (t : Tracks s L) (sha256 : Bytes → Hash256) (b : FoldBlock) :
    Tracks (Fold.foldBlock sha256 s b) (L.foldBlock sha256 b) :=
  (t.smBeginBlock b.height b.mtp b.rate).foldl_smApplyTx sha256 b.txs

/-- The fold implements the ledger over whole runs. -/
theorem foldBlocks (t : Tracks s L) (sha256 : Bytes → Hash256) (bs : List FoldBlock) :
    Tracks (Fold.foldBlocks sha256 s bs) (L.foldBlocks sha256 bs) := by
  induction bs generalizing s L with
  | nil => exact t
  | cons b bs ih => exact ih (t.foldBlock sha256 b)

end Tracks

theorem wellKeyed_smNew (activationHeight : UInt64) : WellKeyed (smNew activationHeight) :=
  ⟨List.nodup_nil, List.nodup_nil⟩

end NamespaceIndexer
