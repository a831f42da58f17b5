import NamespaceIndexer.Ledger.Agreement

/-!
# Blocks that a replay skips

The start of a block closes the sale windows and prunes the commits that are over
by then, whether or not an earlier block already did. So a block without
transactions at which no lease ends can be skipped, when it does nothing or when
the next block that is kept is not older.
-/

namespace NamespaceIndexer

open Fold Lib

/-! ### Closing twice -/

theorem Deed.close_close {m m' : ℤ} (h : m ≤ m') (d : Deed) : (d.close m).close m' = d.close m' := by
  have owned : ∀ d' : Deed, d'.st = .OWNED → d'.close m' = d' := by
    intro d' hd'
    simp [Deed.close, Deed.closeReserve, Deed.closeOffer, hd']
  have offer : ∀ d' : Deed, (d'.closeOffer m).close m' = d'.close m' := by
    intro d'
    unfold Deed.closeOffer
    split
    · next hd' =>
      rw [owned _ rfl]
      have hst : d'.st ≠ .RESERVED := by
        rcases hd'.1 with hs | hs <;> rw [hs] <;> decide
      have hdue : m' ≥ d'.offerExpiry := le_trans hd'.2 h
      simp [Deed.close, Deed.closeReserve, Deed.closeOffer, hst, hd'.1, hdue]
    · rfl
  change ((d.closeReserve m).closeOffer m).close m' = d.close m'
  rw [offer]
  unfold Deed.closeReserve
  split
  · next hd =>
    have hdue : m' ≥ d.reserveExpiry := le_trans hd.2 h
    split
    · next ho => simp [Deed.close, Deed.closeReserve, hd.1, hdue, ho]
    · next ho =>
      rw [owned _ rfl]
      simp [Deed.close, Deed.closeReserve, Deed.closeOffer, Deed.conveyTo, Deed.plain, hd.1, hdue,
        ho]
  · rfl

theorem Deed.close_leaseExpiry (mtp : ℤ) (d : Deed) : (d.close mtp).leaseExpiry = d.leaseExpiry := by
  unfold Deed.close Deed.closeOffer Deed.closeReserve Deed.conveyTo Deed.plain
  split <;> split <;> first | rfl | (split <;> rfl)

namespace Ledger

/-- The start of a block at which no lease ends. -/
def skip (L : Ledger) (mtp : ℤ) : Ledger :=
  { L with
    names := fun n => (L.names n).map (Deed.close mtp)
    commits := L.commits.filter fun c => ¬ mtp > c.commitTime + commitExpiry }

/-- A block that is not older than the skipped ones starts from the same ledger. -/
theorem beginBlock_skip {m mtp : ℤ} (hm : m ≤ mtp) (L : Ledger) (height : ℤ) (rate : UInt64) :
    (L.skip m).beginBlock height mtp rate = L.beginBlock height mtp rate := by
  have hlap : ∀ who, (L.skip m).Lapses Set.univ mtp who ↔ L.Lapses Set.univ mtp who := by
    intro who
    constructor
    · rintro ⟨n, -, d', hd', hl, hw⟩
      obtain ⟨d, hd, rfl⟩ := Option.map_eq_some_iff.mp hd'
      rw [Deed.close_leaseExpiry] at hl
      rw [Deed.close_close hm] at hw
      exact ⟨n, Set.mem_univ n, d, hd, hl, hw⟩
    · rintro ⟨n, -, d, hd, hl, hw⟩
      refine ⟨n, Set.mem_univ n, d.close m, Option.map_eq_some_iff.mpr ⟨d, hd, rfl⟩, ?_, ?_⟩
      · rw [Deed.close_leaseExpiry]
        exact hl
      · rw [Deed.close_close hm]
        exact hw
  refine Ledger.ext rfl rfl rfl rfl (funext fun n => ?_) ?_ (funext fun who => ?_) rfl
  · rw [beginBlock_names, beginBlock_names]
    cases hn : L.names n with
    | none => simp [skip, hn]
    | some d =>
      have hskip : (L.skip m).names n = some (d.close m) := by simp [skip, hn]
      rw [hskip, Option.bind_some, Option.bind_some]
      unfold Deed.due
      rw [Deed.close_leaseExpiry, Deed.close_close hm]
  · change (L.commits.filter _).filter _ = L.commits.filter _
    rw [Multiset.filter_filter]
    refine Multiset.filter_congr fun c _ => ?_
    constructor
    · exact fun hc => hc.1
    · intro hc
      exact ⟨hc, fun hd => hc (lt_of_lt_of_le hd hm)⟩
  · change ((L.skip m).settleDue Set.univ height mtp).muts who
      = (L.settleDue Set.univ height mtp).muts who
    by_cases hw : L.Lapses Set.univ mtp who
    · rw [settleDue_lapse hw, settleDue_lapse ((hlap who).mpr hw)]
      rfl
    · rw [settleDue_noLapse hw, settleDue_noLapse fun hs => hw ((hlap who).mp hs)]
      rfl

theorem beginBlock_foldl_skip {ms : List ℤ} {mtp : ℤ} (hms : ∀ m ∈ ms, m ≤ mtp) (L : Ledger)
    (height : ℤ) (rate : UInt64) :
    (ms.foldl skip L).beginBlock height mtp rate = L.beginBlock height mtp rate := by
  induction ms generalizing L with
  | nil => rfl
  | cons m ms ih =>
    rw [List.foldl_cons, ih (fun m' hm' => hms m' (List.mem_cons_of_mem _ hm')),
      beginBlock_skip (hms m (List.mem_cons_self ..))]

end Ledger

theorem SameTables.refl (L : Ledger) : SameTables L L := ⟨rfl, rfl, rfl, rfl⟩

theorem SameTables.trans {L M N : Ledger} (h : SameTables L M) (h' : SameTables M N) :
    SameTables L N :=
  ⟨h.activationHeight.trans h'.activationHeight, h.names.trans h'.names,
    h.commits.trans h'.commits, h.muts.trans h'.muts⟩

theorem SameTables.skip {L M : Ledger} (h : SameTables L M) (mtp : ℤ) :
    SameTables (L.skip mtp) (M.skip mtp) := by
  refine ⟨h.activationHeight, ?_, ?_, h.muts⟩
  · exact congrArg (fun f : Name → Option Deed => fun n => (f n).map (Deed.close mtp)) h.names
  · exact congrArg (Multiset.filter fun c => ¬ mtp > c.commitTime + commitExpiry) h.commits

/-! ### What a block start does to a state -/

/-- No lease is over at time `mtp`. -/
def NoLapse (s : SmState) (mtp : ℤ) : Prop := ∀ r ∈ s.names, mtp < r.leaseExpiry

/-- No sale window and no commit is over at time `mtp`. -/
def NothingEnds (s : SmState) (mtp : ℤ) : Prop :=
  (∀ r ∈ s.names, closeRow mtp r = r) ∧ ∀ c ∈ s.commits, ¬ mtp > c.commitTime + commitExpiry

instance (s : SmState) (mtp : ℤ) : Decidable (NoLapse s mtp) :=
  inferInstanceAs (Decidable (∀ r ∈ s.names, _))

instance (s : SmState) (mtp : ℤ) : Decidable (NothingEnds s mtp) :=
  inferInstanceAs (Decidable (_ ∧ _))

theorem deed_of_names {s : SmState} {n : Name} {d : Deed} (h : (obs s).names n = some d) :
    ∃ r ∈ s.names, deed r = d := by
  obtain ⟨r, hr, hd⟩ := Option.map_eq_some_iff.mp h
  exact ⟨r, (RowTable.lookup_mem _ hr).1, hd⟩

theorem NoLapse.beginBlock {s : SmState} {mtp : ℤ} (h : NoLapse s mtp) (height : ℤ)
    (rate : UInt64) : SameTables ((obs s).beginBlock height mtp rate) ((obs s).skip mtp) := by
  have hlease : ∀ n d, (obs s).names n = some d → ¬ mtp ≥ d.leaseExpiry := by
    intro n d hd
    obtain ⟨r, hr, rfl⟩ := deed_of_names hd
    exact not_le.mpr (h r hr)
  refine ⟨rfl, funext fun n => ?_, rfl, funext fun who => ?_⟩
  · rw [Ledger.beginBlock_names]
    change _ = ((obs s).names n).map (Deed.close mtp)
    cases hn : (obs s).names n with
    | none => rfl
    | some d => exact if_neg (hlease n d hn)
  · refine Ledger.settleDue_noLapse ?_
    rintro ⟨n, -, d, hd, hl, -⟩
    exact hlease n d hd hl

theorem NothingEnds.skip {s : SmState} {mtp : ℤ} (h : NothingEnds s mtp) :
    SameTables ((obs s).skip mtp) (obs s) := by
  refine ⟨rfl, funext fun n => ?_, ?_, rfl⟩
  · change ((obs s).names n).map (Deed.close mtp) = (obs s).names n
    cases hn : (obs s).names n with
    | none => rfl
    | some d =>
      obtain ⟨r, hr, rfl⟩ := deed_of_names hn
      rw [Option.map_some, ← deed_closeRow, h.1 r hr]
  · exact Multiset.filter_eq_self.mpr fun c (hc : c ∈ (s.commits : Multiset SmCommit)) => h.2 c hc

/-! ### Runs with skipped blocks -/

/-- The first block of a run that is kept. -/
def nextKept (bs : List (FoldBlock × Bool)) : Option FoldBlock := (bs.find? Prod.snd).map Prod.fst

/-- Each skipped block of the run ends no lease, and what else it ends is ended again by the next
block that is kept. -/
def Skippable (sha256 : Bytes → Hash256) : SmState → List (FoldBlock × Bool) → Prop
  | _, [] => True
  | s, (b, kept) :: bs =>
    (kept = false → NoLapse s b.mtp ∧
      (NothingEnds s b.mtp ∨ ∃ b' ∈ nextKept bs, b.mtp ≤ b'.mtp)) ∧
    Skippable sha256 (foldBlock sha256 s b) bs

instance decidableSkippable (sha256 : Bytes → Hash256) :
    (s : SmState) → (bs : List (FoldBlock × Bool)) → Decidable (Skippable sha256 s bs)
  | _, [] => inferInstanceAs (Decidable True)
  | s, (b, _) :: bs =>
    have := decidableSkippable sha256 (foldBlock sha256 s b) bs
    inferInstanceAs (Decidable (_ ∧ Skippable sha256 (foldBlock sha256 s b) bs))

/-- The blocks that are kept. -/
def keptBlocks (bs : List (FoldBlock × Bool)) : List FoldBlock := (bs.filter Prod.snd).map Prod.fst

/-- The run without the skipped blocks lags behind by block starts that the next kept block makes up
for. -/
theorem lag_foldBlocks (sha256 : Bytes → Hash256) (bs : List (FoldBlock × Bool)) {s t : SmState}
    (hs : WellKeyed s) (ht : WellKeyed t) (hempty : ∀ bk ∈ bs, bk.2 = false → bk.1.txs = [])
    (ms : List ℤ) (hms : ∀ m ∈ ms, ∃ b' ∈ nextKept bs, m ≤ b'.mtp)
    (h : SameTables (obs s) (ms.foldl Ledger.skip (obs t))) (hskip : Skippable sha256 s bs) :
    SameRows (foldBlocks sha256 t (keptBlocks bs)) (foldBlocks sha256 s (bs.map Prod.fst)) := by
  induction bs generalizing s t ms with
  | nil =>
    -- nothing is kept any more, so nothing is pending
    cases ms with
    | nil =>
      exact SameTables.sameRows ht hs
        ⟨h.activationHeight.symm, h.names.symm, h.commits.symm, h.muts.symm⟩
    | cons m ms =>
      obtain ⟨b', hb', -⟩ := hms m (List.mem_cons_self ..)
      cases hb'
  | cons bk bs ih =>
    obtain ⟨b, kept⟩ := bk
    obtain ⟨hb, hrest⟩ := hskip
    have htail := fun bk hbk => hempty bk (List.mem_cons_of_mem _ hbk)
    have hs' := hs.tracks.foldBlock sha256 b
    cases kept with
    | true =>
      have hle : ∀ m ∈ ms, m ≤ b.mtp := by
        intro m hm
        obtain ⟨b', hb', hmb⟩ := hms m hm
        cases hb'
        exact hmb
      have ht' := ht.tracks.foldBlock sha256 b
      refine ih hs'.keyed ht'.keyed htail [] (by simp) ?_ hrest
      rw [List.foldl_nil, hs'.obs_eq, ht'.obs_eq]
      unfold Ledger.foldBlock
      rw [beginBlock_of_sameTables h, Ledger.beginBlock_foldl_skip hle]
      exact SameTables.refl _
    | false =>
      obtain ⟨hlapse, hend⟩ := hb rfl
      have htxs := hempty (b, false) (List.mem_cons_self ..) rfl
      have hstart : SameTables (obs (foldBlock sha256 s b)) ((obs s).skip b.mtp) := by
        rw [hs'.obs_eq]
        unfold Ledger.foldBlock
        rw [htxs]
        exact hlapse.beginBlock b.height b.rate
      rcases hend with hnone | hnext
      · exact ih hs'.keyed ht htail ms hms (hstart.trans (hnone.skip.trans h)) hrest
      · refine ih hs'.keyed ht htail (ms ++ [b.mtp]) ?_ ?_ hrest
        · intro m hm
          rcases List.mem_append.mp hm with hm | hm
          · exact hms m hm
          · rw [List.mem_singleton.mp hm]
            exact hnext
        · rw [List.foldl_append]
          exact hstart.trans (h.skip b.mtp)

end NamespaceIndexer
