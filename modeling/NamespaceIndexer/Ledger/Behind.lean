import NamespaceIndexer.Ledger.Skip
import NamespaceIndexer.Ledger.Stamps

/-!
# A fold that did not begin every block

What a block without transactions ends, the next block that is begun ends as well. Only the stamps
of the owners whose leases ended come out later.
-/

namespace NamespaceIndexer

open Fold Lib

/-! ### Overdue deeds -/

/-- A locked name is in the name of its seller. -/
def Deed.SellerOwns (d : Deed) : Prop := d.st ≠ .OWNED → d.seller = d.owner

theorem Deed.SellerOwns.close {d : Deed} (h : d.SellerOwns) (mtp : ℤ) :
    (d.close mtp).owner = d.owner ∧ (d.close mtp).SellerOwns := by
  have hplain : ∀ (e : Deed), e.seller = d.owner →
      (e.conveyTo e.seller e.sellerType).owner = d.owner ∧
        (e.conveyTo e.seller e.sellerType).SellerOwns :=
    fun e he => ⟨he, fun hst => absurd rfl hst⟩
  have hoffer : ∀ e : Deed, e.owner = d.owner → e.SellerOwns →
      (e.closeOffer mtp).owner = d.owner ∧ (e.closeOffer mtp).SellerOwns := by
    intro e he hs
    unfold Deed.closeOffer
    split
    · rename_i hst
      have hne : e.st ≠ .OWNED := by
        rcases hst.1 with hx | hx <;> rw [hx] <;> decide
      exact hplain e ((hs hne).trans he)
    · exact ⟨he, hs⟩
  have hreserve : (d.closeReserve mtp).owner = d.owner ∧ (d.closeReserve mtp).SellerOwns := by
    unfold Deed.closeReserve
    split
    · rename_i hst
      have hne : d.st ≠ .OWNED := by rw [hst.1]; decide
      split
      · exact ⟨rfl, fun _ => h hne⟩
      · exact hplain d (h hne)
    · exact ⟨rfl, h⟩
  exact hoffer _ hreserve.1 hreserve.2

theorem Deed.due_eq_some {mtp : ℤ} {d e : Deed} :
    d.due mtp = some e ↔ mtp < d.leaseExpiry ∧ e = d.close mtp := by
  unfold Deed.due
  split
  · rename_i hdue
    exact ⟨fun h => absurd h (Option.some_ne_none e).symm, fun h => absurd h.1 (not_lt.mpr hdue)⟩
  · rw [Option.some_inj]
    exact ⟨fun h => ⟨by omega, h.symm⟩, fun h => h.2.symm⟩

/-- A later boundary does what an earlier one would have. -/
theorem Deed.due_due {m m' : ℤ} (h : m ≤ m') (d : Deed) :
    (d.due m).bind (Deed.due m') = d.due m' := by
  unfold Deed.due
  by_cases hm : m ≥ d.leaseExpiry
  · rw [if_pos hm, if_pos (le_trans hm h)]
    rfl
  · rw [if_neg hm, Option.bind_some, Deed.close_leaseExpiry, Deed.close_close h]

/-- A deed after block starts at these times. -/
def Deed.dueAt (ms : List ℤ) (d : Deed) : Option Deed :=
  ms.foldl (fun o m => o.bind (Deed.due m)) (some d)

theorem Deed.dueAt_append (ms : List ℤ) (m : ℤ) (d : Deed) :
    d.dueAt (ms ++ [m]) = (d.dueAt ms).bind (Deed.due m) := by
  unfold Deed.dueAt
  rw [List.foldl_append]
  rfl

theorem Deed.dueAt_some {ms : List ℤ} {d e : Deed} (h : d.dueAt ms = some e) :
    e.leaseExpiry = d.leaseExpiry ∧ (∀ m ∈ ms, m < d.leaseExpiry) ∧
      (d.SellerOwns → e.owner = d.owner ∧ e.SellerOwns) := by
  induction ms using List.reverseRecOn generalizing e with
  | nil =>
    have he : d = e := Option.some_inj.mp h
    subst he
    exact ⟨rfl, fun m hm => absurd hm List.not_mem_nil, fun hs => ⟨rfl, hs⟩⟩
  | append_singleton ms m ih =>
    rw [Deed.dueAt_append] at h
    obtain ⟨e', he', hdue⟩ := Option.bind_eq_some_iff.mp h
    obtain ⟨hlease, hall, howns⟩ := ih he'
    obtain ⟨hm, rfl⟩ := Deed.due_eq_some.mp hdue
    refine ⟨(Deed.close_leaseExpiry m e').trans hlease, ?_, fun hs => ?_⟩
    · intro m' hm'
      rcases List.mem_append.mp hm' with hx | hx
      · exact hall m' hx
      · rw [List.mem_singleton.mp hx, ← hlease]
        exact hm
    · obtain ⟨ho, hs'⟩ := howns hs
      exact ⟨(hs'.close m).1.trans ho, (hs'.close m).2⟩

theorem Deed.dueAt_isSome {ms : List ℤ} {d : Deed} (h : ∀ m ∈ ms, m < d.leaseExpiry) :
    ∃ e, d.dueAt ms = some e := by
  induction ms using List.reverseRecOn with
  | nil => exact ⟨d, rfl⟩
  | append_singleton ms m ih =>
    obtain ⟨e, he⟩ := ih fun m' hm' => h m' (List.mem_append_left _ hm')
    have hlt := h m (List.mem_append_right _ (List.mem_singleton.mpr rfl))
    refine ⟨e.close m, ?_⟩
    rw [Deed.dueAt_append, he, Option.bind_some]
    exact Deed.due_eq_some.mpr ⟨(Deed.dueAt_some he).1 ▸ hlt, rfl⟩

theorem Deed.dueAt_due {ms : List ℤ} {mtp : ℤ} (h : ∀ m ∈ ms, m ≤ mtp) (d : Deed) :
    (d.dueAt ms).bind (Deed.due mtp) = d.due mtp := by
  induction ms using List.reverseRecOn with
  | nil => rfl
  | append_singleton ms m ih =>
    rw [Deed.dueAt_append, Option.bind_assoc]
    have hm := h m (List.mem_append_right _ (List.mem_singleton.mpr rfl))
    have hdue : (fun e : Deed => (e.due m).bind (Deed.due mtp)) = Deed.due mtp :=
      funext fun e => e.due_due hm
    rw [hdue]
    exact ih fun m' hm' => h m' (List.mem_append_left _ hm')

namespace Ledger

/-! ### Who owns a locked name -/

def SellersOwn (L : Ledger) : Prop := ∀ n d, L.names n = some d → d.SellerOwns

theorem Act.sellersOwn {sha256 : Bytes → Hash256} {tx : SmTx} {cx : SmTxCtx} {a : SmAction}
    {L L' : Ledger} {op : SmOp} {out : List Bool} (h : Act sha256 tx cx a L op L' out)
    (hs : L.SellersOwn) : L'.SellersOwn := by
  have hput : ∀ (f : Name → Option Deed) (m : Name) (e : Deed), e.SellerOwns →
      (∀ n d, f n = some d → d.SellerOwns) →
      ∀ n d, Function.update f m (some e) n = some d → d.SellerOwns := by
    intro f m e he hf n d hd
    rw [Function.update_apply] at hd
    split at hd
    · rw [← Option.some.inj hd]
      exact he
    · exact hf n d hd
  have hplain : ∀ (who : H160) (type : Byte) (lease : ℤ), (Deed.plain who type lease).SellerOwns :=
    fun _ _ _ hst => absurd rfl hst
  cases h with
  | commit => exact hs
  | mint _ _ _ _ =>
    unfold SellersOwn
    rw [mint_names]
    exact hput _ _ _ (fun hst => absurd rfl hst) hs
  | displace _ _ _ _ _ owned _ _ =>
    unfold SellersOwn
    rw [mint_names]
    exact hput _ _ _ (fun hst => absurd owned hst) hs
  | @extend _ ns _ _ _ =>
    intro n d hd
    rcases L.extend_names cx.mtp cx.rate cx.carValue ns n with he | ⟨-, k, -, he⟩
    · exact hs n d (he ▸ hd)
    · rw [he, Option.map_eq_some_iff] at hd
      obtain ⟨e, hn, rfl⟩ := hd
      exact hs n e hn
  | @gift _ sel _ _ _ =>
    intro n d hd
    change (if n ∈ sel then (L.names n).map (Deed.give a.addr) else L.names n) = some d at hd
    split at hd
    · rw [Option.map_eq_some_iff] at hd
      obtain ⟨e, hn, rfl⟩ := hd
      unfold Deed.give
      split
      · rename_i hst
        exact fun hne => absurd hst hne
      · exact hs n e hn
    · exact hs n d hd
  | @release _ sel _ _ _ =>
    intro n d hd
    change (if n ∈ sel then (L.names n).filter _ else L.names n) = some d at hd
    split at hd
    · rw [Option.filter_eq_some_iff] at hd
      exact hs n d hd.1
    · exact hs n d hd
  | @sell d w present owned holds price window lease =>
    exact hput _ _ _ (fun _ => holds.symm) hs
  | @sellTo d present owned holds lease => exact hput _ _ _ (fun _ => holds.symm) hs
  | @reserve d i present listed paid =>
    have hseller : d.seller = d.owner := hs _ _ present (by rw [listed]; decide)
    exact hput _ _ _ (fun _ => hseller) hs
  | settle present _ _ _ _ => exact hput _ _ _ (hplain _ _ _) hs
  | pay present _ _ _ _ => exact hput _ _ _ (hplain _ _ _) hs
  | trade _ _ _ _ _ presentA presentB ownedA _ ownedB _ =>
    exact hput _ _ _ (fun hst => absurd ownedB hst) (hput _ _ _ (fun hst => absurd ownedA hst) hs)

theorem SellersOwn.beginBlock {L : Ledger} (hs : L.SellersOwn) (height mtp : ℤ) (rate : UInt64) :
    (L.beginBlock height mtp rate).SellersOwn := by
  intro n d hd
  rw [beginBlock_names] at hd
  obtain ⟨e, he, hdue⟩ := Option.bind_eq_some_iff.mp hd
  obtain ⟨-, rfl⟩ := Deed.due_eq_some.mp hdue
  exact ((hs n e he).close mtp).2

theorem SellersOwn.foldBlock {L : Ledger} (hs : L.SellersOwn) (sha256 : Bytes → Hash256)
    (b : FoldBlock) : (L.foldBlock sha256 b).SellersOwn := by
  have htxs : ∀ (txs : List SmTx) (M : Ledger), M.SellersOwn →
      (txs.foldl (applyTx sha256) M).SellersOwn := by
    intro txs
    induction txs with
    | nil => exact fun M hM => hM
    | cons tx txs ih =>
      exact fun M hM => ih _ (applyTx_induct sha256 tx (P := SellersOwn)
        (fun _ _ hact hN => hact.sellersOwn hN) hM)
  exact htxs b.txs _ (hs.beginBlock b.height b.mtp b.rate)

/-! ### One ledger behind another -/

/-- `R` has not begun the blocks at the times `ms`; `P` are the owners whose leases ended there, and
the heights of the stamps that `R` owes them. -/
structure Behind (U : H160 → ℤ → Prop) (ms : List ℤ) (P : H160 → ℤ → Prop) (C R : Ledger) :
    Prop where
  activationHeight : C.activationHeight = R.activationHeight
  names : ∀ n, C.names n = (R.names n).bind (Deed.dueAt ms)
  commits : C.commits
    = ms.foldl (fun cs m => cs.filter fun c => ¬ m > c.commitTime + commitExpiry) R.commits
  stamps : ∀ who a, U who a →
    (C.lastMutation who ≤ a ↔ R.lastMutation who ≤ a ∧ ∀ k, P who k → k ≤ a)
  owed : ∀ who k, P who k →
    ∃ n d, R.names n = some d ∧ d.owner = who ∧ ∃ m ∈ ms, m ≥ d.leaseExpiry
  ended : ∀ n d, R.names n = some d → (∃ m ∈ ms, m ≥ d.leaseExpiry) → ∃ k, P d.owner k

section Behind

variable {U : H160 → ℤ → Prop} {ms : List ℤ} {P : H160 → ℤ → Prop} {C R : Ledger}

theorem Alike.behind (h : Alike U C R) : Behind U [] (fun _ _ => False) C R := by
  obtain ⟨m, rfl, hst⟩ := h
  refine ⟨rfl, fun n => ?_, rfl, fun who a ha => ?_, fun _ _ hf => hf.elim, ?_⟩
  · cases hn : C.names n with
    | none => exact (congrArg (fun o => Option.bind o (Deed.dueAt [])) hn).symm
    | some d => exact (congrArg (fun o => Option.bind o (Deed.dueAt [])) hn).symm
  · rw [hst who a ha]
    exact ⟨fun h => ⟨h, fun _ hf => hf.elim⟩, fun h => h.1⟩
  · rintro n d - ⟨m, hm, -⟩
    exact absurd hm List.not_mem_nil

theorem Behind.mono (h : Behind U ms P C R) {V : H160 → ℤ → Prop}
    (hV : ∀ who a, V who a → U who a) : Behind V ms P C R :=
  ⟨h.activationHeight, h.names, h.commits, fun who a ha => h.stamps who a (hV who a ha), h.owed,
    h.ended⟩

theorem Behind.congr (h : Behind U ms P C R) {C' : Ledger} (hC : SameTables C' C) :
    Behind U ms P C' R := by
  refine ⟨hC.activationHeight.trans h.activationHeight, fun n => ?_, hC.commits.trans h.commits,
    fun who a ha => ?_, h.owed, h.ended⟩
  · rw [hC.names]
    exact h.names n
  · have hlast : C'.lastMutation who = C.lastMutation who := by
      unfold lastMutation
      rw [hC.muts]
    rw [hlast]
    exact h.stamps who a ha

theorem Behind.sellersOwn (h : Behind U ms P C R) (hs : R.SellersOwn) : C.SellersOwn := by
  intro n d hd
  rw [h.names] at hd
  obtain ⟨e, he, hdue⟩ := Option.bind_eq_some_iff.mp hd
  exact ((Deed.dueAt_some hdue).2.2 (hs n e he)).2

/-- Who owns a name there owns it here. -/
theorem Behind.owner (h : Behind U ms P C R) (hs : R.SellersOwn) {n : Name} {d : Deed}
    (hd : C.names n = some d) : ∃ e, R.names n = some e ∧ e.owner = d.owner := by
  rw [h.names] at hd
  obtain ⟨e, he, hdue⟩ := Option.bind_eq_some_iff.mp hd
  exact ⟨e, he, ((Deed.dueAt_some hdue).2.2 (hs n e he)).1.symm⟩

theorem lastMutation_beginBlock {L : Ledger} {height mtp : ℤ} (hh : 0 ≤ height) (rate : UInt64)
    (who : H160) (a : ℤ) : (L.beginBlock height mtp rate).lastMutation who ≤ a ↔
      L.lastMutation who ≤ a ∧ (L.Lapses Set.univ mtp who → height ≤ a) := by
  unfold lastMutation
  change (((L.settleDue Set.univ height mtp).muts who).getD 0 ≤ a) ↔ _
  by_cases hl : L.Lapses Set.univ mtp who
  · rw [settleDue_lapse hl, Option.getD_some, raise_le hh]
    simp [hl]
  · rw [settleDue_noLapse hl]
    simp [hl]

/-- Whose leases end when the block is begun: the ones that ended there, and the ones owed. -/
theorem Behind.lapses (h : Behind U ms P C R) (hs : R.SellersOwn) {mtp : ℤ}
    (hms : ∀ m ∈ ms, m ≤ mtp) (who : H160) :
    R.Lapses Set.univ mtp who ↔ C.Lapses Set.univ mtp who ∨ ∃ k, P who k := by
  constructor
  · rintro ⟨n, -, d, hd, hl, hw⟩
    have howner := ((hs n d hd).close mtp).1
    by_cases hended : ∃ m ∈ ms, m ≥ d.leaseExpiry
    · obtain ⟨k, hk⟩ := h.ended n d hd hended
      rw [howner] at hw
      exact Or.inr ⟨k, hw ▸ hk⟩
    · have hopen : ∀ m ∈ ms, m < d.leaseExpiry := fun m hm =>
        not_le.mp fun hle => hended ⟨m, hm, hle⟩
      obtain ⟨e, he⟩ := Deed.dueAt_isSome hopen
      obtain ⟨hlease, -, howns⟩ := Deed.dueAt_some he
      obtain ⟨ho, hse⟩ := howns (hs n d hd)
      refine Or.inl ⟨n, Set.mem_univ n, e, ?_, ?_, ?_⟩
      · rw [h.names, hd]
        exact he
      · rw [hlease]
        exact hl
      · rw [(hse.close mtp).1, ho, ← hw, howner]
  · rintro (⟨n, -, e, he, hl, hw⟩ | ⟨k, hk⟩)
    · rw [h.names] at he
      obtain ⟨d, hd, hdue⟩ := Option.bind_eq_some_iff.mp he
      obtain ⟨hlease, -, howns⟩ := Deed.dueAt_some hdue
      obtain ⟨ho, hse⟩ := howns (hs n d hd)
      refine ⟨n, Set.mem_univ n, d, hd, hlease ▸ hl, ?_⟩
      rw [((hs n d hd).close mtp).1, ← ho, ← (hse.close mtp).1, hw]
    · obtain ⟨n, d, hd, hw, m, hm, hl⟩ := h.owed who k hk
      refine ⟨n, Set.mem_univ n, d, hd, le_trans hl (hms m hm), ?_⟩
      rw [((hs n d hd).close mtp).1, hw]

/-- Beginning a block catches up, where no anchor falls between a stamp that is owed and its
height. -/
theorem Behind.begun (h : Behind U ms P C R) (hs : R.SellersOwn) {height mtp : ℤ} (rate : UInt64)
    (hh : 0 ≤ height) (hms : ∀ m ∈ ms, m ≤ mtp)
    (hlate : ∀ who k, P who k → k ≤ height ∧ ∀ a, U who a → k ≤ a → height ≤ a) :
    Alike U (C.beginBlock height mtp rate) (R.beginBlock height mtp rate) := by
  refine ⟨(R.beginBlock height mtp rate).muts, ?_, fun who a ha => ?_⟩
  · refine Ledger.ext h.activationHeight.symm rfl rfl rfl (funext fun n => ?_) ?_ rfl rfl
    · change (R.beginBlock height mtp rate).names n = (C.beginBlock height mtp rate).names n
      rw [beginBlock_names, beginBlock_names, h.names, Option.bind_assoc]
      exact congrArg (Option.bind (R.names n)) (funext fun d => (d.dueAt_due hms).symm)
    · change R.commits.filter _ = C.commits.filter _
      rw [h.commits]
      have hfilter : ∀ (ms : List ℤ) (cs : Multiset SmCommit), (∀ m ∈ ms, m ≤ mtp) →
          (ms.foldl (fun cs m => cs.filter fun c => ¬ m > c.commitTime + commitExpiry) cs).filter
              (fun c => ¬ mtp > c.commitTime + commitExpiry)
            = cs.filter fun c => ¬ mtp > c.commitTime + commitExpiry := by
        intro ms
        induction ms with
        | nil => exact fun _ _ => rfl
        | cons m ms ih =>
          intro cs hle
          have hm := hle m (List.mem_cons_self ..)
          rw [List.foldl_cons, ih _ fun m' hm' => hle m' (List.mem_cons_of_mem _ hm'),
            Multiset.filter_filter]
          refine Multiset.filter_congr fun c _ => ⟨fun hc => hc.1, fun hc => ⟨hc, ?_⟩⟩
          omega
      exact (hfilter ms R.commits hms).symm
  · rw [lastMutation_beginBlock hh, lastMutation_beginBlock hh, h.stamps who a ha,
      h.lapses hs hms who]
    constructor
    · rintro ⟨⟨hR, hP⟩, hC⟩
      refine ⟨hR, ?_⟩
      rintro (hl | ⟨k, hk⟩)
      · exact hC hl
      · exact (hlate who k hk).2 a ha (hP k hk)
    · rintro ⟨hR, hC⟩
      refine ⟨⟨hR, fun k hk => ?_⟩, fun hl => hC (Or.inl hl)⟩
      exact le_trans (hlate who k hk).1 (hC (Or.inr ⟨k, hk⟩))

/-- A block that is not begun. -/
theorem Behind.skipped (h : Behind U ms P C R) (hs : R.SellersOwn) {height : ℤ} (mtp : ℤ)
    (rate : UInt64) (hh : 0 ≤ height) :
    Behind U (ms ++ [mtp]) (fun who k => P who k ∨ (k = height ∧ C.Lapses Set.univ mtp who))
      (C.beginBlock height mtp rate) R := by
  refine ⟨h.activationHeight, fun n => ?_, ?_, fun who a ha => ?_, ?_, ?_⟩
  · rw [beginBlock_names, h.names, Option.bind_assoc]
    exact congrArg (Option.bind (R.names n)) (funext fun d => (d.dueAt_append ms mtp).symm)
  · rw [List.foldl_append, ← h.commits]
    rfl
  · rw [lastMutation_beginBlock hh, h.stamps who a ha, and_assoc]
    refine and_congr_right fun _ => ⟨?_, fun hP => ⟨fun k hk => hP k (Or.inl hk), fun hl => ?_⟩⟩
    · rintro ⟨hP, hC⟩ k (hk | ⟨rfl, hl⟩)
      · exact hP k hk
      · exact hC hl
    · exact hP height (Or.inr ⟨rfl, hl⟩)
  · rintro who k (hk | ⟨rfl, n, -, e, he, hl, hw⟩)
    · obtain ⟨n, d, hd, ho, m, hm, hle⟩ := h.owed who k hk
      exact ⟨n, d, hd, ho, m, List.mem_append_left _ hm, hle⟩
    · rw [h.names] at he
      obtain ⟨d, hd, hdue⟩ := Option.bind_eq_some_iff.mp he
      obtain ⟨hlease, -, howns⟩ := Deed.dueAt_some hdue
      obtain ⟨ho, hse⟩ := howns (hs n d hd)
      refine ⟨n, d, hd, ?_, mtp, List.mem_append_right _ (List.mem_singleton.mpr rfl), hlease ▸ hl⟩
      rw [← ho, ← (hse.close mtp).1, hw]
  · rintro n d hd ⟨m, hm, hle⟩
    by_cases hended : ∃ m ∈ ms, m ≥ d.leaseExpiry
    · obtain ⟨k, hk⟩ := h.ended n d hd hended
      exact ⟨k, Or.inl hk⟩
    · have hopen : ∀ m ∈ ms, m < d.leaseExpiry := fun m hm =>
        not_le.mp fun hle => hended ⟨m, hm, hle⟩
      obtain ⟨e, he⟩ := Deed.dueAt_isSome hopen
      obtain ⟨hlease, -, howns⟩ := Deed.dueAt_some he
      obtain ⟨ho, hse⟩ := howns (hs n d hd)
      rcases List.mem_append.mp hm with hx | hx
      · exact absurd ⟨m, hx, hle⟩ hended
      · rw [List.mem_singleton.mp hx] at hle
        refine ⟨height, Or.inr ⟨rfl, n, Set.mem_univ n, e, ?_, hlease ▸ hle, ?_⟩⟩
        · rw [h.names, hd]
          exact he
        · rw [(hse.close mtp).1, ho]

end Behind

end Ledger

/-! ### Runs -/

/-- What `who` signs in these blocks has no anchor from `lo` to below `hi`. -/
def Unasked (who : H160) (lo hi : ℤ) (bs : List FoldBlock) : Prop :=
  ∀ b ∈ bs, ∀ tx ∈ b.txs, (∃ i ∈ tx.inputs, i.h160 = who) →
    ∀ car ∈ tx.carriers, car.act.hasAnchor = true →
      i64 car.act.anchor < lo ∨ hi ≤ i64 car.act.anchor

instance (who : H160) (lo hi : ℤ) (bs : List FoldBlock) : Decidable (Unasked who lo hi bs) :=
  inferInstanceAs (Decidable (∀ b ∈ bs, _))

/-- The block ends nothing, or the next one that is begun is not older, and no owner whose lease
ends asks about the stamp in between. -/
def MadeUp (s : SmState) (b : FoldBlock) (bs : List (FoldBlock × Bool)) : Prop :=
  (NoLapse s b.mtp ∧ NothingEnds s b.mtp) ∨
    ∀ b' ∈ nextKept bs, b.mtp ≤ b'.mtp ∧
      ∀ r ∈ s.names, r.leaseExpiry ≤ b.mtp → Unasked r.owner b.height b'.height (keptBlocks bs)

instance (s : SmState) (b : FoldBlock) (bs : List (FoldBlock × Bool)) : Decidable (MadeUp s b bs) :=
  inferInstanceAs (Decidable (_ ∨ _))

/-- What the blocks of a run end that are not begun is made up for by those that are. -/
def Timely (sha256 : Bytes → Hash256) : SmState → List (FoldBlock × Bool) → Prop
  | _, [] => True
  | s, (b, begun) :: bs => (begun = false → MadeUp s b bs) ∧ Timely sha256 (foldBlock sha256 s b) bs

instance decidableTimely (sha256 : Bytes → Hash256) :
    (s : SmState) → (bs : List (FoldBlock × Bool)) → Decidable (Timely sha256 s bs)
  | _, [] => inferInstanceAs (Decidable True)
  | s, (b, _) :: bs =>
    have := decidableTimely sha256 (foldBlock sha256 s b) bs
    inferInstanceAs (Decidable (_ ∧ Timely sha256 (foldBlock sha256 s b) bs))

/-- The owners and anchors of the blocks that are begun. -/
def Asked (bs : List (FoldBlock × Bool)) (who : H160) (a : ℤ) : Prop :=
  ∃ b ∈ keptBlocks bs, ∃ tx ∈ b.txs, Anchors tx who a

theorem Unasked.out {who : H160} {lo hi : ℤ} {bs : List (FoldBlock × Bool)}
    (h : Unasked who lo hi (keptBlocks bs)) {a : ℤ} (ha : Asked bs who a) : a < lo ∨ hi ≤ a := by
  obtain ⟨b, hb, tx, htx, hsign, car, hcar, hanchor, rfl⟩ := ha
  exact h b hb tx htx hsign car hcar hanchor

theorem Asked.cons {bs : List (FoldBlock × Bool)} {who : H160} {a : ℤ} (bk : FoldBlock × Bool)
    (h : Asked bs who a) : Asked (bk :: bs) who a := by
  obtain ⟨b, hb, h⟩ := h
  refine ⟨b, ?_, h⟩
  unfold keptBlocks
  rw [List.filter_cons]
  split
  · exact List.mem_cons_of_mem _ hb
  · exact hb

/-- Blocks as a chain gives them: those that need not be begun are empty, the heights rise. -/
structure Rising (bs : List (FoldBlock × Bool)) : Prop where
  bare : ∀ bk ∈ bs, bk.2 = false → bk.1.txs = []
  heights : ∀ bk ∈ bs, 0 ≤ bk.1.height
  rising : bs.Pairwise fun bk bk' => bk.1.height < bk'.1.height

theorem Rising.tail {bk : FoldBlock × Bool} {bs : List (FoldBlock × Bool)} (h : Rising (bk :: bs)) :
    Rising bs :=
  ⟨fun bk hbk => h.bare bk (List.mem_cons_of_mem _ hbk),
    fun bk hbk => h.heights bk (List.mem_cons_of_mem _ hbk), (List.pairwise_cons.mp h.rising).2⟩

theorem nextKept_mem {bs : List (FoldBlock × Bool)} {b : FoldBlock} (h : b ∈ nextKept bs) :
    (b, true) ∈ bs := by
  obtain ⟨⟨b', k⟩, hfind, rfl⟩ := Option.map_eq_some_iff.mp h
  have hk : k = true := List.find?_some hfind
  rw [← hk]
  exact List.mem_of_find?_eq_some hfind

/-- `t` is behind `s`, with the blocks ahead. -/
structure Owes (sha256 : Bytes → Hash256) (s t : SmState) (bs : List (FoldBlock × Bool))
    (ms : List ℤ) (P : H160 → ℤ → Prop) : Prop where
  ahead : WellKeyed s
  keyed : WellKeyed t
  owns : (obs t).SellersOwn
  behind : Ledger.Behind (Asked bs) ms P (obs s) (obs t)
  mtps : ∀ m ∈ ms, ∀ b' ∈ nextKept bs, m ≤ b'.mtp
  late : ∀ who k, P who k → ∀ b' ∈ nextKept bs,
    k ≤ b'.height ∧ Unasked who k b'.height (keptBlocks bs)
  timely : Timely sha256 s bs
  blocks : Rising bs

section Run

variable {sha256 : Bytes → Hash256} {s t : SmState} {bs : List (FoldBlock × Bool)} {ms : List ℤ}
  {P : H160 → ℤ → Prop}

/-- A block that both begin. -/
theorem Owes.begun {b : FoldBlock} (h : Owes sha256 s t ((b, true) :: bs) ms P) :
    Ledger.Alike (Asked bs) (obs (foldBlock sha256 s b)) (obs (foldBlock sha256 t b)) ∧
      Owes sha256 (foldBlock sha256 s b) (foldBlock sha256 t b) bs [] fun _ _ => False := by
  have hnext : b ∈ nextKept ((b, true) :: bs) := rfl
  have hs' := h.ahead.tracks.foldBlock sha256 b
  have ht' := h.keyed.tracks.foldBlock sha256 b
  have hheight : 0 ≤ b.height := h.blocks.heights _ (List.mem_cons_self ..)
  have hstart := h.behind.begun h.owns b.rate hheight (fun m hm => h.mtps m hm b hnext)
    fun who k hk => ⟨(h.late who k hk b hnext).1, fun a ha hle =>
      ((h.late who k hk b hnext).2.out ha).resolve_left (not_lt.mpr hle)⟩
  have hasked : ∀ tx ∈ b.txs, ∀ who a, Anchors tx who a → Asked ((b, true) :: bs) who a := by
    intro tx htx who a ha
    refine ⟨b, ?_, tx, htx, ha⟩
    unfold keptBlocks
    rw [List.filter_cons_of_pos rfl]
    exact List.mem_cons_self ..
  have halike : Ledger.Alike (Asked bs) (obs (foldBlock sha256 s b)) (obs (foldBlock sha256 t b)) := by
    rw [hs'.obs_eq, ht'.obs_eq]
    exact (hstart.foldl_applyTx sha256 hheight hasked).mono fun who a ha => ha.cons _
  refine ⟨halike, hs'.keyed, ht'.keyed, ?_, halike.behind, fun m hm => absurd hm List.not_mem_nil,
    fun _ _ hf => hf.elim, h.timely.2, h.blocks.tail⟩
  rw [ht'.obs_eq]
  exact h.owns.foldBlock sha256 b

/-- A block that is not begun. -/
theorem Owes.skipped {b : FoldBlock} (h : Owes sha256 s t ((b, false) :: bs) ms P) :
    ∃ ms' P', Owes sha256 (foldBlock sha256 s b) t bs ms' P' := by
  have hs' := h.ahead.tracks.foldBlock sha256 b
  have hmem : (b, false) ∈ (b, false) :: bs := List.mem_cons_self ..
  have hstart : obs (foldBlock sha256 s b) = (obs s).beginBlock b.height b.mtp b.rate := by
    rw [hs'.obs_eq]
    unfold Ledger.foldBlock
    rw [h.blocks.bare _ hmem rfl]
    rfl
  have hbehind : Ledger.Behind (Asked bs) ms P (obs s) (obs t) :=
    h.behind.mono fun who a ha => ha.cons _
  rcases h.timely.1 rfl with ⟨hlapse, hnone⟩ | hmade
  · -- nothing ends, so nothing more is owed
    refine ⟨ms, P, hs'.keyed, h.keyed, h.owns, ?_, h.mtps, h.late, h.timely.2, h.blocks.tail⟩
    apply hbehind.congr
    rw [hstart]
    exact (hlapse.beginBlock b.height b.rate).trans hnone.skip
  · have hskip := hbehind.skipped h.owns b.mtp b.rate (h.blocks.heights _ hmem)
    refine ⟨ms ++ [b.mtp], _, hs'.keyed, h.keyed, h.owns, hstart ▸ hskip, ?_, ?_, h.timely.2,
      h.blocks.tail⟩
    · intro m hm b' hb'
      rcases List.mem_append.mp hm with hm | hm
      · exact h.mtps m hm b' hb'
      · rw [List.mem_singleton.mp hm]
        exact (hmade b' hb').1
    · rintro who k (hk | ⟨rfl, n, -, d, hd, hl, hw⟩) b' hb'
      · exact h.late who k hk b' hb'
      · obtain ⟨r, hr, rfl⟩ := deed_of_names hd
        have hlt := (List.pairwise_cons.mp h.blocks.rising).1 _ (nextKept_mem hb')
        rw [((hbehind.sellersOwn h.owns n _ hd).close b.mtp).1] at hw
        exact ⟨le_of_lt hlt, hw ▸ (hmade b' hb').2 r hr hl⟩

/-- What is owed after a part of the run. -/
theorem Owes.run {post : List (FoldBlock × Bool)} (h : Owes sha256 s t (bs ++ post) ms P) :
    ∃ ms' P', Owes sha256 (foldBlocks sha256 s (bs.map Prod.fst))
      (foldBlocks sha256 t (keptBlocks bs)) post ms' P' := by
  induction bs generalizing s t ms P with
  | nil => exact ⟨ms, P, h⟩
  | cons bk bs ih =>
    obtain ⟨b, begun⟩ := bk
    cases begun with
    | true => exact ih h.begun.2
    | false =>
      obtain ⟨ms', P', h'⟩ := h.skipped
      exact ih h'

/-- Nothing is owed between equal states. -/
theorem owes_self (hs : WellKeyed s) (hown : (obs s).SellersOwn) (htimely : Timely sha256 s bs)
    (hblocks : Rising bs) : Owes sha256 s s bs [] fun _ _ => False := by
  have hself : Ledger.Alike (Asked bs) (obs s) (obs s) := ⟨(obs s).muts, rfl, fun _ _ _ => Iff.rfl⟩
  exact ⟨hs, hs, hown, hself.behind, fun m hm => absurd hm List.not_mem_nil, fun _ _ hf => hf.elim,
    htimely, hblocks⟩

end Run

end NamespaceIndexer
