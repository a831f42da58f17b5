import NamespaceIndexer.Ledger.Reachable

/-!
# The anchor guard

A bitmap action names positions in the actor's owned set as of its anchor. Every
step that changes an owned set stamps its identity with the current height, so a
guard that finds the last stamp at or below the anchor has the same set before it.
-/

namespace NamespaceIndexer

open Fold Lib

/-- Heights go up strictly; median-time-past never falls and is never negative. -/
structure ValidRun (bs : List FoldBlock) : Prop where
  heights : bs.Pairwise fun b c => b.height < c.height
  times : bs.Pairwise fun b c => b.mtp ≤ c.mtp
  nonneg : ∀ b ∈ bs, 0 ≤ b.mtp

theorem ValidRun.left {bs cs : List FoldBlock} (h : ValidRun (bs ++ cs)) : ValidRun bs :=
  ⟨(List.pairwise_append.mp h.heights).1, (List.pairwise_append.mp h.times).1,
    fun b hb => h.nonneg b (List.mem_append_left _ hb)⟩

/-- Increasing blocks split at a height. -/
theorem ValidRun.split {bs : List FoldBlock} (h : ValidRun bs) (H : ℤ) :
    bs = (bs.filter fun c => c.height ≤ H) ++ bs.filter fun c => ¬ c.height ≤ H := by
  have hp := h.heights
  clear h
  induction bs with
  | nil => rfl
  | cons b bs ih =>
    rw [List.pairwise_cons] at hp
    by_cases hb : b.height ≤ H
    · rw [List.filter_cons_of_pos (by simpa using hb), List.filter_cons_of_neg (by simpa using hb),
        List.cons_append, ← ih hp.2]
    · have hnone : (bs.filter fun c => c.height ≤ H) = [] := by
        rw [List.filter_eq_nil_iff]
        intro c hc
        have hlt := hp.1 c hc
        simp only [decide_eq_true_eq]
        omega
      have hall : (bs.filter fun c => ¬ c.height ≤ H) = bs := by
        rw [List.filter_eq_self]
        intro c hc
        have hlt := hp.1 c hc
        simp only [decide_eq_true_eq]
        omega
      rw [List.filter_cons_of_neg (by simpa using hb), List.filter_cons_of_pos (by simpa using hb),
        hnone, hall]
      rfl

namespace Ledger

/-- The owned set of `who` is `S`, or a block above height `H` stamped `who`. -/
def Kept (H : ℤ) (who : H160) (S : Set Name) (L : Ledger) : Prop :=
  L.owned who = S ∨ L.Stamped who (H + 1)

section Kept

variable {sha256 : Bytes → Hash256} {H : ℤ} {who : H160} {S : Set Name} {L : Ledger}

theorem Stamped.mono {h k : ℤ} (hs : L.Stamped who h) (hk : k ≤ h) : L.Stamped who k := by
  obtain ⟨h', hm, hle⟩ := hs
  exact ⟨h', hm, le_trans hk hle⟩

theorem Act.kept {tx : SmTx} {cx : SmTxCtx} {a : SmAction} {L' : Ledger} {op : SmOp}
    {out : List Bool} (h : Act sha256 tx cx a L op L' out) (hh : cx.height = L.height)
    (hs : L.Sound) (hH : H < L.height) (hk : Kept H who S L) : Kept H who S L' := by
  rcases hk with hS | hst
  · by_cases ho : L'.owned who = L.owned who
    · exact Or.inl (ho.trans hS)
    · exact Or.inr ((h.owned_stamped hh hs ho).mono (by omega))
  · exact Or.inr (h.stamped hst)

/-- What holds inside a block above `H`. -/
def Later (H : ℤ) (who : H160) (S : Set Name) (L : Ledger) : Prop :=
  L.Sound ∧ H < L.height ∧ Kept H who S L

theorem Act.later {tx : SmTx} {cx : SmTxCtx} {a : SmAction} {L' : Ledger} {op : SmOp}
    {out : List Bool} (hh : cx.height = L.height) (hm : cx.mtp = L.mtp)
    (h : Act sha256 tx cx a L op L' out) (hl : Later H who S L) : Later H who S L' := by
  obtain ⟨hs, hH, hk⟩ := hl
  exact ⟨h.sound hh hm hs, by rw [h.clock.1]; exact hH, h.kept hh hs hH hk⟩

theorem Later.txs (sha256 : Bytes → Hash256) (hl : Later H who S L) (txs : List SmTx) :
    Later H who S (txs.foldl (applyTx sha256) L) := by
  induction txs generalizing L with
  | nil => exact hl
  | cons tx txs ih => exact ih (applyTx_induct sha256 tx Act.later hl)

theorem Later.beginBlock {height mtp : ℤ} (rate : UInt64) (hs : L.Sound)
    (hst : ∀ w k, L.muts w = some k → k ≤ height) (hm : L.mtp ≤ mtp) (hH : H < height)
    (hk : Kept H who S L) : Later H who S (L.beginBlock height mtp rate) := by
  refine ⟨Sound.beginBlock hs.deeds hst hm, hH, ?_⟩
  rcases hk with hS | hst
  · by_cases ho : (L.beginBlock height mtp rate).owned who = L.owned who
    · exact Or.inl (ho.trans hS)
    · obtain ⟨n, hne, hwho⟩ := owned_changed ho
      rcases beginBlock_holder hs.deeds hm n with he | hstamp
      · exact absurd he hne
      · exact Or.inr ((hstamp who hwho).mono (by omega))
  · exact Or.inr hst.beginBlock

end Kept

/-! ### Runs -/

section Runs

variable {sha256 : Bytes → Hash256} {activationHeight : UInt64} {bs : List FoldBlock}

theorem foldl_applyTx_clock (txs : List SmTx) (L : Ledger) :
    (txs.foldl (applyTx sha256) L).height = L.height ∧
      (txs.foldl (applyTx sha256) L).mtp = L.mtp := by
  induction txs generalizing L with
  | nil => exact ⟨rfl, rfl⟩
  | cons tx txs ih =>
    have hstep : (L.applyTx sha256 tx).height = L.height ∧ (L.applyTx sha256 tx).mtp = L.mtp :=
      applyTx_induct (P := fun M => M.height = L.height ∧ M.mtp = L.mtp) sha256 tx
        (fun _ _ hact hM => ⟨hact.clock.1.trans hM.1, hact.clock.2.1.trans hM.2⟩) ⟨rfl, rfl⟩
    obtain ⟨hh, hm⟩ := ih (L.applyTx sha256 tx)
    exact ⟨hh.trans hstep.1, hm.trans hstep.2⟩

/-- The ledger of a run from the empty state. -/
noncomputable def ofRun (sha256 : Bytes → Hash256) (activationHeight : UInt64) (bs : List FoldBlock) :
    Ledger := (obs (smNew activationHeight)).foldBlocks sha256 bs

theorem ofRun_append (b : FoldBlock) :
    ofRun sha256 activationHeight (bs ++ [b])
      = (ofRun sha256 activationHeight bs).foldBlock sha256 b := by
  unfold ofRun foldBlocks
  rw [List.foldl_append, List.foldl_cons, List.foldl_nil]

theorem foldBlock_clock (L : Ledger) (b : FoldBlock) :
    (L.foldBlock sha256 b).height = b.height ∧ (L.foldBlock sha256 b).mtp = b.mtp :=
  foldl_applyTx_clock b.txs _

/-- The next block of a run is not before the last: no stamp is above it, and no time. -/
theorem ofRun_next {b : FoldBlock} (h : ValidRun (bs ++ [b]))
    (hs : (ofRun sha256 activationHeight bs).Sound) :
    (∀ who k, (ofRun sha256 activationHeight bs).muts who = some k → k ≤ b.height) ∧
      (ofRun sha256 activationHeight bs).mtp ≤ b.mtp := by
  rcases List.eq_nil_or_concat bs with rfl | ⟨cs, c, rfl⟩
  · refine ⟨fun who k hk => ?_, h.nonneg b (by simp)⟩
    cases hk
  · rw [List.concat_eq_append] at h hs ⊢
    have hlt := (List.pairwise_append.mp h.heights).2.2 c (by simp) b (by simp)
    have hle := (List.pairwise_append.mp h.times).2.2 c (by simp) b (by simp)
    have hstamps := hs.stamps
    rw [ofRun_append, (foldBlock_clock _ c).1] at hstamps
    rw [ofRun_append, (foldBlock_clock _ c).2]
    exact ⟨fun who k hk => le_trans (hstamps who k hk) (by omega), hle⟩

theorem Sound.txs {L : Ledger} (hs : L.Sound) (txs : List SmTx) :
    (txs.foldl (applyTx sha256) L).Sound := by
  induction txs generalizing L with
  | nil => exact hs
  | cons tx txs ih =>
    exact ih (applyTx_induct sha256 tx (fun hh hm hact hs => hact.sound hh hm hs) hs)

theorem ofRun_sound (sha256 : Bytes → Hash256) (activationHeight : UInt64) (h : ValidRun bs) :
    (ofRun sha256 activationHeight bs).Sound := by
  induction bs using List.reverseRecOn with
  | nil => exact (Live.smNew activationHeight).sound
  | append_singleton bs b ih =>
    have hs := ih h.left
    obtain ⟨hst, hm⟩ := ofRun_next h hs
    rw [ofRun_append]
    exact (Sound.beginBlock hs.deeds hst hm).txs b.txs

/-- Blocks above `H` keep an owned set or stamp its identity. -/
theorem ofRun_kept (sha256 : Bytes → Hash256) (activationHeight : UInt64) (H : ℤ)
    {cs : List FoldBlock} (h : ValidRun (bs ++ cs))
    (hH : ∀ c ∈ cs, H < c.height) (who : H160) :
    Kept H who ((ofRun sha256 activationHeight bs).owned who)
      (ofRun sha256 activationHeight (bs ++ cs)) := by
  induction cs using List.reverseRecOn with
  | nil =>
    rw [List.append_nil]
    exact Or.inl rfl
  | append_singleton cs c ih =>
    rw [← List.append_assoc] at h ⊢
    have hs := ofRun_sound sha256 activationHeight h.left
    obtain ⟨hst, hm⟩ := ofRun_next h hs
    rw [ofRun_append]
    have hk := ih h.left fun c hc => hH c (List.mem_append_left _ hc)
    exact ((Later.beginBlock c.rate hs hst hm (hH c (by simp)) hk).txs sha256 c.txs).2.2

/-- The ledger at a carrier of a block: the transactions `done`, then the carriers `pre`. -/
noncomputable def midBlock (sha256 : Bytes → Hash256) (L : Ledger) (b : FoldBlock) (done : List SmTx)
    (tx : SmTx) (pre : List SmCarrier) : Ledger × SmTxCtx :=
  let L := done.foldl (applyTx sha256) (L.beginBlock b.height b.mtp b.rate)
  pre.foldl (applyCarrier sha256 tx) (L, L.initCtx tx)

theorem midBlock_clock (sha256 : Bytes → Hash256) (L : Ledger) (b : FoldBlock) (done : List SmTx) (tx : SmTx)
    (pre : List SmCarrier) :
    (midBlock sha256 L b done tx pre).1.height = b.height ∧
      Aligned (midBlock sha256 L b done tx pre) := by
  have h := foldl_applyCarrier_induct sha256 tx (P := fun M => M.height = b.height)
    (fun _ _ hact hM => hact.clock.1.trans hM)
    (done.foldl (applyTx sha256) (L.beginBlock b.height b.mtp b.rate), _)
    (initCtx_clock tx _) (foldl_applyTx_clock done _).1 pre
  exact h

/-- Inside a block above `H`, an owned set is the one of the last block up to `H`, or stamped. -/
theorem midBlock_later (sha256 : Bytes → Hash256) (activationHeight : UInt64) {b : FoldBlock} {H : ℤ}
    (h : ValidRun (bs ++ [b])) (hH : H < b.height)
    (who : H160) (done : List SmTx) (tx : SmTx) (pre : List SmCarrier) :
    Later H who ((ofRun sha256 activationHeight (bs.filter fun c => c.height ≤ H)).owned who)
      (midBlock sha256 (ofRun sha256 activationHeight bs) b done tx pre).1 := by
  have hsplit := h.left.split H
  have hs := ofRun_sound sha256 activationHeight h.left
  obtain ⟨hst, hm⟩ := ofRun_next h hs
  have hk : Kept H who ((ofRun sha256 activationHeight (bs.filter fun c => c.height ≤ H)).owned who)
      (ofRun sha256 activationHeight bs) := by
    have hrun := ofRun_kept sha256 activationHeight H
      (hsplit ▸ h.left) (fun c hc => by simpa using (List.mem_filter.mp hc).2) who
    rwa [← hsplit] at hrun
  have hl := (Later.beginBlock b.rate hs hst hm hH hk).txs sha256 done
  exact (foldl_applyCarrier_induct sha256 tx Act.later (_, _) (initCtx_clock tx _) hl pre).1

end Runs

end Ledger

/-! ### The guard -/

/-- The names `sm_collect_owned` returns, in its order. -/
def collected (s : SmState) (who : H160) : List Name :=
  (smCollectOwned s who).map fun r => (s.row r).name

/-- The fold at a carrier of a block: the transactions `done`, then the carriers `pre`. -/
def midBlock (sha256 : Bytes → Hash256) (s : SmState) (b : FoldBlock) (done : List SmTx) (tx : SmTx)
    (pre : List SmCarrier) : SmState × SmTxCtx :=
  let s := done.foldl (smApplyTx sha256) (smBeginBlock s b.height b.mtp b.rate)
  pre.foldl (applyCarrier sha256 tx) (s, initCtx s tx)

theorem Tracks.midBlock {s : SmState} {L : Ledger} (t : Tracks s L) (sha256 : Bytes → Hash256)
    (b : FoldBlock) (done : List SmTx) (tx : SmTx) (pre : List SmCarrier) :
    Tracks (midBlock sha256 s b done tx pre).1 (L.midBlock sha256 b done tx pre).1 ∧
      (NamespaceIndexer.midBlock sha256 s b done tx pre).2 = (L.midBlock sha256 b done tx pre).2 := by
  have ht := (t.smBeginBlock b.height b.mtp b.rate).foldl_smApplyTx sha256 done
  unfold NamespaceIndexer.midBlock Ledger.midBlock
  simp only
  rw [← ht.initCtx tx]
  exact ht.foldl_applyCarrier sha256 tx _ pre

theorem tracks_ofRun (sha256 : Bytes → Hash256) (activationHeight : UInt64) (bs : List FoldBlock) :
    Tracks (foldBlocks sha256 (smNew activationHeight) bs)
      (Ledger.ofRun sha256 activationHeight bs) :=
  (wellKeyed_smNew activationHeight).tracks.foldBlocks sha256 bs

theorem Tracks.collected_eq {s s' : SmState} {L L' : Ledger} (t : Tracks s L) (t' : Tracks s' L')
    {who : H160} (h : L.owned who = L'.owned who) : collected s who = collected s' who := by
  unfold collected
  rw [t.collectOwned, t'.collectOwned]
  unfold Ledger.ownedList
  rw [h]

theorem Tracks.stamped_le {s : SmState} {L : Ledger} (t : Tracks s L) {who : H160} {h : ℤ}
    (hs : L.Stamped who h) : h ≤ smLastMutation s who := by
  obtain ⟨h', hm, hle⟩ := hs
  rw [t.lastMutation]
  unfold Ledger.lastMutation
  rw [hm]
  exact hle

theorem Ledger.owned_put {L : Ledger} {n : Name} {d e : Deed} (hd : L.names n = some d)
    (he : e.holder = d.holder) (who : H160) : (L.put n e).owned who = L.owned who := by
  ext m
  rw [mem_owned, mem_owned, holderOf_put]
  split
  · rename_i hm
    subst hm
    unfold holderOf
    rw [hd, he]
    rfl
  · rfl

theorem Ledger.owned_erase {L : Ledger} {n : Name} {d : Deed} (hd : L.names n = some d) {who : H160}
    (hw : d.holder ≠ who) : (L.erase n).owned who = L.owned who := by
  ext m
  rw [mem_owned, mem_owned]
  unfold holderOf
  rw [erase_names, Function.update_apply]
  split
  · rename_i hm
    subst hm
    rw [hd]
    simp [hw]
  · rfl

/-- A step of the row loop of `sm_preblock` that closes a sale changes no owned set; one that
removes a lapsed row stamps its owner. -/
theorem Live.preblockStep_collected {s s' : SmState} (h : Live s) {height mtp : ℤ} {i : ℕ}
    (hv : PreblockVisits height mtp s s' i) (hi : i < s'.names.length) (who : H160) :
    ((preblockStep height mtp s' i).1.names.length = s'.names.length →
        collected (preblockStep height mtp s' i).1 who = collected s' who) ∧
      (collected (preblockStep height mtp s' i).1 who ≠ collected s' who →
        height ≤ smLastMutation (preblockStep height mtp s' i).1 who) := by
  obtain ⟨hk, p, q, hn, rfl, hq⟩ := hv.rest h.keyed
  cases q with
  | nil =>
    rw [hn] at hi
    simp at hi
  | cons r q =>
    have hd : (deed r).Sound s.curMtp := h.row_sound (hq r (List.mem_cons_self ..))
    have hr : (obs s').names r.name = some (deed r) := by
      have hrow := hk.tracks.names_row hi
      rwa [row_of_split hn] at hrow
    rcases hk.tracks.preblockStep height mtp hn with ⟨-, -, -, ht⟩ | ⟨-, -, ⟨q', hq', hn'⟩, ht⟩
    · have he := ht.collected_eq hk.tracks (Ledger.owned_put hr (hd.close_holder mtp) who)
      exact ⟨fun _ => he, fun hne => absurd he hne⟩
    · refine ⟨fun hlen => ?_, fun hne => ?_⟩
      · rw [hn', hn, List.length_append, List.length_append, List.length_cons, hq'.length_eq] at hlen
        omega
      · have hholder : (deed r).holder = who := by
          by_contra hw
          exact hne (ht.collected_eq hk.tracks (Ledger.owned_erase
            (L := (obs s').bump ((deed r).close mtp).owner height) hr hw))
        have hwho : ((deed r).close mtp).owner = who := by
          rw [hd.close_owner, ← hd.holder_eq, hholder]
        rw [hwho] at ht
        exact ht.stamped_le (L := ((obs s').bump who height).erase r.name)
          ((Ledger.stamped_bump (obs s') who height).of_muts rfl)

/-- Listing, offering and reserving change no owned set. -/
theorem Ledger.Act.owned_market {sha256 : Bytes → Hash256} {tx : SmTx} {cx : SmTxCtx} {a : SmAction}
    {L L' : Ledger} {op : SmOp} {out : List Bool} (h : Act sha256 tx cx a L op L' out)
    (hop : op = .SELL ∨ op = .SELL_TO ∨ op = .RESERVE) (who : H160) :
    L'.owned who = L.owned who := by
  cases h with
  | sell present owned holds =>
    exact owned_put present (by rw [holder_owned owned, holds]; rfl) who
  | sellTo present owned holds =>
    exact owned_put present (by rw [holder_owned owned, holds]; rfl) who
  | reserve present listed =>
    exact owned_put present (by unfold Deed.holder; simp [listed]) who
  | extend h => rcases hop with rfl | rfl | rfl <;> simp at h
  | gift h => rcases hop with rfl | rfl | rfl <;> simp at h
  | release h => rcases hop with rfl | rfl | rfl <;> simp at h
  | _ => simp at hop

/-- An accepted anchor shows the owned set its author saw: at every carrier of every block of every
run from the empty state, if the guard accepts an anchor below the block, the owned set is the one
at the end of the last block up to the anchor, in the same order. And every step that changes an
owned set leaves the identity's stamp at the block's height or above, while closes and listings
change none. -/
theorem anchor_guard_sound (sha256 : Bytes → Hash256) (activationHeight : UInt64)
    {bs : List FoldBlock} {b : FoldBlock} (run : ValidRun (bs ++ [b])) (done : List SmTx) (tx : SmTx)
    (pre : List SmCarrier) (car : SmCarrier) :
    let s0 := foldBlocks sha256 (smNew activationHeight) bs
    let m := midBlock sha256 s0 b done tx pre
    let s' := (applyCarrier sha256 tx m car).1
    (∀ (who : H160) (anchor : UInt64), i64 anchor < b.height →
        anchorOk m.1 who anchor m.2.height = true →
        collected m.1 who = collected (foldBlocks sha256 (smNew activationHeight)
          (bs.filter fun c => c.height ≤ i64 anchor)) who) ∧
      (∀ who, collected s' who ≠ collected m.1 who → b.height ≤ smLastMutation s' who) ∧
      (∀ op ∈ [SmOp.SELL, .SELL_TO, .RESERVE], SmOp.ofByte? car.act.op = some op →
        ∀ who, collected s' who = collected m.1 who) ∧
      ∀ t i who, PreblockVisits b.height b.mtp s0 t i → i < t.names.length →
        ((preblockStep b.height b.mtp t i).1.names.length = t.names.length →
            collected (preblockStep b.height b.mtp t i).1 who = collected t who) ∧
          (collected (preblockStep b.height b.mtp t i).1 who ≠ collected t who →
            b.height ≤ smLastMutation (preblockStep b.height b.mtp t i).1 who) := by
  intro s0 m s'
  have t0 : Tracks s0 (Ledger.ofRun sha256 activationHeight bs) := tracks_ofRun sha256 activationHeight bs
  have hs0 := Ledger.ofRun_sound sha256 activationHeight run.left
  obtain ⟨tm, hcx⟩ := t0.midBlock sha256 b done tx pre
  set Lm := (Ledger.ofRun sha256 activationHeight bs).midBlock sha256 b done tx pre with hLm
  obtain ⟨hh, halign⟩ := Ledger.midBlock_clock sha256
    (Ledger.ofRun sha256 activationHeight bs) b done tx pre
  obtain ⟨tcar, -⟩ := tm.applyCarrier sha256 tx m.2 car
  rw [Prod.mk.eta] at tcar
  have hmid := Ledger.midBlock_later sha256 activationHeight run
    (H := b.height - 1) (by omega)
  refine ⟨fun who anchor hlt hok => ?_, fun who hne => ?_, fun op hop hcar who => ?_,
    fun t i who hv hi => ?_⟩
  · obtain ⟨-, -, hk⟩ := Ledger.midBlock_later sha256 activationHeight run hlt who done tx pre
    rcases hk with hS | hst
    · exact tm.collected_eq (tracks_ofRun sha256 activationHeight _) hS
    · have hle := tm.stamped_le hst
      unfold anchorOk at hok
      simp only [Bool.and_eq_true, decide_eq_true_eq] at hok
      have hlast : smLastMutation m.1 who ≤ i64 anchor := hok.1.1
      change i64 anchor + 1 ≤ smLastMutation m.1 who at hle
      omega
  · obtain ⟨hsound, -, -⟩ := hmid who done tx pre
    rcases Ledger.applyCarrier_cases sha256 tx Lm.1 m.2 car with ⟨he, -⟩ | ⟨op, -, -, -, hact⟩
    · rw [he] at tcar
      exact absurd (tcar.collected_eq tm rfl) hne
    · have hcxh : (Ledger.carCtx m.2 car).height = Lm.1.height := by
        change m.2.height = Lm.1.height
        rw [hcx]
        exact halign.1
      have howned : (Ledger.applyCarrier sha256 tx (Lm.1, m.2) car).1.owned who ≠ Lm.1.owned who :=
        fun he => hne (tcar.collected_eq tm he)
      have hle := tcar.stamped_le (hact.owned_stamped hcxh hsound howned)
      rw [hh] at hle
      exact hle
  · rcases Ledger.applyCarrier_cases sha256 tx Lm.1 m.2 car with ⟨he, -⟩ | ⟨op', -, hop', -, hact⟩
    · rw [he] at tcar
      exact tcar.collected_eq tm rfl
    · have hsame : op' = op := Option.some.inj (hop'.symm.trans hcar)
      subst hsame
      exact tcar.collected_eq tm (hact.owned_market (by simpa using hop) who)
  · exact Live.preblockStep_collected ⟨t0.keyed, t0.obs_eq ▸ hs0⟩ hv hi who

/-- The sample run's name given away by bitmap, anchored at the block that minted it. -/
def sampleBitmapGift : SmAction where
  op := 0x06
  addr := copyFrom 20 [2]
  hasAnchor := true
  anchor := 11
  flags := [1]

def sampleNextBlock : FoldBlock := ⟨12, 3000, 28, [sampleTx sampleBitmapGift 0]⟩

theorem anchor_guard_sound_sample :
    collected (midBlock sampleSha256 (foldBlocks sampleSha256 (smNew 0) sampleRun) sampleNextBlock []
        (sampleTx sampleBitmapGift 0) []).1 sampleActor
      = collected (foldBlocks sampleSha256 (smNew 0)
        (sampleRun.filter fun c => c.height ≤ i64 11)) sampleActor :=
  (anchor_guard_sound sampleSha256 0
    (show ValidRun (sampleRun ++ [sampleNextBlock]) from ⟨by decide, by decide, by decide⟩) []
    (sampleTx sampleBitmapGift 0) [] ⟨.ACTION, sampleBitmapGift, 0, 0⟩).1 sampleActor 11 (by decide)
    (by decide)

end NamespaceIndexer
