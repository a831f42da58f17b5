import NamespaceIndexer.Ledger.Invariant

/-!
# Carriers and block boundaries preserve soundness and stamp owned sets

A ledger is sound when its deeds are, no stamp is in the future, and whoever
minted in the current block is stamped with it. A carrier keeps that, and
stamps every identity whose owned set it changes.
-/

namespace NamespaceIndexer

open Fold Lib

namespace Ledger

/-- The set of `who` is marked as changed at height `h` or later. -/
def Stamped (L : Ledger) (who : H160) (h : ℤ) : Prop := ∃ h', L.muts who = some h' ∧ h ≤ h'

structure Sound (L : Ledger) : Prop where
  deeds : ∀ n d, L.names n = some d → d.Sound L.mtp
  stamps : ∀ who h, L.muts who = some h → h ≤ L.height
  wins : ∀ n w, L.scratch n = some w → L.Stamped w.owner L.height

theorem le_raise (o : Option ℤ) (h : ℤ) : h ≤ raise o h := by
  cases o with
  | none => exact le_refl h
  | some h0 => exact le_max_right h0 h

theorem bump_muts (L : Ledger) (who w : H160) (h : ℤ) :
    (L.bump who h).muts w = if w = who then some (raise (L.muts who) h) else L.muts w :=
  Function.update_apply _ _ _ _

theorem stamped_bump (L : Ledger) (who : H160) (h : ℤ) : (L.bump who h).Stamped who h :=
  ⟨raise (L.muts who) h, by rw [bump_muts, if_pos rfl], le_raise _ _⟩

theorem Stamped.bump {L : Ledger} {who : H160} {h : ℤ} (hs : L.Stamped who h) (w : H160) (k : ℤ) :
    (L.bump w k).Stamped who h := by
  obtain ⟨h', hm, hle⟩ := hs
  unfold Stamped
  rw [bump_muts]
  split
  · rename_i hw
    subst hw
    rw [hm]
    exact ⟨_, rfl, le_trans hle (le_max_left _ _)⟩
  · exact ⟨h', hm, hle⟩

theorem Stamped.of_muts {L L' : Ledger} {who : H160} {h : ℤ} (hs : L.Stamped who h)
    (hm : L'.muts = L.muts) : L'.Stamped who h := by
  obtain ⟨h', hmut, hle⟩ := hs
  exact ⟨h', by rw [hm]; exact hmut, hle⟩

theorem bump_stamps {L : Ledger} {H : ℤ} (hL : ∀ who h, L.muts who = some h → h ≤ H) (w : H160) :
    ∀ who h, (L.bump w H).muts who = some h → h ≤ H := by
  intro who h hm
  rw [bump_muts] at hm
  split at hm
  · rw [← Option.some.inj hm]
    cases ho : L.muts w with
    | none => exact le_refl H
    | some h0 => exact max_le (hL w h0 ho) (le_refl H)
  · exact hL who h hm

theorem mint_scratch (L : Ledger) (cx : SmTxCtx) (n : Name) (p : ℤ × UInt32) (d : Deed) :
    (L.mint cx n p d).scratch = Function.update L.scratch n (some ⟨p.1, p.2, cx.actor⟩) := rfl

/-! ### Frames -/

section Frames

variable {sha256 : Bytes → Hash256} {tx : SmTx} {cx : SmTxCtx} {a : SmAction} {L L' : Ledger}
  {op : SmOp} {out : List Bool}

/-- No action moves the clock. -/
theorem Act.clock (h : Act sha256 tx cx a L op L' out) :
    L'.height = L.height ∧ L'.mtp = L.mtp ∧ L'.rate = L.rate ∧
      L'.activationHeight = L.activationHeight := by
  cases h <;> exact ⟨rfl, rfl, rfl, rfl⟩

/-- Only COMMIT adds commits. -/
theorem Act.commits (h : Act sha256 tx cx a L op L' out) :
    L'.commits = L.commits ∨
      op = .COMMIT ∧ L'.commits = ⟨a.commitment, L.height, tx.txindex, L.mtp⟩ ::ₘ L.commits := by
  cases h with
  | commit => exact Or.inr ⟨rfl, rfl⟩
  | _ => exact Or.inl rfl

/-- Only CLAIM writes the scratch table. -/
theorem Act.scratch (h : Act sha256 tx cx a L op L' out) :
    L'.scratch = L.scratch ∨ ∃ p : ℤ × UInt32, op = .CLAIM ∧
      L'.scratch = Function.update L.scratch a.name (some ⟨p.1, p.2, cx.actor⟩) ∧
      L'.muts = (L.bump cx.actor cx.height).muts := by
  cases h with
  | mint => exact Or.inr ⟨_, rfl, rfl, rfl⟩
  | displace => exact Or.inr ⟨_, rfl, rfl, rfl⟩
  | _ => exact Or.inl rfl

/-- Stamps are raised, one identity at a time, to the height of the block. -/
theorem Act.muts (h : Act sha256 tx cx a L op L' out) :
    ∃ whos : List H160, L'.muts = (whos.foldl (fun L who => L.bump who cx.height) L).muts := by
  cases h with
  | commit => exact ⟨[], rfl⟩
  | mint => exact ⟨[cx.actor], rfl⟩
  | displace => exact ⟨[cx.actor], rfl⟩
  | extend => exact ⟨[], rfl⟩
  | gift => exact ⟨[cx.actor, a.addr], rfl⟩
  | release => exact ⟨[cx.actor], rfl⟩
  | sell => exact ⟨[], rfl⟩
  | sellTo => exact ⟨[], rfl⟩
  | reserve => exact ⟨[], rfl⟩
  | settle => exact ⟨[cx.actor, _], rfl⟩
  | pay => exact ⟨[cx.actor, _], rfl⟩
  | trade => exact ⟨[_, _], rfl⟩

theorem Stamped.foldl_bump {who : H160} {h k : ℤ} (hs : L.Stamped who h) (whos : List H160) :
    (whos.foldl (fun L w => L.bump w k) L).Stamped who h := by
  induction whos generalizing L with
  | nil => exact hs
  | cons w whos ih => exact ih (hs.bump w k)

theorem foldl_bump_stamps {H : ℤ} (hL : ∀ who h, L.muts who = some h → h ≤ H) (whos : List H160) :
    ∀ who h, (whos.foldl (fun L w => L.bump w H) L).muts who = some h → h ≤ H := by
  induction whos generalizing L with
  | nil => exact hL
  | cons w whos ih => exact ih (bump_stamps hL w)

theorem Act.stamped (h : Act sha256 tx cx a L op L' out) {who : H160} {k : ℤ}
    (hs : L.Stamped who k) : L'.Stamped who k := by
  obtain ⟨whos, hm⟩ := h.muts
  exact (hs.foldl_bump whos).of_muts hm

/-! ### Soundness -/

/-- Every action leaves sound deeds. -/
theorem Act.deeds (h : Act sha256 tx cx a L op L' out) (hm : cx.mtp = L.mtp)
    (hs : ∀ n d, L.names n = some d → d.Sound L.mtp) :
    ∀ n d, L'.names n = some d → d.Sound L.mtp := by
  -- a change of one name needs its new deed only
  have hput : ∀ (f : Name → Option Deed) (m : Name) (e : Deed), e.Sound L.mtp →
      (∀ n d, f n = some d → d.Sound L.mtp) →
      ∀ n d, Function.update f m (some e) n = some d → d.Sound L.mtp := by
    intro f m e he hf n d hd
    rw [Function.update_apply] at hd
    split at hd
    · rw [← Option.some.inj hd]
      exact he
    · exact hf n d hd
  cases h with
  | commit => exact hs
  | mint _ _ covers _ =>
    rw [mint_names]
    exact hput _ _ _ (hm ▸ minted_sound rfl covers) hs
  | displace _ _ covers present _ owned _ _ =>
    rw [mint_names]
    exact hput _ _ _ (hm ▸ minted_sound ((hs _ _ present).owned owned) covers) hs
  | @extend _ ns _ _ _ =>
    intro n d hd
    rcases L.extend_names cx.mtp cx.rate cx.carValue ns n with he | ⟨-, k, hk, he⟩
    · exact hs n d (he ▸ hd)
    · rw [he, Option.map_eq_some_iff] at hd
      obtain ⟨e, hn, rfl⟩ := hd
      unfold headroomOf at hk
      rw [hn, hm] at hk
      exact (hs n e hn).award hk
  | @gift _ sel _ _ _ =>
    intro n d hd
    change (if n ∈ sel then (L.names n).map (Deed.give a.addr) else L.names n) = some d at hd
    split at hd
    · rw [Option.map_eq_some_iff] at hd
      obtain ⟨e, hn, rfl⟩ := hd
      exact (hs n e hn).give a.addr
    · exact hs n d hd
  | @release _ sel _ _ _ =>
    intro n d hd
    change (if n ∈ sel then (L.names n).filter _ else L.names n) = some d at hd
    split at hd
    · rw [Option.filter_eq_some_iff] at hd
      exact hs n d hd.1
    · exact hs n d hd
  | @sell d w present owned holds price window lease =>
    have h3 : sellPriceFloor.toNat = 3 := by decide
    rw [UInt64.le_iff_toNat_le, h3] at price
    have hw : reserveWindow = 18000 := rfl
    rw [hm] at lease ⊢
    exact hput _ _ _ ((hs _ _ present).list holds price (by omega) lease) hs
  | @sellTo d present owned holds lease =>
    rw [hm] at lease ⊢
    exact hput _ _ _ ((hs _ _ present).offer holds (by unfold directWindow; omega) lease) hs
  | @reserve d i present listed paid =>
    rw [hm]
    exact hput _ _ _ ((hs _ _ present).reserve listed cx.actor (by decide)) hs
  | settle present _ _ _ _ => exact hput _ _ _ ((hs _ _ present).conveyTo _ _) hs
  | pay present _ _ _ _ => exact hput _ _ _ ((hs _ _ present).conveyTo _ _) hs
  | trade _ _ _ _ _ presentA presentB ownedA _ ownedB _ =>
    exact hput _ _ _ ((hs _ _ presentB).setOwner ownedB _ _)
      (hput _ _ _ ((hs _ _ presentA).setOwner ownedA _ _) hs)

/-- Every action keeps the ledger sound. -/
theorem Act.sound (h : Act sha256 tx cx a L op L' out) (hh : cx.height = L.height)
    (hm : cx.mtp = L.mtp) (hs : L.Sound) : L'.Sound := by
  obtain ⟨hheight, hmtp, -, -⟩ := h.clock
  obtain ⟨whos, hmuts⟩ := h.muts
  refine ⟨?_, ?_, ?_⟩
  · rw [hmtp]
    exact h.deeds hm hs.deeds
  · rw [hheight, hmuts, hh]
    exact foldl_bump_stamps hs.stamps whos
  · intro n w hw
    rw [hheight]
    rcases h.scratch with he | ⟨p, -, he, hb⟩
    · rw [he] at hw
      exact h.stamped (hs.wins n w hw)
    · rw [he, Function.update_apply] at hw
      split at hw
      · rw [← Option.some.inj hw]
        rw [hh] at hb
        exact (stamped_bump L cx.actor L.height).of_muts hb
      · exact h.stamped (hs.wins n w hw)

/-! ### Owned sets -/

/-- Who holds a name. -/
def holderOf (L : Ledger) (n : Name) : Option H160 := (L.names n).map Deed.holder

theorem mem_owned {L : Ledger} {who : H160} {n : Name} :
    n ∈ L.owned who ↔ L.holderOf n = some who := by
  unfold owned holderOf
  rw [Option.map_eq_some_iff]
  rfl

theorem owned_changed {L L' : Ledger} {who : H160} (h : L'.owned who ≠ L.owned who) :
    ∃ n, L'.holderOf n ≠ L.holderOf n ∧ (L.holderOf n = some who ∨ L'.holderOf n = some who) := by
  by_contra hn
  push Not at hn
  refine h (Set.ext fun n => ?_)
  rw [mem_owned, mem_owned]
  by_cases he : L'.holderOf n = L.holderOf n
  · rw [he]
  · exact iff_of_false (hn n he).2 (hn n he).1

theorem holderOf_put (L : Ledger) (n m : Name) (d : Deed) :
    (L.put n d).holderOf m = if m = n then some d.holder else L.holderOf m := by
  unfold holderOf
  rw [put_names, Function.update_apply]
  split <;> rfl

theorem holder_owned {d : Deed} (h : d.st = .OWNED) : d.holder = d.owner := if_pos h

theorem holder_setOwner {d : Deed} (h : d.st = .OWNED) (who : H160) (type : Byte) :
    ({ d with owner := who, ownerType := type } : Deed).holder = who := if_pos h

theorem holder_locked {d : Deed} (h : d.st ≠ .OWNED) : d.holder = d.seller := if_neg h

/-- The holder of `n` stays, or both the old and the new holder are stamped. -/
def HolderKept (L L' : Ledger) (n : Name) : Prop :=
  L'.holderOf n = L.holderOf n ∨
    ∀ who, L.holderOf n = some who ∨ L'.holderOf n = some who → L'.Stamped who L.height

theorem HolderKept.update {L L' : Ledger} {n : Name} {d e : Deed} (hd : L.names n = some d)
    (hn : L'.names = Function.update L.names n (some e))
    (ho : d.holder = e.holder ∨
      (L'.Stamped d.holder L.height ∧ L'.Stamped e.holder L.height)) (m : Name) :
    HolderKept L L' m := by
  unfold HolderKept holderOf
  rw [hn, Function.update_apply]
  split
  · rename_i hm
    subst hm
    rw [hd, Option.map_some, Option.map_some]
    rcases ho with he | ⟨hold, hnew⟩
    · exact Or.inl (by rw [he])
    · refine Or.inr fun who hw => ?_
      rcases hw with hw | hw
      · exact Option.some.inj hw ▸ hold
      · exact Option.some.inj hw ▸ hnew
  · exact Or.inl rfl

theorem convey_holderKept {n : Name} {d : Deed} (hh : cx.height = L.height)
    (hd : L.names n = some d) (hst : d.st ≠ .OWNED) (m : Name) :
    HolderKept L (L.convey cx n d) m := by
  have hold : (L.convey cx n d).Stamped d.seller L.height := by
    rw [← hh]
    exact stamped_bump _ _ _
  have hnew : (L.convey cx n d).Stamped cx.actor L.height := by
    rw [← hh]
    exact (stamped_bump _ _ _).bump _ _
  refine HolderKept.update hd rfl (Or.inr ⟨?_, hnew⟩) m
  rw [holder_locked hst]
  exact hold

/-- Every action stamps whoever gains or loses a name. -/
theorem Act.holderKept (h : Act sha256 tx cx a L op L' out) (hh : cx.height = L.height)
    (hs : L.Sound) (n : Name) : HolderKept L L' n := by
  cases h with
  | commit => exact Or.inl rfl
  | @mint p _ _ _ absent =>
    have hact : (L.mint cx a.name p (Deed.plain cx.actor cx.actorType cx.mtp)).Stamped cx.actor L.height := by
      rw [← hh]
      exact (stamped_bump L cx.actor cx.height).of_muts rfl
    unfold HolderKept holderOf
    rw [mint_names, Function.update_apply]
    split
    · rename_i hn
      subst hn
      refine Or.inr fun who hw => ?_
      rw [absent] at hw
      rcases hw with hw | hw
      · cases hw
      · exact Option.some.inj hw ▸ hact
    · exact Or.inl rfl
  | @displace p d w _ _ _ present fresh owned holds _ =>
    have hbump : (L.mint cx a.name p d).muts = (L.bump cx.actor cx.height).muts := rfl
    have hold : (L.bump cx.actor cx.height).Stamped d.holder L.height := by
      rw [holder_owned owned, holds]
      exact (hs.wins _ _ fresh).bump _ _
    have hnew : (L.bump cx.actor cx.height).Stamped cx.actor L.height := by
      rw [← hh]
      exact stamped_bump _ _ _
    refine HolderKept.update present (mint_names L cx a.name p d)
      (Or.inr ⟨hold.of_muts hbump, ?_⟩) n
    rw [holder_owned (show (minted cx d).st = .OWNED from owned)]
    exact hnew.of_muts hbump
  | @extend _ ns _ _ _ =>
    unfold HolderKept holderOf
    rcases L.extend_names cx.mtp cx.rate cx.carValue ns n with he | ⟨-, k, -, he⟩
    · exact Or.inl (by rw [he])
    · rw [he, Option.map_map]
      exact Or.inl rfl
  | @gift _ sel _ mine _ =>
    set L' := ((L.giveAll a.addr sel).bump cx.actor cx.height).bump a.addr cx.height with hL'
    have hold : L'.Stamped cx.actor L.height := by
      rw [← hh]
      exact (stamped_bump _ _ _).bump _ _
    have hnew : L'.Stamped a.addr L.height := by
      rw [← hh]
      exact stamped_bump _ _ _
    have hn : L'.names n = if n ∈ sel then (L.names n).map (Deed.give a.addr) else L.names n := rfl
    unfold HolderKept holderOf
    rw [hn]
    by_cases hsel : n ∈ sel
    · obtain ⟨d, hd, hholder⟩ := mine n hsel
      rw [if_pos hsel, hd, Option.map_some, Option.map_some, Option.map_some, hholder]
      by_cases hst : d.st = .OWNED
      · refine Or.inr fun who hw => ?_
        rcases hw with hw | hw
        · exact Option.some.inj hw ▸ hold
        · have he : (d.give a.addr).holder = a.addr := by
            unfold Deed.give
            rw [if_pos hst]
            exact holder_setOwner hst _ _
          rw [he] at hw
          exact Option.some.inj hw ▸ hnew
      · unfold Deed.give
        rw [if_neg hst, hholder]
        exact Or.inl rfl
    · rw [if_neg hsel]
      exact Or.inl rfl
  | @release _ sel _ mine _ =>
    have hold : ((L.drop sel).bump cx.actor cx.height).Stamped cx.actor L.height := by
      rw [← hh]
      exact stamped_bump _ _ _
    have hn : ((L.drop sel).bump cx.actor cx.height).names n =
      if n ∈ sel then (L.names n).filter (fun d => d.st ≠ .OWNED) else L.names n := rfl
    unfold HolderKept holderOf
    rw [hn]
    by_cases hsel : n ∈ sel
    · obtain ⟨d, hd, hholder⟩ := mine n hsel
      rw [if_pos hsel, hd]
      by_cases hst : d.st = .OWNED
      · refine Or.inr fun who hw => ?_
        rcases hw with hw | hw
        · rw [Option.map_some, hholder] at hw
          exact Option.some.inj hw ▸ hold
        · simp [hst] at hw
      · exact Or.inl (by simp [hst])
    · rw [if_neg hsel]
      exact Or.inl rfl
  | @sell d w present owned holds _ _ _ =>
    exact HolderKept.update present rfl (Or.inl (by rw [holder_owned owned, holds]; rfl)) n
  | @sellTo d present owned holds _ =>
    exact HolderKept.update present rfl (Or.inl (by rw [holder_owned owned, holds]; rfl)) n
  | @reserve d i present listed _ =>
    exact HolderKept.update present rfl (Or.inl (holder_locked (by simp [listed]))) n
  | @settle d i present reserved _ _ _ =>
    exact convey_holderKept hh present (by simp [reserved]) n
  | @pay d i present offered _ _ _ =>
    exact convey_holderKept hh present (by simp [offered]) n
  | @trade inA inB dA dB _ _ _ _ distinct presentA presentB ownedA holdsA ownedB holdsB =>
    set L' := (((L.put a.name { dA with owner := inB.h160, ownerType := inB.type }).put a.nameB
      { dB with owner := inA.h160, ownerType := inA.type }).bump inA.h160 cx.height).bump inB.h160 cx.height with hL'
    have hA : L'.Stamped inA.h160 L.height := by
      rw [← hh]
      exact (stamped_bump _ _ _).bump _ _
    have hB : L'.Stamped inB.h160 L.height := by
      rw [← hh]
      exact stamped_bump _ _ _
    have hnA : L'.names a.name = some { dA with owner := inB.h160, ownerType := inB.type } := by
      change Function.update (Function.update L.names a.name _) a.nameB _ a.name = _
      rw [Function.update_of_ne distinct, Function.update_self]
    have hnB : L'.names a.nameB = some { dB with owner := inA.h160, ownerType := inA.type } :=
      Function.update_self _ _ _
    have hkept : ∀ (k : Name) (d e : Deed), L.names k = some d → L'.names k = some e →
        L'.Stamped d.holder L.height → L'.Stamped e.holder L.height → HolderKept L L' k := by
      intro k d e hd he hold hnew
      unfold HolderKept holderOf
      rw [hd, he]
      refine Or.inr fun who hw => ?_
      rcases hw with hw | hw
      · exact Option.some.inj hw ▸ hold
      · exact Option.some.inj hw ▸ hnew
    by_cases hna : n = a.name
    · subst hna
      refine hkept _ _ _ presentA hnA ?_ ?_
      · rw [holder_owned ownedA, holdsA]
        exact hA
      · rw [holder_setOwner ownedA]
        exact hB
    by_cases hnb : n = a.nameB
    · subst hnb
      refine hkept _ _ _ presentB hnB ?_ ?_
      · rw [holder_owned ownedB, holdsB]
        exact hB
      · rw [holder_setOwner ownedB]
        exact hA
    · have hne : L'.names n = L.names n := by
        change Function.update (Function.update L.names a.name _) a.nameB _ n = _
        rw [Function.update_of_ne hnb, Function.update_of_ne hna]
      unfold HolderKept holderOf
      rw [hne]
      exact Or.inl rfl

/-- A carrier that changes an owned set stamps its identity. -/
theorem Act.owned_stamped (h : Act sha256 tx cx a L op L' out) (hh : cx.height = L.height)
    (hs : L.Sound) {who : H160} (hw : L'.owned who ≠ L.owned who) : L'.Stamped who L.height := by
  obtain ⟨n, hne, hwho⟩ := owned_changed hw
  rcases h.holderKept hh hs n with he | hst
  · exact absurd he hne
  · exact hst who hwho

end Frames

/-! ### Carriers and transactions -/

/-- The context of a transaction carries the clock of the block. -/
def Aligned (Lc : Ledger × SmTxCtx) : Prop := Lc.2.height = Lc.1.height ∧ Lc.2.mtp = Lc.1.mtp

section Carriers

variable (sha256 : Bytes → Hash256) (tx : SmTx)

theorem initCtx_clock (L : Ledger) :
    (L.initCtx tx).height = L.height ∧ (L.initCtx tx).mtp = L.mtp := by
  unfold initCtx
  cases signer tx 0 <;> exact ⟨rfl, rfl⟩

theorem applyCarrier_clock (Lc : Ledger × SmTxCtx) (car : SmCarrier) :
    (applyCarrier sha256 tx Lc car).1.height = Lc.1.height ∧
      (applyCarrier sha256 tx Lc car).1.mtp = Lc.1.mtp := by
  rcases applyCarrier_cases sha256 tx Lc.1 Lc.2 car with ⟨he, -⟩ | ⟨op, -, -, -, hact⟩
  · rw [Prod.mk.eta] at he
    rw [he]
    exact ⟨rfl, rfl⟩
  · exact ⟨hact.clock.1, hact.clock.2.1⟩

theorem Aligned.applyCarrier {Lc : Ledger × SmTxCtx} (h : Aligned Lc) (car : SmCarrier) :
    Aligned (applyCarrier sha256 tx Lc car) := by
  obtain ⟨hh, hm, -⟩ := applyCarrier_ctx sha256 tx Lc.1 Lc.2 car
  obtain ⟨hh', hm'⟩ := applyCarrier_clock sha256 tx Lc car
  exact ⟨hh.trans (h.1.trans hh'.symm), hm.trans (h.2.trans hm'.symm)⟩

variable {P : Ledger → Prop}
  (hP : ∀ {cx a L op L' out}, cx.height = L.height → cx.mtp = L.mtp →
    Act sha256 tx cx a L op L' out → P L → P L')

include hP

/-- What every action keeps, a carrier keeps. -/
theorem applyCarrier_induct {Lc : Ledger × SmTxCtx} (h : Aligned Lc) (hL : P Lc.1)
    (car : SmCarrier) : P (applyCarrier sha256 tx Lc car).1 := by
  rcases applyCarrier_cases sha256 tx Lc.1 Lc.2 car with ⟨he, -⟩ | ⟨op, -, -, -, hact⟩
  · rw [Prod.mk.eta] at he
    rw [he]
    exact hL
  · exact hP (show (carCtx Lc.2 car).height = Lc.1.height from h.1) h.2 hact hL

theorem foldl_applyCarrier_induct (Lc : Ledger × SmTxCtx) (h : Aligned Lc) (hL : P Lc.1)
    (cars : List SmCarrier) :
    P (cars.foldl (applyCarrier sha256 tx) Lc).1 ∧ Aligned (cars.foldl (applyCarrier sha256 tx) Lc) := by
  induction cars generalizing Lc with
  | nil => exact ⟨hL, h⟩
  | cons car cars ih =>
    exact ih _ (h.applyCarrier sha256 tx car) (applyCarrier_induct sha256 tx hP h hL car)

theorem applyTx_induct {L : Ledger} (hL : P L) : P (L.applyTx sha256 tx) :=
  (foldl_applyCarrier_induct sha256 tx hP (L, L.initCtx tx) (L.initCtx_clock tx) hL tx.carriers).1

end Carriers

/-- After a block the clock stands at it. -/
theorem foldBlock_height (sha256 : Bytes → Hash256) (L : Ledger) (b : FoldBlock) :
    (L.foldBlock sha256 b).height = b.height := by
  have hstep : ∀ (txs : List SmTx) (M : Ledger), M.height = b.height →
      (txs.foldl (applyTx sha256) M).height = b.height := by
    intro txs
    induction txs with
    | nil => exact fun M hM => hM
    | cons tx txs ih =>
      exact fun M hM => ih _ (applyTx_induct sha256 tx (P := fun M => M.height = b.height)
        (fun _ _ hact hM => hact.clock.1.trans hM) hM)
  exact hstep b.txs _ rfl

/-! ### Block boundaries -/

section Boundary

variable {L : Ledger} {height mtp : ℤ} {rate : UInt64}

theorem beginBlock_names (n : Name) :
    (L.beginBlock height mtp rate).names n = (L.names n).bind (Deed.due mtp) := by
  change (L.settleDue Set.univ height mtp).names n = _
  exact settleDue_mem (Set.mem_univ n)

theorem beginBlock_muts (L : Ledger) (height mtp : ℤ) (rate : UInt64) (who : H160) :
    (L.beginBlock height mtp rate).muts who = L.muts who ∨
      (L.Lapses Set.univ mtp who ∧
        (L.beginBlock height mtp rate).muts who = some (raise (L.muts who) height)) := by
  by_cases h : L.Lapses Set.univ mtp who
  · exact Or.inr ⟨h, settleDue_lapse h⟩
  · exact Or.inl (settleDue_noLapse h)

theorem Stamped.beginBlock {who : H160} {k : ℤ} (hs : L.Stamped who k) :
    (L.beginBlock height mtp rate).Stamped who k := by
  obtain ⟨h', hm, hle⟩ := hs
  rcases L.beginBlock_muts height mtp rate who with he | ⟨-, he⟩
  · exact ⟨h', he.trans hm, hle⟩
  · rw [hm] at he
    exact ⟨_, he, le_trans hle (le_max_left _ _)⟩

/-- A block boundary keeps the ledger sound. -/
theorem Sound.beginBlock (hs : ∀ n d, L.names n = some d → d.Sound L.mtp)
    (hst : ∀ who h, L.muts who = some h → h ≤ height) (hm : L.mtp ≤ mtp) :
    (L.beginBlock height mtp rate).Sound where
  deeds n d hd := by
    rw [beginBlock_names, Option.bind_eq_some_iff] at hd
    obtain ⟨e, he, hdue⟩ := hd
    exact (hs n e he).due hm hdue
  stamps who h hh := by
    change h ≤ height
    rcases L.beginBlock_muts height mtp rate who with he | ⟨-, he⟩
    · exact hst who h (he ▸ hh)
    · rw [he] at hh
      rw [← Option.some.inj hh]
      cases ho : L.muts who with
      | none => exact le_refl height
      | some h0 => exact max_le (hst who h0 ho) (le_refl height)
  wins n w hw := by cases hw

/-- A block boundary stamps whoever loses a name; nobody gains one. -/
theorem beginBlock_holder (hs : ∀ n d, L.names n = some d → d.Sound L.mtp) (hm : L.mtp ≤ mtp)
    (n : Name) :
    (L.beginBlock height mtp rate).holderOf n = L.holderOf n ∨
      ∀ who, L.holderOf n = some who ∨ (L.beginBlock height mtp rate).holderOf n = some who →
        (L.beginBlock height mtp rate).Stamped who height := by
  unfold holderOf
  rw [beginBlock_names]
  cases hd : L.names n with
  | none => exact Or.inl rfl
  | some d =>
    have hsound := hs n d hd
    rw [Option.bind_some]
    cases hdue : d.due mtp with
    | some d' =>
      have hd' : d' = d.close mtp := by
        unfold Deed.due at hdue
        split at hdue
        · cases hdue
        · exact (Option.some.inj hdue).symm
      left
      rw [Option.map_some, Option.map_some, (hsound.due hm hdue).holder_eq, hd',
        hsound.close_owner, hsound.holder_eq]
    | none =>
      have hl : mtp ≥ d.leaseExpiry := by
        by_contra hl
        unfold Deed.due at hdue
        rw [if_neg hl] at hdue
        cases hdue
      refine Or.inr fun who hw => ?_
      rcases hw with hw | hw
      · rw [Option.map_some, hsound.holder_eq] at hw
        have hlap : L.Lapses Set.univ mtp who :=
          ⟨n, Set.mem_univ n, d, hd, hl, by rw [hsound.close_owner]; exact Option.some.inj hw⟩
        exact ⟨_, settleDue_lapse hlap, le_raise _ _⟩
      · cases hw

end Boundary

end Ledger

end NamespaceIndexer
