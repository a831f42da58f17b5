import NamespaceIndexer.Ledger.Reachable

/-!
# No theft

A name leaves its owner by the owner's own action, by a signed trade, by a sale
that is paid for, or by an earlier claim in the block that minted it. Nothing
here depends on the order of heights or times.
-/

namespace NamespaceIndexer

open Fold Lib

namespace Ledger

/-- A locked name is offered by its owner. -/
def SellerOwns (L : Ledger) : Prop := ∀ n d, L.names n = some d → d.st ≠ .OWNED → d.seller = d.owner

section Actions

variable {sha256 : Bytes → Hash256} {tx : SmTx} {cx : SmTxCtx} {a : SmAction} {L L' : Ledger}
  {op : SmOp} {out : List Bool}

theorem SellerOwns.update {m : Name} {e : Deed} (hs : L.SellerOwns)
    (hn : L'.names = Function.update L.names m (some e))
    (he : e.st ≠ .OWNED → e.seller = e.owner) : L'.SellerOwns := by
  intro n d hd
  rw [hn, Function.update_apply] at hd
  split at hd
  · rw [← Option.some.inj hd]
    exact he
  · exact hs n d hd

theorem Act.sellerOwns (h : Act sha256 tx cx a L op L' out) (hs : L.SellerOwns) : L'.SellerOwns := by
  cases h with
  | commit => exact hs
  | mint => exact hs.update (mint_names ..) fun hst => absurd rfl hst
  | displace _ _ _ _ _ owned => exact hs.update (mint_names ..) fun hst => absurd owned hst
  | @extend _ ns =>
    intro n d hd
    rcases L.extend_names cx.mtp cx.rate cx.carValue ns n with he | ⟨-, k, -, he⟩
    · exact hs n d (he ▸ hd)
    · rw [he, Option.map_eq_some_iff] at hd
      obtain ⟨e, hn, rfl⟩ := hd
      exact hs n e hn
  | @gift _ sel =>
    intro n d hd
    change (if n ∈ sel then (L.names n).map (Deed.give a.addr) else L.names n) = some d at hd
    split at hd
    · rw [Option.map_eq_some_iff] at hd
      obtain ⟨e, hn, rfl⟩ := hd
      unfold Deed.give
      split
      · rename_i hst
        exact fun hne => absurd hst hne
      · exact hs n e hn
    · exact hs n d hd
  | @release _ sel =>
    intro n d hd
    change (if n ∈ sel then (L.names n).filter _ else L.names n) = some d at hd
    split at hd
    · rw [Option.filter_eq_some_iff] at hd
      exact hs n d hd.1
    · exact hs n d hd
  | sell _ _ holds => exact hs.update rfl fun _ => holds.symm
  | sellTo _ _ holds => exact hs.update rfl fun _ => holds.symm
  | reserve present listed =>
    have hseller := hs _ _ present (by simp [listed])
    exact hs.update rfl fun _ => hseller
  | settle => exact hs.update rfl fun hst => absurd rfl hst
  | pay => exact hs.update rfl fun hst => absurd rfl hst
  | @trade inA inB dA dB _ _ _ _ _ _ _ ownedA _ ownedB =>
    have hput : (L.put a.name { dA with owner := inB.h160, ownerType := inB.type }).SellerOwns :=
      hs.update rfl fun hst => absurd ownedA hst
    exact hput.update rfl fun hst => absurd ownedB hst

theorem SellerOwns.beginBlock (hs : L.SellerOwns) (height mtp : ℤ) (rate : UInt64) :
    (L.beginBlock height mtp rate).SellerOwns := by
  intro n d hd
  rw [beginBlock_names, Option.bind_eq_some_iff] at hd
  obtain ⟨e, he, hdue⟩ := hd
  have hback : ∀ e' : Deed, (e'.st ≠ .OWNED → e'.seller = e'.owner) →
      (e'.closeOffer mtp).st ≠ .OWNED → (e'.closeOffer mtp).seller = (e'.closeOffer mtp).owner := by
    intro e' he'
    unfold Deed.closeOffer
    split
    · exact fun hne => absurd rfl hne
    · exact he'
  unfold Deed.due at hdue
  split at hdue
  · cases hdue
  · rw [← Option.some.inj hdue]
    refine hback _ ?_
    unfold Deed.closeReserve
    split
    · split
      · rename_i hr _
        exact fun _ => hs n e he (by simp [hr.1])
      · exact fun hne => absurd rfl hne
    · exact hs n e he

/-! ### How a name can leave its owner -/

/-- The name is gone, or has another owner. -/
def Moved (L' : Ledger) (n : Name) (d : Deed) : Prop := ∀ d', L'.names n = some d' → d'.owner ≠ d.owner

theorem Moved.ne {d : Deed} {n : Name} (h : Moved L' n d) (hd : L'.names n = some d) : False :=
  h d hd rfl

/-- A change of one name moves no other. -/
theorem Moved.name_eq {d e : Deed} {n m : Name} (h : Moved L' n d) (hd : L.names n = some d)
    (hn : L'.names = Function.update L.names m (some e)) : n = m := by
  by_contra hne
  exact h.ne (by rw [hn, Function.update_of_ne hne]; exact hd)

theorem Moved.false_of_owner {d e : Deed} {n m : Name} (h : Moved L' n d) (hd : L.names n = some d)
    (hn : L'.names = Function.update L.names m (some e)) {f : Deed} (hf : L.names m = some f)
    (ho : e.owner = f.owner) : False := by
  have hm := h.name_eq hd hn
  subst hm
  have he : d = f := Option.some.inj (hd.symm.trans hf)
  exact h e (by rw [hn, Function.update_self]) (he ▸ ho)

/-- The trade of `n` for `m`: both signed for, both moved. -/
structure Traded (tx : SmTx) (L L' : Ledger) (n m : Name) (i j : ℕ) (d : Deed) : Prop where
  owned : d.st = .OWNED
  signed : ∃ inp, tx.inputs[i]? = some inp ∧ inp.sighashAll = true ∧ inp.h160 = d.owner
  other : ∃ inp e, tx.inputs[j]? = some inp ∧ inp.sighashAll = true ∧ L.names m = some e ∧
    e.st = .OWNED ∧ e.owner = inp.h160 ∧ (∃ d', L'.names n = some d' ∧ d'.owner = e.owner) ∧
    ∃ e', L'.names m = some e' ∧ e'.owner = d.owner

theorem Act.moved (h : Act sha256 tx cx a L op L' out) {n : Name} {d : Deed}
    (hd : L.names n = some d) (hne : Moved L' n d) :
    ((op = .TRANSFER ∨ op = .TRANSFER_NAME ∨ op = .RELEASE ∨ op = .RELEASE_NAME) ∧
        d.st = .OWNED ∧ d.owner = cx.actor) ∨
      (op = .TRADE ∧ (n = a.name ∧ Traded tx L L' n a.nameB a.idxA.val a.idxB.val d ∨
        n = a.nameB ∧ Traded tx L L' n a.name a.idxB.val a.idxA.val d)) ∨
      (∃ owed i, (op = .SETTLE ∧ d.st = .RESERVED ∧ cx.mtp < d.reserveExpiry ∧ owed = remainder d ∨
          op = .PAY ∧ d.st = .OFFERED ∧ cx.mtp < d.offerExpiry ∧ owed = d.price) ∧
        d.buyer = cx.actor ∧
        findOutput tx cx.outConsumed d.seller d.sellerType owed = some i ∧
        out = cx.outConsumed.set i true) ∨
      (op = .CLAIM ∧ a.name = n ∧ d.st = .OWNED ∧ ∃ w p, L.scratch n = some w ∧
        d.owner = w.owner ∧ L.IsBest (claimCommitment sha256 a.salt n cx.actor) cx.height p ∧
        (p.1 < w.commitHeight ∨ (p.1 = w.commitHeight ∧ p.2 < w.commitTxIndex))) := by
  cases h with
  | commit => exact absurd hd fun hd => hne.ne hd
  | mint _ _ _ absent =>
    have hm := hne.name_eq hd (mint_names ..)
    rw [hm, absent] at hd
    cases hd
  | @displace p e w _ best _ present fresh owned holds earlier =>
    have hm := hne.name_eq hd (mint_names ..)
    subst hm
    rw [hd] at present
    cases present
    exact Or.inr (Or.inr (Or.inr ⟨rfl, rfl, owned, w, p, fresh, holds, best, earlier⟩))
  | @extend _ ns =>
    exfalso
    rcases L.extend_names cx.mtp cx.rate cx.carValue ns n with he | ⟨-, k, -, he⟩
    · exact hne.ne (he.trans hd)
    · rw [hd] at he
      exact hne _ he rfl
  | @gift _ sel isTransfer mine _ =>
    have hn : (((L.giveAll a.addr sel).bump cx.actor cx.height).bump a.addr cx.height).names n
      = if n ∈ sel then (L.names n).map (Deed.give a.addr) else L.names n := rfl
    by_cases hsel : n ∈ sel
    · rw [if_pos hsel, hd] at hn
      obtain ⟨e, he, hholder⟩ := mine n hsel
      rw [hd] at he
      cases he
      by_cases hst : d.st = .OWNED
      · refine Or.inl ⟨by tauto, hst, ?_⟩
        rw [← hholder, holder_owned hst]
      · refine absurd (hne _ hn) fun hx => hx ?_
        unfold Deed.give
        rw [if_neg hst]
    · rw [if_neg hsel, hd] at hn
      exact absurd hn fun hn => hne.ne hn
  | @release _ sel isRelease mine _ =>
    have hn : ((L.drop sel).bump cx.actor cx.height).names n
      = if n ∈ sel then (L.names n).filter (fun d => d.st ≠ .OWNED) else L.names n := rfl
    by_cases hsel : n ∈ sel
    · rw [if_pos hsel, hd] at hn
      obtain ⟨e, he, hholder⟩ := mine n hsel
      rw [hd] at he
      cases he
      by_cases hst : d.st = .OWNED
      · refine Or.inl ⟨by tauto, hst, ?_⟩
        rw [← hholder, holder_owned hst]
      · exact absurd hn fun hn => hne.ne (by rw [hn]; simp [hst])
    · rw [if_neg hsel, hd] at hn
      exact absurd hn fun hn => hne.ne hn
  | sell present _ _ => exact (hne.false_of_owner hd rfl present rfl).elim
  | sellTo present _ _ => exact (hne.false_of_owner hd rfl present rfl).elim
  | reserve present _ _ => exact (hne.false_of_owner hd rfl present rfl).elim
  | settle present reserved buyer inTime paid =>
    have hm := hne.name_eq hd rfl
    subst hm
    rw [hd] at present
    cases present
    exact Or.inr (Or.inr (Or.inl ⟨_, _, Or.inl ⟨rfl, reserved, inTime, rfl⟩, buyer, paid, rfl⟩))
  | pay present offered buyer inTime paid =>
    have hm := hne.name_eq hd rfl
    subst hm
    rw [hd] at present
    cases present
    exact Or.inr (Or.inr (Or.inl ⟨_, _, Or.inr ⟨rfl, offered, inTime, rfl⟩, buyer, paid, rfl⟩))
  | @trade inA inB dA dB fromA fromB signedA signedB distinct presentA presentB ownedA holdsA ownedB
      holdsB =>
    refine Or.inr (Or.inl ⟨rfl, ?_⟩)
    have hnA : ((((L.put a.name { dA with owner := inB.h160, ownerType := inB.type }).put a.nameB
        { dB with owner := inA.h160, ownerType := inA.type }).bump inA.h160 cx.height).bump inB.h160 cx.height).names a.name
        = some { dA with owner := inB.h160, ownerType := inB.type } := by
      change Function.update (Function.update L.names a.name _) a.nameB _ a.name = _
      rw [Function.update_of_ne distinct, Function.update_self]
    have hnB : ((((L.put a.name { dA with owner := inB.h160, ownerType := inB.type }).put a.nameB
        { dB with owner := inA.h160, ownerType := inA.type }).bump inA.h160 cx.height).bump inB.h160 cx.height).names a.nameB
        = some { dB with owner := inA.h160, ownerType := inA.type } := Function.update_self _ _ _
    by_cases hna : n = a.name
    · subst hna
      rw [hd] at presentA
      cases presentA
      exact Or.inl ⟨rfl, ownedA, ⟨inA, fromA, signedA, holdsA.symm⟩, inB, dB, fromB, signedB,
        presentB, ownedB, holdsB, ⟨_, hnA, holdsB.symm⟩, _, hnB, holdsA.symm⟩
    by_cases hnb : n = a.nameB
    · subst hnb
      rw [hd] at presentB
      cases presentB
      exact Or.inr ⟨rfl, ownedB, ⟨inB, fromB, signedB, holdsB.symm⟩, inA, dA, fromA, signedA,
        presentA, ownedA, holdsA, ⟨_, hnB, holdsA.symm⟩, _, hnA, holdsB.symm⟩
    · refine absurd hd fun hd => hne.ne ?_
      change Function.update (Function.update L.names a.name _) a.nameB _ n = _
      rw [Function.update_of_ne hnb, Function.update_of_ne hna]
      exact hd

theorem update_absent {n m : Name} {d : Deed} {o : Option Deed} (habs : L.names n = none)
    (hd : L.names m = some d) : Function.update L.names m o n = none := by
  have hne : n ≠ m := by
    intro he
    rw [he, hd] at habs
    cases habs
  rw [Function.update_of_ne hne, habs]

/-- A CLAIM that acts names a valid name, has the best of its backing commits and buys a day. -/
theorem Act.claim_best (h : Act sha256 tx cx a L .CLAIM L' out) :
    smNameValid a.name = true ∧ smLeaseCoversDay cx.carValue cx.rate = true ∧
      ∃ p, L.IsBest (claimCommitment sha256 a.salt a.name cx.actor) cx.height p := by
  generalize hop : SmOp.CLAIM = op at h
  cases h with
  | mint valid best covers => exact ⟨valid, covers, _, best⟩
  | displace valid best covers => exact ⟨valid, covers, _, best⟩
  | extend isRenew => rcases isRenew with rfl | rfl <;> cases hop
  | gift isTransfer => rcases isTransfer with rfl | rfl <;> cases hop
  | release isRelease => rcases isRelease with rfl | rfl <;> cases hop
  | _ => cases hop

/-- Only a claim makes a name appear. -/
theorem Act.appears (h : Act sha256 tx cx a L op L' out) {n : Name} (habs : L.names n = none)
    (hn : L'.names n ≠ none) : op = .CLAIM ∧ a.name = n := by
  cases h with
  | commit => exact absurd habs hn
  | mint =>
    rw [mint_names] at hn
    by_cases hm : n = a.name
    · exact ⟨rfl, hm.symm⟩
    · exact absurd (by rw [Function.update_of_ne hm, habs]) hn
  | displace _ _ _ present =>
    rw [mint_names] at hn
    exact absurd (update_absent habs present) hn
  | @extend _ ns =>
    rcases L.extend_names cx.mtp cx.rate cx.carValue ns n with he | ⟨-, k, -, he⟩
    · exact absurd (he.trans habs) hn
    · rw [habs] at he
      exact absurd he hn
  | @gift _ sel =>
    refine absurd ?_ hn
    change (if n ∈ sel then (L.names n).map (Deed.give a.addr) else L.names n) = none
    rw [habs]
    split <;> rfl
  | @release _ sel =>
    refine absurd ?_ hn
    change (if n ∈ sel then (L.names n).filter _ else L.names n) = none
    rw [habs]
    split <;> rfl
  | sell present => exact absurd (update_absent habs present) hn
  | sellTo present => exact absurd (update_absent habs present) hn
  | reserve present => exact absurd (update_absent habs present) hn
  | settle present => exact absurd (update_absent habs present) hn
  | pay present => exact absurd (update_absent habs present) hn
  | @trade inA inB dA dB _ _ _ _ distinct presentA presentB =>
    have hA : (L.put a.name { dA with owner := inB.h160, ownerType := inB.type }).names n = none :=
      update_absent habs presentA
    have hB : (L.put a.name { dA with owner := inB.h160, ownerType := inB.type }).names a.nameB = some dB := by
      rw [put_names, Function.update_of_ne distinct.symm, presentB]
    exact absurd (update_absent hA hB) hn

/-- A scratch entry of a name that was there before the action is older than the action. -/
theorem Act.scratch_old (h : Act sha256 tx cx a L op L' out) {n : Name} {w : Win}
    (hw : L'.scratch n = some w) (hn : L.names n ≠ none) : ∃ w', L.scratch n = some w' := by
  have hold : ∀ (m : Name) (v : Win), Function.update L.scratch m (some v) n = some w →
      n = m ∨ L.scratch n = some w := by
    intro m v hv
    rw [Function.update_apply] at hv
    split at hv
    · exact Or.inl ‹_›
    · exact Or.inr hv
  cases h with
  | mint _ _ _ absent =>
    rcases hold _ _ hw with he | he
    · exact absurd (he ▸ absent) hn
    · exact ⟨w, he⟩
  | displace _ _ _ _ fresh =>
    rcases hold _ _ hw with he | he
    · exact ⟨_, he ▸ fresh⟩
    · exact ⟨w, he⟩
  | _ => exact ⟨w, hw⟩

theorem Act.out_length (h : Act sha256 tx cx a L op L' out) :
    out.length = cx.outConsumed.length := by
  cases h <;> first | rfl | exact List.length_set

end Actions

end Ledger

/-! ### The acting identity -/

/-- The carrier is an AS. -/
def isAs (car : SmCarrier) : Bool := car.kind = .ACTION ∧ SmOp.ofByte? car.act.op = some .AS

/-- The input that acts after the carriers `pre`: the one the last AS names, else `vin[0]`. -/
def actingIndex (pre : List SmCarrier) : ℕ :=
  match (pre.filter isAs).getLast? with
  | some car => car.act.asIndex.val
  | none => 0

/-- `who` is the acting identity: its input signs everything. -/
def ActsAs (tx : SmTx) (pre : List SmCarrier) (who : H160) : Prop :=
  ∃ i, tx.inputs[actingIndex pre]? = some i ∧ i.sighashAll = true ∧ i.h160 = who

theorem actingIndex_append (pre : List SmCarrier) (car : SmCarrier) :
    actingIndex (pre ++ [car]) = if isAs car then car.act.asIndex.val else actingIndex pre := by
  unfold actingIndex
  rw [List.filter_append]
  cases h : isAs car with
  | true => simp [h]
  | false => simp [h]

/-- The context acts as input `k`. -/
def CtxActs (tx : SmTx) (cx : SmTxCtx) (k : ℕ) : Prop :=
  ∀ who, cx.actorValid = true ∧ cx.actor = who ↔ ∃ i, signer tx k = some i ∧ i.h160 = who

theorem signer_eq_some {tx : SmTx} {k : ℕ} {i : SmInput} :
    signer tx k = some i ↔ tx.inputs[k]? = some i ∧ i.sighashAll = true := by
  unfold signer
  cases h : tx.inputs[k]? with
  | none => simp
  | some j =>
    simp only
    split
    · rename_i hj
      constructor
      · intro he
        cases he
        exact ⟨rfl, hj⟩
      · exact fun he => he.1
    · rename_i hj
      constructor
      · intro he
        cases he
      · rintro ⟨he, hs⟩
        cases he
        exact absurd hs hj

theorem CtxActs.actsAs {tx : SmTx} {cx : SmTxCtx} {pre : List SmCarrier} {who : H160}
    (h : CtxActs tx cx (actingIndex pre)) (hv : cx.actorValid = true) (hw : cx.actor = who) :
    ActsAs tx pre who := by
  obtain ⟨i, hi, hwho⟩ := (h who).mp ⟨hv, hw⟩
  obtain ⟨hin, hsig⟩ := signer_eq_some.mp hi
  exact ⟨i, hin, hsig, hwho⟩

theorem Ledger.initCtx_acts (L : Ledger) (tx : SmTx) : CtxActs tx (L.initCtx tx) 0 := by
  intro who
  unfold initCtx
  cases h : signer tx 0 with
  | none => simp
  | some i => simp

theorem Ledger.applyCarrier_acts (sha256 : Bytes → Hash256) {tx : SmTx} {L : Ledger} {cx : SmTxCtx}
    {k : ℕ} (h : CtxActs tx cx k) (hactive : ¬ L.height < i64 L.activationHeight)
    (car : SmCarrier) :
    CtxActs tx (applyCarrier sha256 tx (L, cx) car).2
      (if isAs car then car.act.asIndex.val else k) := by
  have hkeep : isAs car = false → (applyCarrier sha256 tx (L, cx) car).2.actor = cx.actor ∧
      (applyCarrier sha256 tx (L, cx) car).2.actorValid = cx.actorValid →
      CtxActs tx (applyCarrier sha256 tx (L, cx) car).2
        (if isAs car then car.act.asIndex.val else k) := by
    rintro has ⟨ha, hv⟩ who
    rw [has, ha, hv]
    exact h who
  by_cases hk : car.kind = .ACTION
  · cases hop : SmOp.ofByte? car.act.op with
    | none =>
      refine hkeep (by simp [isAs, hop]) ?_
      unfold applyCarrier
      simp [hk, hactive, hop]
    | some op =>
      by_cases hAS : op = .AS
      · subst hAS
        have has : isAs car = true := by simp [isAs, hop, hk]
        rw [has]
        intro who
        unfold applyCarrier
        simp only [hk, hop, ne_eq, not_true_eq_false, if_false, if_neg hactive, if_true]
        cases hs : signer tx car.act.asIndex.val with
        | none => simp
        | some i => simp
      · refine hkeep (by simp [isAs, hop, hAS]) ?_
        obtain ⟨out, hout⟩ := dispatch_ctx sha256 tx L (carCtx cx car) car.act op
        unfold carCtx at hout
        unfold applyCarrier
        simp only [hk, hop, ne_eq, not_true_eq_false, if_false, if_neg hactive]
        cases op with
        | AS => exact absurd rfl hAS
        | TRADE => exact ⟨rfl, rfl⟩
        | _ =>
          simp only
          split
          · exact ⟨rfl, rfl⟩
          · rw [hout]
            exact ⟨rfl, rfl⟩
  · refine hkeep (by simp [isAs, hk]) ?_
    unfold applyCarrier
    simp [hk]

/-- What a transaction on `L` keeps up to the carriers `pre`. -/
structure Ledger.MidTx (tx : SmTx) (L : Ledger) (pre : List SmCarrier) (Lc : Ledger × SmTxCtx) :
    Prop where
  height : Lc.1.height = L.height
  activationHeight : Lc.1.activationHeight = L.activationHeight
  aligned : Aligned Lc
  outs : Lc.2.outConsumed.length = tx.outs.length
  acts : ¬ L.height < i64 L.activationHeight → CtxActs tx Lc.2 (actingIndex pre)

theorem Ledger.MidTx.step {sha256 : Bytes → Hash256} {tx : SmTx} {L : Ledger}
    {pre : List SmCarrier} {Lc : Ledger × SmTxCtx} (h : MidTx tx L pre Lc) (car : SmCarrier) :
    MidTx tx L (pre ++ [car]) (applyCarrier sha256 tx Lc car) := by
  have hclock : (applyCarrier sha256 tx Lc car).1.height = Lc.1.height ∧
      (applyCarrier sha256 tx Lc car).1.activationHeight = Lc.1.activationHeight ∧
      (applyCarrier sha256 tx Lc car).2.outConsumed.length = Lc.2.outConsumed.length := by
    rcases applyCarrier_cases sha256 tx Lc.1 Lc.2 car with ⟨he, ho⟩ | ⟨op, -, -, -, hact⟩
    · rw [Prod.mk.eta] at he ho
      rw [he, ho]
      exact ⟨rfl, rfl, rfl⟩
    · exact ⟨hact.clock.1, hact.clock.2.2.2, hact.out_length⟩
  obtain ⟨hh, ha, ho⟩ := hclock
  refine ⟨hh.trans h.height, ha.trans h.activationHeight, h.aligned.applyCarrier sha256 tx car,
    ho.trans h.outs, fun hactive => ?_⟩
  rw [actingIndex_append]
  refine applyCarrier_acts sha256 (h.acts hactive) ?_ car
  rw [h.height, h.activationHeight]
  exact hactive

theorem Ledger.midTx (sha256 : Bytes → Hash256) (L : Ledger) (tx : SmTx) (pre : List SmCarrier) :
    MidTx tx L pre (pre.foldl (applyCarrier sha256 tx) (L, L.initCtx tx)) := by
  induction pre using List.reverseRecOn with
  | nil =>
    refine ⟨rfl, rfl, L.initCtx_clock tx, ?_, fun _ => L.initCtx_acts tx⟩
    change (L.initCtx tx).outConsumed.length = _
    unfold initCtx
    cases signer tx 0 <;> simp
  | append_singleton pre car ih =>
    rw [List.foldl_append]
    exact ih.step car

/-! ### Single carriers of a run -/

/-- One iteration of the carrier loop of `sm_apply_tx`. -/
structure CarStep where
  tx : SmTx
  before : SmState × SmTxCtx
  car : SmCarrier

def CarStep.after (sha256 : Bytes → Hash256) (m : CarStep) : SmState × SmTxCtx :=
  applyCarrier sha256 m.tx m.before m.car

/-- The iterations over `cars` that start in `sc`. -/
def carSteps (sha256 : Bytes → Hash256) (tx : SmTx) : SmState × SmTxCtx → List SmCarrier → List CarStep
  | _, [] => []
  | sc, car :: cars => ⟨tx, sc, car⟩ :: carSteps sha256 tx (applyCarrier sha256 tx sc car) cars

/-- A state of a run from the empty state, with the carriers its current block has had so far. -/
inductive InBlock (sha256 : Bytes → Hash256) (activationHeight : UInt64) :
    List CarStep → SmState → Prop where
  | new : InBlock sha256 activationHeight [] (smNew activationHeight)
  | block {log : List CarStep} {s : SmState} {height mtp : ℤ} {rate : UInt64}
      (run : InBlock sha256 activationHeight log s) :
      InBlock sha256 activationHeight [] (smBeginBlock s height mtp rate)
  | tx {log : List CarStep} {s : SmState} {tx : SmTx} (run : InBlock sha256 activationHeight log s) :
      InBlock sha256 activationHeight (log ++ carSteps sha256 tx (s, initCtx s tx) tx.carriers)
        (smApplyTx sha256 s tx)

/-- The row `sm_find_name` finds. -/
def rowOf (s : SmState) (n : Name) : Option SmNameRow := RowTable.lookup SmNameRow.name s.names n

/-- The step is a CLAIM that mints `n`. -/
def CarStep.Mints (sha256 : Bytes → Hash256) (m : CarStep) (n : Name) : Prop :=
  m.car.kind = .ACTION ∧ SmOp.ofByte? m.car.act.op = some .CLAIM ∧ m.car.act.name = n ∧
    rowOf m.before.1 n = none ∧ rowOf (m.after sha256).1 n ≠ none

/-- `n` was minted in the block, and its row has been there since. -/
def MintedIn (sha256 : Bytes → Hash256) (log : List CarStep) (n : Name) : Prop :=
  ∃ l1 m l2, log = l1 ++ m :: l2 ∧ m.Mints sha256 n ∧ ∀ m' ∈ l2, rowOf (m'.after sha256).1 n ≠ none

/-- What the steps of a block keep: locked names are their seller's, and a name with a scratch
entry was minted in the block. -/
structure Traced (sha256 : Bytes → Hash256) (log : List CarStep) (s : SmState) : Prop where
  keyed : WellKeyed s
  sellers : (obs s).SellerOwns
  minted : ∀ n w, (obs s).scratch n = some w → rowOf s n ≠ none → MintedIn sha256 log n

theorem obs_names_eq_none {s : SmState} {n : Name} : (obs s).names n = none ↔ rowOf s n = none :=
  Option.map_eq_none_iff

theorem Traced.step {sha256 : Bytes → Hash256} {log : List CarStep} {s : SmState}
    (h : Traced sha256 log s) (cx : SmTxCtx) (tx : SmTx) (car : SmCarrier) :
    Traced sha256 (log ++ [⟨tx, (s, cx), car⟩]) (applyCarrier sha256 tx (s, cx) car).1 := by
  obtain ⟨ht, -⟩ := h.keyed.tracks.applyCarrier sha256 tx cx car
  rcases Ledger.applyCarrier_cases sha256 tx (obs s) cx car with ⟨he, -⟩ | ⟨op, hk, hop, -, hact⟩
  · rw [he] at ht
    refine ⟨ht.keyed, ht.obs_eq ▸ h.sellers, fun n w hw hn => ?_⟩
    rw [ht.obs_eq] at hw
    have hn0 : rowOf s n ≠ none := by
      rw [ne_eq, ← obs_names_eq_none, ← ht.obs_eq, obs_names_eq_none]
      exact hn
    obtain ⟨l1, m, l2, hlog, hm, hl2⟩ := h.minted n w hw hn0
    refine ⟨l1, m, l2 ++ [⟨tx, (s, cx), car⟩], by rw [hlog]; simp, hm, fun m' hm' => ?_⟩
    rcases List.mem_append.mp hm' with hm' | hm'
    · exact hl2 m' hm'
    · rw [List.mem_singleton.mp hm']
      exact hn
  · rw [← ht.obs_eq] at hact
    refine ⟨ht.keyed, hact.sellerOwns h.sellers, fun n w hw hn => ?_⟩
    have hn' : (obs (applyCarrier sha256 tx (s, cx) car).1).names n ≠ none :=
      fun hx => hn (obs_names_eq_none.mp hx)
    by_cases habs : (obs s).names n = none
    · obtain ⟨rfl, hname⟩ := hact.appears habs hn'
      exact ⟨log, _, [], rfl, ⟨hk, hop, hname, obs_names_eq_none.mp habs, hn⟩, by simp⟩
    · obtain ⟨w', hw'⟩ := hact.scratch_old hw habs
      obtain ⟨l1, m, l2, hlog, hm, hl2⟩ := h.minted n w' hw' fun hx =>
        habs (obs_names_eq_none.mpr hx)
      refine ⟨l1, m, l2 ++ [⟨tx, (s, cx), car⟩], by rw [hlog]; simp, hm, fun m' hm' => ?_⟩
      rcases List.mem_append.mp hm' with hm' | hm'
      · exact hl2 m' hm'
      · rw [List.mem_singleton.mp hm']
        exact hn

theorem Traced.steps {sha256 : Bytes → Hash256} {log : List CarStep} {s : SmState}
    (h : Traced sha256 log s) (cx : SmTxCtx) (tx : SmTx) (cars : List SmCarrier) :
    Traced sha256 (log ++ carSteps sha256 tx (s, cx) cars)
      (cars.foldl (applyCarrier sha256 tx) (s, cx)).1 := by
  induction cars generalizing log s cx with
  | nil => simpa [carSteps] using h
  | cons car cars ih =>
    have hstep := ih (h.step cx tx car) (applyCarrier sha256 tx (s, cx) car).2
    rw [List.append_assoc] at hstep
    exact hstep

theorem InBlock.traced {sha256 : Bytes → Hash256} {activationHeight : UInt64} {log : List CarStep}
    {s : SmState} (h : InBlock sha256 activationHeight log s) : Traced sha256 log s := by
  induction h with
  | new =>
    refine ⟨wellKeyed_smNew _, ?_, ?_⟩
    · intro n d hd
      cases hd
    · intro n w hw
      cases hw
  | @block log s height mtp rate _ ih =>
    have t := ih.keyed.tracks.smBeginBlock height mtp rate
    refine ⟨t.keyed, ?_, fun n w hw => ?_⟩
    · rw [t.obs_eq]
      exact ih.sellers.beginBlock height mtp rate
    · rw [t.obs_eq] at hw
      cases hw
  | @tx log s tx _ ih => exact ih.steps (initCtx s tx) tx tx.carriers

/-! ### The theorem -/

/-- The grounds on which a name may leave its owner. -/
inductive Ground where
  | owner | trade | sale | displaced

/-- The ground an opcode can give. -/
def groundOf : SmOp → Option Ground
  | .TRANSFER | .TRANSFER_NAME | .RELEASE | .RELEASE_NAME => some .owner
  | .TRADE => some .trade
  | .SETTLE | .PAY => some .sale
  | .CLAIM => some .displaced
  | _ => none

/-- An output, not consumed before, that pays the seller of `r` exactly `owed` and is consumed by
the step. -/
def PaysSeller (tx : SmTx) (before after : List Bool) (r : SmNameRow) (owed : UInt64) : Prop :=
  ∃ i o, tx.outs[i]? = some o ∧ o.h160 = r.seller ∧ o.type = r.sellerType ∧ o.value = owed ∧
    before[i]? = some false ∧ after = before.set i true

/-- Input `i` signs the trade of its name `n` for the name `m` of input `j`, and both moved. -/
def SwapSigned (tx : SmTx) (s s' : SmState) (n m : Name) (i j : ℕ) (r : SmNameRow) : Prop :=
  (∃ inp, tx.inputs[i]? = some inp ∧ inp.sighashAll = true ∧ inp.h160 = r.owner) ∧
    ∃ inp q, tx.inputs[j]? = some inp ∧ inp.sighashAll = true ∧ rowOf s m = some q ∧
      q.st = .OWNED ∧ q.owner = inp.h160 ∧ (∃ r', rowOf s' n = some r' ∧ r'.owner = q.owner) ∧
      ∃ q', rowOf s' m = some q' ∧ q'.owner = r.owner

/-- The step `m`, after the carriers `pre` of its transaction and the steps `log` of its block,
takes the name `n` from the owner of row `r` on this ground. -/
def Ground.Holds (sha256 : Bytes → Hash256) (log : List CarStep) (pre : List SmCarrier)
    (m : CarStep) (n : Name) (r : SmNameRow) : Ground → Prop
  | .owner =>
    (∃ op ∈ [SmOp.TRANSFER, .TRANSFER_NAME, .RELEASE, .RELEASE_NAME],
        SmOp.ofByte? m.car.act.op = some op) ∧
      r.st = .OWNED ∧ ActsAs m.tx pre r.owner
  | .trade =>
    SmOp.ofByte? m.car.act.op = some .TRADE ∧ r.st = .OWNED ∧
      (n = m.car.act.name ∧ SwapSigned m.tx m.before.1 (m.after sha256).1 n m.car.act.nameB
          m.car.act.idxA.val m.car.act.idxB.val r ∨
        n = m.car.act.nameB ∧ SwapSigned m.tx m.before.1 (m.after sha256).1 n m.car.act.name
          m.car.act.idxB.val m.car.act.idxA.val r)
  | .sale =>
    r.seller = r.owner ∧ ActsAs m.tx pre r.buyer ∧
      ((SmOp.ofByte? m.car.act.op = some .SETTLE ∧ r.st = .RESERVED ∧
          m.before.1.curMtp < r.reserveExpiry ∧
          PaysSeller m.tx m.before.2.outConsumed (m.after sha256).2.outConsumed r
            (r.price - r.burnLeg - r.payLeg)) ∨
        (SmOp.ofByte? m.car.act.op = some .PAY ∧ r.st = .OFFERED ∧
          m.before.1.curMtp < r.offerExpiry ∧
          PaysSeller m.tx m.before.2.outConsumed (m.after sha256).2.outConsumed r r.price))
  | .displaced =>
    SmOp.ofByte? m.car.act.op = some .CLAIM ∧ m.car.act.name = n ∧ r.st = .OWNED ∧
      MintedIn sha256 log n ∧
      ∃ w, RowTable.lookup SmClaimWin.name m.before.1.claimsc n = some w ∧ r.owner = w.owner ∧
        ∃ who, ActsAs m.tx pre who ∧ ∃ c ∈ m.before.1.commits,
          c.commitment = claimCommitment sha256 m.car.act.salt n who ∧
          c.commitHeight < m.before.1.curHeight ∧
          (c.commitHeight < w.commitHeight ∨
            (c.commitHeight = w.commitHeight ∧ c.txIndex < w.commitTxIndex))

theorem foldl_bestOutput_mem {tx : SmTx} (l : List ℕ) (best : Option ℕ) {i : ℕ}
    (h : l.foldl (bestOutput tx) best = some i) : i ∈ l ∨ best = some i := by
  induction l generalizing best with
  | nil => exact Or.inr h
  | cons k l ih =>
    rcases ih _ h with hm | hb
    · exact Or.inl (List.mem_cons_of_mem _ hm)
    · unfold bestOutput at hb
      split at hb
      · exact Or.inl (by simp [Option.some.inj hb])
      · split at hb
        · split at hb
          · exact Or.inl (by simp [Option.some.inj hb])
          · exact Or.inr (by simpa using hb)
        · exact Or.inr (by simpa using hb)

theorem findOutput_mem {tx : SmTx} {consumed : List Bool} {dest : H160} {type : Byte}
    {amount : UInt64} {i : ℕ} (h : findOutput tx consumed dest type amount = some i) :
    i ∈ (List.range tx.outs.length).filter (payable tx consumed dest type amount) := by
  rcases foldl_bestOutput_mem _ _ h with hm | hb
  · exact hm
  · cases hb

/-- What `sm_consume_output` picks is an unconsumed output that pays exactly. -/
theorem findOutput_pays {tx : SmTx} {consumed : List Bool} {r : SmNameRow} {owed : UInt64} {i : ℕ}
    (h : findOutput tx consumed r.seller r.sellerType owed = some i)
    (hlen : consumed.length = tx.outs.length) :
    PaysSeller tx consumed (consumed.set i true) r owed := by
  have hmem := findOutput_mem h
  rw [List.mem_filter, List.mem_range] at hmem
  obtain ⟨hlt, hpay⟩ := hmem
  unfold payable at hpay
  split at hpay
  · cases hpay
  · rename_i o ho
    simp only [Bool.and_eq_true, beq_iff_eq, Bool.not_eq_true'] at hpay
    obtain ⟨⟨⟨hc, hv⟩, ht⟩, hd⟩ := hpay
    refine ⟨i, o, ho, hd, ht, hv, ?_, rfl⟩
    rw [List.getD_eq_getElem?_getD, List.getElem?_eq_getElem (hlen ▸ hlt)] at hc
    rw [List.getElem?_eq_getElem (hlen ▸ hlt)]
    exact congrArg some hc

theorem Ground.Holds.op {sha256 : Bytes → Hash256} {log : List CarStep} {pre : List SmCarrier}
    {m : CarStep} {n : Name} {r : SmNameRow} {g : Ground} (h : g.Holds sha256 log pre m n r) :
    (SmOp.ofByte? m.car.act.op).bind groundOf = some g := by
  cases g with
  | owner =>
    obtain ⟨⟨op, hmem, hop⟩, -⟩ := h
    rw [hop]
    simp only [List.mem_cons, List.not_mem_nil, or_false] at hmem
    rcases hmem with rfl | rfl | rfl | rfl <;> rfl
  | trade => rw [h.1]; rfl
  | sale => rcases h.2.2 with ⟨ho, -⟩ | ⟨ho, -⟩ <;> rw [ho] <;> rfl
  | displaced => rw [h.1]; rfl

/-- The grounds exclude each other. -/
theorem Ground.Holds.unique {sha256 : Bytes → Hash256} {log : List CarStep} {pre : List SmCarrier}
    {m : CarStep} {n : Name} {r : SmNameRow} {g g' : Ground} (h : g.Holds sha256 log pre m n r)
    (h' : g'.Holds sha256 log pre m n r) : g' = g := Option.some.inj (h'.op.symm.trans h.op)

theorem Ledger.applyCarrier_inactive (sha256 : Bytes → Hash256) (tx : SmTx) {L : Ledger}
    (h : L.height < i64 L.activationHeight) (cx : SmTxCtx) (car : SmCarrier) :
    (applyCarrier sha256 tx (L, cx) car).1 = L := by
  unfold applyCarrier
  simp only [if_pos h]
  split <;> rfl

theorem rowOf_of_obs {s : SmState} {n : Name} {d : Deed} (h : (obs s).names n = some d) :
    ∃ r, rowOf s n = some r ∧ deed r = d := Option.map_eq_some_iff.mp h

theorem obs_of_rowOf {s : SmState} {n : Name} {r : SmNameRow} (h : rowOf s n = some r) :
    (obs s).names n = some (deed r) := Option.map_eq_some_iff.mpr ⟨r, h, rfl⟩

theorem swapSigned_of_traded {tx : SmTx} {s s' : SmState} {n m : Name} {i j : ℕ} {r : SmNameRow}
    (h : Ledger.Traded tx (obs s) (obs s') n m i j (deed r)) : SwapSigned tx s s' n m i j r := by
  obtain ⟨inp, e, hin, hsig, he, hst, ho, ⟨d', hd', hown⟩, e', he', hown'⟩ := h.other
  obtain ⟨q, hq, rfl⟩ := rowOf_of_obs he
  obtain ⟨r', hr', rfl⟩ := rowOf_of_obs hd'
  obtain ⟨q', hq', rfl⟩ := rowOf_of_obs he'
  exact ⟨h.signed, inp, q, hin, hsig, hq, hst, ho, ⟨r', hr', hown⟩, q', hq', hown'⟩

/-- In every state of every run, and at every carrier of every transaction: a name that has a row
before the carrier, and no row or another owner after it, has moved on exactly one ground. -/
theorem no_theft (sha256 : Bytes → Hash256) (activationHeight : UInt64) {log : List CarStep}
    {s : SmState} (h : InBlock sha256 activationHeight log s) (tx : SmTx) (pre : List SmCarrier)
    (car : SmCarrier) {n : Name} {r : SmNameRow}
    (present : rowOf (pre.foldl (applyCarrier sha256 tx) (s, initCtx s tx)).1 n = some r)
    (moved : ∀ r', rowOf ((pre ++ [car]).foldl (applyCarrier sha256 tx) (s, initCtx s tx)).1 n
      = some r' → r'.owner ≠ r.owner) :
    ∃! g : Ground, g.Holds sha256 (log ++ carSteps sha256 tx (s, initCtx s tx) pre) pre
      ⟨tx, pre.foldl (applyCarrier sha256 tx) (s, initCtx s tx), car⟩ n r := by
  have htr := h.traced.steps (initCtx s tx) tx pre
  have hmid := Ledger.midTx sha256 (obs s) tx pre
  obtain ⟨ht, hcx⟩ := h.traced.keyed.tracks.foldl_applyCarrier sha256 tx ((obs s).initCtx tx) pre
  rw [← h.traced.keyed.tracks.initCtx tx] at ht hcx hmid
  rw [List.foldl_append, List.foldl_cons, List.foldl_nil] at moved
  set sc := pre.foldl (applyCarrier sha256 tx) (s, initCtx s tx) with hsc
  set Lc := pre.foldl (Ledger.applyCarrier sha256 tx) (obs s, initCtx s tx) with hLc
  have hLc' : Lc = (obs sc.1, sc.2) := Prod.ext ht.obs_eq.symm hcx.symm
  rw [hLc'] at hmid
  obtain ⟨hstep, hout⟩ := htr.keyed.tracks.applyCarrier sha256 tx sc.2 car
  rw [Prod.mk.eta] at hstep hout
  have hd := obs_of_rowOf present
  have hmoved : Ledger.Moved (obs (applyCarrier sha256 tx sc car).1) n (deed r) := by
    intro d' hd'
    obtain ⟨r', hr', rfl⟩ := rowOf_of_obs hd'
    exact moved r' hr'
  have hactive : ¬ (obs s).height < i64 (obs s).activationHeight := by
    intro hlt
    rw [← hmid.height, ← hmid.activationHeight] at hlt
    rw [hstep.obs_eq, Ledger.applyCarrier_inactive sha256 tx hlt] at hmoved
    exact hmoved.ne hd
  have hacts := hmid.acts hactive
  suffices hex : ∃ g : Ground, g.Holds sha256 (log ++ carSteps sha256 tx (s, initCtx s tx) pre) pre
      ⟨tx, sc, car⟩ n r by
    obtain ⟨g, hg⟩ := hex
    exact ⟨g, hg, fun g' hg' => hg.unique hg'⟩
  rcases Ledger.applyCarrier_cases sha256 tx (obs sc.1) sc.2 car with
    ⟨he, -⟩ | ⟨op, -, hop, hvalid, hact⟩
  · rw [hstep.obs_eq, he] at hmoved
    exact absurd hd fun hd => hmoved.ne hd
  rw [← hstep.obs_eq, ← hout] at hact
  rcases hact.moved hd hmoved with ⟨hops, hst, hown⟩ | ⟨rfl, hsw⟩ |
    ⟨owed, i, hsale, hbuyer, hpaid, ho⟩ | ⟨rfl, hname, hst, w, p, hw, hown, hbest, hlt⟩
  · have hv : sc.2.actorValid = true := hvalid (by rintro rfl; simp at hops)
    refine ⟨.owner, ⟨op, by simpa using hops, hop⟩, hst, ?_⟩
    exact hacts.actsAs hv hown.symm
  · refine ⟨.trade, hop, ?_, ?_⟩
    · rcases hsw with ⟨-, ht⟩ | ⟨-, ht⟩ <;> exact ht.owned
    · exact hsw.imp (fun hx => ⟨hx.1, swapSigned_of_traded hx.2⟩)
        (fun hx => ⟨hx.1, swapSigned_of_traded hx.2⟩)
  · have hv : sc.2.actorValid = true := hvalid (by rintro rfl; simp at hsale)
    have hpay := findOutput_pays hpaid hmid.outs
    have hmtp : sc.2.mtp = sc.1.curMtp := hmid.aligned.2
    refine ⟨.sale, ?_, hacts.actsAs hv hbuyer.symm, ?_⟩
    · refine htr.sellers n _ hd fun hx => ?_
      rcases hsale with ⟨-, hst, -⟩ | ⟨-, hst, -⟩ <;> rw [hx] at hst <;> cases hst
    · rcases hsale with ⟨rfl, hst, htime, rfl⟩ | ⟨rfl, hst, htime, rfl⟩
      · refine Or.inl ⟨hop, hst, hmtp ▸ htime, ?_⟩
        change PaysSeller tx sc.2.outConsumed (applyCarrier sha256 tx sc car).2.outConsumed r _
        rw [ho]
        exact hpay
      · refine Or.inr ⟨hop, hst, hmtp ▸ htime, ?_⟩
        change PaysSeller tx sc.2.outConsumed (applyCarrier sha256 tx sc car).2.outConsumed r _
        rw [ho]
        exact hpay
  · have hv : sc.2.actorValid = true := hvalid (by simp)
    refine ⟨.displaced, hop, hname, hst, ?_, ?_⟩
    · exact htr.minted n w hw (by rw [present]; simp)
    · obtain ⟨v, hv', rfl⟩ := Option.map_eq_some_iff.mp hw
      obtain ⟨⟨c, hc, rfl⟩, -⟩ := hbest
      obtain ⟨hmem, hh, hcom⟩ := Ledger.mem_backing.mp hc
      refine ⟨v, hv', hown, sc.2.actor, hacts.actsAs hv rfl, c, hmem, hcom, ?_, hlt⟩
      exact lt_of_lt_of_eq hh hmid.aligned.1

/-- The sample run's name given away in the next block. -/
def sampleGift : SmTx := sampleTx { op := 0x02, name := [97], addr := copyFrom 20 [2] } 0

theorem no_theft_sample :
    ∃! g : Ground, g.Holds sampleSha256 [] []
      ⟨sampleGift, (smBeginBlock (smApplyTx sampleSha256 (smBeginBlock (smApplyTx sampleSha256
          (smBeginBlock (smNew 0) 10 1000 28) sampleCommit) 11 2000 28) sampleClaim) 12 3000 28,
        initCtx (smBeginBlock (smApplyTx sampleSha256 (smBeginBlock (smApplyTx sampleSha256
          (smBeginBlock (smNew 0) 10 1000 28) sampleCommit) 11 2000 28) sampleClaim) 12 3000 28)
          sampleGift),
        ⟨.ACTION, { op := 0x02, name := [97], addr := copyFrom 20 [2] }, 0, 0⟩⟩
      [97] { name := [97], owner := sampleActor, leaseExpiry := 866000 } :=
  no_theft sampleSha256 0 (.block (.tx (.block (.tx (.block .new))))) sampleGift []
    ⟨.ACTION, { op := 0x02, name := [97], addr := copyFrom 20 [2] }, 0, 0⟩ (by decide)
    (fun r' h => by
      have hr' : some r' = some { name := [97], owner := copyFrom 20 [2], leaseExpiry := 866000 } :=
        h.symm.trans (by decide)
      rw [Option.some.inj hr']
      decide)

end NamespaceIndexer
