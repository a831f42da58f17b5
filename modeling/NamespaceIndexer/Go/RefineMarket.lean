import NamespaceIndexer.Go.RefineOps
import NamespaceIndexer.Ledger.RefineMarket

/-!
# The market of the Go port, CLAIM and TRADE

The sales, the payments, the claims and the swaps keep the ledger that the port shows.
-/

namespace NamespaceIndexer

open Fold Lib Daemon

namespace Go

/-! ### Payments -/

def ofOut (o : SmOut) : FoldOutput := ⟨o.h160, o.type, o.value⟩

def ofInput (i : SmInput) : Identity := ⟨i.h160, i.type, i.sighashAll⟩

theorem depositLeg_eq (price : UInt64) : depositLeg price 50 = Fold.depositLeg price 50 := by
  have hbps : (50 : UInt64).toNat = 50 := by decide
  have hden : (10000 : UInt64).toNat = 10000 := by decide
  have hquot := div128by64_mul64 price 50 10000
  rw [hbps, hden] at hquot
  unfold depositLeg Fold.depositLeg
  dsimp only
  rw [hquot]

theorem matchOutput_eq {tx : SmTx} {gtx : FoldTx} (hspend : gtx.spend = tx.outs.map ofOut)
    (hasc : tx.outs.Pairwise fun o o' => o.vout ≤ o'.vout) (consumed : List Bool) (seller : H160)
    (styp : Byte) (owed : UInt64) :
    matchOutput gtx consumed seller styp owed = findOutput tx consumed seller styp owed := by
  unfold matchOutput
  rw [findOutput_eq hasc, hspend, List.length_map]
  refine congrArg (fun p => List.find? p _) (funext fun i => ?_)
  unfold payable
  rw [List.getElem?_map]
  cases tx.outs[i]? with
  | none => rfl
  | some o =>
    rw [Bool.eq_iff_iff]
    simp only [ofOut, Option.map_some, Bool.and_eq_true, beq_iff_eq]
    tauto

namespace Tracks

variable {s : FoldState} {L : Ledger} {b : FoldBlock} {actor : Identity} {fc : FoldCarrier}
  {cx : SmTxCtx} {a : SmAction}

theorem applySell (t : Tracks s L) (hs : ∀ n d, L.names n = some d → d.Sound L.mtp)
    (h : Acts b actor fc.value cx) (hvalid : smNameValid a.name = true) :
    Tracks (applySell s b (carrierOf .SELL a) actor) (L.sell cx a) := by
  unfold Go.applySell Ledger.sell Ledger.deedOf
  have hname : (carrierOf .SELL a).name = a.name := rfl
  rw [if_pos hvalid, hname, t.get, h.mtp, h.who, h.type]
  cases hd : L.names a.name with
  | none => exact t
  | some d =>
    have hwindow : (if (a.window.toNat : ℤ) = 0 then reserveWindow else (a.window.toNat : ℤ))
        = if a.window ≠ 0 then (a.window.toNat : ℤ) else reserveWindow := by
      rw [ite_not]
      refine if_congr ?_ rfl rfl
      rw [← UInt32.toNat_inj]
      exact Int.natCast_eq_zero
    have hshort : ((a.window.toNat : ℤ) ≠ 0 ∧ (a.window.toNat : ℤ) < reserveWindow) ↔
        (if a.window ≠ 0 then (a.window.toNat : ℤ) else reserveWindow) < reserveWindow := by
      rw [← hwindow]
      by_cases h0 : (a.window.toNat : ℤ) = 0
      · rw [if_pos h0]
        simp [h0]
      · rw [if_neg h0, and_iff_right h0]
    dsimp only [Option.map_some]
    change Tracks (if d.owner ≠ actor.h160 ∨ d.st ≠ .OWNED then s
      else if a.price < sellPriceFloor then s
      else if (a.window.toNat : ℤ) ≠ 0 ∧ (a.window.toNat : ℤ) < reserveWindow then s
      else if b.mtp + (if (a.window.toNat : ℤ) = 0 then reserveWindow else (a.window.toNat : ℤ))
        + reorgBuffer > d.leaseExpiry then s
      else s.setName a.name { bareRow d with
        st := .LISTED, seller := actor.h160, sellerType := actor.styp, price := a.price,
        offerExpiry := b.mtp + (if (a.window.toNat : ℤ) = 0 then reserveWindow
          else (a.window.toNat : ℤ)) }) _
    simp only [← ite_or, hwindow, hshort]
    refine related_ite_of (Iff.of_eq (by ac_rfl)) (fun _ => t) fun hgo => ?_
    have hst : d.st = .OWNED := by
      by_contra hst
      exact hgo (Or.inl (Or.inr hst))
    rw [(hs _ d hd).owned hst]
    exact t.setRow rfl

theorem applySellTo (t : Tracks s L) (hs : ∀ n d, L.names n = some d → d.Sound L.mtp)
    (h : Acts b actor fc.value cx) (hvalid : smNameValid a.name = true) :
    Tracks (applySellTo s b (carrierOf .SELL_TO a) actor) (L.sellTo cx a) := by
  unfold Go.applySellTo Ledger.sellTo Ledger.deedOf
  have hname : (carrierOf .SELL_TO a).name = a.name := rfl
  rw [if_pos hvalid, hname, t.get, h.mtp, h.who, h.type]
  cases hd : L.names a.name with
  | none => exact t
  | some d =>
    dsimp only [Option.map_some]
    simp only [← ite_or]
    change Tracks (if (d.owner ≠ actor.h160 ∨ d.st ≠ .OWNED) ∨ a.price < dustFloor ∨
        b.mtp + directWindow + reorgBuffer > d.leaseExpiry then s else _) _
    refine related_ite_of (Iff.of_eq (by ac_rfl)) (fun _ => t) fun hgo => ?_
    have hst : d.st = .OWNED := by
      by_contra hst
      exact hgo (Or.inl (Or.inr hst))
    rw [(hs _ d hd).owned hst]
    exact t.setRow rfl

theorem conveyTo (t : Tracks s L) (h : Acts b actor fc.value cx) (n : Name) (d : Deed)
    (out : List Bool) :
    Tracks (Go.conveyTo s b n (bareRow d) actor)
      (L.convey { cx with outConsumed := out } n d) := by
  have hset : Tracks (s.setName n ({ bareRow d with owner := actor.h160, st := .OWNED }.resetMarket))
      (L.put n (d.conveyTo actor.h160 cx.actorType)) := t.setRow rfl
  unfold Go.conveyTo Ledger.convey
  dsimp only
  rw [h.who, h.height]
  exact (hset.bumpMut _ _).bumpMut _ _

/-- A result of the port with its consumed outputs, and one of the ledger with its context. -/
def Paid (x : FoldState × List Bool) (y : Ledger × SmTxCtx) : Prop :=
  Tracks x.1 y.1 ∧ x.2 = y.2.outConsumed

section Sales

variable {tx : SmTx} {gtx : FoldTx} (hspend : gtx.spend = tx.outs.map ofOut)
  (hasc : tx.outs.Pairwise fun o o' => o.vout ≤ o'.vout)

include hspend hasc

/-- A payment that both look for in the same outputs. -/
theorem consume {seller : H160} {styp : Byte} {owed : UInt64} {x : FoldState × List Bool}
    {y : Ledger × SmTxCtx} {f : List Bool → FoldState × List Bool} {g : SmTxCtx → Ledger × SmTxCtx}
    (hidle : Paid x y)
    (hpaid : ∀ i, Paid (f (cx.outConsumed.set i true))
      (g { cx with outConsumed := cx.outConsumed.set i true })) :
    Paid (match matchOutput gtx cx.outConsumed seller styp owed with
        | none => x
        | some i => f (cx.outConsumed.set i true))
      (match smConsumeOutput tx cx seller styp owed with
        | none => y
        | some cx => g cx) := by
  rw [matchOutput_eq hspend hasc]
  unfold smConsumeOutput
  cases findOutput tx cx.outConsumed seller styp owed with
  | none => exact hidle
  | some i => exact hpaid i

theorem applyReserve (t : Tracks s L) (h : Acts b actor fc.value cx)
    (hvalid : smNameValid a.name = true) :
    Paid (applyReserve s b gtx fc.value (carrierOf .RESERVE a) actor cx.outConsumed)
      (L.reserve tx cx a) := by
  unfold Go.applyReserve Ledger.reserve Ledger.deedOf
  have hname : (carrierOf .RESERVE a).name = a.name := rfl
  rw [if_pos hvalid, hname, t.get]
  cases hd : L.names a.name with
  | none => exact ⟨t, rfl⟩
  | some d =>
    dsimp only [Option.map_some]
    rw [depositLeg_eq, ← ite_or, h.burn]
    refine related_ite_of Iff.rfl (fun _ => ⟨t, rfl⟩) fun _ => ?_
    have hclamp : (if b.mtp + reserveWindow > d.offerExpiry then d.offerExpiry
        else b.mtp + reserveWindow) = min (cx.mtp + reserveWindow) d.offerExpiry := by
      rw [h.mtp]
      split <;> omega
    refine consume hspend hasc ⟨t, rfl⟩ fun i => ⟨t.setRow ?_, rfl⟩
    rw [hclamp, h.who]
    rfl

theorem applySettle (t : Tracks s L) (h : Acts b actor fc.value cx)
    (hvalid : smNameValid a.name = true) :
    Paid (applySettle s b gtx (carrierOf .SETTLE a) actor cx.outConsumed) (L.settle tx cx a) := by
  unfold Go.applySettle Ledger.settle Ledger.buy Ledger.deedOf
  have hname : (carrierOf .SETTLE a).name = a.name := rfl
  rw [if_pos hvalid, hname, t.get, h.mtp, h.who]
  cases hd : L.names a.name with
  | none => exact ⟨t, rfl⟩
  | some d =>
    dsimp only [Option.map_some]
    rw [← ite_or, ← ite_or]
    refine related_ite_of or_assoc (fun _ => ⟨t, rfl⟩) fun _ => ?_
    exact consume hspend hasc ⟨t, rfl⟩ fun i => ⟨t.conveyTo h a.name d _, rfl⟩

theorem applyPay (t : Tracks s L) (h : Acts b actor fc.value cx)
    (hvalid : smNameValid a.name = true) :
    Paid (applyPay s b gtx (carrierOf .PAY a) actor cx.outConsumed) (L.pay tx cx a) := by
  unfold Go.applyPay Ledger.pay Ledger.buy Ledger.deedOf
  have hname : (carrierOf .PAY a).name = a.name := rfl
  rw [if_pos hvalid, hname, t.get, h.mtp, h.who]
  cases hd : L.names a.name with
  | none => exact ⟨t, rfl⟩
  | some d =>
    dsimp only [Option.map_some]
    rw [← ite_or, ← ite_or]
    refine related_ite_of or_assoc (fun _ => ⟨t, rfl⟩) fun _ => ?_
    exact consume hspend hasc ⟨t, rfl⟩ fun i => ⟨t.conveyTo h a.name d _, rfl⟩

end Sales

/-! ### CLAIM and TRADE -/

theorem bestBacking_eq (want : Hash256) (height : ℤ) (best : Option (ℤ × UInt32)) (cm : CommitRow) :
    bestBacking want height best cm = bestCommit want height best cm.smCommit := by
  unfold bestBacking bestCommit CommitRow.smCommit
  by_cases hwant : cm.commitment = want
  · by_cases hheight : cm.height < height
    · have hearly : ¬ cm.height ≥ height := not_le.mpr hheight
      cases best with
      | none => simp [hwant, hheight, hearly]
      | some best => simp [hwant, hheight, hearly]
    · rw [if_neg (not_not.mpr hwant), if_pos (not_lt.mp hheight), if_neg fun hc => hheight hc.1]
  · rw [if_pos hwant, if_neg fun hc => hwant hc.2]

theorem foldl_bestBacking (t : Tracks s L) (want : Hash256) (height : ℤ) :
    s.commits.foldl (bestBacking want height) none = L.best want height := by
  rw [← foldl_bestCommit_eq t.commits, List.foldl_map]
  exact congrArg (fun f => List.foldl f none s.commits)
    (funext fun best => funext fun cm => bestBacking_eq want height best cm)

theorem applyClaim (t : Tracks s L) (sha256 : Bytes → Hash256)
    (hrate : 1 ≤ b.rate.toNat ∧ b.rate.toNat ≤ 100000000) (h : Acts b actor fc.value cx)
    (hvalid : smNameValid a.name = true) :
    Tracks (applyClaim s b sha256 fc (carrierOf .CLAIM a) actor) (L.claim sha256 cx a) := by
  unfold Go.applyClaim Ledger.claim claimCommitment
  have hname : (carrierOf .CLAIM a).name = a.name := rfl
  have hsalt : (carrierOf .CLAIM a).salt = a.salt := rfl
  rw [if_neg (by simp [hvalid]), hname, hsalt, h.who, h.height]
  dsimp only
  rw [t.foldl_bestBacking]
  cases L.best (sha256 (a.salt.val ++ a.name ++ actor.h160.val)) b.height with
  | none => exact t
  | some p =>
    obtain ⟨ch, ti⟩ := p
    dsimp only
    rw [leaseDaysSingle_eq hrate.1 hrate.2, t.get, t.getScratch, h.burn, h.rate]
    have hadd : ((min 365 (rawT fc.value b.rate) : ℕ) : ℤ) = 0 ↔
        (!smLeaseCoversDay fc.value b.rate) = true := by
      rw [Bool.not_eq_true', ← Bool.not_eq_true, covers_iff]
      omega
    have hmint : ∀ d : Deed, Tracks
        (((s.setName a.name { bareRow d with
            owner := actor.h160
            leaseExpiry := b.mtp + (min 365 (rawT fc.value b.rate) : ℕ) * billingUnit }).setScratch
          a.name ⟨ch, ti, actor.h160⟩).bumpMut actor.h160 b.height) (L.mint cx a.name (ch, ti) d) := by
      intro d
      rw [Ledger.mint_eq, h.who, h.height]
      refine (Tracks.setScratch (t.setRow ?_) a.name ⟨ch, ti, actor.h160⟩).bumpMut _ _
      unfold Ledger.minted Deed.award
      rw [h.who, h.mtp, h.burn, h.rate]
    cases hd : L.names a.name with
    | none =>
      refine related_ite_of hadd (fun _ => t) fun _ => ?_
      exact hmint (Deed.plain actor.h160 cx.actorType cx.mtp)
    | some d =>
      cases hw : L.scratch a.name with
      | none =>
        rw [ite_self]
        exact t
      | some w =>
        dsimp only [Option.map_some]
        by_cases hlocked : d.st ≠ .OWNED ∨ d.owner ≠ w.owner
        · have hstay : d.st ≠ .OWNED ∨ d.owner ≠ w.owner ∨
              ¬ (ch < w.commitHeight ∨ ch = w.commitHeight ∧ ti < w.commitTxIndex) := by
            rw [← or_assoc]
            exact Or.inl hlocked
          rw [if_pos hlocked, if_pos hstay, ite_self]
          exact t
        by_cases hearlier : ch < w.commitHeight ∨ ch = w.commitHeight ∧ ti < w.commitTxIndex
        · rw [if_neg hlocked, if_pos hearlier]
          refine related_ite_of hadd (fun _ => t) fun _ => ?_
          rw [if_neg]
          · exact hmint d
          · rw [← or_assoc]
            exact fun hc => hc.elim hlocked fun hlate => hlate hearlier
        · rw [if_neg hlocked, if_neg hearlier, if_pos (Or.inr (Or.inr hearlier)), ite_self]
          exact t

theorem input?_eq {tx : SmTx} {gtx : FoldTx} (hin : gtx.inputs = tx.inputs.map ofInput) (k : Byte) :
    gtx.input? (k.val : ℤ) = (tx.inputs[k.val]?).map ofInput := by
  unfold FoldTx.input?
  rw [if_neg (by omega), hin, List.getElem?_map, Int.toNat_natCast]

theorem dispatchTrade {tx : SmTx} {gtx : FoldTx} (t : Tracks s L)
    (hin : gtx.inputs = tx.inputs.map ofInput) (hheight : cx.height = b.height)
    (hvalid : smNameValid a.name = true) (hvalidB : smNameValid a.nameB = true) :
    Tracks (dispatchTrade s b gtx (carrierOf .TRADE a)) (L.trade tx cx a) := by
  have hA : (carrierOf .TRADE a).idxA = (a.idxA.val : ℤ) := rfl
  have hB : (carrierOf .TRADE a).idxB = (a.idxB.val : ℤ) := rfl
  have hnA : (carrierOf .TRADE a).nameA = a.name := rfl
  have hnB : (carrierOf .TRADE a).nameB = a.nameB := rfl
  unfold Go.dispatchTrade Ledger.trade Ledger.deedOf
  rw [hA, hB, hnA, hnB, input?_eq hin, input?_eq hin, hheight, if_pos hvalid, if_pos hvalidB, t.get,
    t.get]
  cases tx.inputs[a.idxA.val]? with
  | none => exact t
  | some inA =>
    cases tx.inputs[a.idxB.val]? with
    | none => exact t
    | some inB =>
      have hsame : (a.idxA.val : ℤ) = a.idxB.val ↔ a.idxA = a.idxB :=
        Int.natCast_inj.trans Fin.val_inj
      have hvoid : (((a.idxA.val : ℤ) = a.idxB.val ∨ (!inA.sighashAll || !inB.sighashAll) = true) ∨
          a.name = a.nameB) ↔ (a.idxA = a.idxB ∨ (!inA.sighashAll) = true ∨
          (!inB.sighashAll) = true ∨ a.name = a.nameB) := by
        rw [hsame, Bool.or_eq_true, or_assoc, or_assoc]
      dsimp only [Option.map_some]
      rw [← ite_or, ← ite_or]
      refine related_ite_of hvoid (fun _ => t) fun _ => ?_
      cases L.names a.name with
      | none => exact t
      | some dA =>
        cases L.names a.nameB with
        | none => exact t
        | some dB =>
          have hputA : Tracks (s.setName a.name { bareRow dA with owner := inB.h160 })
              (L.put a.name { dA with owner := inB.h160, ownerType := inB.type }) := t.setRow rfl
          have hputB : Tracks
              ((s.setName a.name { bareRow dA with owner := inB.h160 }).setName a.nameB
                { bareRow dB with owner := inA.h160 })
              ((L.put a.name { dA with owner := inB.h160, ownerType := inB.type }).put a.nameB
                { dB with owner := inA.h160, ownerType := inA.type }) := hputA.setRow rfl
          dsimp only [Option.map_some]
          rw [← ite_or]
          refine related_ite_of (Iff.of_eq (by ac_rfl)) (fun _ => t) fun _ => ?_
          exact (hputB.bumpMut _ _).bumpMut _ _

end Tracks

end Go

end NamespaceIndexer
