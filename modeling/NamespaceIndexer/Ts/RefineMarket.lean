import NamespaceIndexer.Ts.RefineOps

/-!
# The market of the TypeScript port, CLAIM and TRADE

The sales, the payments, the claims and the swaps keep the ledger that the port shows. The port
keeps the consumed outputs as a set of indices, the daemon as flags.
-/

namespace NamespaceIndexer.Ts

open Fold Lib Daemon

/-! ### Payments -/

def ofOut (o : SmOut) : FoldOutput := ⟨o.type, o.h160, o.value.toNat⟩

/-- The daemon's reading of an input: one without an identity has not signed. -/
def FoldInput.toSm (i : FoldInput) : SmInput := ⟨i.id.getD (zeros 20), i.type, i.sighashAll && i.id.isSome⟩

theorem depositLeg_eq (price : UInt64) :
    FoldState.depositLeg price.toNat 50 = (Fold.depositLeg price 50).toNat := by
  have hdust : (dustFloor.toNat : ℤ) = 1 := rfl
  rw [depositLeg_toNat]
  unfold FoldState.depositLeg
  rw [hdust, Int.tdiv_eq_ediv_of_nonneg (by positivity)]
  push_cast
  split <;> omega

/-- The indices consumed are the flags set. -/
structure Consumes (tx : SmTx) (consumed : List ℕ) (flags : List Bool) : Prop where
  length : flags.length = tx.outs.length
  mem : ∀ i, i ∈ consumed ↔ flags.getD i false = true

theorem Consumes.start (tx : SmTx) : Consumes tx [] (List.replicate tx.outs.length false) where
  length := List.length_replicate
  mem i := by
    rw [List.getD_eq_getElem?_getD, List.getElem?_replicate]
    split <;> simp

theorem Consumes.cons {tx : SmTx} {consumed : List ℕ} {flags : List Bool} (h : Consumes tx consumed flags)
    {i : ℕ} (hi : i < tx.outs.length) : Consumes tx (i :: consumed) (flags.set i true) where
  length := by rw [List.length_set, h.length]
  mem j := by
    have hlen := h.length
    rw [List.mem_cons, h.mem, List.getD_eq_getElem?_getD, List.getD_eq_getElem?_getD]
    by_cases hij : i = j
    · subst hij
      rw [List.getElem?_set_self (by omega)]
      simp
    · rw [List.getElem?_set_ne hij, or_iff_right fun hji => hij hji.symm]

section Match

variable {tx : SmTx} {gtx : FoldTx} (houts : gtx.outputs = tx.outs.map ofOut)
  (hasc : tx.outs.Pairwise fun o o' => o.vout ≤ o'.vout)

include houts hasc

theorem matchOutput_eq {consumed : List ℕ} {flags : List Bool} (h : Consumes tx consumed flags)
    (seller : H160) (sType : Byte) (owed : UInt64) :
    matchOutput gtx consumed sType seller owed.toNat = findOutput tx flags seller sType owed := by
  unfold matchOutput
  rw [findOutput_eq hasc, houts, List.length_map]
  refine congrArg (fun p => List.find? p _) (funext fun i => ?_)
  unfold payable
  rw [List.getElem?_map]
  cases tx.outs[i]? with
  | none => rfl
  | some o =>
    have hvalue : (o.value.toNat : ℤ) = owed.toNat ↔ o.value = owed := by
      rw [Int.natCast_inj, UInt64.toNat_inj]
    have hfree : decide (i ∉ consumed) = !flags.getD i false := by
      rw [Bool.eq_iff_iff, decide_eq_true_eq, h.mem]
      simp
    rw [Bool.eq_iff_iff]
    simp only [ofOut, Option.map_some, hfree, Bool.and_eq_true, beq_iff_eq, hvalue]
    tauto

end Match

namespace Tracks

variable {s : FoldState} {L : Ledger} {actor : Actor} {o : FoldCarrier} {cx : SmTxCtx}
  {a : SmAction}

theorem doSell (t : Tracks s L) (hs : ∀ n d, L.names n = some d → d.Sound L.mtp)
    (h : Acts L actor o cx) (hvalid : smNameValid a.name = true) :
    Tracks (s.doSell a.price.toNat a.window.toNat a.name actor) (L.sell cx a) := by
  have hwindow : (if (a.window.toNat : ℤ) = 0 then reserveWindow else (a.window.toNat : ℤ))
      = if a.window ≠ 0 then (a.window.toNat : ℤ) else reserveWindow := by
    rw [ite_not]
    refine if_congr ?_ rfl rfl
    rw [← UInt32.toNat_inj]
    exact Int.natCast_eq_zero
  have hfloor : (a.price.toNat : ℤ) < sellPriceFloor.toNat ↔ a.price < sellPriceFloor := by
    rw [UInt64.lt_iff_toNat_lt, Nat.cast_lt]
  unfold FoldState.doSell Ledger.sell Ledger.deedOf
  rw [if_pos hvalid, t.get, t.mtp, h.mtp, h.who, h.type]
  cases hd : L.names a.name with
  | none => exact t
  | some d =>
    dsimp only [Option.map_some]
    simp only [← ite_or, hwindow, hfloor]
    refine related_ite_of (Iff.of_eq (by ac_rfl)) (fun _ => t) fun hgo => ?_
    have hst : d.st = .OWNED := by
      by_contra hst
      exact hgo (Or.inl (Or.inr hst))
    refine t.setRow hd ?_ rfl
    rw [(hs _ d hd).owned hst]
    rfl

theorem doSellTo (t : Tracks s L) (hs : ∀ n d, L.names n = some d → d.Sound L.mtp)
    (h : Acts L actor o cx) (hvalid : smNameValid a.name = true) :
    Tracks (s.doSellTo a.price.toNat a.addr a.name actor) (L.sellTo cx a) := by
  have hfloor : (a.price.toNat : ℤ) < dustFloor.toNat ↔ a.price < dustFloor := by
    rw [UInt64.lt_iff_toNat_lt, Nat.cast_lt]
  unfold FoldState.doSellTo Ledger.sellTo Ledger.deedOf
  rw [if_pos hvalid, t.get, t.mtp, h.mtp, h.who, h.type]
  cases hd : L.names a.name with
  | none => exact t
  | some d =>
    dsimp only [Option.map_some]
    simp only [← ite_or, hfloor]
    refine related_ite_of (Iff.of_eq (by ac_rfl)) (fun _ => t) fun hgo => ?_
    have hst : d.st = .OWNED := by
      by_contra hst
      exact hgo (Or.inl (Or.inr hst))
    refine t.setRow hd ?_ rfl
    rw [(hs _ d hd).owned hst]
    rfl

/-- The chown, the cleared market and the two stamps of a sale. -/
theorem conveyTo (t : Tracks s L) (h : Acts L actor o cx) {n : Name} {d : Deed}
    (hd : L.names n = some d) (flags : List Bool) :
    Tracks (s.conveyTo n (bareRow d) actor) (L.convey { cx with outConsumed := flags } n d) := by
  have hchown := t.chown hd actor.id cx.actorType
  have hrow := hchown.setRow (e := d.conveyTo actor.id cx.actorType)
    (f := fun row => { row with st := .OWNED }.zeroMarket) (Function.update_self ..) rfl rfl
  rw [Ledger.put_put] at hrow
  unfold FoldState.conveyTo Ledger.convey
  dsimp only
  rw [h.who, h.height]
  exact (hrow.bump actor.id).bump d.seller

/-- A result of the port with its consumed outputs, and one of the ledger with its context. -/
def Paid (tx : SmTx) (x : FoldState × List ℕ) (y : Ledger × SmTxCtx) : Prop :=
  Tracks x.1 y.1 ∧ Consumes tx x.2 y.2.outConsumed

section Sales

variable {tx : SmTx} {gtx : FoldTx} (houts : gtx.outputs = tx.outs.map ofOut)
  (hasc : tx.outs.Pairwise fun o o' => o.vout ≤ o'.vout) {consumed : List ℕ}
  (hc : Consumes tx consumed cx.outConsumed)

include houts hasc hc

/-- A payment that both look for in the same outputs. -/
theorem consume {seller : H160} {sType : Byte} {owed : ℤ} {amount : UInt64} (howed : owed = amount.toNat)
    {x : FoldState × List ℕ} {y : Ledger × SmTxCtx} {f : ℕ → FoldState × List ℕ}
    {g : SmTxCtx → Ledger × SmTxCtx} (hidle : Paid tx x y)
    (hpaid : ∀ i, Consumes tx (i :: consumed) (cx.outConsumed.set i true) →
      Paid tx (f i) (g { cx with outConsumed := cx.outConsumed.set i true })) :
    Paid tx (match matchOutput gtx consumed sType seller owed with
        | none => x
        | some i => f i)
      (match smConsumeOutput tx cx seller sType amount with
        | none => y
        | some cx => g cx) := by
  rw [howed, matchOutput_eq houts hasc hc]
  unfold smConsumeOutput
  cases hf : findOutput tx cx.outConsumed seller sType amount with
  | none => exact hidle
  | some i =>
    rw [findOutput_eq hasc] at hf
    exact hpaid i (hc.cons (List.mem_range.mp (List.mem_of_find?_eq_some hf)))

theorem doReserve (t : Tracks s L) (hs : ∀ n d, L.names n = some d → d.Sound L.mtp)
    (h : Acts L actor o cx) (hvalid : smNameValid a.name = true) :
    Paid tx (s.doReserve gtx a.name actor o consumed) (L.reserve tx cx a) := by
  unfold FoldState.doReserve Ledger.reserve Ledger.deedOf
  rw [if_pos hvalid, t.get]
  cases hd : L.names a.name with
  | none => exact ⟨t, hc⟩
  | some d =>
    have hleg : FoldState.depositLeg (d.price.toNat : ℤ) reserveBurnBps
        = (Fold.depositLeg d.price reserveBurnBps).toNat := depositLeg_eq d.price
    have hpay : FoldState.depositLeg (d.price.toNat : ℤ) reservePayBps
        = (Fold.depositLeg d.price reservePayBps).toNat := depositLeg_eq d.price
    have hshort : o.value < (Fold.depositLeg d.price reserveBurnBps).toNat ↔
        cx.carValue < Fold.depositLeg d.price reserveBurnBps := by
      rw [h.burn, UInt64.lt_iff_toNat_lt, Nat.cast_lt]
    have hopen : d.st = .LISTED → ¬ s.curMTP ≥ d.offerExpiry := by
      intro hst
      have hlt := (hs _ d hd).offer_open (by simp [hst])
      rw [t.mtp]
      omega
    have hguard : ((d.st ≠ .LISTED ∨ s.curMTP ≥ d.offerExpiry) ∨
        o.value < (Fold.depositLeg d.price reserveBurnBps).toNat) ↔
          (d.st ≠ .LISTED ∨ cx.carValue < Fold.depositLeg d.price reserveBurnBps) := by
      rw [hshort]
      refine or_congr_left ⟨fun hgo hst => ?_, Or.inl⟩
      exact hgo.elim (fun hne => hne hst) (hopen hst)
    dsimp only [Option.map_some]
    rw [hleg, hpay, ← ite_or, ← ite_or]
    refine related_ite_of hguard (fun _ => ⟨t, hc⟩) fun _ => ?_
    have hclamp : (if s.curMTP + reserveWindow < d.offerExpiry then s.curMTP + reserveWindow
        else d.offerExpiry) = min (cx.mtp + reserveWindow) d.offerExpiry := by
      rw [t.mtp, h.mtp]
      split <;> omega
    refine consume houts hasc hc rfl ⟨t, hc⟩ fun i hc' => ⟨t.setRow hd ?_ rfl, hc'⟩
    rw [hclamp, h.who]

theorem doSettle (t : Tracks s L) (hs : ∀ n d, L.names n = some d → d.Sound L.mtp)
    (h : Acts L actor o cx) (hvalid : smNameValid a.name = true) :
    Paid tx (s.doSettle gtx a.name actor consumed) (L.settle tx cx a) := by
  unfold FoldState.doSettle Ledger.settle Ledger.buy Ledger.deedOf
  rw [if_pos hvalid, t.get, t.mtp, h.mtp, h.who]
  cases hd : L.names a.name with
  | none => exact ⟨t, hc⟩
  | some d =>
    dsimp only [Option.map_some]
    rw [← ite_or, ← ite_or]
    refine related_ite_of ?_ (fun _ => ⟨t, hc⟩) fun hgo => ?_
    · rw [or_assoc, ne_comm (a := actor.id)]
    have hst : d.st = .RESERVED := by
      by_contra hst
      exact hgo (Or.inl (Or.inl hst))
    have howed : (d.price.toNat : ℤ) - d.burnLeg.toNat - d.payLeg.toNat
        = (Ledger.remainder d).toNat := by
      have hlegs := (hs _ d hd).legs_add hst
      omega
    exact consume houts hasc hc howed ⟨t, hc⟩ fun i hc' => ⟨t.conveyTo h hd _, hc'⟩

theorem doPay (t : Tracks s L) (h : Acts L actor o cx) (hvalid : smNameValid a.name = true) :
    Paid tx (s.doPay gtx a.name actor consumed) (L.pay tx cx a) := by
  unfold FoldState.doPay Ledger.pay Ledger.buy Ledger.deedOf
  rw [if_pos hvalid, t.get, t.mtp, h.mtp, h.who]
  cases hd : L.names a.name with
  | none => exact ⟨t, hc⟩
  | some d =>
    dsimp only [Option.map_some]
    rw [← ite_or, ← ite_or]
    refine related_ite_of ?_ (fun _ => ⟨t, hc⟩) fun _ => ?_
    · rw [or_assoc, ne_comm (a := actor.id)]
    exact consume houts hasc hc rfl ⟨t, hc⟩ fun i hc' => ⟨t.conveyTo h hd _, hc'⟩

end Sales

/-! ### CLAIM and TRADE -/

theorem backingStep_eq (want : Hash256) (height : ℤ) (best : Option (ℤ × UInt32)) (c : Commit) :
    FoldState.backingStep want height best c = bestCommit want height best c.smCommit := by
  unfold FoldState.backingStep bestCommit Commit.smCommit
  by_cases hwant : c.commitment = want
  · by_cases hheight : c.commitHeight < height
    · have hearly : ¬ c.commitHeight ≥ height := not_le.mpr hheight
      cases best with
      | none => simp [hwant, hheight, hearly]
      | some best => simp [hwant, hheight, hearly]
    · rw [if_neg (not_not.mpr hwant), if_pos (not_lt.mp hheight), if_neg fun hc => hheight hc.1]
  · rw [if_pos hwant, if_neg fun hc => hwant hc.2]

theorem findBackingCommit (t : Tracks s L) (sha256 : Bytes → Hash256) (salt name : Bytes)
    (author : H160) : s.findBackingCommit sha256 salt name author
      = L.best (sha256 (salt ++ name ++ author.val)) L.height := by
  unfold FoldState.findBackingCommit
  rw [← foldl_bestCommit_eq t.commits, List.foldl_map, t.height]
  exact congrArg (fun f => List.foldl f none s.commits)
    (funext fun best => funext fun c => backingStep_eq _ _ best c)

theorem doClaim (t : Tracks s L) (hs : ∀ n d, L.names n = some d → d.Sound L.mtp)
    (sha256 : Bytes → Hash256) (hrate : L.rate ≠ 0) (h : Acts L actor o cx)
    (hvalid : smNameValid a.name = true) :
    Tracks (s.doClaim sha256 a.salt.val a.name actor o) (L.claim sha256 cx a) := by
  unfold FoldState.doClaim Ledger.claim claimCommitment
  rw [if_neg (by simp [hvalid]), t.findBackingCommit, h.who, h.height]
  cases L.best (sha256 (a.salt.val ++ a.name ++ actor.id.val)) L.height with
  | none => exact t
  | some p =>
    obtain ⟨ch, ti⟩ := p
    dsimp only
    rw [h.burn, leaseDaysTotal_eq t.rate hrate, h.rate]
    have hshort : (rawT cx.carValue L.rate : ℤ) < 1 ↔ (!smLeaseCoversDay cx.carValue L.rate) = true := by
      rw [Bool.not_eq_true', ← Bool.not_eq_true, covers_iff]
      omega
    have hadd : (if (rawT cx.carValue L.rate : ℤ) < 365 then (rawT cx.carValue L.rate : ℤ) else 365)
        = (min 365 (rawT cx.carValue L.rate) : ℕ) := by
      split <;> omega
    have hminted : ∀ d : Deed, bareRow (Ledger.minted cx d) = { bareRow d with
        owner := actor.id
        leaseExpiry := s.curMTP + (if (rawT cx.carValue L.rate : ℤ) < 365 then
          (rawT cx.carValue L.rate : ℤ) else 365) * billingUnit } := by
      intro d
      rw [hadd, t.mtp]
      unfold Ledger.minted Deed.award
      rw [h.who, h.mtp, h.rate]
    refine related_ite_of hshort (fun _ => t) fun _ => ?_
    rw [t.get, t.getScratch]
    cases hd : L.names a.name with
    | none =>
      have hadd := t.add hd (Ledger.minted cx (Deed.plain actor.id cx.actorType cx.mtp))
      have hmint := (hadd.setScratch a.name ⟨ch, ti, actor.id⟩).bump actor.id
      rw [hminted] at hmint
      dsimp only [Option.map_none]
      rw [Ledger.mint_eq, h.who, h.height]
      exact hmint
    | some d =>
      cases L.scratch a.name with
      | none => exact t
      | some w =>
        dsimp only [Option.map_some]
        rw [← ite_not]
        refine related_ite_of (by rw [not_and_or, not_and_or]) (fun _ => t) fun hgo => ?_
        obtain ⟨hst, -, -⟩ := not_not.mp hgo
        have hrow := (t.chown hd actor.id cx.actorType).setRow (e := Ledger.minted cx d)
          (f := fun r => { r with leaseExpiry := s.curMTP +
            (if (rawT cx.carValue L.rate : ℤ) < 365 then (rawT cx.carValue L.rate : ℤ) else 365)
              * billingUnit }.zeroMarket) (Function.update_self ..)
          (by
            rw [hminted, (hs _ d hd).owned hst]
            rfl)
          (by
            unfold Ledger.minted Deed.award
            exact h.who)
        rw [Ledger.put_put] at hrow
        rw [Ledger.mint_eq, h.who, h.height]
        exact (hrow.setScratch a.name ⟨ch, ti, actor.id⟩).bump actor.id

theorem resolve_eq (i : Option FoldInput) :
    resolve i = (i.map FoldInput.toSm).bind fun j => if j.sighashAll then some ⟨j.h160, j.type⟩ else none := by
  cases i with
  | none => rfl
  | some i =>
    obtain ⟨id, type, all⟩ := i
    cases id with
    | none =>
      cases all <;> rfl
    | some id =>
      cases all <;> rfl

theorem doTrade {tx : SmTx} {gtx : FoldTx} (t : Tracks s L) (hin : tx.inputs = gtx.inputs.map FoldInput.toSm)
    (hheight : cx.height = L.height) (hvalid : smNameValid a.name = true)
    (hvalidB : smNameValid a.nameB = true) :
    Tracks (s.doTrade gtx a.idxA a.idxB a.name a.nameB) (L.trade tx cx a) := by
  unfold FoldState.doTrade Ledger.trade Ledger.deedOf
  rw [resolve_eq, resolve_eq, hin, List.getElem?_map, List.getElem?_map, if_pos hvalid, if_pos hvalidB,
    t.get, t.get, hheight]
  by_cases hsame : a.idxA = a.idxB ∨ a.name = a.nameB
  · rw [← ite_or, if_pos hsame]
    cases gtx.inputs[a.idxA.val]? with
    | none => exact t
    | some iA =>
      cases gtx.inputs[a.idxB.val]? with
      | none => exact t
      | some iB =>
        dsimp only [Option.map_some]
        rw [if_pos]
        · exact t
        · rcases hsame with hidx | hname
          · exact Or.inl hidx
          · exact Or.inr (Or.inr (Or.inr hname))
  rw [← ite_or, if_neg hsame]
  cases gtx.inputs[a.idxA.val]? with
  | none => exact t
  | some iA =>
    cases gtx.inputs[a.idxB.val]? with
    | none =>
      dsimp only [Option.map_some, Option.map_none, Option.bind_some, Option.bind_none]
      split
      · rename_i hB
        cases hB
      · exact t
    | some iB =>
      dsimp only [Option.map_some, Option.bind_some]
      generalize iA.toSm = inA
      generalize iB.toSm = inB
      cases hA : inA.sighashAll with
      | false =>
        have hvoid : a.idxA = a.idxB ∨ (!false) = true ∨ (!inB.sighashAll) = true ∨ a.name = a.nameB :=
          Or.inr (Or.inl rfl)
        rw [if_neg Bool.false_ne_true, if_pos hvoid]
        exact t
      | true =>
        cases hB : inB.sighashAll with
        | false =>
          have hvoid : a.idxA = a.idxB ∨ (!true) = true ∨ (!false) = true ∨ a.name = a.nameB :=
            Or.inr (Or.inr (Or.inl rfl))
          rw [if_neg Bool.false_ne_true, if_pos hvoid]
          exact t
        | true =>
          have hgo : ¬ (a.idxA = a.idxB ∨ (!true) = true ∨ (!true) = true ∨ a.name = a.nameB) := by
            rintro (hidx | hc | hc | hname)
            · exact hsame (Or.inl hidx)
            · cases hc
            · cases hc
            · exact hsame (Or.inr hname)
          rw [if_pos rfl, if_pos rfl, if_neg hgo]
          cases hdA : L.names a.name with
          | none => exact t
          | some dA =>
            cases hdB : L.names a.nameB with
            | none => exact t
            | some dB =>
              have hputA := t.chown hdA inB.h160 inB.type
              have hkeptB : (L.put a.name { dA with owner := inB.h160, ownerType := inB.type }).names
                  a.nameB = some dB := by
                rw [Ledger.put_names, Function.update_of_ne fun hname => hsame (Or.inr hname.symm), hdB]
              have hputB := hputA.chown hkeptB inA.h160 inA.type
              dsimp only [Option.map_some]
              rw [← ite_or]
              refine related_ite_of or_assoc (fun _ => t) fun _ => ?_
              exact (hputB.bump inA.h160).bump inB.h160

end Tracks

end NamespaceIndexer.Ts
