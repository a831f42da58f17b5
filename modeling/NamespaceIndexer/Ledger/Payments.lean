import NamespaceIndexer.Ledger.Theft

/-!
# Market payments are exact and never shared

A RESERVE, SETTLE or PAY that takes effect consumes one output, the one of lowest
`vout` that still pays the seller exactly; no other carrier consumes one.
-/

namespace NamespaceIndexer

open Fold Lib

/-! ### The scan for an output -/

/-- Output `i` pays the seller of `r` exactly `amount` and is not consumed. -/
structure Paying (tx : SmTx) (consumed : List Bool) (r : SmNameRow) (amount : UInt64) (i : ℕ)
    (o : SmOut) : Prop where
  out : tx.outs[i]? = some o
  fresh : consumed[i]? = some false
  value : o.value = amount
  type : o.type = r.sellerType
  dest : o.h160 = r.seller

/-- The output of lowest `vout` that pays the seller of `r` exactly `amount`. -/
def LowestPaying (tx : SmTx) (consumed : List Bool) (r : SmNameRow) (amount : UInt64) (i : ℕ) :
    Prop :=
  ∃ o, Paying tx consumed r amount i o ∧ ∀ j o', Paying tx consumed r amount j o' → o.vout ≤ o'.vout

theorem payable_iff {tx : SmTx} {consumed : List Bool} (hlen : consumed.length = tx.outs.length)
    (r : SmNameRow) (amount : UInt64) (i : ℕ) :
    payable tx consumed r.seller r.sellerType amount i = true ↔
      ∃ o, Paying tx consumed r amount i o := by
  unfold payable
  cases ho : tx.outs[i]? with
  | none =>
    simp only [Bool.false_eq_true, false_iff]
    intro ⟨o, h⟩
    rw [h.out] at ho
    cases ho
  | some o =>
    have hi : i < consumed.length := by
      rw [hlen]
      exact (List.getElem?_eq_some_iff.mp ho).1
    have hc : consumed[i]? = some (consumed.getD i false) := by simp [List.getElem?_eq_getElem hi]
    simp only [Bool.and_eq_true, Bool.not_eq_true', beq_iff_eq]
    constructor
    · intro ⟨⟨⟨hfresh, hv⟩, ht⟩, hd⟩
      exact ⟨o, ⟨ho, by rw [hc, hfresh], hv, ht, hd⟩⟩
    · intro ⟨o', h⟩
      have he : o = o' := Option.some.inj (ho.symm.trans h.out)
      subst he
      have hfresh := h.fresh
      rw [hc] at hfresh
      exact ⟨⟨⟨Option.some.inj hfresh, h.value⟩, h.type⟩, h.dest⟩

/-- Among outputs that exist the scan keeps one of lowest `vout`. -/
theorem foldl_bestOutput_le {tx : SmTx} (l : List ℕ) (hl : ∀ j ∈ l, j < tx.outs.length)
    (best : Option ℕ) (hb : ∀ b ∈ best, b < tx.outs.length) {i : ℕ}
    (h : l.foldl (bestOutput tx) best = some i) :
    ∃ o, tx.outs[i]? = some o ∧
      ∀ j, j ∈ l ∨ j ∈ best → ∀ o', tx.outs[j]? = some o' → o.vout ≤ o'.vout := by
  induction l generalizing best with
  | nil =>
    rw [List.foldl_nil] at h
    subst h
    have hi : i < tx.outs.length := hb i rfl
    refine ⟨tx.outs[i], List.getElem?_eq_getElem hi, fun j hj o' ho' => ?_⟩
    have hj' : i = j := by simpa using hj
    subst hj'
    rw [List.getElem?_eq_getElem hi] at ho'
    rw [Option.some.inj ho']
  | cons k l ih =>
    have hk : k < tx.outs.length := hl k List.mem_cons_self
    have hrest : ∀ j ∈ l, j < tx.outs.length := fun j hj => hl j (List.mem_cons_of_mem _ hj)
    rw [List.foldl_cons] at h
    cases best with
    | none =>
      obtain ⟨o, ho, hle⟩ := ih hrest (some k) (by simpa using hk) h
      refine ⟨o, ho, fun j hj => hle j ?_⟩
      rcases hj with hj | hj
      · exact (List.mem_cons.mp hj).symm.imp id fun he => by rw [he]; rfl
      · cases hj
    | some b =>
      have hbl : b < tx.outs.length := hb b rfl
      have hstep : bestOutput tx (some b) k
          = if tx.outs[k].vout < tx.outs[b].vout then some k else some b := by
        unfold bestOutput
        simp only [List.getElem?_eq_getElem hk, List.getElem?_eq_getElem hbl]
      rw [hstep] at h
      by_cases hlt : tx.outs[k].vout < tx.outs[b].vout
      · rw [if_pos hlt] at h
        obtain ⟨o, ho, hle⟩ := ih hrest (some k) (by simpa using hk) h
        have hok := hle k (Or.inr rfl) _ (List.getElem?_eq_getElem hk)
        refine ⟨o, ho, fun j hj o' ho' => ?_⟩
        rcases hj with hj | hj
        · rcases List.mem_cons.mp hj with rfl | hj
          · exact hle j (Or.inr rfl) o' ho'
          · exact hle j (Or.inl hj) o' ho'
        · have hjb : b = j := by simpa using hj
          subst hjb
          rw [List.getElem?_eq_getElem hbl] at ho'
          rw [← Option.some.inj ho']
          omega
      · rw [if_neg hlt] at h
        obtain ⟨o, ho, hle⟩ := ih hrest (some b) (by simpa using hbl) h
        have hob := hle b (Or.inr rfl) _ (List.getElem?_eq_getElem hbl)
        refine ⟨o, ho, fun j hj o' ho' => ?_⟩
        rcases hj with hj | hj
        · rcases List.mem_cons.mp hj with rfl | hj
          · rw [List.getElem?_eq_getElem hk] at ho'
            rw [← Option.some.inj ho']
            omega
          · exact hle j (Or.inl hj) o' ho'
        · exact hle j (Or.inr hj) o' ho'

/-- What `sm_consume_output` picks is the lowest exact output. -/
theorem findOutput_lowest {tx : SmTx} {consumed : List Bool} {r : SmNameRow} {amount : UInt64}
    {i : ℕ} (h : findOutput tx consumed r.seller r.sellerType amount = some i)
    (hlen : consumed.length = tx.outs.length) : LowestPaying tx consumed r amount i := by
  have hmem := findOutput_mem h
  have hbound : ∀ j ∈ (List.range tx.outs.length).filter
      (payable tx consumed r.seller r.sellerType amount), j < tx.outs.length := fun j hj =>
    List.mem_range.mp (List.mem_filter.mp hj).1
  obtain ⟨o, ho, hle⟩ := foldl_bestOutput_le _ hbound none (by simp) h
  obtain ⟨o1, ho1⟩ := (payable_iff hlen r amount i).mp (List.mem_filter.mp hmem).2
  have he : o = o1 := Option.some.inj (ho.symm.trans ho1.out)
  subst he
  refine ⟨o, ho1, fun j o' hj => ?_⟩
  have hjl : j < tx.outs.length := (List.getElem?_eq_some_iff.mp hj.out).1
  have hjm : j ∈ (List.range tx.outs.length).filter
      (payable tx consumed r.seller r.sellerType amount) :=
    List.mem_filter.mpr ⟨List.mem_range.mpr hjl, (payable_iff hlen r amount j).mpr ⟨o', hj⟩⟩
  exact hle j (Or.inl hjm) o' hj.out

/-! ### The three payments -/

/-- The opcode of an action carrier. -/
def carrierOp (car : SmCarrier) : Option SmOp :=
  if car.kind = .ACTION then SmOp.ofByte? car.act.op else none

/-- The event a payment counts when it takes effect. -/
def payEvent : SmOp → Option SmEv
  | .RESERVE => some .RESERVE_WIN
  | .SETTLE => some .SETTLE_OK
  | .PAY => some .PAY_OK
  | _ => none

/-- The state of a name that the payment is for. -/
def payState : SmOp → SmNameState
  | .RESERVE => .LISTED
  | .SETTLE => .RESERVED
  | _ => .OFFERED

/-- What the payment owes the seller of the row. -/
def owedBy : SmOp → SmNameRow → UInt64
  | .RESERVE, r => depositLeg r.price reservePayBps
  | .SETTLE, r => r.price - r.burnLeg - r.payLeg
  | _, r => r.price

/-- The action pays with output `i`. -/
structure PaysWith (tx : SmTx) (op : SmOp) (a : SmAction) (sc sc' : SmState × SmTxCtx) (i : ℕ) :
    Prop where
  row : ∃ r, rowOf sc.1 a.name = some r ∧ r.st = payState op ∧
    LowestPaying tx sc.2.outConsumed r (owedBy op r) i
  marks : sc'.2.outConsumed = sc.2.outConsumed.set i true
  changes : sc'.1.names ≠ sc.1.names

/-- A handler of a payment does nothing, or pays with one output and counts its event. -/
def PayCases (tx : SmTx) (op : SmOp) (e : SmEv) (a : SmAction) (sc sc' : SmState × SmTxCtx) : Prop :=
  sc' = sc ∨ sc'.1.ev e = sc.1.ev e + 1 ∧ ∃ i, PaysWith tx op a sc sc' i

theorem rowOf_of_find {s : SmState} {n : Name} {r : ℕ} (h : smFindName s n = some r) :
    rowOf s n = some (s.row r) ∧ r < s.names.length := by
  obtain ⟨x, hx, -, hl⟩ := RowTable.indexOf?_some SmNameRow.name h
  have hr : s.row r = x := by simp [SmState.row, List.getD_eq_getElem?_getD, hx]
  exact ⟨by rw [rowOf, hl, hr], (List.getElem?_eq_some_iff.mp hx).1⟩

theorem setRow_names_ne {s : SmState} {r : ℕ} (hr : r < s.names.length) {v : SmNameRow}
    (hv : v.st ≠ (s.row r).st) : (s.setRow r v).names ≠ s.names := by
  intro he
  have hrow : (s.setRow r v).row r = s.row r := by rw [SmState.row, he]; rfl
  rw [row_setRow_self hr] at hrow
  exact hv (by rw [hrow])

section Handlers

variable {tx : SmTx} {s : SmState} {cx : SmTxCtx} {a : SmAction}

theorem bumpMutation_frame (s : SmState) (who : H160) (h : ℤ) :
    (smBumpMutation s who h).names = s.names ∧ (smBumpMutation s who h).ev = s.ev := by
  unfold smBumpMutation
  split
  · split <;> exact ⟨rfl, rfl⟩
  · exact ⟨rfl, rfl⟩

theorem paysWith_of_find (op : SmOp) (v : SmNameRow) {r i : ℕ} (hr : smFindName s a.name = some r)
    (hst : (s.row r).st = payState op)
    (hi : findOutput tx cx.outConsumed (s.row r).seller (s.row r).sellerType (owedBy op (s.row r))
      = some i) (hlen : cx.outConsumed.length = tx.outs.length)
    (hv : v.st ≠ payState op) {sc' : SmState × SmTxCtx}
    (hnames : sc'.1.names = (s.setRow r v).names)
    (hmarks : sc'.2.outConsumed = cx.outConsumed.set i true) :
    PaysWith tx op a (s, cx) sc' i where
  row := ⟨s.row r, (rowOf_of_find hr).1, hst, findOutput_lowest hi hlen⟩
  marks := hmarks
  changes := by
    rw [hnames]
    exact setRow_names_ne (rowOf_of_find hr).2 (by rw [hst]; exact hv)

/-- A payment that hands the row over to the actor. -/
theorem payCases_owned (op : SmOp) (e : SmEv) {r i : ℕ} (hr : smFindName s a.name = some r)
    (hst : (s.row r).st = payState op) (howned : .OWNED ≠ payState op)
    (hi : findOutput tx cx.outConsumed (s.row r).seller (s.row r).sellerType (owedBy op (s.row r))
      = some i) (hlen : cx.outConsumed.length = tx.outs.length) :
    PayCases tx op e a (s, cx)
      ((smBumpMutation (smBumpMutation (s.setRow r (toOwned { s.row r with
          owner := cx.actor, ownerType := cx.actorType })) cx.actor cx.height)
          (s.row r).seller cx.height).bumpEv e,
        { cx with outConsumed := cx.outConsumed.set i true }) := by
  right
  constructor
  · simp only [SmState.bumpEv, if_true, bumpMutation_frame]
    rfl
  · refine ⟨i, paysWith_of_find op (toOwned { s.row r with
      owner := cx.actor, ownerType := cx.actorType }) hr hst hi hlen howned ?_ rfl⟩
    simp only [SmState.bumpEv, bumpMutation_frame]

theorem smOpReserve_payCases (hlen : cx.outConsumed.length = tx.outs.length) :
    PayCases tx .RESERVE .RESERVE_WIN a (s, cx) (smOpReserve tx s cx a) := by
  unfold smOpReserve
  split
  · exact Or.inl rfl
  · split
    · exact Or.inl rfl
    · rename_i r hr
      split
      · exact Or.inl rfl
      · rename_i hst
        rw [not_not] at hst
        simp only
        split
        · exact Or.inl rfl
        · split
          · exact Or.inl rfl
          · rename_i hc
            obtain ⟨i, hi, rfl⟩ := Ledger.smConsumeOutput_eq_some hc
            right
            constructor
            · split <;> rfl
            · refine ⟨i, paysWith_of_find .RESERVE { s.row r with
                st := .RESERVED, buyer := cx.actor,
                burnLeg := depositLeg (s.row r).price reserveBurnBps,
                payLeg := depositLeg (s.row r).price reservePayBps,
                reserveExpiry := if decide (cx.mtp + reserveWindow ≥ (s.row r).offerExpiry) then
                  (s.row r).offerExpiry else cx.mtp + reserveWindow }
                hr hst hi hlen (fun h => by cases h) ?_ rfl⟩
              split <;> rfl

theorem smOpSettle_payCases (hlen : cx.outConsumed.length = tx.outs.length) :
    PayCases tx .SETTLE .SETTLE_OK a (s, cx) (smOpSettle tx s cx a) := by
  unfold smOpSettle
  split
  · exact Or.inl rfl
  · split
    · exact Or.inl rfl
    · rename_i r hr
      split
      · exact Or.inl rfl
      · rename_i hst
        rw [not_not] at hst
        split
        · exact Or.inl rfl
        · split
          · exact Or.inl rfl
          · simp only
            split
            · exact Or.inl rfl
            · rename_i hc
              obtain ⟨i, hi, rfl⟩ := Ledger.smConsumeOutput_eq_some hc
              exact payCases_owned .SETTLE _ hr hst (fun h => by cases h) hi hlen

theorem smOpPay_payCases (hlen : cx.outConsumed.length = tx.outs.length) :
    PayCases tx .PAY .PAY_OK a (s, cx) (smOpPay tx s cx a) := by
  unfold smOpPay
  split
  · exact Or.inl rfl
  · split
    · exact Or.inl rfl
    · rename_i r hr
      split
      · exact Or.inl rfl
      · rename_i hst
        rw [not_not] at hst
        split
        · exact Or.inl rfl
        · split
          · exact Or.inl rfl
          · split
            · exact Or.inl rfl
            · rename_i hc
              obtain ⟨i, hi, rfl⟩ := Ledger.smConsumeOutput_eq_some hc
              exact payCases_owned .PAY _ hr hst (fun h => by cases h) hi hlen

end Handlers

/-- A carrier is a payment in one of its cases, or marks nothing. -/
theorem applyCarrier_payments (sha256 : Bytes → Hash256) (tx : SmTx) (s : SmState) (cx : SmTxCtx)
    (car : SmCarrier) (hlen : cx.outConsumed.length = tx.outs.length) :
    (∃ op e, carrierOp car = some op ∧ payEvent op = some e ∧
      PayCases tx op e car.act (s, Ledger.carCtx cx car) (applyCarrier sha256 tx (s, cx) car)) ∨
    ((carrierOp car).bind payEvent = none ∧
      (applyCarrier sha256 tx (s, cx) car).2.outConsumed = cx.outConsumed) := by
  by_cases hk : car.kind = .ACTION
  · have hop : carrierOp car = SmOp.ofByte? car.act.op := if_pos hk
    by_cases hact : s.curHeight < i64 s.activationHeight
    · have hidle : applyCarrier sha256 tx (s, cx) car = (s, Ledger.carCtx cx car) := by
        unfold applyCarrier
        simp only [hk, ne_eq, not_true_eq_false, if_false, if_pos hact]
        rfl
      cases he : (carrierOp car).bind payEvent with
      | none => exact Or.inr ⟨rfl, by rw [hidle]; rfl⟩
      | some e =>
        obtain ⟨op, ho, hpe⟩ := Option.bind_eq_some_iff.mp he
        exact Or.inl ⟨op, e, ho, hpe, Or.inl hidle⟩
    · unfold applyCarrier
      simp only [hk, ne_eq, not_true_eq_false, if_false, if_neg hact]
      rw [hop]
      cases SmOp.ofByte? car.act.op with
      | none => exact Or.inr ⟨rfl, rfl⟩
      | some op =>
        cases op with
        | RESERVE =>
          refine Or.inl ⟨.RESERVE, .RESERVE_WIN, rfl, rfl, ?_⟩
          simp only
          split
          · exact Or.inl rfl
          · exact smOpReserve_payCases hlen
        | SETTLE =>
          refine Or.inl ⟨.SETTLE, .SETTLE_OK, rfl, rfl, ?_⟩
          simp only
          split
          · exact Or.inl rfl
          · exact smOpSettle_payCases hlen
        | PAY =>
          refine Or.inl ⟨.PAY, .PAY_OK, rfl, rfl, ?_⟩
          simp only
          split
          · exact Or.inl rfl
          · exact smOpPay_payCases hlen
        | AS =>
          refine Or.inr ⟨rfl, ?_⟩
          simp only
          split <;> rfl
        | TRADE => exact Or.inr ⟨rfl, rfl⟩
        | _ =>
          refine Or.inr ⟨rfl, ?_⟩
          simp only
          split <;> rfl
  · refine Or.inr ⟨by unfold carrierOp; rw [if_neg hk]; rfl, ?_⟩
    unfold applyCarrier
    simp only [ne_eq, hk, not_false_eq_true, if_true]

namespace CarStep

variable (sha256 : Bytes → Hash256)

/-- The carrier is a RESERVE, SETTLE or PAY. -/
def isPayment (m : CarStep) : Bool := ((carrierOp m.car).bind payEvent).isSome

/-- The carrier is a payment whose event the step counts. -/
def tookEffect (m : CarStep) : Bool :=
  match (carrierOp m.car).bind payEvent with
  | some e => (m.after sha256).1.ev e != m.before.1.ev e
  | none => false

/-- The step is paid with output `i` of its transaction. -/
def PaidWith (m : CarStep) (i : ℕ) : Prop :=
  ∃ op, carrierOp m.car = some op ∧ PaysWith m.tx op m.car.act m.before (m.after sha256) i

theorem payment_cases (m : CarStep) (hlen : m.before.2.outConsumed.length = m.tx.outs.length) :
    (m.tookEffect sha256 = true ∧ m.isPayment = true ∧ ∃ i, m.PaidWith sha256 i) ∨
    (m.tookEffect sha256 = false ∧
      (m.after sha256).2.outConsumed = m.before.2.outConsumed ∧
      (m.isPayment = true → (m.after sha256).1 = m.before.1)) := by
  obtain ⟨tx, ⟨s, cx⟩, car⟩ := m
  unfold tookEffect isPayment PaidWith after
  simp only
  rcases applyCarrier_payments sha256 tx s cx car hlen with ⟨op, e, hop, he, hcases⟩ | ⟨hn, hmark⟩
  · have hbind : (carrierOp car).bind payEvent = some e := by rw [hop, Option.bind_some, he]
    rw [hbind]
    rcases hcases with hidle | ⟨hev, i, hpaid⟩
    · right
      rw [hidle]
      exact ⟨by simp, rfl, fun _ => rfl⟩
    · left
      have hne : (applyCarrier sha256 tx (s, cx) car).1.ev e ≠ s.ev e := by
        rw [hev]
        exact Nat.succ_ne_self _
      exact ⟨by simpa using hne, rfl, i, op, hop, hpaid.row, hpaid.marks, hpaid.changes⟩
  · right
    rw [hn]
    exact ⟨rfl, hmark, fun h => by cases h⟩

end CarStep

/-! ### The carriers of a transaction -/

theorem count_true_set {l : List Bool} {i : ℕ} (h : l[i]? = some false) :
    (l.set i true).count true = l.count true + 1 := by
  obtain ⟨hi, he⟩ := List.getElem?_eq_some_iff.mp h
  rw [List.count_set hi, he]
  simp

theorem PaysWith.fresh {tx : SmTx} {op : SmOp} {a : SmAction} {sc sc' : SmState × SmTxCtx} {i : ℕ}
    (h : PaysWith tx op a sc sc' i) : sc.2.outConsumed[i]? = some false := by
  obtain ⟨r, -, -, o, ho, -⟩ := h.row
  exact ho.fresh

/-- No step changes the number of flags. -/
theorem applyCarrier_flags (sha256 : Bytes → Hash256) (tx : SmTx) (sc : SmState × SmTxCtx)
    (car : SmCarrier) (hlen : sc.2.outConsumed.length = tx.outs.length) :
    (applyCarrier sha256 tx sc car).2.outConsumed.length = tx.outs.length := by
  rcases CarStep.payment_cases sha256 ⟨tx, sc, car⟩ hlen with ⟨-, -, i, op, -, hpaid⟩ | ⟨-, he, -⟩
  · have hmarks : (applyCarrier sha256 tx sc car).2.outConsumed = sc.2.outConsumed.set i true :=
      hpaid.marks
    rw [hmarks, List.length_set, hlen]
  · have hsame : (applyCarrier sha256 tx sc car).2.outConsumed = sc.2.outConsumed := he
    rw [hsame, hlen]

theorem carSteps_flags (sha256 : Bytes → Hash256) (tx : SmTx) (sc : SmState × SmTxCtx)
    (cars : List SmCarrier) (hlen : sc.2.outConsumed.length = tx.outs.length) :
    ∀ m ∈ carSteps sha256 tx sc cars, m.before.2.outConsumed.length = m.tx.outs.length := by
  induction cars generalizing sc with
  | nil => intro m hm; cases hm
  | cons car cars ih =>
    intro m hm
    rcases List.mem_cons.mp hm with rfl | hm
    · exact hlen
    · exact ih _ (applyCarrier_flags sha256 tx sc car hlen) m hm

/-- The outputs that the effective payments among `cars` consume, one each and none twice. -/
theorem carSteps_paid (sha256 : Bytes → Hash256) (tx : SmTx) (sc : SmState × SmTxCtx)
    (cars : List SmCarrier) (hlen : sc.2.outConsumed.length = tx.outs.length) :
    ∃ outs : List ℕ, outs.Nodup ∧ (∀ i ∈ outs, sc.2.outConsumed[i]? = some false) ∧
      List.Forall₂ (CarStep.PaidWith sha256)
        ((carSteps sha256 tx sc cars).filter (CarStep.tookEffect sha256)) outs ∧
      (cars.foldl (applyCarrier sha256 tx) sc).2.outConsumed.count true
        = sc.2.outConsumed.count true + outs.length := by
  induction cars generalizing sc with
  | nil => exact ⟨[], List.nodup_nil, by simp, List.Forall₂.nil, rfl⟩
  | cons car cars ih =>
    obtain ⟨outs, hnd, hfresh, hall, hcount⟩ := ih (applyCarrier sha256 tx sc car)
      (applyCarrier_flags sha256 tx sc car hlen)
    rcases CarStep.payment_cases sha256 ⟨tx, sc, car⟩ hlen with
      ⟨heff, -, i, hpaid⟩ | ⟨heff, hsame, -⟩
    · obtain ⟨op, hop, hpays⟩ := hpaid
      have hi : sc.2.outConsumed[i]? = some false := hpays.fresh
      have hmarks : (applyCarrier sha256 tx sc car).2.outConsumed = sc.2.outConsumed.set i true :=
        hpays.marks
      rw [hmarks] at hfresh hcount
      have hne : ∀ j ∈ outs, i ≠ j := by
        intro j hj he
        subst he
        have hlt : i < sc.2.outConsumed.length := (List.getElem?_eq_some_iff.mp hi).1
        have hset := hfresh i hj
        rw [List.getElem?_set_self hlt] at hset
        cases hset
      refine ⟨i :: outs, List.nodup_cons.mpr ⟨fun hj => hne i hj rfl, hnd⟩, ?_, ?_, ?_⟩
      · intro j hj
        rcases List.mem_cons.mp hj with rfl | hj
        · exact hi
        · have hset := hfresh j hj
          rw [List.getElem?_set_ne (hne j hj)] at hset
          exact hset
      · unfold carSteps
        rw [List.filter_cons_of_pos heff]
        exact List.Forall₂.cons ⟨op, hop, hpays⟩ hall
      · rw [List.foldl_cons, hcount, count_true_set hi, List.length_cons]
        omega
    · have hflags : (applyCarrier sha256 tx sc car).2.outConsumed = sc.2.outConsumed := hsame
      rw [hflags] at hfresh hcount
      refine ⟨outs, hnd, hfresh, ?_, hcount⟩
      unfold carSteps
      rw [List.filter_cons_of_neg (by simp [heff])]
      exact hall

theorem initCtx_flags (s : SmState) (tx : SmTx) :
    (initCtx s tx).outConsumed = List.replicate tx.outs.length false := by
  unfold initCtx
  cases signer tx 0 <;> rfl

/-- The three payments of a sale at a listed price add up to the price. -/
theorem legs_exact {r : SmNameRow} (h : 3 ≤ r.price) :
    let burn := depositLeg r.price reserveBurnBps
    let pay := owedBy .RESERVE r
    let rest := owedBy .SETTLE { r with burnLeg := burn, payLeg := pay }
    burn.toNat + pay.toNat + rest.toNat = r.price.toNat ∧
      1 ≤ burn.toNat ∧ 1 ≤ pay.toNat ∧ 1 ≤ rest.toNat := by
  intro burn pay rest
  have h3 : 3 ≤ r.price.toNat := UInt64.le_iff_toNat_le.mp h
  have hburn : burn.toNat = max 1 (r.price.toNat * 50 / 10000) := depositLeg_toNat r.price
  have hpay : pay.toNat = max 1 (r.price.toNat * 50 / 10000) := depositLeg_toNat r.price
  have hle : burn.toNat + pay.toNat + 1 ≤ r.price.toNat := legs_le_price h3
  have hrest : rest = r.price - burn - pay := rfl
  have h1 : (r.price - burn).toNat = r.price.toNat - burn.toNat :=
    UInt64.toNat_sub_of_le _ _ (UInt64.le_iff_toNat_le.mpr (by omega))
  have h2 : rest.toNat = (r.price - burn).toNat - pay.toNat := by
    rw [hrest]
    exact UInt64.toNat_sub_of_le _ _ (UInt64.le_iff_toNat_le.mpr (by omega))
  omega

/-- Payments in `sm_apply_tx`: as many outputs consumed as payments took effect, each payment with
an output of its own, and the amounts owed for one sale add up. -/
theorem smApplyTx_payments (sha256 : Bytes → Hash256) (s : SmState) (tx : SmTx) :
    let steps := carSteps sha256 tx (s, initCtx s tx) tx.carriers
    let final := tx.carriers.foldl (applyCarrier sha256 tx) (s, initCtx s tx)
    final.1 = smApplyTx sha256 s tx ∧
    final.2.outConsumed.count true = (steps.filter (CarStep.tookEffect sha256)).length ∧
    (∃ outs : List ℕ, outs.Nodup ∧
      List.Forall₂ (CarStep.PaidWith sha256) (steps.filter (CarStep.tookEffect sha256)) outs) ∧
    (∀ m ∈ steps, m.tookEffect sha256 = true →
      m.isPayment = true ∧ (m.after sha256).1.names ≠ m.before.1.names) ∧
    (∀ m ∈ steps, m.tookEffect sha256 = false →
      (m.after sha256).2.outConsumed = m.before.2.outConsumed ∧
        (m.isPayment = true → (m.after sha256).1 = m.before.1)) ∧
    ∀ r : SmNameRow, 3 ≤ r.price →
      let burn := depositLeg r.price reserveBurnBps
      let pay := owedBy .RESERVE r
      let rest := owedBy .SETTLE { r with burnLeg := burn, payLeg := pay }
      burn.toNat + pay.toNat + rest.toNat = r.price.toNat ∧
        1 ≤ burn.toNat ∧ 1 ≤ pay.toNat ∧ 1 ≤ rest.toNat := by
  intro steps final
  have hflags := initCtx_flags s tx
  have hlen : (s, initCtx s tx).2.outConsumed.length = tx.outs.length := by
    rw [hflags, List.length_replicate]
  have hsteps := carSteps_flags sha256 tx (s, initCtx s tx) tx.carriers hlen
  obtain ⟨outs, hnd, -, hall, hcount⟩ := carSteps_paid sha256 tx (s, initCtx s tx) tx.carriers hlen
  have hzero : (s, initCtx s tx).2.outConsumed.count true = 0 := by
    rw [hflags]
    simp [List.count_replicate]
  refine ⟨rfl, ?_, ⟨outs, hnd, hall⟩, ?_, ?_, fun r hr => legs_exact hr⟩
  · rw [hzero, Nat.zero_add] at hcount
    exact hcount.trans hall.length_eq.symm
  · intro m hm heff
    rcases m.payment_cases sha256 (hsteps m hm) with ⟨-, hpay, i, op, -, hpaid⟩ | ⟨hno, -⟩
    · exact ⟨hpay, hpaid.changes⟩
    · rw [heff] at hno
      cases hno
  · intro m hm heff
    rcases m.payment_cases sha256 (hsteps m hm) with ⟨hyes, -⟩ | ⟨-, hsame, hstate⟩
    · rw [heff] at hyes
      cases hyes
    · exact ⟨hsame, hstate⟩

/-- Two listings of one seller at one price. -/
def twoListings : SmState :=
  { activationHeight := 0
    names := [{ name := [97], st := .LISTED, price := 1000, offerExpiry := 90000 },
      { name := [98], st := .LISTED, price := 1000, offerExpiry := 90000 }] }

/-- Both are reserved, and one leg is paid. -/
def reserveBoth : SmTx where
  txindex := 0
  inputs := [⟨sampleActor, 0, true⟩]
  carriers := [⟨.ACTION, { op := 0x08, name := [97] }, 5, 0⟩,
    ⟨.ACTION, { op := 0x08, name := [98] }, 5, 1⟩]
  outs := [⟨zeros 20, 0, 5, 2⟩]

theorem smApplyTx_payments_sample :
    (reserveBoth.carriers.foldl (applyCarrier sampleSha256 reserveBoth)
        (twoListings, initCtx twoListings reserveBoth)).2.outConsumed.count true = 1 ∧
      (depositLeg 1000 reserveBurnBps).toNat + (depositLeg 1000 reservePayBps).toNat
        + (1000 - depositLeg 1000 reserveBurnBps - depositLeg 1000 reservePayBps : UInt64).toNat
        = 1000 := by
  obtain ⟨-, hcount, -, -, -, hlegs⟩ := smApplyTx_payments sampleSha256 twoListings reserveBoth
  exact ⟨hcount.trans (by decide +kernel),
    (hlegs { name := [97], price := 1000 } (by decide)).1.trans (by decide)⟩

end NamespaceIndexer
