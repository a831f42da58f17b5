import NamespaceIndexer.Ledger.Effects

/-!
# The structural invariant of the ledger

A deed is sound when its lease is live and capped, a plain name carries no
market data, a sale ends well before the lease, and a reserve inside the sale.
Every carrier and every block boundary keep all deeds sound.
-/

namespace NamespaceIndexer

open Fold Lib

/-- Branches under equivalent conditions are related where each is taken. -/
theorem related_ite_of {α β : Type*} {R : α → β → Prop} {p q : Prop} [Decidable p] [Decidable q]
    (hpq : p ↔ q) {x y : α} {x' y' : β} (h : p → R x x') (h' : ¬ p → R y y') :
    R (if p then x else y) (if q then x' else y') := by
  by_cases hp : p
  · rw [if_pos hp, if_pos (hpq.mp hp)]
    exact h hp
  · rw [if_neg hp, if_neg fun hq => hp (hpq.mpr hq)]
    exact h' hp

theorem related_ite {α : Type*} {R : α → α → Prop} {p q : Prop} [Decidable p] [Decidable q]
    (hpq : p ↔ q) {x x' y y' : α} (h : R x x') (h' : R y y') :
    R (if p then x else y) (if q then x' else y') :=
  related_ite_of hpq (fun _ => h) fun _ => h'

/-! ### Arithmetic of leases and deposit legs -/

theorem headroom_mul_le {now lease : ℤ} (h : lease ≤ now + maxLease) :
    lease + headroom now lease * billingUnit ≤ now + maxLease ∨ headroom now lease = 0 := by
  unfold headroom
  simp only
  set rem : ℤ := if lease - now < 0 then 0 else lease - now with hrem
  have hr0 : 0 ≤ rem := by
    rw [hrem]
    split <;> omega
  have hr1 : lease - now ≤ rem := by
    rw [hrem]
    split <;> omega
  have hr2 : rem ≤ maxLease := by
    rw [hrem]
    unfold maxLease at *
    split <;> omega
  have hnn : 0 ≤ maxLease - rem := by omega
  rw [Int.tdiv_eq_ediv_of_nonneg hnn]
  left
  unfold billingUnit maxLease at *
  push_cast
  have hdiv := Int.ediv_mul_le (31536000 - rem) (show (86400 : ℤ) ≠ 0 by decide)
  have hpos : 0 ≤ (31536000 - rem) / 86400 := by omega
  rw [if_neg (by omega), Int.toNat_of_nonneg hpos]
  omega

theorem headroom_self (now : ℤ) : headroom now now = 365 := by
  unfold headroom maxLease billingUnit
  simp

/-- Awarding days within the headroom keeps the lease within `now + MAX_LEASE`. -/
theorem award_le {now lease : ℤ} {k : ℕ} (h : lease ≤ now + maxLease) (hk : k ≤ headroom now lease) :
    lease + k * billingUnit ≤ now + maxLease := by
  unfold billingUnit
  rcases headroom_mul_le h with h' | h'
  · unfold billingUnit at h'
    push_cast at *
    omega
  · have hk0 : k = 0 := by omega
    rw [hk0]
    push_cast
    omega

/-- A burn covers a day when it buys one. -/
theorem covers_iff (burn rate : UInt64) : smLeaseCoversDay burn rate = true ↔ 1 ≤ rawT burn rate := by
  unfold smLeaseCoversDay rawT
  simp only [ge_iff_le, decide_eq_true_eq]
  set r := if rate = 0 then 1 else rate with hr
  have hpos : 0 < r.toNat * billingUnit := by
    have hr0 : r ≠ 0 := by
      rw [hr]
      split
      · decide
      · assumption
    have hn : 0 < r.toNat := by
      rcases Nat.eq_zero_or_pos r.toNat with h0 | hp
      · exact absurd (UInt64.toNat_inj.mp (h0.trans (by decide))) hr0
      · exact hp
    unfold billingUnit
    omega
  exact (Nat.one_le_div_iff hpos).symm

theorem rawT_pos {burn rate : UInt64} (h : smLeaseCoversDay burn rate = true) : 1 ≤ rawT burn rate :=
  (covers_iff burn rate).mp h

theorem depositLeg_toNat (price : UInt64) :
    (depositLeg price 50).toNat = max 1 (price.toNat * 50 / 10000) := by
  unfold depositLeg dustFloor
  have hlt := price.toNat_lt
  have hv : (UInt64.ofNat (price.toNat * 50 / 10000)).toNat = price.toNat * 50 / 10000 := by
    rw [UInt64.toNat_ofNat']
    exact Nat.mod_eq_of_lt (by omega)
  simp only [UInt64.lt_iff_toNat_lt, hv]
  have h1 : (1 : UInt64).toNat = 1 := by decide
  rw [h1]
  split
  · rw [h1]
    omega
  · rw [hv]
    omega

/-- Both deposit legs and the dust floor fit into every price a listing can have. -/
theorem legs_le_price {price : UInt64} (h : 3 ≤ price.toNat) :
    (depositLeg price 50).toNat + (depositLeg price 50).toNat + 1 ≤ price.toNat := by
  rw [depositLeg_toNat]
  omega

/-! ### Sound deeds -/

/-- What holds of a deed at time `mtp`. -/
structure Deed.Sound (mtp : ℤ) (d : Deed) : Prop where
  live : mtp < d.leaseExpiry
  capped : d.leaseExpiry ≤ mtp + maxLease
  owned : d.st = .OWNED → d = Deed.plain d.owner d.ownerType d.leaseExpiry
  seller : d.st ≠ .OWNED → d.seller = d.owner
  offer_open : d.st ≠ .OWNED → mtp < d.offerExpiry
  offer_lease : d.st ≠ .OWNED → d.offerExpiry + reorgBuffer ≤ d.leaseExpiry
  price : d.st = .LISTED ∨ d.st = .RESERVED → 3 ≤ d.price.toNat
  reserve_open : d.st = .RESERVED → mtp < d.reserveExpiry
  reserve_offer : d.st = .RESERVED → d.reserveExpiry ≤ d.offerExpiry
  legs : d.st = .RESERVED → d.burnLeg = depositLeg d.price 50 ∧ d.payLeg = depositLeg d.price 50

namespace Deed

theorem Sound.plain {mtp lease : ℤ} {owner : H160} {type : Byte} (h1 : mtp < lease)
    (h2 : lease ≤ mtp + maxLease) : (plain owner type lease).Sound mtp where
  live := h1
  capped := h2
  owned _ := rfl
  seller h := absurd rfl h
  offer_open h := absurd rfl h
  offer_lease h := absurd rfl h
  price h := by rcases h with h | h <;> cases h
  reserve_open h := by cases h
  reserve_offer h := by cases h
  legs h := by cases h

variable {mtp : ℤ} {d : Deed}

theorem Sound.holder_eq (h : d.Sound mtp) : d.holder = d.owner := by
  unfold holder
  split
  · rfl
  · rename_i hst
    exact h.seller hst

/-- What the reserver burned, paid and still owes is the price. -/
theorem Sound.legs_add (h : d.Sound mtp) (hst : d.st = .RESERVED) :
    d.burnLeg.toNat + d.payLeg.toNat + (Ledger.remainder d).toNat = d.price.toNat := by
  have hfit := legs_le_price (h.price (Or.inr hst))
  obtain ⟨hburn, hpay⟩ := h.legs hst
  have hrest : (d.price - d.burnLeg).toNat = d.price.toNat - d.burnLeg.toNat :=
    UInt64.toNat_sub_of_le _ _ (UInt64.le_iff_toNat_le.mpr (by rw [hburn]; omega))
  unfold Ledger.remainder
  rw [UInt64.toNat_sub_of_le _ _ (UInt64.le_iff_toNat_le.mpr (by rw [hrest, hburn, hpay]; omega)),
    hrest, hburn, hpay]
  omega

theorem Sound.conveyTo (h : d.Sound mtp) (who : H160) (type : Byte) :
    (d.conveyTo who type).Sound mtp :=
  Sound.plain h.live h.capped

theorem Sound.award (h : d.Sound mtp) {k : ℕ} (hk : k ≤ headroom mtp d.leaseExpiry) :
    (d.award k).Sound mtp := by
  have hcap := award_le h.capped hk
  have hgrow : d.leaseExpiry ≤ (d.award k).leaseExpiry := by
    unfold Deed.award billingUnit
    simp only
    omega
  exact {
    live := lt_of_lt_of_le h.live hgrow
    capped := hcap
    owned := fun hst => by
      have hd := h.owned hst
      rw [hd]
      rfl
    seller := h.seller
    offer_open := h.offer_open
    offer_lease := fun hst => le_trans (h.offer_lease hst) hgrow
    price := h.price
    reserve_open := h.reserve_open
    reserve_offer := h.reserve_offer
    legs := h.legs }

theorem Sound.setOwner (h : d.Sound mtp) (hst : d.st = .OWNED) (who : H160) (type : Byte) :
    ({ d with owner := who, ownerType := type } : Deed).Sound mtp := by
  have hd := h.owned hst
  have he : ({ d with owner := who, ownerType := type } : Deed)
      = Deed.plain who type d.leaseExpiry := by
    rw [hd]
    rfl
  rw [he]
  exact Sound.plain h.live h.capped

theorem Sound.give (h : d.Sound mtp) (addr : H160) : (d.give addr).Sound mtp := by
  unfold Deed.give
  split
  · rename_i hst
    exact h.setOwner hst addr 0
  · exact h

/-- What the passing of time does to a sound deed: nothing, a lapsed reserve back to its listing,
or a lapsed sale back to its owner. -/
theorem Sound.close_cases (h : d.Sound mtp) (now : ℤ) :
    (d.close now = d ∧ (d.st ≠ .OWNED → now < d.offerExpiry) ∧
        (d.st = .RESERVED → now < d.reserveExpiry)) ∨
      (d.st = .RESERVED ∧ now < d.offerExpiry ∧ d.close now = { d with
        st := .LISTED, reserveExpiry := 0, burnLeg := 0, payLeg := 0, buyer := zeros 20 }) ∨
      (d.st ≠ .OWNED ∧ d.offerExpiry ≤ now ∧ d.close now = Deed.plain d.owner d.sellerType d.leaseExpiry) := by
  unfold close closeReserve
  by_cases hr : d.st = .RESERVED ∧ now ≥ d.reserveExpiry
  · have hne : d.st ≠ .OWNED := by simp [hr.1]
    have hseller := h.seller hne
    have hle := h.reserve_offer hr.1
    rw [if_pos hr]
    by_cases ho : d.reserveExpiry < d.offerExpiry
    · rw [if_pos ho]
      unfold closeOffer
      by_cases hn : now ≥ d.offerExpiry
      · rw [if_pos ⟨Or.inl rfl, hn⟩]
        refine Or.inr (Or.inr ⟨hne, hn, ?_⟩)
        unfold Deed.conveyTo
        rw [← hseller]
      · rw [if_neg (fun hx => hn hx.2)]
        exact Or.inr (Or.inl ⟨hr.1, by omega, rfl⟩)
    · rw [if_neg ho]
      have hback : closeOffer now (d.conveyTo d.seller d.sellerType)
          = d.conveyTo d.seller d.sellerType := by
        unfold closeOffer
        rw [if_neg]
        rintro ⟨hx | hx, -⟩ <;> cases hx
      refine Or.inr (Or.inr ⟨hne, by omega, ?_⟩)
      rw [hback, hseller]
      rfl
  · rw [if_neg hr]
    unfold closeOffer
    by_cases ho : (d.st = .LISTED ∨ d.st = .OFFERED) ∧ now ≥ d.offerExpiry
    · have hne : d.st ≠ .OWNED := by
        rcases ho.1 with hx | hx <;> simp [hx]
      rw [if_pos ho]
      refine Or.inr (Or.inr ⟨hne, ho.2, ?_⟩)
      rw [h.seller hne]
      rfl
    · rw [if_neg ho]
      refine Or.inl ⟨rfl, fun hne => ?_, fun hst => ?_⟩
      · by_contra hn
        have hn' : now ≥ d.offerExpiry := by omega
        cases hst : d.st with
        | OWNED => exact hne hst
        | LISTED => exact ho ⟨Or.inl hst, hn'⟩
        | OFFERED => exact ho ⟨Or.inr hst, hn'⟩
        | RESERVED =>
          have hle := h.reserve_offer hst
          exact hr ⟨hst, by omega⟩
      · by_contra hn
        exact hr ⟨hst, by omega⟩

/-- A reserve that ended, back to the open listing. -/
def revert (now : ℤ) (d : Deed) : Deed :=
  if d.st = .RESERVED ∧ now ≥ d.reserveExpiry then
    { d with st := .LISTED, buyer := zeros 20, burnLeg := 0, payLeg := 0, reserveExpiry := 0 }
  else d

/-- A sale that ended, off the market. -/
def expire (now : ℤ) (d : Deed) : Deed :=
  if (d.st = .LISTED ∨ d.st = .OFFERED) ∧ now ≥ d.offerExpiry then
    plain d.owner d.sellerType d.leaseExpiry
  else d

/-- A sound deed can be closed reserve first and offer next, and stays with its owner. -/
theorem Sound.close_eq (h : d.Sound mtp) (now : ℤ) : d.close now = (d.revert now).expire now := by
  unfold close closeReserve revert
  by_cases hr : d.st = .RESERVED ∧ now ≥ d.reserveExpiry
  · have hseller := h.seller (by simp [hr.1])
    have hle := h.reserve_offer hr.1
    have hlate := hr.2
    rw [if_pos hr, if_pos hr]
    unfold closeOffer expire
    by_cases ho : d.reserveExpiry < d.offerExpiry
    · rw [if_pos ho]
      refine related_ite Iff.rfl ?_ rfl
      rw [← hseller]
      rfl
    · have hn : now ≥ d.offerExpiry := by omega
      rw [if_neg ho, if_pos (show _ ∧ _ from ⟨Or.inl rfl, hn⟩), if_neg, ← hseller]
      · rfl
      · rintro ⟨hst | hst, -⟩ <;> cases hst
  · rw [if_neg hr, if_neg hr]
    unfold closeOffer expire
    refine related_ite_of Iff.rfl (fun ho => ?_) fun _ => rfl
    have hne : d.st ≠ .OWNED := by
      rcases ho.1 with hst | hst <;> simp [hst]
    rw [h.seller hne]
    rfl

theorem Sound.close_owner (h : d.Sound mtp) (now : ℤ) : (d.close now).owner = d.owner := by
  rcases h.close_cases now with ⟨he, -⟩ | ⟨-, -, he⟩ | ⟨-, -, he⟩ <;> rw [he]
  rfl

theorem Sound.close_leaseExpiry (h : d.Sound mtp) (now : ℤ) :
    (d.close now).leaseExpiry = d.leaseExpiry := by
  rcases h.close_cases now with ⟨he, -⟩ | ⟨-, -, he⟩ | ⟨-, -, he⟩ <;> rw [he]
  rfl

theorem close_eq_self {now : ℤ} (hreserve : d.st = .RESERVED → now < d.reserveExpiry)
    (hoffer : d.st = .LISTED ∨ d.st = .OFFERED → now < d.offerExpiry) : d.close now = d := by
  have hkeep : d.closeReserve now = d := if_neg fun hx => absurd hx.2 (not_le.mpr (hreserve hx.1))
  unfold close
  rw [hkeep]
  exact if_neg fun hx => absurd hx.2 (not_le.mpr (hoffer hx.1))

theorem Sound.close_close (h : d.Sound mtp) (now : ℤ) : (d.close now).close now = d.close now := by
  rcases h.close_cases now with ⟨he, -⟩ | ⟨-, ho, he⟩ | ⟨-, -, he⟩
  · rw [he, he]
  · rw [he]
    exact close_eq_self (fun hst => by cases hst) fun _ => ho
  · rw [he]
    exact close_eq_self (fun hst => by cases hst) fun hst => by rcases hst with hst | hst <;> cases hst

theorem Sound.close_holder (h : d.Sound mtp) (now : ℤ) : (d.close now).holder = d.holder := by
  rcases h.close_cases now with ⟨he, -⟩ | ⟨hst, -, he⟩ | ⟨-, -, he⟩
  · rw [he]
  · rw [he]
    unfold holder
    rw [if_neg (by simp), if_neg (by simp [hst])]
  · rw [he, h.holder_eq]
    rfl

/-- A sale never outlives the lease: a deed that lapses is plain when it does. -/
theorem Sound.close_lapsed (h : d.Sound mtp) {now : ℤ} (hl : now ≥ d.leaseExpiry) :
    (d.close now).st = .OWNED := by
  have hb : reorgBuffer = 7200 := rfl
  rcases h.close_cases now with ⟨he, ho, -⟩ | ⟨hst, ho, -⟩ | ⟨-, -, he⟩
  · rw [he]
    by_contra hne
    have h1 := ho hne
    have h2 := h.offer_lease hne
    omega
  · have h2 := h.offer_lease (by simp [hst])
    omega
  · rw [he]
    rfl

/-- The deeds that remain at a later time are sound then. -/
theorem Sound.due (h : d.Sound mtp) {now : ℤ} (hm : mtp ≤ now) {d' : Deed}
    (hd : d.due now = some d') : d'.Sound now := by
  unfold Deed.due at hd
  split at hd
  · cases hd
  · rename_i hl
    rw [← Option.some.inj hd]
    have hcap := h.capped
    rcases h.close_cases now with ⟨he, ho, hr⟩ | ⟨hst, ho, he⟩ | ⟨-, -, he⟩
    · rw [he]
      exact { h with live := by omega, capped := by omega, offer_open := ho, reserve_open := hr }
    · have hne : d.st ≠ .OWNED := by simp [hst]
      rw [he]
      exact {
        live := by simp only; omega
        capped := by simp only; omega
        owned := fun hx => by cases hx
        seller := fun _ => h.seller hne
        offer_open := fun _ => ho
        offer_lease := fun _ => h.offer_lease hne
        price := fun _ => h.price (Or.inr hst)
        reserve_open := fun hx => by cases hx
        reserve_offer := fun hx => by cases hx
        legs := fun hx => by cases hx }
    · rw [he]
      exact Sound.plain (by omega) (by omega)

theorem Sound.list (h : d.Sound mtp) {who : H160} {type : Byte} {price : UInt64} {offer : ℤ}
    (hwho : d.owner = who) (hprice : 3 ≤ price.toNat) (hopen : mtp < offer)
    (hlease : offer + reorgBuffer ≤ d.leaseExpiry) :
    ({ d with
      st := .LISTED, seller := who, sellerType := type, price, offerExpiry := offer,
      buyer := zeros 20, burnLeg := 0, payLeg := 0, reserveExpiry := 0 } : Deed).Sound mtp where
  live := h.live
  capped := h.capped
  owned hx := by cases hx
  seller _ := hwho.symm
  offer_open _ := hopen
  offer_lease _ := hlease
  price _ := hprice
  reserve_open hx := by cases hx
  reserve_offer hx := by cases hx
  legs hx := by cases hx

theorem Sound.offer (h : d.Sound mtp) {who buyer : H160} {type : Byte} {price : UInt64} {offer : ℤ}
    (hwho : d.owner = who) (hopen : mtp < offer) (hlease : offer + reorgBuffer ≤ d.leaseExpiry) :
    ({ d with
      st := .OFFERED, seller := who, sellerType := type, buyer, price, offerExpiry := offer,
      burnLeg := 0, payLeg := 0, reserveExpiry := 0 } : Deed).Sound mtp where
  live := h.live
  capped := h.capped
  owned hx := by cases hx
  seller _ := hwho.symm
  offer_open _ := hopen
  offer_lease _ := hlease
  price hx := by rcases hx with hx | hx <;> cases hx
  reserve_open hx := by cases hx
  reserve_offer hx := by cases hx
  legs hx := by cases hx

theorem Sound.reserve (h : d.Sound mtp) (hst : d.st = .LISTED) (buyer : H160) {window : ℤ}
    (hw : 0 < window) :
    ({ d with
      st := .RESERVED, buyer, burnLeg := depositLeg d.price reserveBurnBps,
      payLeg := depositLeg d.price reservePayBps,
      reserveExpiry := min (mtp + window) d.offerExpiry } : Deed).Sound mtp := by
  have hne : d.st ≠ .OWNED := by simp [hst]
  have ho := h.offer_open hne
  exact {
    live := h.live
    capped := h.capped
    owned := fun hx => by cases hx
    seller := fun _ => h.seller hne
    offer_open := fun _ => ho
    offer_lease := fun _ => h.offer_lease hne
    price := fun _ => h.price (Or.inl hst)
    reserve_open := fun _ => lt_min (by omega) ho
    reserve_offer := fun _ => min_le_right _ _
    legs := fun _ => ⟨rfl, rfl⟩ }

end Deed

/-! ### What the water-fill does to deeds -/

namespace Ledger

/-- A water-fill awards to each name at most its headroom, and to other names nothing. -/
theorem extend_names (L : Ledger) (now : ℤ) (rate burn : UInt64) (ns : List Name) (n : Name) :
    (L.extend now rate burn ns).names n = L.names n ∨
      n ∈ ns ∧ ∃ k ≤ L.headroomOf now n,
        (L.extend now rate burn ns).names n = (L.names n).map fun d => d.award k :=
  PartialMap.modifyAll_zip _ _ (WaterFill.fill_le _ _) n

theorem extend_one (L : Ledger) (now : ℤ) (rate burn : UInt64) (n : Name) :
    (L.extend now rate burn [n]).names
      = PartialMap.modify L.names n fun d => d.award (min (L.headroomOf now n) (rawT burn rate)) := by
  change PartialMap.modifyAll ([n].zip (WaterFill.fill ([n].map (L.headroomOf now))
    (rawT burn rate))) (fun k d => d.award k) L.names = _
  rw [List.map_singleton, WaterFill.fill_singleton]
  exact PartialMap.modifyAll_singleton _ _ _ _

theorem award_zero (d : Deed) : d.award 0 = d := by
  unfold Deed.award
  simp

/-- A burn that buys no day extends nothing. -/
theorem extend_zero (L : Ledger) (now : ℤ) {rate burn : UInt64} (h : rawT burn rate = 0)
    (ns : List Name) : L.extend now rate burn ns = L := by
  unfold extend
  rw [h, WaterFill.fill_zero]
  refine congrArg L.withNames (funext fun n => ?_)
  have hle : List.Forall₂ (· ≤ ·) ((ns.map (L.headroomOf now)).map fun _ => 0)
      (ns.map fun _ => 0) := by
    rw [List.map_map, List.forall₂_map_left_iff, List.forall₂_map_right_iff, List.forall₂_same]
    exact fun _ _ => le_rfl
  rcases PartialMap.modifyAll_zip (fun k (d : Deed) => d.award k) L.names hle n with
    he | ⟨-, k, hk, he⟩
  · exact he
  · have hzero : k = 0 := Nat.le_zero.mp hk
    rw [he, hzero, funext award_zero]
    exact Option.map_id'

/-- The deed that a mint writes. -/
def minted (cx : SmTxCtx) (d : Deed) : Deed :=
  ({ d with owner := cx.actor, ownerType := cx.actorType, leaseExpiry := cx.mtp } : Deed).award
    (min 365 (rawT cx.carValue cx.rate))

theorem mint_names (L : Ledger) (cx : SmTxCtx) (n : Name) (p : ℤ × UInt32) (d : Deed) :
    (L.mint cx n p d).names = Function.update L.names n (some (minted cx d)) := by
  unfold mint
  simp only [setWin_names, bump_names]
  rw [extend_one, put_names]
  funext m
  rw [PartialMap.modify_apply, Function.update_apply]
  by_cases hm : m = n
  · subst hm
    rw [if_pos rfl, if_pos rfl]
    unfold headroomOf minted
    simp [headroom_self]
  · rw [if_neg hm, if_neg hm, Function.update_of_ne hm]

theorem mint_eq (L : Ledger) (cx : SmTxCtx) (n : Name) (p : ℤ × UInt32) (d : Deed) :
    L.mint cx n p d = ((L.put n (minted cx d)).setWin n ⟨p.1, p.2, cx.actor⟩).bump cx.actor cx.height :=
  Ledger.ext rfl rfl rfl rfl (L.mint_names cx n p d) rfl rfl rfl

theorem minted_sound {cx : SmTxCtx} {d : Deed} (hd : d = Deed.plain d.owner d.ownerType d.leaseExpiry)
    (hday : smLeaseCoversDay cx.carValue cx.rate = true) : (minted cx d).Sound cx.mtp := by
  have hT := rawT_pos hday
  have he : minted cx d = Deed.plain cx.actor cx.actorType
      (cx.mtp + (min 365 (rawT cx.carValue cx.rate) : ℕ) * billingUnit) := by
    unfold minted
    rw [hd]
    rfl
  rw [he]
  unfold billingUnit
  exact Deed.Sound.plain (by omega) (by unfold maxLease; omega)

end Ledger

end NamespaceIndexer
