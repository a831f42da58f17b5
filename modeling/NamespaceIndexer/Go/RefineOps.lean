import NamespaceIndexer.Go.Refine

/-!
# The actions of the Go port on owned sets

RENEW, TRANSFER, RELEASE and their by-name forms keep the ledger that the port shows.
-/

namespace NamespaceIndexer

open Fold Lib Daemon

namespace Ledger

/-- At most `k` names are held. -/
def Within (L : Ledger) (k : ℕ) : Prop :=
  ∃ ks : List Name, ks.length ≤ k ∧ ∀ n d, L.names n = some d → n ∈ ks

theorem Within.length_le {L : Ledger} {k : ℕ} (h : L.Within k) {sel : List Name} (hn : sel.Nodup)
    (hsel : ∀ n ∈ sel, ∃ d, L.names n = some d) : sel.length ≤ k := by
  obtain ⟨ks, hlen, hall⟩ := h
  have hsub : sel ⊆ ks := by
    intro n hmem
    obtain ⟨d, hd⟩ := hsel n hmem
    exact hall n d hd
  exact (hn.subperm hsub).length_le.trans hlen

end Ledger

namespace Go

/-! ### The loop over the selected names -/

section Loop

variable {act : Dict Name NameRow → Name → NameRow → Dict Name NameRow}
  {g : NameRow → Option NameRow}
  (hact : ∀ m name r, (act m name r).get = Function.update m.get name (g r))

include hact

theorem unlockedStep_get (m : Dict Name NameRow × Bool) (name : Name) :
    (unlockedStep act m name).1.get = Function.update m.1.get name
        ((m.1.get name).bind fun r => if r.st ≠ .OWNED then some r else g r) ∧
      ((unlockedStep act m name).2 = true ↔
        m.2 = true ∨ ∃ r, m.1.get name = some r ∧ r.st = .OWNED) := by
  unfold unlockedStep
  cases hr : m.1.get name with
  | none =>
    have hsame : Function.update m.1.get name none = m.1.get := by rw [← hr, Function.update_eq_self]
    exact ⟨hsame.symm, by simp⟩
  | some r =>
    dsimp only
    rw [Option.bind_some]
    by_cases hst : r.st ≠ .OWNED
    · have hsame : Function.update m.1.get name (some r) = m.1.get := by
        rw [← hr, Function.update_eq_self]
      rw [if_pos hst, if_pos hst, hsame]
      exact ⟨rfl, by simp [hst]⟩
    · rw [if_neg hst, if_neg hst]
      rw [not_not] at hst
      exact ⟨hact m.1 name r, by simp [hst]⟩

/-- The loop leaves locked rows, and does its action to the others. -/
theorem forUnlocked_get (names : Dict Name NameRow) {sel : List Name} (hn : sel.Nodup) :
    (∀ n, (forUnlocked act names sel).1.get n = if n ∈ sel then
        (names.get n).bind fun r => if r.st ≠ .OWNED then some r else g r
        else names.get n) ∧
      ((forUnlocked act names sel).2 = true ↔
        ∃ n ∈ sel, ∃ r, names.get n = some r ∧ r.st = .OWNED) := by
  have hfold : ∀ (sel : List Name) (m : Dict Name NameRow × Bool), sel.Nodup →
      (∀ n, (sel.foldl (unlockedStep act) m).1.get n = if n ∈ sel then
          (m.1.get n).bind fun r => if r.st ≠ .OWNED then some r else g r
          else m.1.get n) ∧
      ((sel.foldl (unlockedStep act) m).2 = true ↔
        m.2 = true ∨ ∃ n ∈ sel, ∃ r, m.1.get n = some r ∧ r.st = .OWNED) := by
    intro sel
    induction sel with
    | nil => exact fun m _ => ⟨fun n => rfl, by simp⟩
    | cons k sel ih =>
      intro m hn
      obtain ⟨hk, hn⟩ := List.nodup_cons.mp hn
      obtain ⟨hget, hmoved⟩ := unlockedStep_get hact m k
      have hother : ∀ n ∈ sel, (unlockedStep act m k).1.get n = m.1.get n := by
        intro n hmem
        have hne : n ≠ k := by
          rintro rfl
          exact hk hmem
        rw [hget, Function.update_of_ne hne]
      obtain ⟨ihget, ihmoved⟩ := ih (unlockedStep act m k) hn
      rw [List.foldl_cons]
      constructor
      · intro n
        rw [ihget]
        by_cases hsel : n ∈ sel
        · rw [if_pos hsel, if_pos (List.mem_cons_of_mem _ hsel), hother n hsel]
        · rw [if_neg hsel, hget, Function.update_apply]
          by_cases hnk : n = k
          · subst hnk
            rw [if_pos rfl, if_pos List.mem_cons_self]
          · rw [if_neg hnk, if_neg (by simp [hnk, hsel])]
      · rw [ihmoved, hmoved, List.exists_mem_cons_iff, or_assoc]
        refine or_congr_right (or_congr_right ?_)
        exact exists_congr fun n => and_congr_right fun hmem => by rw [hother n hmem]
  obtain ⟨hget, hmoved⟩ := hfold sel (names, false) hn
  refine ⟨hget, hmoved.trans ?_⟩
  simp

end Loop

/-! ### Bitmap actions -/

namespace Tracks

variable {s : FoldState} {L : Ledger} {b : FoldBlock} {actor : Identity} {fc : FoldCarrier}
  {cx : SmTxCtx} {a : SmAction} {k : ℕ}

theorem fillLeases (t : Tracks s L) (hrate : 1 ≤ b.rate.toNat ∧ b.rate.toNat ≤ 100000000)
    (value : UInt64) {sel : List Name} (hn : sel.Nodup)
    (hsel : ∀ n ∈ sel, ∃ d, L.names n = some d) (hlen : 365 * sel.length < 2 ^ 64) :
    Tracks (fillLeases s b value sel) (L.extend b.mtp b.rate value sel) := by
  have hgate := @leaseT_none value b.rate hrate.1 hrate.2
  change Tracks (if (!(leaseT value b.rate).2 && (leaseT value b.rate).1 == 0) = true then s
    else { s with names := (Go.waterFill s.names sel (leaseT value b.rate).1
      (leaseT value b.rate).2 b.mtp) }) _
  by_cases hT : rawT value b.rate = 0
  · rw [if_pos (hgate.mpr hT), L.extend_zero b.mtp hT]
    exact t
  · rw [if_neg fun hc => hT (hgate.mp hc)]
    exact t.waterFill hrate b.mtp hn hsel hlen

/-- What the flags of an action select. -/
theorem selectBitmap_eq (owned : List Name) (flags : Bytes) :
    selectBitmap owned (if flags = [] then none else some flags)
      = if flags.length == 0 then owned else Fold.selectBitmap flags owned := by
  cases flags with
  | nil => rfl
  | cons x flags => rfl

theorem applyRenew (t : Tracks s L) (hs : ∀ n d, L.names n = some d → d.Sound L.mtp)
    (hk : L.Within k) (hcap : 365 * k < 2 ^ 64)
    (hrate : 1 ≤ b.rate.toNat ∧ b.rate.toNat ≤ 100000000) (h : Acts b actor fc.value cx)
    (hanchor : a.anchor.toNat < 2 ^ 40) (hall : a.hasAnchor = false → a.flags = []) :
    Tracks (applyRenew s b fc (carrierOf .RENEW a) actor) (L.renew cx a) := by
  have hextend : ∀ sel : List Name, sel.Nodup → (∀ n ∈ sel, n ∈ L.ownedList actor.h160) →
      Tracks (if sel.length = 0 then s else Go.fillLeases s b fc.value sel)
        (L.extend b.mtp b.rate fc.value sel) := by
    intro sel hn hsel
    have hheld : ∀ n ∈ sel, ∃ d, L.names n = some d := by
      intro n hmem
      obtain ⟨d, hd, -⟩ := Ledger.mem_ownedList (hsel n hmem)
      exact ⟨d, hd⟩
    have hle := hk.length_le hn hheld
    by_cases hnil : sel.length = 0
    · rw [if_pos hnil, List.length_eq_zero_iff.mp hnil]
      exact t
    · rw [if_neg hnil]
      exact t.fillLeases hrate _ hn hheld (by omega)
  have hnodup : (L.ownedList actor.h160).Nodup := PartialMap.listing_nodup _
  have hwhole := hextend _ hnodup fun n hn => hn
  have hpart := hextend (Fold.selectBitmap a.flags (L.ownedList actor.h160))
    (Ledger.selectBitmap_nodup hnodup) fun n hn => Ledger.selectBitmap_mem hn
  unfold Go.applyRenew Ledger.renew
  simp only [h.height, h.mtp, h.rate, h.who, h.burn, t.ownedSorted hs]
  change Tracks (if (a.hasAnchor && !s.anchorOK actor.h160
      (if a.hasAnchor then (a.anchor.toNat : ℤ) else -1) b.height) = true then s
    else if (selectBitmap (L.ownedList actor.h160)
        (if a.flags = [] then none else some a.flags)).length = 0 then s
      else Go.fillLeases s b fc.value (selectBitmap (L.ownedList actor.h160)
        (if a.flags = [] then none else some a.flags))) _
  rw [t.guard hanchor, selectBitmap_eq]
  cases hkind : a.hasAnchor with
  | false =>
    rw [hall hkind]
    exact hwhole
  | true =>
    cases L.anchorOk actor.h160 a.anchor b.height with
    | false => exact t
    | true =>
      cases hflags : a.flags.length == 0 with
      | true =>
        simpa [hflags] using hwhole
      | false =>
        simpa [hflags] using hpart

theorem someUnlocked_iff (t : Tracks s L) (sel : List Name) :
    (∃ n ∈ sel, ∃ r, s.names.get n = some r ∧ r.st = .OWNED) ↔ L.SomeUnlocked sel := by
  refine exists_congr fun n => and_congr_right fun _ => ?_
  rw [t.get]
  constructor
  · rintro ⟨r, hr, hst⟩
    obtain ⟨d, hd, rfl⟩ := Option.map_eq_some_iff.mp hr
    exact ⟨d, hd, hst⟩
  · rintro ⟨d, hd, hst⟩
    exact ⟨bareRow d, by rw [hd]; rfl, hst⟩

theorem give (t : Tracks s L) (addr : H160) {sel : List Name} (hn : sel.Nodup) :
    Tracks { s with names := (forUnlocked (fun names name r =>
        names.insert name { r with owner := addr }) s.names sel).1 } (L.giveAll addr sel) ∧
      ((forUnlocked (fun names name r => names.insert name { r with owner := addr })
        s.names sel).2 = true ↔ L.SomeUnlocked sel) := by
  obtain ⟨hget, hmoved⟩ := forUnlocked_get (g := fun r => some { r with owner := addr })
    (fun m name r => Dict.get_insert m name { r with owner := addr }) s.names hn
  refine ⟨t.setNames (funext fun n => ?_), hmoved.trans (t.someUnlocked_iff sel)⟩
  rw [hget, t.get]
  split
  · cases L.names n with
    | none => rfl
    | some d =>
      change (if d.st ≠ .OWNED then some (bareRow d) else _) = some (bareRow (d.give addr))
      unfold Deed.give
      by_cases hst : d.st = .OWNED
      · rw [if_neg (not_not.mpr hst), if_pos hst]
      · rw [if_pos hst, if_neg hst]
  · rfl

theorem drop (t : Tracks s L) {sel : List Name} (hn : sel.Nodup) :
    Tracks { s with names := (forUnlocked (fun names name _ => names.erase name) s.names sel).1 }
        (L.drop sel) ∧
      ((forUnlocked (fun names name _ => names.erase name) s.names sel).2 = true ↔
        L.SomeUnlocked sel) := by
  obtain ⟨hget, hmoved⟩ := forUnlocked_get (g := fun _ => none)
    (fun m name (_ : NameRow) => Dict.get_erase m name) s.names hn
  refine ⟨t.setNames (funext fun n => ?_), hmoved.trans (t.someUnlocked_iff sel)⟩
  rw [hget, t.get]
  split
  · cases L.names n with
    | none => rfl
    | some d =>
      change (if d.st ≠ .OWNED then some (bareRow d) else none)
        = ((some d).filter fun d => d.st ≠ .OWNED).map bareRow
      by_cases hst : d.st = .OWNED
      · simp [hst]
      · simp [hst]
  · rfl

theorem applyTransfer (t : Tracks s L) (hs : ∀ n d, L.names n = some d → d.Sound L.mtp)
    (h : Acts b actor fc.value cx) (hanchor : a.anchor.toNat < 2 ^ 40)
    (hall : a.hasAnchor = true ↔ 1 ≤ a.flags.length) :
    Tracks (applyTransfer s b (carrierOf .TRANSFER a) actor) (L.transfer cx a) := by
  have hsel : selectBitmap (L.ownedList actor.h160) (if a.flags = [] then none else some a.flags)
      = if (!a.hasAnchor) = true then L.ownedList actor.h160
        else Fold.selectBitmap a.flags (L.ownedList actor.h160) := by
    rw [selectBitmap_eq]
    refine if_congr ?_ rfl rfl
    rw [beq_iff_eq, Bool.not_eq_true', ← Bool.not_eq_true, hall]
    omega
  have hnodup : (L.ownedList actor.h160).Nodup := PartialMap.listing_nodup _
  have hn : (if (!a.hasAnchor) = true then L.ownedList actor.h160
      else Fold.selectBitmap a.flags (L.ownedList actor.h160)).Nodup := by
    split
    · exact hnodup
    · exact Ledger.selectBitmap_nodup hnodup
  unfold Go.applyTransfer Ledger.transfer
  rw [t.ownedSorted hs, h.height, h.who]
  change Tracks (if (a.hasAnchor && !s.anchorOK actor.h160
      (if a.hasAnchor then (a.anchor.toNat : ℤ) else -1) b.height) = true then s
    else
      let m := forUnlocked (fun names name r => names.insert name { r with owner := a.addr })
        s.names (selectBitmap (L.ownedList actor.h160) (if a.flags = [] then none else some a.flags))
      if m.2 = true then (({ s with names := m.1 } : FoldState).bumpMut actor.h160 b.height).bumpMut
        a.addr b.height
      else { s with names := m.1 }) _
  rw [t.guard hanchor, hsel]
  obtain ⟨hgive, hmoved⟩ := t.give a.addr hn
  refine related_ite_of Iff.rfl (fun _ => t) fun _ => ?_
  by_cases hsome : L.SomeUnlocked (if (!a.hasAnchor) = true then L.ownedList actor.h160
      else Fold.selectBitmap a.flags (L.ownedList actor.h160))
  · rw [if_pos hsome]
    dsimp only
    rw [if_pos (hmoved.mpr hsome)]
    exact (hgive.bumpMut _ _).bumpMut _ _
  · rw [if_neg hsome]
    dsimp only
    rw [if_neg fun hc => hsome (hmoved.mp hc)]
    rw [Ledger.giveAll_locked hsome] at hgive
    exact hgive

theorem applyRelease (t : Tracks s L) (hs : ∀ n d, L.names n = some d → d.Sound L.mtp)
    (h : Acts b actor fc.value cx) (hanchor : a.anchor.toNat < 2 ^ 40) (hkind : a.hasAnchor = true)
    (hflags : 1 ≤ a.flags.length) :
    Tracks (applyRelease s b (carrierOf .RELEASE a) actor) (L.release cx a) := by
  have hsel : selectBitmap (L.ownedList actor.h160) (if a.flags = [] then none else some a.flags)
      = Fold.selectBitmap a.flags (L.ownedList actor.h160) := by
    rw [selectBitmap_eq, if_neg]
    rw [beq_iff_eq]
    omega
  have hn : (Fold.selectBitmap a.flags (L.ownedList actor.h160)).Nodup :=
    Ledger.selectBitmap_nodup (PartialMap.listing_nodup _)
  unfold Go.applyRelease Ledger.release
  rw [t.ownedSorted hs, h.height, h.who]
  change Tracks (if (!s.anchorOK actor.h160
      (if a.hasAnchor then (a.anchor.toNat : ℤ) else -1) b.height) = true then s
    else
      let m := forUnlocked (fun names name _ => names.erase name)
        s.names (selectBitmap (L.ownedList actor.h160) (if a.flags = [] then none else some a.flags))
      if m.2 = true then ({ s with names := m.1 } : FoldState).bumpMut actor.h160 b.height
      else { s with names := m.1 }) _
  rw [if_pos hkind, t.anchorOK hanchor, hsel, if_neg (show ¬ (!a.hasAnchor) = true by simp [hkind])]
  obtain ⟨hdrop, hmoved⟩ := t.drop hn
  refine related_ite_of Iff.rfl (fun _ => t) fun _ => ?_
  by_cases hsome : L.SomeUnlocked (Fold.selectBitmap a.flags (L.ownedList actor.h160))
  · rw [if_pos hsome]
    dsimp only
    rw [if_pos (hmoved.mpr hsome)]
    exact hdrop.bumpMut _ _
  · rw [if_neg hsome]
    dsimp only
    rw [if_neg fun hc => hsome (hmoved.mp hc)]
    rw [Ledger.drop_locked hsome] at hdrop
    exact hdrop

/-! ### By-name forms -/

/-- The row that an action spells out is the deed that it spells out. -/
theorem findMine (t : Tracks s L) (hs : ∀ n d, L.names n = some d → d.Sound L.mtp) {c : Carrier}
    (hname : c.name = a.name) (hvalid : smNameValid a.name = true) :
    s.findMine c actor = (L.mine actor.h160 a).map bareRow := by
  have hlen := smNameValid_length hvalid
  unfold FoldState.findMine Ledger.mine
  rw [hname, t.get, if_neg (by omega)]
  cases hd : L.names a.name with
  | none => rfl
  | some d =>
    have hholder := (hs _ d hd).holder_eq
    change (if d.owner ≠ actor.h160 then none else some (bareRow d))
      = ((some d).filter fun d => d.holder = actor.h160).map bareRow
    by_cases ho : d.owner = actor.h160
    · simp [hholder, ho]
    · simp [hholder, ho]

theorem applyRenewName (t : Tracks s L) (hs : ∀ n d, L.names n = some d → d.Sound L.mtp)
    (hrate : 1 ≤ b.rate.toNat ∧ b.rate.toNat ≤ 100000000) (h : Acts b actor fc.value cx)
    (hvalid : smNameValid a.name = true) :
    Tracks (applyRenewName s b fc (carrierOf .RENEW_NAME a) actor) (L.renewName cx a) := by
  unfold Go.applyRenewName Ledger.renewName
  rw [t.findMine hs rfl hvalid, h.who]
  cases hm : L.mine actor.h160 a with
  | none => exact t
  | some d =>
    obtain ⟨hd, -⟩ := Ledger.mine_eq_some hm
    simp only [h.mtp, h.rate, h.burn]
    refine t.fillLeases hrate fc.value (List.nodup_singleton _) (fun n hn => ?_) ?_
    · rw [List.mem_singleton.mp hn]
      exact ⟨d, hd⟩
    · rw [List.length_singleton]
      decide

theorem applyTransferName (t : Tracks s L) (hs : ∀ n d, L.names n = some d → d.Sound L.mtp)
    (h : Acts b actor fc.value cx) (hvalid : smNameValid a.name = true) :
    Tracks (applyTransferName s b (carrierOf .TRANSFER_NAME a) actor) (L.transferName cx a) := by
  unfold Go.applyTransferName Ledger.transferName
  rw [t.findMine hs rfl hvalid, h.who, h.height]
  cases L.mine actor.h160 a with
  | none => exact t
  | some d =>
    refine related_ite_of Iff.rfl (fun _ => t) fun _ => ?_
    exact ((t.setName a.name { d with owner := a.addr, ownerType := 0 }).bumpMut _ _).bumpMut _ _

theorem applyReleaseName (t : Tracks s L) (hs : ∀ n d, L.names n = some d → d.Sound L.mtp)
    (h : Acts b actor fc.value cx) (hvalid : smNameValid a.name = true) :
    Tracks (applyReleaseName s b (carrierOf .RELEASE_NAME a) actor) (L.releaseName cx a) := by
  unfold Go.applyReleaseName Ledger.releaseName
  rw [t.findMine hs rfl hvalid, h.who, h.height]
  cases L.mine actor.h160 a with
  | none => exact t
  | some d =>
    refine related_ite_of Iff.rfl (fun _ => t) fun _ => ?_
    exact (t.deleteName a.name).bumpMut _ _

end Tracks

end Go

end NamespaceIndexer
