import NamespaceIndexer.Ts.Refine

/-!
# The actions of the TypeScript port on owned sets

RENEW, TRANSFER, RELEASE and their by-name forms keep the ledger that the port shows.
-/

namespace NamespaceIndexer

open Fold Lib Daemon

namespace Ledger

theorem giveAll_cons (L : Ledger) (addr : H160) {n : Name} {sel : List Name} (hn : n ∉ sel) :
    L.giveAll addr (n :: sel) = (L.giveAll addr [n]).giveAll addr sel := by
  refine congrArg L.withNames (funext fun m => ?_)
  by_cases hm : m ∈ sel
  · have hne : m ∉ [n] := fun h => hn (List.mem_singleton.mp h ▸ hm)
    rw [if_pos hm, if_pos (List.mem_cons_of_mem _ hm)]
    exact congrArg (Option.map _) (if_neg hne).symm
  · rw [if_neg hm]
    exact if_congr (by simp [hm]) rfl rfl

theorem drop_cons (L : Ledger) {n : Name} {sel : List Name} (hn : n ∉ sel) :
    L.drop (n :: sel) = (L.drop [n]).drop sel := by
  refine congrArg L.withNames (funext fun m => ?_)
  by_cases hm : m ∈ sel
  · have hne : m ∉ [n] := fun h => hn (List.mem_singleton.mp h ▸ hm)
    rw [if_pos hm, if_pos (List.mem_cons_of_mem _ hm)]
    exact congrArg (Option.filter _) (if_neg hne).symm
  · rw [if_neg hm]
    exact if_congr (by simp [hm]) rfl rfl

end Ledger

namespace Ts

/-- The port selects as the daemon does. -/
theorem bitmapSelect_eq (owned : List Name) (flags : Bytes) :
    bitmapSelect owned flags = Fold.selectBitmap flags owned := by
  have hbit : ∀ p : Name × ℕ, ((flags[p.2 / 8]?.map Fin.val).getD 0).testBit (p.2 % 8)
      = bitSet flags p.2 := by
    intro p
    unfold bitSet
    cases flags[p.2 / 8]? with
    | none => exact Nat.zero_testBit _
    | some b => rfl
  unfold bitmapSelect selectBitmap
  simp only [hbit]

namespace Tracks

variable {s : FoldState} {L : Ledger} {actor : Actor} {o : FoldCarrier} {cx : SmTxCtx}
  {a : SmAction}

/-! ### Leases -/

/-- The water-fill extends the leases as the ledger does. -/
theorem extend (t : Tracks s L) (hs : ∀ n d, L.names n = some d → d.Sound L.mtp)
    {rows : List Name} (hsorted : rows.Pairwise (· ≤ ·)) (hn : rows.Nodup)
    (hheld : ∀ n ∈ rows, ∃ d, L.names n = some d) (rate burn : UInt64) :
    Tracks (s.extend rows (rawT burn rate : ℕ)) (L.extend L.mtp rate burn rows) := by
  have hexpiry : ∀ n ∈ rows, ∃ d, L.names n = some d ∧ s.leaseExpiryOf n = d.leaseExpiry := by
    intro n hmem
    obtain ⟨d, hd⟩ := hheld n hmem
    refine ⟨d, hd, ?_⟩
    unfold FoldState.leaseExpiryOf
    rw [t.get, hd]
    rfl
  have hheads : (rows.map fun n => headroom s.curMTP (s.leaseExpiryOf n))
      = rows.map (L.headroomOf L.mtp) := by
    refine List.map_congr_left fun n hmem => ?_
    obtain ⟨d, hd, he⟩ := hexpiry n hmem
    unfold Ledger.headroomOf
    rw [he, hd, t.mtp]
  obtain ⟨names, he, hget⟩ := s.extend_names hsorted hn (fun n hmem => by
    obtain ⟨d, hd, he⟩ := hexpiry n hmem
    rw [he, t.mtp]
    exact (hs n d hd).live.le) (rawT burn rate)
  rw [he]
  refine t.setNames ?_ fun n => ?_
  · rw [hget, hheads, t.names]
    exact PartialMap.modifyAll_image (u := bareRow) (g := fun (k : ℕ) (d : Deed) => d.award k)
      (fun _ _ => rfl) _ _
  · rcases L.extend_names L.mtp rate burn rows n with hsame | ⟨-, k, -, hsame⟩
    · exact congrArg (Option.map Deed.owner) hsame
    · refine (congrArg (Option.map Deed.owner) hsame).trans ?_
      rw [Option.map_map]
      rfl

theorem fillLeases (t : Tracks s L) (hs : ∀ n d, L.names n = some d → d.Sound L.mtp)
    (hrate : L.rate ≠ 0) {rows : List Name} (hsorted : rows.Pairwise (· ≤ ·)) (hn : rows.Nodup)
    (hheld : ∀ n ∈ rows, ∃ d, L.names n = some d) {burn : UInt64} (hburn : o.value = burn.toNat) :
    Tracks (s.fillLeases rows o) (L.extend L.mtp L.rate burn rows) := by
  unfold FoldState.fillLeases
  dsimp only
  rw [hburn, leaseDaysTotal_eq t.rate hrate]
  by_cases hT : rawT burn L.rate = 0
  · rw [if_pos (by omega), L.extend_zero L.mtp hT]
    exact t
  · rw [if_neg (by omega)]
    exact t.extend hs hsorted hn hheld L.rate burn

theorem doRenew (t : Tracks s L) (hs : ∀ n d, L.names n = some d → d.Sound L.mtp)
    (hrate : L.rate ≠ 0) (h : Acts L actor o cx) (hanchor : a.anchor.toNat < 2 ^ 40)
    (hall : a.hasAnchor = false → a.flags = []) :
    Tracks (s.doRenew (modeOf a) a.anchor.toNat a.flags actor o) (L.renew cx a) := by
  have hextend : ∀ sel : List Name, sel.Sublist (L.ownedList actor.id) →
      Tracks (if sel.length = 0 then s else s.fillLeases sel o)
        (L.extend L.mtp L.rate cx.carValue sel) := by
    intro sel hsub
    by_cases hnil : sel.length = 0
    · rw [if_pos hnil, List.length_eq_zero_iff.mp hnil]
      exact t
    · rw [if_neg hnil]
      refine t.fillLeases hs hrate ((PartialMap.listing_ascending _).sublist hsub)
        ((PartialMap.listing_nodup _).sublist hsub) (fun n hmem => ?_) h.burn
      obtain ⟨d, hd, -⟩ := Ledger.mem_ownedList (hsub.subset hmem)
      exact ⟨d, hd⟩
  have hwhole := hextend _ (List.Sublist.refl _)
  have hpart := hextend _ (Ledger.selectBitmap_sublist a.flags (L.ownedList actor.id))
  unfold FoldState.doRenew Ledger.renew modeOf
  simp only [h.height, h.mtp, h.rate, h.who, t.ownedListSorted hs, t.anchorOk hanchor,
    bitmapSelect_eq]
  cases hkind : a.hasAnchor with
  | false =>
    rw [hall hkind]
    exact hwhole
  | true =>
    cases hok : L.anchorOk actor.id a.anchor L.height with
    | false =>
      by_cases hflags : a.flags = []
      · simpa [hflags] using t
      · simpa [hflags] using t
    | true =>
      by_cases hflags : a.flags = []
      · simpa [hflags] using hwhole
      · simpa [hflags] using hpart

/-! ### The loop over the selected names -/

section Loop

variable {act : FoldState → Name → FoldState} (put : List Name → Ledger → Ledger)
  (hact : ∀ {s L n d}, Tracks s L → L.names n = some d → d.st = .OWNED →
    Tracks (act s n) (put [n] L))
  (hlocked : ∀ {sel} {L : Ledger}, ¬ L.SomeUnlocked sel → put sel L = L)

include hact hlocked

theorem unlockedStep (t : Tracks s L) (b : Bool) (n : Name) :
    Tracks (FoldState.unlockedStep act (s, b) n).1 (put [n] L) ∧
      ((FoldState.unlockedStep act (s, b) n).2 = true ↔ b = true ∨ L.SomeUnlocked [n]) := by
  unfold FoldState.unlockedStep
  dsimp only
  rw [t.get]
  cases hd : L.names n with
  | none =>
    have hnone : ¬ L.SomeUnlocked [n] := by
      rintro ⟨m, hm, d, hd', -⟩
      rw [List.mem_singleton.mp hm, hd] at hd'
      cases hd'
    rw [hlocked hnone]
    exact ⟨t, (or_iff_left hnone).symm⟩
  | some d =>
    dsimp only [Option.map_some]
    by_cases hst : d.st = .OWNED
    · rw [if_neg (not_not.mpr hst)]
      exact ⟨hact t hd hst, iff_of_true rfl (Or.inr ⟨n, List.mem_singleton_self n, d, hd, hst⟩)⟩
    · have hnone : ¬ L.SomeUnlocked [n] := by
        rintro ⟨m, hm, e, he, hst'⟩
        rw [List.mem_singleton.mp hm, hd] at he
        exact hst (Option.some.inj he ▸ hst')
      rw [if_pos hst, hlocked hnone]
      exact ⟨t, (or_iff_left hnone).symm⟩

/-- The loop leaves locked rows, and does its action to the others. -/
theorem forUnlocked (hcons : ∀ {n sel} {L : Ledger}, n ∉ sel → put (n :: sel) L = put sel (put [n] L))
    (hother : ∀ {n m} {L : Ledger}, m ≠ n → (put [n] L).names m = L.names m) (t : Tracks s L)
    {sel : List Name} (hn : sel.Nodup) (b : Bool) :
    Tracks (sel.foldl (FoldState.unlockedStep act) (s, b)).1 (put sel L) ∧
      ((sel.foldl (FoldState.unlockedStep act) (s, b)).2 = true ↔ b = true ∨ L.SomeUnlocked sel) := by
  induction sel generalizing s L b with
  | nil =>
    have hnone : ¬ L.SomeUnlocked [] := by
      rintro ⟨m, hm, -⟩
      cases hm
    rw [hlocked hnone]
    exact ⟨t, (or_iff_left hnone).symm⟩
  | cons n sel ih =>
    obtain ⟨hfresh, hn⟩ := List.nodup_cons.mp hn
    obtain ⟨hstep, hflag⟩ := t.unlockedStep put hact hlocked b n
    obtain ⟨hrest, hflags⟩ := ih hstep hn (FoldState.unlockedStep act (s, b) n).2
    have hkept : (put [n] L).SomeUnlocked sel ↔ L.SomeUnlocked sel := by
      refine exists_congr fun m => and_congr_right fun hm => ?_
      have hne : m ≠ n := by
        rintro rfl
        exact hfresh hm
      rw [hother hne]
    have hsplit : L.SomeUnlocked (n :: sel) ↔ L.SomeUnlocked [n] ∨ L.SomeUnlocked sel := by
      unfold Ledger.SomeUnlocked
      rw [List.exists_mem_cons_iff]
      simp
    rw [List.foldl_cons, hcons hfresh]
    refine ⟨hrest, hflags.trans ?_⟩
    rw [hflag, hkept, hsplit, or_assoc]

end Loop

/-! ### Moves and releases -/

theorem give (t : Tracks s L) (addr : H160) {sel : List Name} (hn : sel.Nodup) :
    Tracks (sel.foldl (FoldState.unlockedStep fun s key => s.chown key addr) (s, false)).1
        (L.giveAll addr sel) ∧
      ((sel.foldl (FoldState.unlockedStep fun s key => s.chown key addr) (s, false)).2 = true ↔
        L.SomeUnlocked sel) := by
  have hloop := t.forUnlocked (fun sel L => L.giveAll addr sel)
    (fun t hd hst => by
      rw [Ledger.giveAll_singleton hd hst]
      exact t.chown hd addr 0)
    (fun hnone => Ledger.giveAll_locked hnone addr)
    (fun hfresh => Ledger.giveAll_cons _ addr hfresh)
    (fun hne => if_neg fun hm => hne (List.mem_singleton.mp hm)) hn false
  simpa using hloop

theorem drop (t : Tracks s L) {sel : List Name} (hn : sel.Nodup) :
    Tracks (sel.foldl (FoldState.unlockedStep fun s key => s.remove key) (s, false)).1 (L.drop sel) ∧
      ((sel.foldl (FoldState.unlockedStep fun s key => s.remove key) (s, false)).2 = true ↔
        L.SomeUnlocked sel) := by
  have hloop := t.forUnlocked (fun sel L => L.drop sel)
    (fun t hd hst => by
      rw [Ledger.drop_singleton hd hst]
      exact t.remove hd)
    Ledger.drop_locked (fun hfresh => Ledger.drop_cons _ hfresh)
    (fun hne => if_neg fun hm => hne (List.mem_singleton.mp hm)) hn false
  simpa using hloop

open Classical in
theorem doTransfer (t : Tracks s L) (hs : ∀ n d, L.names n = some d → d.Sound L.mtp)
    (h : Acts L actor o cx) (hanchor : a.anchor.toNat < 2 ^ 40) :
    Tracks (s.doTransfer (modeOf a) a.addr a.anchor.toNat a.flags actor) (L.transfer cx a) := by
  have hmove : ∀ sel : List Name, sel.Sublist (L.ownedList actor.id) →
      Tracks
        (let m := sel.foldl (FoldState.unlockedStep fun s key => s.chown key a.addr) (s, false)
        if m.2 then (m.1.bump actor.id).bump a.addr else m.1)
        (if L.SomeUnlocked sel then
          ((L.giveAll a.addr sel).bump actor.id L.height).bump a.addr L.height
        else L) := by
    intro sel hsub
    obtain ⟨hgive, hmoved⟩ := t.give a.addr ((PartialMap.listing_nodup _).sublist hsub)
    refine related_ite_of hmoved (fun _ => (hgive.bump actor.id).bump a.addr) fun hnone => ?_
    rw [hmoved] at hnone
    rw [Ledger.giveAll_locked hnone] at hgive
    exact hgive
  have hwhole := hmove _ (List.Sublist.refl _)
  have hpart := hmove _ (Ledger.selectBitmap_sublist a.flags (L.ownedList actor.id))
  unfold FoldState.doTransfer Ledger.transfer modeOf
  simp only [h.height, h.who, t.ownedListSorted hs, t.anchorOk hanchor, bitmapSelect_eq]
  cases hkind : a.hasAnchor with
  | false => exact hwhole
  | true =>
    have hmode : ¬ (if a.flags = [] then Mode.allSafe else Mode.selective) = Mode.all := by
      split <;> exact Mode.noConfusion
    rw [if_neg (show ¬ (!true) = true from Bool.false_ne_true), if_neg hmode]
    cases L.anchorOk actor.id a.anchor L.height with
    | false => exact t
    | true => exact hpart

open Classical in
theorem doRelease (t : Tracks s L) (hs : ∀ n d, L.names n = some d → d.Sound L.mtp)
    (h : Acts L actor o cx) (hanchor : a.anchor.toNat < 2 ^ 40) (hkind : a.hasAnchor = true) :
    Tracks (s.doRelease a.anchor.toNat a.flags actor) (L.release cx a) := by
  have hn : (Fold.selectBitmap a.flags (L.ownedList actor.id)).Nodup :=
    Ledger.selectBitmap_nodup (PartialMap.listing_nodup _)
  obtain ⟨hdrop, hreleased⟩ := t.drop hn
  unfold FoldState.doRelease Ledger.release
  simp only [h.height, h.who, t.ownedListSorted hs, t.anchorOk hanchor, bitmapSelect_eq]
  rw [if_neg (show ¬ (!a.hasAnchor) = true by simp [hkind])]
  refine related_ite_of Iff.rfl (fun _ => t) fun _ => ?_
  refine related_ite_of hreleased (fun _ => hdrop.bump actor.id) fun hnone => ?_
  rw [hreleased] at hnone
  rw [Ledger.drop_locked hnone] at hdrop
  exact hdrop

/-! ### By-name forms -/

/-- The row that an action spells out is the deed that it spells out. -/
theorem findMine (t : Tracks s L) (hs : ∀ n d, L.names n = some d → d.Sound L.mtp)
    (hvalid : smNameValid a.name = true) :
    s.findMine a.name actor.id = (L.mine actor.id a).map bareRow := by
  have hlen := smNameValid_length hvalid
  unfold FoldState.findMine Ledger.mine
  rw [t.get, if_neg (by omega)]
  cases hd : L.names a.name with
  | none => rfl
  | some d =>
    have hholder := (hs _ d hd).holder_eq
    change (if d.owner ≠ actor.id then none else some (bareRow d))
      = ((some d).filter fun d => d.holder = actor.id).map bareRow
    by_cases ho : d.owner = actor.id
    · simp [hholder, ho]
    · simp [hholder, ho]

theorem doRenewName (t : Tracks s L) (hs : ∀ n d, L.names n = some d → d.Sound L.mtp)
    (hrate : L.rate ≠ 0) (h : Acts L actor o cx) (hvalid : smNameValid a.name = true) :
    Tracks (s.doRenewName a.name actor o) (L.renewName cx a) := by
  unfold FoldState.doRenewName Ledger.renewName
  rw [t.findMine hs hvalid, h.who]
  cases hm : L.mine actor.id a with
  | none => exact t
  | some d =>
    obtain ⟨hd, -⟩ := Ledger.mine_eq_some hm
    simp only [h.mtp, h.rate]
    refine t.fillLeases hs hrate (List.pairwise_singleton _ _) (List.nodup_singleton _)
      (fun n hn => ?_) h.burn
    rw [List.mem_singleton.mp hn]
    exact ⟨d, hd⟩

theorem doTransferName (t : Tracks s L) (hs : ∀ n d, L.names n = some d → d.Sound L.mtp)
    (h : Acts L actor o cx) (hvalid : smNameValid a.name = true) :
    Tracks (s.doTransferName a.addr a.name actor) (L.transferName cx a) := by
  unfold FoldState.doTransferName Ledger.transferName
  rw [t.findMine hs hvalid, h.who, h.height]
  cases hm : L.mine actor.id a with
  | none => exact t
  | some d =>
    obtain ⟨hd, -⟩ := Ledger.mine_eq_some hm
    refine related_ite_of Iff.rfl (fun _ => t) fun _ => ?_
    exact ((t.chown hd a.addr 0).bump actor.id).bump a.addr

theorem doReleaseName (t : Tracks s L) (hs : ∀ n d, L.names n = some d → d.Sound L.mtp)
    (h : Acts L actor o cx) (hvalid : smNameValid a.name = true) :
    Tracks (s.doReleaseName a.name actor) (L.releaseName cx a) := by
  unfold FoldState.doReleaseName Ledger.releaseName
  rw [t.findMine hs hvalid, h.who, h.height]
  cases hm : L.mine actor.id a with
  | none => exact t
  | some d =>
    obtain ⟨hd, -⟩ := Ledger.mine_eq_some hm
    exact related_ite_of Iff.rfl (fun _ => t) fun _ => (t.remove hd).bump actor.id

end Tracks

end Ts

end NamespaceIndexer
