import NamespaceIndexer.Ledger.Preserve
import NamespaceIndexer.Ledger.RefineBlock

/-!
# What an action by name reads and writes

It reads its own names, the commits of earlier blocks and the clock. It writes its own names; to
the commits and the stamps it only adds, with the height of the block. So two transactions with no
name in common do not see each other.
-/

namespace NamespaceIndexer.Ledger

open Fold Lib

/-- The deed and the win of one name, written. -/
def write (L : Ledger) (n : Name) (d : Option Deed) (w : Option Win) : Ledger :=
  { L with names := Function.update L.names n d, scratch := Function.update L.scratch n w }

@[simp] theorem write_names (L : Ledger) (n : Name) (d : Option Deed) (w : Option Win) :
    (L.write n d w).names = Function.update L.names n d := rfl
@[simp] theorem write_scratch (L : Ledger) (n : Name) (d : Option Deed) (w : Option Win) :
    (L.write n d w).scratch = Function.update L.scratch n w := rfl

theorem put_eq_write (L : Ledger) (n : Name) (d : Deed) :
    L.put n d = L.write n (some d) (L.scratch n) :=
  Ledger.ext rfl rfl rfl rfl rfl rfl rfl (Function.update_eq_self n _).symm

theorem erase_eq_write (L : Ledger) (n : Name) : L.erase n = L.write n none (L.scratch n) :=
  Ledger.ext rfl rfl rfl rfl rfl rfl rfl (Function.update_eq_self n _).symm

theorem setWin_eq_write (L : Ledger) (n : Name) (w : Win) :
    L.setWin n w = L.write n (L.names n) (some w) :=
  Ledger.ext rfl rfl rfl rfl (Function.update_eq_self n _).symm rfl rfl rfl

theorem extend_eq_write (L : Ledger) (now : ℤ) (rate burn : UInt64) (n : Name) :
    L.extend now rate burn [n] = L.write n
      ((L.names n).map fun d => d.award (min (L.headroomOf now n) (rawT burn rate)))
      (L.scratch n) :=
  Ledger.ext rfl rfl rfl rfl (extend_one L now rate burn n) rfl rfl
    (Function.update_eq_self n _).symm

/-- The commits that a claim of this block can use. -/
def usable (L : Ledger) : Multiset SmCommit := L.commits.filter fun c => c.commitHeight < L.height

structure SameClock (L M : Ledger) : Prop where
  activationHeight : L.activationHeight = M.activationHeight
  height : L.height = M.height
  mtp : L.mtp = M.mtp
  rate : L.rate = M.rate

/-- Two ledgers that are the same to a reader of the names in `S`. -/
structure AlikeOn (S : Set Name) (L M : Ledger) : Prop where
  clock : SameClock L M
  names : ∀ n ∈ S, L.names n = M.names n
  scratch : ∀ n ∈ S, L.scratch n = M.scratch n
  usable : L.usable = M.usable

/-- From `L` to `L'` the names in `S` are written, the commits `C` made and the owners in `B`
stamped. -/
structure Wrote (S : Set Name) (C : Multiset SmCommit) (B : Set H160) (L L' : Ledger) : Prop where
  clock : SameClock L' L
  names : ∀ n ∉ S, L'.names n = L.names n
  scratch : ∀ n ∉ S, L'.scratch n = L.scratch n
  commits : L'.commits = C + L.commits
  fresh : ∀ c ∈ C, c.commitHeight = L.height
  stamped : ∀ who ∈ B, L'.muts who = some (raise (L.muts who) L.height)
  unstamped : ∀ who ∉ B, L'.muts who = L.muts who

/-- Two ledgers alike on `S` take the same step there. -/
structure InStep (S : Set Name) (L M L' M' : Ledger) : Prop where
  alike : AlikeOn S L' M'
  wrote : ∃ C B, Wrote S C B L L' ∧ Wrote S C B M M'

theorem SameClock.refl (L : Ledger) : SameClock L L := ⟨rfl, rfl, rfl, rfl⟩

theorem SameClock.symm {L M : Ledger} (h : SameClock L M) : SameClock M L :=
  ⟨h.activationHeight.symm, h.height.symm, h.mtp.symm, h.rate.symm⟩

theorem SameClock.trans {L M N : Ledger} (h : SameClock L M) (h' : SameClock M N) : SameClock L N :=
  ⟨h.activationHeight.trans h'.activationHeight, h.height.trans h'.height, h.mtp.trans h'.mtp,
    h.rate.trans h'.rate⟩

/-! ### Written ledgers -/

namespace Wrote

variable {S T : Set Name} {C D : Multiset SmCommit} {A B : Set H160} {L M N : Ledger}

theorem refl (S : Set Name) (L : Ledger) : Wrote S 0 ∅ L L where
  clock := SameClock.refl L
  names _ _ := rfl
  scratch _ _ := rfl
  commits := (zero_add _).symm
  fresh c hc := absurd hc (Multiset.notMem_zero c)
  stamped who hw := absurd hw (Set.notMem_empty who)
  unstamped _ _ := rfl

/-- A second stamp of the same height is no change. -/
theorem trans (h : Wrote S C A L M) (h' : Wrote S D B M N) : Wrote S (D + C) (A ∪ B) L N where
  clock := h'.clock.trans h.clock
  names n hn := (h'.names n hn).trans (h.names n hn)
  scratch n hn := (h'.scratch n hn).trans (h.scratch n hn)
  commits := by rw [h'.commits, h.commits, add_assoc]
  fresh c hc := by
    rcases Multiset.mem_add.mp hc with hc | hc
    · exact (h'.fresh c hc).trans h.clock.height
    · exact h.fresh c hc
  stamped who hw := by
    have hheight := h.clock.height
    by_cases hB : who ∈ B
    · have hlast := h'.stamped who hB
      rw [hheight] at hlast
      by_cases hA : who ∈ A
      · rw [hlast, h.stamped who hA, raise_raise]
      · rw [hlast, h.unstamped who hA]
    · have hA : who ∈ A := hw.resolve_right hB
      rw [h'.unstamped who hB, h.stamped who hA]
  unstamped who hw := by
    rw [h'.unstamped who fun hB => hw (Or.inr hB), h.unstamped who fun hA => hw (Or.inl hA)]

theorem usable (h : Wrote S C B L M) : M.usable = L.usable := by
  have hnew : C.filter (fun c => c.commitHeight < L.height) = 0 := by
    rw [Multiset.filter_eq_nil]
    intro c hc
    have hheight := h.fresh c hc
    omega
  unfold Ledger.usable
  rw [h.commits, h.clock.height, Multiset.filter_add, hnew, zero_add]

/-- Writes elsewhere are not seen. -/
theorem alikeOn (h : Wrote S C B L M) (hST : ∀ n ∈ T, n ∉ S) : AlikeOn T L M where
  clock := h.clock.symm
  names n hn := (h.names n (hST n hn)).symm
  scratch n hn := (h.scratch n (hST n hn)).symm
  usable := h.usable.symm

theorem write {n : Name} (hn : n ∈ S) (L : Ledger) (d : Option Deed) (w : Option Win) :
    Wrote S 0 ∅ L (L.write n d w) where
  clock := ⟨rfl, rfl, rfl, rfl⟩
  names _ hm := Function.update_of_ne (ne_of_mem_of_not_mem hn hm).symm _ _
  scratch _ hm := Function.update_of_ne (ne_of_mem_of_not_mem hn hm).symm _ _
  commits := (zero_add _).symm
  fresh c hc := absurd hc (Multiset.notMem_zero c)
  stamped who hw := absurd hw (Set.notMem_empty who)
  unstamped _ _ := rfl

theorem bump (S : Set Name) (L : Ledger) (who : H160) {k : ℤ} (hk : k = L.height) :
    Wrote S 0 {who} L (L.bump who k) where
  clock := ⟨rfl, rfl, rfl, rfl⟩
  names _ _ := rfl
  scratch _ _ := rfl
  commits := (zero_add _).symm
  fresh c hc := absurd hc (Multiset.notMem_zero c)
  stamped who' hw := by
    rw [Set.mem_singleton_iff.mp hw, ← hk]
    exact Function.update_self _ _ _
  unstamped _ hw := Function.update_of_ne hw _ _

theorem commit (S : Set Name) (L : Ledger) (tx : SmTx) (a : SmAction) :
    Wrote S {⟨a.commitment, L.height, tx.txindex, L.mtp⟩} ∅ L (L.commit tx a) where
  clock := ⟨rfl, rfl, rfl, rfl⟩
  names _ _ := rfl
  scratch _ _ := rfl
  commits := (Multiset.singleton_add _ _).symm
  fresh c hc := by rw [Multiset.mem_singleton.mp hc]
  stamped who hw := absurd hw (Set.notMem_empty who)
  unstamped _ _ := rfl

end Wrote

/-! ### Steps that two ledgers take alike -/

namespace InStep

variable {S : Set Name} {L M L' M' L'' M'' : Ledger}

theorem refl (h : AlikeOn S L M) : InStep S L M L M := ⟨h, 0, ∅, Wrote.refl S L, Wrote.refl S M⟩

theorem trans (h : InStep S L M L' M') (h' : InStep S L' M' L'' M'') : InStep S L M L'' M'' := by
  obtain ⟨C, A, hL, hM⟩ := h.wrote
  obtain ⟨D, B, hL', hM'⟩ := h'.wrote
  exact ⟨h'.alike, D + C, A ∪ B, hL.trans hL', hM.trans hM'⟩

theorem ite (p : Prop) [Decidable p] (h : InStep S L M L' M') (h' : InStep S L M L'' M'') :
    InStep S L M (if p then L' else L'') (if p then M' else M'') := by
  split
  · exact h
  · exact h'

/-- One name written, in both from what they share. -/
theorem write (h : AlikeOn S L M) {n : Name} (hn : n ∈ S) (d : Option Deed) (w : Option Win) :
    InStep S L M (L.write n d w) (M.write n d w) := by
  have hL := Wrote.write hn L d w
  have hM := Wrote.write hn M d w
  refine ⟨⟨hL.clock.trans (h.clock.trans hM.clock.symm), fun m hm => ?_, fun m hm => ?_, ?_⟩, 0, ∅,
    hL, hM⟩
  · rw [write_names, write_names, Function.update_apply, Function.update_apply, h.names m hm]
  · rw [write_scratch, write_scratch, Function.update_apply, Function.update_apply,
      h.scratch m hm]
  · rw [hL.usable, hM.usable, h.usable]

theorem put (h : AlikeOn S L M) {n : Name} (hn : n ∈ S) (d : Deed) :
    InStep S L M (L.put n d) (M.put n d) := by
  rw [put_eq_write, put_eq_write, h.scratch n hn]
  exact write h hn _ _

theorem erase (h : AlikeOn S L M) {n : Name} (hn : n ∈ S) :
    InStep S L M (L.erase n) (M.erase n) := by
  rw [erase_eq_write, erase_eq_write, h.scratch n hn]
  exact write h hn _ _

theorem setWin (h : AlikeOn S L M) {n : Name} (hn : n ∈ S) (w : Win) :
    InStep S L M (L.setWin n w) (M.setWin n w) := by
  rw [setWin_eq_write, setWin_eq_write, h.names n hn]
  exact write h hn _ _

theorem extend (h : AlikeOn S L M) {n : Name} (hn : n ∈ S) (now : ℤ) (rate burn : UInt64) :
    InStep S L M (L.extend now rate burn [n]) (M.extend now rate burn [n]) := by
  have hroom : L.headroomOf now n = M.headroomOf now n := by
    unfold headroomOf
    rw [h.names n hn]
  rw [extend_eq_write, extend_eq_write, hroom, h.names n hn, h.scratch n hn]
  exact write h hn _ _

theorem bump (h : AlikeOn S L M) (who : H160) {k : ℤ} (hk : k = L.height) :
    InStep S L M (L.bump who k) (M.bump who k) :=
  ⟨⟨⟨h.clock.activationHeight, h.clock.height, h.clock.mtp, h.clock.rate⟩, h.names, h.scratch,
    h.usable⟩, 0, {who}, Wrote.bump S L who hk, Wrote.bump S M who (hk.trans h.clock.height)⟩

theorem commit (h : AlikeOn S L M) (tx : SmTx) (a : SmAction) :
    InStep S L M (L.commit tx a) (M.commit tx a) := by
  have hL := Wrote.commit S L tx a
  have hM := Wrote.commit S M tx a
  rw [← h.clock.height, ← h.clock.mtp] at hM
  refine ⟨⟨hL.clock.trans (h.clock.trans hM.clock.symm), h.names, h.scratch, ?_⟩, _, ∅, hL, hM⟩
  rw [hL.usable, hM.usable, h.usable]

/-- Steps on names that have nothing in common meet again. -/
theorem meet {T : Set Name} {Ls Lt Lst Lts : Ledger} (hs : InStep S L Lt Ls Lts)
    (ht : InStep T L Ls Lt Lst) (hST : ∀ n ∈ S, n ∉ T) : Lst = Lts := by
  obtain ⟨C, A, hs1, hs2⟩ := hs.wrote
  obtain ⟨D, B, ht1, ht2⟩ := ht.wrote
  have hclock : SameClock Lst Lts :=
    (ht2.clock.trans hs1.clock).trans (hs2.clock.trans ht1.clock).symm
  refine Ledger.ext hclock.activationHeight hclock.height hclock.mtp hclock.rate ?_ ?_ ?_ ?_
  · funext n
    by_cases hS : n ∈ S
    · rw [ht2.names n (hST n hS), hs.alike.names n hS]
    · rw [hs2.names n hS]
      by_cases hT : n ∈ T
      · exact (ht.alike.names n hT).symm
      · rw [ht2.names n hT, hs1.names n hS, ht1.names n hT]
  · rw [ht2.commits, hs1.commits, hs2.commits, ht1.commits, add_left_comm]
  · funext who
    have hLs := hs1.clock.height
    have hLt := ht1.clock.height
    by_cases hA : who ∈ A
    · rw [hs2.stamped who hA, hLt]
      by_cases hB : who ∈ B
      · rw [ht2.stamped who hB, hs1.stamped who hA, ht1.stamped who hB, hLs]
      · rw [ht2.unstamped who hB, hs1.stamped who hA, ht1.unstamped who hB]
    · rw [hs2.unstamped who hA]
      by_cases hB : who ∈ B
      · rw [ht2.stamped who hB, hs1.unstamped who hA, ht1.stamped who hB, hLs]
      · rw [ht2.unstamped who hB, hs1.unstamped who hA, ht1.unstamped who hB]
  · funext n
    by_cases hS : n ∈ S
    · rw [ht2.scratch n (hST n hS), hs.alike.scratch n hS]
    · rw [hs2.scratch n hS]
      by_cases hT : n ∈ T
      · exact (ht.alike.scratch n hT).symm
      · rw [ht2.scratch n hT, hs1.scratch n hS, ht1.scratch n hT]

end InStep

/-! ### Actions by name -/

section Handlers

variable {S : Set Name} {L M : Ledger} {cx : SmTxCtx} {a : SmAction}

theorem AlikeOn.mine_eq (h : AlikeOn S L M) (hn : a.name ∈ S) (who : H160) :
    L.mine who a = M.mine who a := by
  unfold mine
  rw [h.names _ hn]

theorem AlikeOn.deedOf_eq (h : AlikeOn S L M) {n : Name} (hn : n ∈ S) : L.deedOf n = M.deedOf n := by
  unfold deedOf
  rw [h.names n hn]

/-- The commits that back a claim of this block are among the usable ones. -/
theorem backing_eq_usable (L : Ledger) (want : Hash256) :
    L.backing want L.height = L.usable.filter fun c => c.commitment = want := by
  unfold backing usable
  rw [Multiset.filter_filter]
  exact Multiset.filter_congr fun c _ => And.comm

theorem AlikeOn.best_eq (h : AlikeOn S L M) (want : Hash256) :
    L.best want L.height = M.best want L.height := by
  have hback : L.backing want L.height = M.backing want L.height := by
    rw [backing_eq_usable, h.usable, h.clock.height, backing_eq_usable]
  have hbest : L.IsBest want L.height = M.IsBest want L.height := by
    funext p
    unfold IsBest
    rw [hback]
  unfold best
  rw [hbest]

theorem InStep.renewName (h : AlikeOn S L M) (hn : a.name ∈ S) :
    InStep S L M (L.renewName cx a) (M.renewName cx a) := by
  unfold Ledger.renewName
  rw [h.mine_eq hn]
  cases M.mine cx.actor a with
  | none => exact InStep.refl h
  | some _ => exact InStep.extend h hn _ _ _

/-- Two stamps of this block. -/
theorem InStep.bump₂ {L' M' : Ledger} (h : InStep S L M L' M') (hk : cx.height = L'.height)
    (who who' : H160) : InStep S L M ((L'.bump who cx.height).bump who' cx.height)
      ((M'.bump who cx.height).bump who' cx.height) :=
  (h.trans (InStep.bump h.alike who hk)).trans (InStep.bump (InStep.bump h.alike who hk).alike who' hk)

theorem InStep.transferName (h : AlikeOn S L M) (hn : a.name ∈ S) (hk : cx.height = L.height) :
    InStep S L M (L.transferName cx a) (M.transferName cx a) := by
  unfold Ledger.transferName
  rw [h.mine_eq hn]
  cases M.mine cx.actor a with
  | none => exact InStep.refl h
  | some d => exact InStep.ite _ (InStep.refl h) ((InStep.put h hn _).bump₂ hk _ _)

theorem InStep.releaseName (h : AlikeOn S L M) (hn : a.name ∈ S) (hk : cx.height = L.height) :
    InStep S L M (L.releaseName cx a) (M.releaseName cx a) := by
  unfold Ledger.releaseName
  rw [h.mine_eq hn]
  cases M.mine cx.actor a with
  | none => exact InStep.refl h
  | some d =>
    have herase := InStep.erase h hn
    exact InStep.ite _ (InStep.refl h) (herase.trans (InStep.bump herase.alike _ hk))

theorem InStep.sell (h : AlikeOn S L M) (hn : a.name ∈ S) :
    InStep S L M (L.sell cx a) (M.sell cx a) := by
  unfold Ledger.sell
  rw [h.deedOf_eq hn]
  cases M.deedOf a.name with
  | none => exact InStep.refl h
  | some d => exact InStep.ite _ (InStep.refl h) (InStep.put h hn _)

theorem InStep.sellTo (h : AlikeOn S L M) (hn : a.name ∈ S) :
    InStep S L M (L.sellTo cx a) (M.sellTo cx a) := by
  unfold Ledger.sellTo
  rw [h.deedOf_eq hn]
  cases M.deedOf a.name with
  | none => exact InStep.refl h
  | some d => exact InStep.ite _ (InStep.refl h) (InStep.put h hn _)

theorem InStep.reserve (h : AlikeOn S L M) (hn : a.name ∈ S) (tx : SmTx) :
    InStep S L M (L.reserve tx cx a).1 (M.reserve tx cx a).1 ∧
      (L.reserve tx cx a).2 = (M.reserve tx cx a).2 := by
  unfold Ledger.reserve
  rw [h.deedOf_eq hn]
  cases M.deedOf a.name with
  | none => exact ⟨InStep.refl h, rfl⟩
  | some d =>
    dsimp only
    split
    · exact ⟨InStep.refl h, rfl⟩
    · split
      · exact ⟨InStep.refl h, rfl⟩
      · exact ⟨InStep.put h hn _, rfl⟩

theorem InStep.buy (h : AlikeOn S L M) (hn : a.name ∈ S) (hk : cx.height = L.height) (tx : SmTx)
    (st : SmNameState) (expiry : Deed → ℤ) (owed : Deed → UInt64) :
    InStep S L M (buy tx st expiry owed L cx a).1 (buy tx st expiry owed M cx a).1 ∧
      (buy tx st expiry owed L cx a).2 = (buy tx st expiry owed M cx a).2 := by
  unfold Ledger.buy
  rw [h.deedOf_eq hn]
  cases M.deedOf a.name with
  | none => exact ⟨InStep.refl h, rfl⟩
  | some d =>
    dsimp only
    split
    · exact ⟨InStep.refl h, rfl⟩
    · split
      · exact ⟨InStep.refl h, rfl⟩
      · rename_i hpaid
        obtain ⟨i, -, rfl⟩ := smConsumeOutput_eq_some hpaid
        exact ⟨(InStep.put h hn _).bump₂ hk _ _, rfl⟩

theorem InStep.mint (h : AlikeOn S L M) {n : Name} (hn : n ∈ S) (hk : cx.height = L.height)
    (p : ℤ × UInt32) (d : Deed) : InStep S L M (L.mint cx n p d) (M.mint cx n p d) := by
  have hput := InStep.put h hn
    { d with owner := cx.actor, ownerType := cx.actorType, leaseExpiry := cx.mtp }
  have hextend := InStep.extend hput.alike hn cx.mtp cx.rate cx.carValue
  have hbump := InStep.bump hextend.alike cx.actor hk
  exact ((hput.trans hextend).trans hbump).trans (InStep.setWin hbump.alike hn _)

theorem InStep.claim (h : AlikeOn S L M) (hn : a.name ∈ S) (hk : cx.height = L.height)
    (sha256 : Bytes → Hash256) : InStep S L M (L.claim sha256 cx a) (M.claim sha256 cx a) := by
  unfold Ledger.claim
  split
  · exact InStep.refl h
  · rw [hk, h.best_eq, h.names _ hn, h.scratch _ hn]
    cases M.best (claimCommitment sha256 a.salt a.name cx.actor) L.height with
    | none => exact InStep.refl h
    | some p =>
      dsimp only
      split
      · exact InStep.refl h
      · cases M.names a.name with
        | none => exact InStep.mint h hn hk p _
        | some d =>
          cases M.scratch a.name with
          | none => exact InStep.refl h
          | some w =>
            exact InStep.ite _ (InStep.refl h) (InStep.mint h hn hk p d)

theorem InStep.trade (h : AlikeOn S L M) (hA : a.name ∈ S) (hB : a.nameB ∈ S)
    (hk : cx.height = L.height) (tx : SmTx) :
    InStep S L M (L.trade tx cx a) (M.trade tx cx a) := by
  unfold Ledger.trade
  rw [h.deedOf_eq hA, h.deedOf_eq hB]
  split
  · split
    · exact InStep.refl h
    · split
      · split
        · exact InStep.refl h
        · have hputA := InStep.put h hA
          exact ((hputA _).trans (InStep.put (hputA _).alike hB _)).bump₂ hk _ _
      · exact InStep.refl h
  · exact InStep.refl h

end Handlers

end NamespaceIndexer.Ledger
