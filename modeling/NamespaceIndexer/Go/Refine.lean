import NamespaceIndexer.Go.Lease
import NamespaceIndexer.Ledger.Preserve

/-!
# The Go state seen as a ledger

`Tracks s L` says that the maps of `s` show the ledger `L`, the script types of owners left out.
Every write of the port keeps it.
-/

namespace NamespaceIndexer.Go

open Fold Lib Daemon

/-- A deed without the script type of its owner, which the port does not keep. -/
@[reducible] def bareRow (d : Deed) : NameRow :=
  { owner := d.owner, st := d.st, leaseExpiry := d.leaseExpiry, seller := d.seller,
    sellerType := d.sellerType, price := d.price, offerExpiry := d.offerExpiry, buyer := d.buyer,
    burnLeg := d.burnLeg, payLeg := d.payLeg, reserveExpiry := d.reserveExpiry }

@[reducible] def scratchOf (w : Win) : ClaimScratch := ⟨w.commitHeight, w.commitTxIndex, w.owner⟩

def CommitRow.smCommit (c : CommitRow) : SmCommit := ⟨c.commitment, c.height, c.txIndex, c.commitTime⟩

structure Tracks (s : FoldState) (L : Ledger) : Prop where
  names : s.names.get = fun n => (L.names n).map bareRow
  commits : ((s.commits.map CommitRow.smCommit : List SmCommit) : Multiset SmCommit) = L.commits
  muts : s.muts.get = L.muts
  scratch : s.scratch.get = fun n => (L.scratch n).map scratchOf

/-- The Go block and actor, and the context of the daemon, of one carrier that acts. -/
structure Acts (b : FoldBlock) (actor : Identity) (value : UInt64) (cx : SmTxCtx) : Prop where
  height : cx.height = b.height
  mtp : cx.mtp = b.mtp
  rate : cx.rate = b.rate
  who : cx.actor = actor.h160
  type : cx.actorType = actor.styp
  burn : cx.carValue = value

namespace Tracks

variable {s : FoldState} {L : Ledger} (t : Tracks s L)

include t

theorem get (n : Name) : s.names.get n = (L.names n).map bareRow := congrFun t.names n

theorem getScratch (n : Name) : s.scratch.get n = (L.scratch n).map scratchOf :=
  congrFun t.scratch n

theorem setName (n : Name) (d : Deed) : Tracks (s.setName n (bareRow d)) (L.put n d) where
  names := by
    change (s.names.insert n (bareRow d)).get = _
    rw [Dict.get_insert, t.names]
    funext m
    rw [Ledger.put_names, Function.update_apply, Function.update_apply]
    split <;> rfl
  commits := t.commits
  muts := t.muts
  scratch := t.scratch

theorem setRow {n : Name} {r : NameRow} {d : Deed} (h : r = bareRow d) :
    Tracks (s.setName n r) (L.put n d) := by
  rw [h]
  exact t.setName n d

theorem deleteName (n : Name) : Tracks (s.deleteName n) (L.erase n) where
  names := by
    change (s.names.erase n).get = _
    rw [Dict.get_erase, t.names]
    funext m
    rw [Ledger.erase_names, Function.update_apply, Function.update_apply]
    split <;> rfl
  commits := t.commits
  muts := t.muts
  scratch := t.scratch

theorem bumpMut (who : H160) (h : ℤ) : Tracks (s.bumpMut who h) (L.bump who h) := by
  unfold FoldState.bumpMut
  rw [t.muts]
  cases hm : L.muts who with
  | none =>
    refine ⟨t.names, t.commits, ?_, t.scratch⟩
    change (s.muts.insert who h).get = Function.update L.muts who _
    rw [Dict.get_insert, t.muts, hm]
    rfl
  | some cur =>
    dsimp only
    split
    · rename_i hlt
      refine ⟨t.names, t.commits, ?_, t.scratch⟩
      change (s.muts.insert who h).get = Function.update L.muts who _
      rw [Dict.get_insert, t.muts, hm]
      exact congrArg _ (congrArg some (max_eq_right hlt.le).symm)
    · rename_i hge
      refine ⟨t.names, t.commits, ?_, t.scratch⟩
      change s.muts.get = Function.update L.muts who (some (Ledger.raise (L.muts who) h))
      have hkeep : Ledger.raise (L.muts who) h = cur := by
        rw [hm]
        exact max_eq_left (not_lt.mp hge)
      rw [hkeep, ← hm, Function.update_eq_self, t.muts]

theorem setScratch (n : Name) (w : Win) :
    Tracks (s.setScratch n (scratchOf w)) (L.setWin n w) where
  names := t.names
  commits := t.commits
  muts := t.muts
  scratch := by
    change (s.scratch.insert n (scratchOf w)).get = _
    rw [Dict.get_insert, t.scratch]
    funext m
    change _ = (Function.update L.scratch n (some w) m).map scratchOf
    rw [Function.update_apply, Function.update_apply]
    split <;> rfl

theorem anchorOK {a : SmAction} (ha : a.anchor.toNat < 2 ^ 40) (who : H160) (confirm : ℤ) :
    s.anchorOK who a.anchor.toNat confirm = L.anchorOk who a.anchor confirm := by
  have hi64 : i64 a.anchor = a.anchor.toNat := i64_eq_toNat (by omega)
  unfold FoldState.anchorOK Ledger.anchorOk Ledger.lastMutation
  rw [t.muts, hi64]
  by_cases hlate : (a.anchor.toNat : ℤ) ≤ confirm
  · rw [if_neg (by omega)]
    by_cases hold : confirm - (a.anchor.toNat : ℤ) ≤ maxAnchorAge
    · rw [if_neg (by omega)]
      simp [hlate, hold]
    · rw [if_pos (by omega)]
      simp [hold]
  · rw [if_pos (by omega)]
    simp [hlate]

/-- The anchor guard of the bitmap actions. -/
theorem guard {a : SmAction} (ha : a.anchor.toNat < 2 ^ 40) (who : H160) (confirm : ℤ) :
    (a.hasAnchor && !s.anchorOK who (if a.hasAnchor then (a.anchor.toNat : ℤ) else -1) confirm)
      = (a.hasAnchor && !L.anchorOk who a.anchor confirm) := by
  cases a.hasAnchor with
  | false => rfl
  | true => rw [if_pos rfl, t.anchorOK ha]

/-- The owned set in the order of its names. -/
theorem ownedSorted (hs : ∀ n d, L.names n = some d → d.Sound L.mtp) (who : H160) :
    s.ownedSorted who = L.ownedList who := by
  unfold FoldState.ownedSorted Ledger.ownedList
  have hperm := List.perm_insertionSort (· ≤ ·)
    ((s.names.entries.filter fun e => e.2.owner = who).map Sigma.fst)
  symm
  refine PartialMap.listing_eq (List.pairwise_insertionSort _ _) ?_ fun n => ?_
  · exact hperm.nodup_iff.mpr (Dict.nodup_filter_keys s.names fun r => r.owner = who)
  · rw [hperm.mem_iff]
    refine (Dict.mem_filter_keys (m := s.names) (p := fun r : NameRow => r.owner = who)).trans ?_
    rw [t.get]
    constructor
    · rintro ⟨r, hr, ho⟩
      obtain ⟨d, hd, rfl⟩ := Option.map_eq_some_iff.mp hr
      exact ⟨d, hd, (hs n d hd).holder_eq.trans (of_decide_eq_true ho)⟩
    · rintro ⟨d, hd, ho⟩
      rw [(hs n d hd).holder_eq] at ho
      exact ⟨bareRow d, by rw [hd]; rfl, decide_eq_true ho⟩

/-! ### Leases -/

theorem setNames {names : Dict Name NameRow} {f : Name → Option Deed}
    (h : names.get = fun n => (f n).map bareRow) :
    Tracks { s with names } (L.withNames f) := ⟨h, t.commits, t.muts, t.scratch⟩

theorem headrooms (now : ℤ) {keys : List Name} (hkeys : ∀ n ∈ keys, ∃ d, L.names n = some d) :
    (keys.map fun k => headroom now (leaseExpiryOf s.names k)) = keys.map (L.headroomOf now) := by
  refine List.map_congr_left fun k hk => ?_
  obtain ⟨d, hd⟩ := hkeys k hk
  unfold leaseExpiryOf Ledger.headroomOf
  rw [t.get, hd]
  rfl

/-- The water-fill extends the leases as the ledger does. -/
theorem waterFill {burn rate : UInt64} (hrate : 1 ≤ rate.toNat ∧ rate.toNat ≤ 100000000) (now : ℤ)
    {keys : List Name} (hn : keys.Nodup) (hkeys : ∀ n ∈ keys, ∃ d, L.names n = some d)
    (hlen : 365 * keys.length < 2 ^ 64) :
    Tracks { s with names := waterFill s.names keys (leaseT burn rate).1 (leaseT burn rate).2 now }
      (L.extend now rate burn keys) := by
  have hheads := t.headrooms now hkeys
  refine t.setNames ?_
  rw [waterFill_eq hrate.1 hrate.2 s.names keys now hn, hheads, t.names]
  · exact PartialMap.modifyAll_image (u := bareRow) (g := fun (k : ℕ) (d : Deed) => d.award k)
      (fun _ _ => rfl) _ _
  · have hcap := sum_headroomDays_le now (keys.map (leaseExpiryOf s.names))
    rw [List.map_map, List.length_map] at hcap
    have hdays : (keys.map fun k => headroom now (leaseExpiryOf s.names k))
        = keys.map (NamespaceIndexer.headroomDays now ∘ leaseExpiryOf s.names) :=
      List.map_congr_left fun k _ => headroom_eq now _
    rw [hdays]
    exact lt_of_le_of_lt hcap hlen

end Tracks

end NamespaceIndexer.Go
