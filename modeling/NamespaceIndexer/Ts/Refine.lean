import NamespaceIndexer.Ledger.RefineMarket
import NamespaceIndexer.Ts.Lease

/-!
# The TypeScript state seen as a ledger

`Tracks s L` says that the maps of `s` show the ledger `L`, the script types of owners left out, and
that the reverse index inverts the owners. Every write of the port keeps it.
-/

namespace NamespaceIndexer.Ts

open Fold Lib Daemon

/-- A deed without the script type of its owner, which the port does not keep. -/
@[reducible] def bareRow (d : Deed) : NameRow :=
  { owner := d.owner, st := d.st, leaseExpiry := d.leaseExpiry, seller := d.seller,
    sellerType := d.sellerType, price := d.price.toNat, offerExpiry := d.offerExpiry,
    buyer := d.buyer, burnLeg := d.burnLeg.toNat, payLeg := d.payLeg.toNat,
    reserveExpiry := d.reserveExpiry }

@[reducible] def scratchOf (w : Win) : ClaimScratch := ⟨w.commitHeight, w.commitTxIndex, w.owner⟩

def Commit.smCommit (c : Commit) : SmCommit := ⟨c.commitment, c.commitHeight, c.txIndex, c.commitTime⟩

/-- `ownerNames` is the inverse of the owner field over `names`. -/
def FoldState.Indexed (s : FoldState) : Prop := s.ownerNames.Inverts s.names.get NameRow.owner

structure Tracks (s : FoldState) (L : Ledger) : Prop where
  names : s.names.get = fun n => (L.names n).map bareRow
  index : s.Indexed
  commits : ((s.commits.map Commit.smCommit : List SmCommit) : Multiset SmCommit) = L.commits
  muts : s.muts.get = L.muts
  scratch : s.claimScratch.get = fun n => (L.scratch n).map scratchOf
  height : s.curHeight = L.height
  mtp : s.curMTP = L.mtp
  rate : s.curRate = L.rate.toNat
  activation : s.activationHeight = i64 L.activationHeight
  stamps : ∀ who h, L.muts who = some h → h ≤ L.height

/-- The actor and the context of the daemon, of one carrier that acts. -/
structure Acts (L : Ledger) (actor : Actor) (o : FoldCarrier) (cx : SmTxCtx) : Prop where
  height : cx.height = L.height
  mtp : cx.mtp = L.mtp
  rate : cx.rate = L.rate
  who : cx.actor = actor.id
  type : cx.actorType = actor.type
  burn : o.value = cx.carValue.toNat

namespace Tracks

variable {s : FoldState} {L : Ledger} (t : Tracks s L)

include t

theorem get (n : Name) : s.names.get n = (L.names n).map bareRow := congrFun t.names n

theorem getScratch (n : Name) : s.claimScratch.get n = (L.scratch n).map scratchOf :=
  congrFun t.scratch n

/-! ### Writes of rows -/

theorem update_names (n : Name) (d : Deed) :
    Function.update s.names.get n (some (bareRow d)) = fun m => ((L.put n d).names m).map bareRow := by
  rw [t.names]
  funext m
  rw [Ledger.put_names, Function.update_apply, Function.update_apply]
  split <;> rfl

/-- Rows that keep their owners keep the index. -/
theorem setNames {names : Dict Name NameRow} {f : Name → Option Deed}
    (h : names.get = fun n => (f n).map bareRow)
    (ho : ∀ n, (f n).map Deed.owner = (L.names n).map Deed.owner) :
    Tracks { s with names } (L.withNames f) := { t with
  names := h
  index := t.index.congr fun n => by
    change (names.get n).map NameRow.owner = (s.names.get n).map NameRow.owner
    rw [h, t.names]
    dsimp only
    rw [Option.map_map, Option.map_map]
    exact ho n }

theorem setRow {n : Name} {d e : Deed} {f : NameRow → NameRow} (hd : L.names n = some d)
    (hf : f (bareRow d) = bareRow e) (ho : e.owner = d.owner) :
    Tracks (s.setRow n f) (L.put n e) := by
  have hget : (s.names.modify n f).get = Function.update s.names.get n (some (bareRow e)) := by
    rw [Dict.get_modify, PartialMap.modify, t.get, hd, Option.map_some, Option.map_some, hf]
  refine t.setNames (hget.trans (t.update_names n e)) fun m => ?_
  rw [Function.update_apply]
  split
  · rename_i hm
    rw [hm, hd]
    exact congrArg some ho
  · rfl

theorem add {n : Name} (hn : L.names n = none) (d : Deed) :
    Tracks (s.add n (bareRow d)) (L.put n d) := by
  have hget := Dict.get_insert s.names n (bareRow d)
  have hnone : s.names.get n = none := by
    rw [t.get, hn]
    rfl
  exact { t with
    names := hget.trans (t.update_names n d)
    index := by
      have hindex := t.index.add hnone (bareRow d)
      rw [← hget] at hindex
      exact hindex }

theorem chown {n : Name} {d : Deed} (hd : L.names n = some d) (who : H160) (type : Byte) :
    Tracks (s.chown n who) (L.put n { d with owner := who, ownerType := type }) := by
  have hrow : s.names.get n = some (bareRow d) := by
    rw [t.get, hd]
    rfl
  have hget := Dict.get_insert s.names n { bareRow d with owner := who }
  unfold FoldState.chown
  rw [hrow]
  exact { t with
    names := hget.trans (t.update_names n { d with owner := who, ownerType := type })
    index := by
      have hindex := t.index.move hrow { bareRow d with owner := who }
      rw [← hget] at hindex
      exact hindex }

theorem remove {n : Name} {d : Deed} (hd : L.names n = some d) : Tracks (s.remove n) (L.erase n) := by
  have hrow : s.names.get n = some (bareRow d) := by
    rw [t.get, hd]
    rfl
  have hget := Dict.get_erase s.names n
  unfold FoldState.remove
  rw [hrow]
  exact { t with
    names := by
      refine hget.trans ?_
      rw [t.names]
      funext m
      rw [Ledger.erase_names, Function.update_apply, Function.update_apply]
      split <;> rfl
    index := by
      have hindex := t.index.drop hrow
      rw [← hget] at hindex
      exact hindex }

/-! ### Stamps and scratch -/

/-- No stamp is in the future, so that the new one is the highest. -/
theorem bump (who : H160) : Tracks (s.bump who) (L.bump who L.height) := by
  have hraise : Ledger.raise (L.muts who) L.height = L.height := by
    cases hm : L.muts who with
    | none => rfl
    | some h => exact max_eq_right (t.stamps who h hm)
  exact { t with
    muts := by
      change (s.muts.insert who s.curHeight).get = Function.update L.muts who _
      rw [Dict.get_insert, t.muts, hraise, t.height]
    stamps := Ledger.bump_stamps t.stamps who }

theorem setScratch (n : Name) (w : Win) :
    Tracks (s.setScratch n (scratchOf w)) (L.setWin n w) := { t with
  scratch := by
    change (s.claimScratch.insert n (scratchOf w)).get = _
    rw [Dict.get_insert, t.scratch]
    funext m
    change _ = (Function.update L.scratch n (some w) m).map scratchOf
    rw [Function.update_apply, Function.update_apply]
    split <;> rfl }

/-! ### Reads -/

theorem anchorOk {anchor : UInt64} (ha : anchor.toNat < 2 ^ 40) (who : H160) :
    s.anchorOk who anchor.toNat = L.anchorOk who anchor L.height := by
  unfold FoldState.anchorOk Ledger.anchorOk Ledger.lastMutation
  rw [t.muts, t.height, i64_eq_toNat (by omega)]
  by_cases hlate : (anchor.toNat : ℤ) ≤ L.height
  · rw [if_neg (by omega)]
    by_cases hold : L.height - (anchor.toNat : ℤ) ≤ maxAnchorAge
    · rw [if_neg (by omega)]
      simp [hlate, hold, ← decide_not]
    · rw [if_pos (by omega)]
      simp [hold]
  · rw [if_pos (by omega)]
    simp [hlate]

/-- The owned set in the order of its names. -/
theorem ownedListSorted (hs : ∀ n d, L.names n = some d → d.Sound L.mtp) (who : H160) :
    s.ownedListSorted who = L.ownedList who := by
  unfold FoldState.ownedListSorted Ledger.ownedList
  have hperm := List.perm_insertionSort (· ≤ ·)
    ((s.ownerNames.under who).filter fun key => (s.names.get key).isSome)
  symm
  refine PartialMap.listing_eq (List.pairwise_insertionSort _ _) ?_ fun n => ?_
  · exact hperm.nodup_iff.mpr ((t.index.nodup who).filter _)
  · rw [hperm.mem_iff, List.mem_filter, t.index.mem]
    constructor
    · rintro ⟨⟨r, hr, ho⟩, -⟩
      rw [t.get] at hr
      obtain ⟨d, hd, rfl⟩ := Option.map_eq_some_iff.mp hr
      exact ⟨d, hd, (hs n d hd).holder_eq.trans ho⟩
    · rintro ⟨d, hd, ho⟩
      rw [(hs n d hd).holder_eq] at ho
      have hrow : s.names.get n = some (bareRow d) := by
        rw [t.get, hd]
        rfl
      exact ⟨⟨bareRow d, hrow, ho⟩, by rw [hrow]; rfl⟩

end Tracks

end NamespaceIndexer.Ts
