import NamespaceIndexer.Fold.Encode
import NamespaceIndexer.Ledger.Agreement
import NamespaceIndexer.Lib.Delimited

/-!
# Row records can be read back

What the digest writes of a row, and of a sorted table of rows, tells where it
ends and gives the row back, names up to `owner_type`.
-/

namespace NamespaceIndexer

open Fold Lib

/-! ### What the C fields hold -/

/-- A value of an `int64_t`. -/
def IsInt64 (v : ℤ) : Prop := -2 ^ 63 ≤ v ∧ v < 2 ^ 63

structure NameFits (r : SmNameRow) : Prop where
  name : r.name.length ≤ nameMax
  leaseExpiry : IsInt64 r.leaseExpiry
  offerExpiry : IsInt64 r.offerExpiry
  reserveExpiry : IsInt64 r.reserveExpiry

structure CommitFits (c : SmCommit) : Prop where
  commitHeight : IsInt64 c.commitHeight
  commitTime : IsInt64 c.commitTime

def MutFits (m : SmMut) : Prop := IsInt64 m.height

/-- The rows of a table that an `int` can count. -/
def TableFits {α : Type} (P : α → Prop) (rows : List α) : Prop :=
  rows.length < 2 ^ 31 ∧ ∀ r ∈ rows, P r

/-- The state can be held in an `SmState`. -/
structure Fits (s : SmState) : Prop where
  names : TableFits NameFits s.names
  commits : TableFits CommitFits s.commits
  muts : TableFits MutFits s.muts

/-! ### Fields -/

theorem leBytes_inj {n v w : ℕ} (hv : v < 256 ^ n) (hw : w < 256 ^ n)
    (h : leBytes n v = leBytes n w) : v = w := by
  have hval := congrArg leVal h
  rw [leVal_leBytes, leVal_leBytes, Nat.mod_eq_of_lt hv, Nat.mod_eq_of_lt hw] at hval
  exact hval

theorem bi64_inj {v w : ℤ} (hv : IsInt64 v) (hw : IsInt64 w) (h : bi64 v = bi64 w) : v = w := by
  unfold IsInt64 at hv hw
  have hnat := leBytes_inj (n := 8) (by omega) (by omega) h
  omega

theorem toByte_inj {x y : SmNameState} (h : x.toByte = y.toByte) : x = y := by
  cases x <;> cases y <;> first | rfl | exact absurd h (by decide)

section Fields

variable {α : Type} {P : α → Prop}

theorem delimited_fixed {n : ℕ} (p : α → Fixed n) : Delimited P (fun a => (p a).val) p :=
  Delimited.of_length n (fun a _ => (p a).property) fun _ _ _ _ h => Subtype.ext h

theorem delimited_byte (p : α → Byte) : Delimited P (fun a => [p a]) p :=
  Delimited.of_length 1 (fun _ _ => rfl) fun _ _ _ _ h => List.head_eq_of_cons_eq h

theorem delimited_bi64 (p : α → ℤ) (hp : ∀ a, P a → IsInt64 (p a)) :
    Delimited P (fun a => bi64 (p a)) p :=
  Delimited.of_length 8 (fun _ _ => length_leBytes ..) fun a b ha hb h =>
    bi64_inj (hp a ha) (hp b hb) h

theorem delimited_bu64 (p : α → UInt64) : Delimited P (fun a => bu64 (p a)) p := by
  refine Delimited.of_length 8 (fun _ _ => length_leBytes ..) fun a b _ _ h => ?_
  have ha := (p a).toNat_lt
  have hb := (p b).toNat_lt
  exact UInt64.toNat_inj.mp (leBytes_inj (by omega) (by omega) h)

theorem delimited_bu32 (p : α → ℕ) (hp : ∀ a, P a → p a < 2 ^ 32) :
    Delimited P (fun a => bu32 (p a)) p :=
  Delimited.of_length 4 (fun _ _ => length_leBytes ..) fun a b ha hb h =>
    leBytes_inj (by have := hp a ha; omega) (by have := hp b hb; omega) h

end Fields

/-- `name_len`, then as many bytes. -/
theorem delimited_name :
    Delimited NameFits (fun r => Fin.ofNat 256 r.name.length :: r.name) SmNameRow.name := by
  intro a b x y ha hb h
  have hla := ha.name
  have hlb := hb.name
  unfold nameMax at hla hlb
  rw [List.cons_append, List.cons_append, List.cons_eq_cons] at h
  obtain ⟨hlen, hrest⟩ := h
  have hlen' := congrArg Fin.val hlen
  simp only [Fin.ofNat_eq_cast, Fin.val_natCast] at hlen'
  exact List.append_inj hrest (by omega)

/-! ### Rows -/

theorem nameRecord_delimited : Delimited NameFits nameRecord untyped := by
  have hfields := ((((((((((delimited_name.append (delimited_fixed SmNameRow.owner)).append
    (delimited_byte fun r => r.st.toByte)).append
    (delimited_bi64 SmNameRow.leaseExpiry fun _ h => h.leaseExpiry)).append
    (delimited_fixed SmNameRow.seller)).append (delimited_byte SmNameRow.sellerType)).append
    (delimited_bu64 SmNameRow.price)).append
    (delimited_bi64 SmNameRow.offerExpiry fun _ h => h.offerExpiry)).append
    (delimited_fixed SmNameRow.buyer)).append (delimited_bu64 SmNameRow.burnLeg)).append
    (delimited_bu64 SmNameRow.payLeg)).append
    (delimited_bi64 SmNameRow.reserveExpiry fun _ h => h.reserveExpiry)
  refine hfields.imp fun a b _ _ h => ?_
  simp only [Prod.mk.injEq] at h
  obtain ⟨⟨⟨⟨⟨⟨⟨⟨⟨⟨⟨hname, howner⟩, hst⟩, hlease⟩, hseller⟩, htype⟩, hprice⟩, hoffer⟩, hbuyer⟩,
    hburn⟩, hpay⟩, hreserve⟩ := h
  unfold untyped
  rw [hname, howner, toByte_inj hst, hlease, hseller, htype, hprice, hoffer, hbuyer, hburn, hpay,
    hreserve]

theorem commitRecord_delimited : Delimited CommitFits commitRecord id := by
  have hfields := (((delimited_fixed SmCommit.commitment).append
    (delimited_bi64 SmCommit.commitHeight fun _ => CommitFits.commitHeight)).append
    (delimited_bu32 (fun c => c.txIndex.toNat) fun c _ => c.txIndex.toNat_lt)).append
    (delimited_bi64 SmCommit.commitTime fun _ => CommitFits.commitTime)
  refine hfields.imp fun a b _ _ h => ?_
  simp only [Prod.mk.injEq, UInt32.toNat_inj] at h
  obtain ⟨⟨⟨hcom, hheight⟩, hindex⟩, htime⟩ := h
  cases a
  cases b
  simp_all

theorem mutRecord_delimited : Delimited MutFits mutRecord id := by
  have hheight : Delimited MutFits (fun m => bi64 m.height) SmMut.height :=
    delimited_bi64 SmMut.height fun _ h => h
  have hfields := (delimited_fixed SmMut.owner).append hheight
  refine hfields.imp fun a b _ _ h => ?_
  simp only [Prod.mk.injEq] at h
  exact mut_ext h.1 h.2

/-! ### Tables -/

theorem tableSection_delimited {α β : Type} {P : α → Prop} {record : α → Bytes} {f : α → β}
    (le : α → α → Prop) [DecidableRel le] (h : Delimited P record f) :
    Delimited (TableFits P) (tableSection le record) fun rows => (rows.insertionSort le).map f := by
  refine Delimited.append_of (delimited_bu32 (P := TableFits P) List.length fun rows hr => ?_) ?_
  · have hcount := hr.1
    omega
  · intro a b x y ha hb hlen heq
    refine h.flatten ?_ (fun r hr => ha.2 r ?_) (fun r hr => hb.2 r ?_) heq
    · rw [List.length_insertionSort, List.length_insertionSort, hlen]
    · exact (List.mem_insertionSort le).mp hr
    · exact (List.mem_insertionSort le).mp hr

/-- Equal sorted tables hold the same rows. -/
theorem perm_of_sorted {α β : Type} {f : α → β} (le : α → α → Prop) [DecidableRel le]
    {rows rows' : List α} (h : (rows.insertionSort le).map f = (rows'.insertionSort le).map f) :
    (rows.map f).Perm (rows'.map f) := by
  have hs := (List.perm_insertionSort le rows).map f
  rw [h] at hs
  exact hs.symm.trans ((List.perm_insertionSort le rows').map f)

/-! ### Lengths -/

theorem nameRecord_length (r : SmNameRow) : (nameRecord r).length = 111 + r.name.length := by
  simp [nameRecord, bi64, bu64, r.owner.property, r.seller.property, r.buyer.property]
  omega

theorem commitRecord_length (c : SmCommit) : (commitRecord c).length = 52 := by
  simp [commitRecord, bi64, bu32, c.commitment.property]

theorem mutRecord_length (m : SmMut) : (mutRecord m).length = 28 := by
  simp [mutRecord, bi64, m.owner.property]

end NamespaceIndexer
