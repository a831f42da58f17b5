import NamespaceIndexer.Fold.Types

/-!
# The canonical state digest (`digest.c`)
-/

namespace NamespaceIndexer.Fold

/-- `n` little-endian bytes of `v`. -/
def leBytes : ℕ → ℕ → Bytes
  | 0, _ => []
  | n + 1, v => Fin.ofNat 256 v :: leBytes n (v / 256)

def bu32 (v : ℕ) : Bytes := leBytes 4 v
def bu64 (v : UInt64) : Bytes := leBytes 8 v.toNat
/-- `bi64`: the cast to `uint64_t`, then `bu64`. -/
def bi64 (v : ℤ) : Bytes := leBytes 8 (v % 2 ^ 64).toNat

def SmNameState.toByte : SmNameState → Byte
  | .OWNED => 0
  | .LISTED => 1
  | .OFFERED => 2
  | .RESERVED => 3

/-- The digested fields of a name row; `owner_type` is not one of them. -/
def nameRecord (r : SmNameRow) : Bytes :=
  Fin.ofNat 256 r.name.length :: r.name ++ r.owner.val ++ [r.st.toByte] ++ bi64 r.leaseExpiry ++
    r.seller.val ++ [r.sellerType] ++ bu64 r.price ++ bi64 r.offerExpiry ++ r.buyer.val ++
    bu64 r.burnLeg ++ bu64 r.payLeg ++ bi64 r.reserveExpiry

def commitRecord (c : SmCommit) : Bytes :=
  c.commitment.val ++ bi64 c.commitHeight ++ bu32 c.txIndex.toNat ++ bi64 c.commitTime

def mutRecord (m : SmMut) : Bytes := m.owner.val ++ bi64 m.height

/-- `cmp_names` is not positive. -/
def leNames (x y : SmNameRow) : Prop := x.name ≤ y.name

/-- `cmp_commits` is not positive: commitment, then height, then transaction index. -/
def leCommits (x y : SmCommit) : Prop :=
  x.commitment.val < y.commitment.val ∨ (x.commitment = y.commitment ∧
    (x.commitHeight < y.commitHeight ∨ (x.commitHeight = y.commitHeight ∧ x.txIndex ≤ y.txIndex)))

/-- `cmp_muts` is not positive. -/
def leMuts (x y : SmMut) : Prop := x.owner.val ≤ y.owner.val

instance : DecidableRel leNames := fun x y => inferInstanceAs (Decidable (x.name ≤ y.name))
instance : DecidableRel leCommits := fun _ _ => instDecidableOr
instance : DecidableRel leMuts := fun x y => inferInstanceAs (Decidable (x.owner.val ≤ y.owner.val))

/-- A row count and the records of the rows in sort order. -/
def tableSection {α : Type} (le : α → α → Prop) [DecidableRel le] (record : α → Bytes)
    (rows : List α) : Bytes :=
  bu32 rows.length ++ ((rows.insertionSort le).map record).flatten

/-- The serialization that `sm_state_digest` builds. -/
def digestPreimage (s : SmState) : Bytes :=
  [83, 77, 118, 49] ++ tableSection leNames nameRecord s.names ++
    tableSection leCommits commitRecord s.commits ++ tableSection leMuts mutRecord s.muts

/-- The bytes that `sha256_update` reads: their number went through `(unsigned int)b.n`. -/
def digestedBytes (s : SmState) : Bytes :=
  (digestPreimage s).take ((digestPreimage s).length % 2 ^ 32)

/-- `sm_state_digest`. -/
def smStateDigest (sha256 : Bytes → Hash256) (s : SmState) : Hash256 := sha256 (digestedBytes s)

end NamespaceIndexer.Fold
