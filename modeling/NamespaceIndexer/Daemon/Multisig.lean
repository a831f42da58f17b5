import NamespaceIndexer.Daemon.Signer

/-!
# Signatures in key order

The scan of `attribute` gives each signature the first key left that verifies it. It reaches the
last signature exactly when some increasing assignment of signatures to keys verifies them all.
-/

namespace NamespaceIndexer.Daemon

open Fold Lib

variable {sha256 : Bytes → Hash256} {ripemd160 : Hash256 → H160} {f : SigCheck}

/-- The signature verifies under the key. -/
def ASig.VerifiedBy (f : SigCheck) (sighash : Hash256) (sig : ASig) (key : Bytes) : Prop :=
  f.verify sighash sig.r sig.s key = true

/-- An assignment of the signatures, in order, to keys that verify them. -/
structure Assignment (f : SigCheck) (sighash : Hash256) (sigs : List ASig) (keys : List Bytes) where
  keyOf : Fin sigs.length → Fin keys.length
  increasing : StrictMono keyOf
  verified : ∀ i, (sigs.get i).VerifiedBy f sighash (keys.get (keyOf i))

/-- Some of the keys, in order, verify the signatures one by one. -/
def Verifiable (f : SigCheck) (sighash : Hash256) (sigs : List ASig) (keys : List Bytes) : Prop :=
  ∃ used, List.Sublist used keys ∧ List.Forall₂ (ASig.VerifiedBy f sighash) sigs used

variable {sighash : Hash256}

/-- The exchange: a signature that its first key verifies can be given that key. -/
theorem verifiable_cons_of_verified {sig : ASig} {sigs : List ASig} {key : Bytes}
    {keys : List Bytes} (h : sig.VerifiedBy f sighash key) :
    Verifiable f sighash (sig :: sigs) (key :: keys) ↔ Verifiable f sighash sigs keys := by
  constructor
  · rintro ⟨used, hsub, hall⟩
    cases hall with
    | @cons _ k _ used _ hrest =>
      refine ⟨used, ?_, hrest⟩
      cases hsub with
      | cons _ hsub => exact (List.sublist_cons_self k used).trans hsub
      | cons_cons _ hsub => exact hsub
  · rintro ⟨used, hsub, hall⟩
    exact ⟨key :: used, hsub.cons_cons key, .cons h hall⟩

/-- A key that does not verify the first signature verifies none that stands first. -/
theorem verifiable_cons_of_not {sig : ASig} {sigs : List ASig} {key : Bytes} {keys : List Bytes}
    (h : ¬sig.VerifiedBy f sighash key) :
    Verifiable f sighash (sig :: sigs) (key :: keys) ↔ Verifiable f sighash (sig :: sigs) keys := by
  constructor
  · rintro ⟨used, hsub, hall⟩
    refine ⟨used, ?_, hall⟩
    cases hsub with
    | cons _ hsub => exact hsub
    | cons_cons _ _ =>
      cases hall with
      | cons hfirst _ => exact absurd hfirst h
  · rintro ⟨used, hsub, hall⟩
    exact ⟨used, hsub.cons key, hall⟩

theorem scanSigs_iff_verifiable (sigs : List ASig) (keys : List Bytes) :
    scanSigs f sighash sigs keys = true ↔ Verifiable f sighash sigs keys := by
  induction keys generalizing sigs with
  | nil =>
    cases sigs with
    | nil => exact iff_of_true rfl ⟨[], .slnil, .nil⟩
    | cons sig sigs =>
      refine iff_of_false (by simp [scanSigs]) ?_
      rintro ⟨used, hsub, hall⟩
      rw [List.sublist_nil] at hsub
      subst hsub
      cases hall
  | cons key keys ih =>
    cases sigs with
    | nil => exact iff_of_true rfl ⟨[], List.nil_sublist _, .nil⟩
    | cons sig sigs =>
      unfold scanSigs
      by_cases h : f.verify sighash sig.r sig.s key = true
      · rw [if_pos h, verifiable_cons_of_verified h]
        exact ih sigs
      · rw [if_neg h, verifiable_cons_of_not h]
        exact ih (sig :: sigs)

theorem verifiable_iff_assignment (sigs : List ASig) (keys : List Bytes) :
    Verifiable f sighash sigs keys ↔ Nonempty (Assignment f sighash sigs keys) := by
  constructor
  · rintro ⟨used, hsub, hall⟩
    obtain ⟨e, he⟩ := List.sublist_iff_exists_fin_orderEmbedding_get_eq.mp hsub
    have hlen := hall.length_eq
    refine ⟨⟨fun i => e (i.cast hlen), fun i j hij => e.strictMono hij, fun i => ?_⟩⟩
    rw [← he]
    exact hall.get i.isLt (by omega)
  · rintro ⟨a⟩
    refine ⟨List.ofFn fun i => keys.get (a.keyOf i), ?_, ?_⟩
    · refine List.sublist_iff_exists_fin_orderEmbedding_get_eq.mpr
        ⟨(OrderIso.toOrderEmbedding (Fin.castOrderIso List.length_ofFn)).trans
          (OrderEmbedding.ofStrictMono a.keyOf a.increasing), fun i => ?_⟩
      rw [List.get_ofFn]
      rfl
    · refine List.forall₂_iff_get.mpr ⟨by simp, fun i hi _ => ?_⟩
      simpa using a.verified ⟨i, hi⟩

/-- The scan of the signatures succeeds, and an input with keys on the curve is found, exactly when
the signatures have an increasing assignment to keys that verify them. -/
theorem scan_found_iff (f : SigCheck) (sigs : List ASig) (keys : List Bytes) :
    (∀ sighash, scanSigs f sighash sigs keys = true ↔ Nonempty (Assignment f sighash sigs keys)) ∧
    ∀ (sha256 : Bytes → Hash256) (ripemd160 : Hash256 → H160) (t : SigTx) (k : ℕ) (redeem : Bytes)
      (res : IdxAttr), keys.all f.onCurve = true →
      attributeClaim sha256 ripemd160 f t k (.script sigs keys redeem) = .ok res →
      (res.status = .FOUND ↔ Nonempty (Assignment f res.sighash sigs keys)) := by
  have hscan : ∀ sighash, scanSigs f sighash sigs keys = true ↔
      Nonempty (Assignment f sighash sigs keys) := fun sighash =>
    (scanSigs_iff_verifiable sigs keys).trans (verifiable_iff_assignment sigs keys)
  refine ⟨hscan, fun sha256 ripemd160 t k redeem res hcurve hres => ?_⟩
  unfold attributeClaim at hres
  simp only [Claimant.credit, Claimant.sigs, Claimant.keys, Claimant.verifies, hcurve] at hres
  cases hdel : deleteSigs sigs redeem with
  | error e =>
    rw [hdel] at hres
    cases hres
  | ok scriptCode =>
    rw [hdel] at hres
    rw [← Except.ok.inj hres]
    dsimp only
    rw [← hscan]
    by_cases hs : scanSigs f (legacySighash sha256 t k scriptCode) sigs keys = true
    · simp [hs]
    · simp [hs]

end NamespaceIndexer.Daemon
