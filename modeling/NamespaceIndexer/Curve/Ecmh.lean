import NamespaceIndexer.Curve.Encode
import NamespaceIndexer.Ledger.Records
import NamespaceIndexer.Lib.Changes

/-!
# The incremental state digest (`ecmh.c`, `secp256k1.c`)

Accumulators are encoded points: what is kept of the tables is a sum in the group of the curve.
-/

namespace NamespaceIndexer.Curve

open Fold Lib ShortCurve WeierstrassCurve Changes

/-- `ECMH_H2C_TAG`. -/
def ecmhH2cTag : Bytes := [69, 67, 77, 72, 104, 50, 99, 49]

/-- `secp_ecmh_identity`. -/
def secpEcmhIdentity : Fixed 33 := zeros 33

/-- The loop of `secp_ecmh_hash` from a counter on, for a number of turns. -/
def ecmhHashFrom (sha256 : Bytes → Hash256) (pre : Bytes) : ℕ → ℕ → Option (ℕ × Fixed 33)
  | 0, _ => none
  | turns + 1, ctr =>
    let h := sha256 (ecmhH2cTag ++ pre ++ leBytes 4 ctr)
    let x := feCondSubP (be32ToLimbs h)
    let rhs := rhsCurve x
    let beta := feSqrt rhs
    if !feEq (feSqr beta) rhs then ecmhHashFrom sha256 pre turns (ctr + 1)
    else
      some (ctr, ⟨0x02 :: (limbsToBe32 x).val, by
        rw [List.length_cons, (limbsToBe32 x).property]⟩)

/-- `secp_ecmh_hash`: the counter and the point, `none` while the loop has not ended. -/
def secpEcmhHash (sha256 : Bytes → Hash256) (turns : ℕ) (pre : Bytes) : Option (ℕ × Fixed 33) :=
  ecmhHashFrom sha256 pre turns 0

/-- `secp_ecmh_negate`. -/
def secpEcmhNegate (pt : Fixed 33) : Fixed 33 :=
  if pt.val.headD 0 ≠ 0 then
    ⟨(pt.val.headD 0 ^^^ 1) :: pt.val.drop 1, by
      rw [List.length_cons, List.length_drop, pt.property]⟩
  else pt

/-- `secp_ecmh_add`. -/
def secpEcmhAdd (acc pt : Fixed 33) : Fixed 33 := ecmhSer (jacAdd (ecmhLoad acc) (ecmhLoad pt))

/-- A table's tag and the bytes of a row. -/
abbrev TaggedRow := Byte × Bytes

def tagName : Byte := 0x01
def tagCommit : Byte := 0x02
def tagMut : Byte := 0x04

/-- `ECMH_REC_TAG`, the table's tag, the row. -/
def taggedPreimage (r : TaggedRow) : Bytes := [69, 67, 77, 72, 118, 49] ++ [r.1] ++ r.2

/-- `ecmh_fold_row`. -/
def ecmhFoldRow (sha256 : Bytes → Hash256) (turns : ℕ) (acc : Fixed 33) (r : TaggedRow) :
    Option (Fixed 33) :=
  (secpEcmhHash sha256 turns (taggedPreimage r)).map fun h => secpEcmhAdd acc h.2

/-- The removal of a row: the same with `secp_ecmh_negate` first. -/
def ecmhUnfoldRow (sha256 : Bytes → Hash256) (turns : ℕ) (acc : Fixed 33) (r : TaggedRow) :
    Option (Fixed 33) :=
  (secpEcmhHash sha256 turns (taggedPreimage r)).map fun h => secpEcmhAdd acc (secpEcmhNegate h.2)

/-- One change of the rows. -/
def ecmhChange (sha256 : Bytes → Hash256) (turns : ℕ) (acc : Fixed 33) (c : Change TaggedRow) :
    Option (Fixed 33) :=
  if c.insert then ecmhFoldRow sha256 turns acc c.key else ecmhUnfoldRow sha256 turns acc c.key

/-- An accumulator kept through changes. -/
def ecmhRun (sha256 : Bytes → Hash256) (turns : ℕ) (acc : Fixed 33) (cs : List (Change TaggedRow)) :
    Option (Fixed 33) :=
  cs.foldlM (ecmhChange sha256 turns) acc

/-- The accumulator of a table, row after row. -/
def ecmhTable (sha256 : Bytes → Hash256) (turns : ℕ) (rows : List TaggedRow) : Option (Fixed 33) :=
  rows.foldlM (ecmhFoldRow sha256 turns) secpEcmhIdentity

def nameTagged (r : SmNameRow) : TaggedRow := (tagName, nameRecord r)
def commitTagged (c : SmCommit) : TaggedRow := (tagCommit, commitRecord c)
def mutTagged (m : SmMut) : TaggedRow := (tagMut, mutRecord m)

/-- What is hashed of the three accumulators. -/
def ecmhCombined (sha256 : Bytes → Hash256) (an ac am : Fixed 33) : Hash256 :=
  sha256 ([69, 67, 77, 72, 116, 111, 112, 49] ++ an.val ++ ac.val ++ am.val)

/-- `sm_state_ecmh`. -/
def smStateEcmh (sha256 : Bytes → Hash256) (turns : ℕ) (s : SmState) : Option Hash256 :=
  match ecmhTable sha256 turns (s.names.map nameTagged),
    ecmhTable sha256 turns (s.commits.map commitTagged),
    ecmhTable sha256 turns (s.muts.map mutTagged) with
  | some an, some ac, some am => some (ecmhCombined sha256 an ac am)
  | _, _, _ => none

/-! ### Accumulators as points -/

/-- The bytes of a point. -/
inductive Enc : Fixed 33 → Pt → Prop
  | infinity : Enc (zeros 33) 0
  | point {X Y : Fe} {x y : ZMod fieldP} (hX : IsF X x) (hY : IsF Y y)
      (h : (curve (7 : ZMod fieldP)).Nonsingular x y) : Enc (compress X Y) (.some x y h)

theorem compress_head (X Y : Fe) : (compress X Y).val.headD 0 = if feIsOdd Y then 0x03 else 0x02 :=
  rfl

theorem compress_head_ne_zero (X Y : Fe) : (compress X Y).val.headD 0 ≠ 0 := by
  rw [compress_head]
  cases feIsOdd Y <;> decide

theorem Enc.load {b : Fixed 33} {P : Pt} (h : Enc b P) : Rep (ecmhLoad b) P := by
  unfold ecmhLoad
  cases h with
  | infinity => exact rep_inf
  | @point X Y x y hX hY hns =>
    rw [if_neg (compress_head_ne_zero X Y), pubDecode_compress hX hY (eq_of_nonsingular hns)]
    exact rep_fromAffine hX hY hns

theorem Rep.ser {p : Jac} {P : Pt} (h : Rep p P) : Enc (ecmhSer p) P := by
  have haff := h.affine
  unfold ecmhSer
  cases h with
  | infinity hinf =>
    rw [if_pos hinf]
    exact .infinity
  | point hinf hX hY hZ hat =>
    rw [if_neg (by rw [hinf]; decide)]
    rcases haff with ⟨hzero, -⟩ | ⟨X, Y, x, y, hns, hsome, hX', hY', rfl⟩
    · exact absurd hzero hat.ne_zero
    · rw [hsome]
      exact .point hX' hY' hns

/-- A point has one encoding. -/
theorem Enc.unique {b c : Fixed 33} {P : Pt} (hb : Enc b P) (hc : Enc c P) : b = c := by
  generalize hQ : P = Q at hc
  cases hb with
  | infinity =>
    cases hc with
    | infinity => rfl
    | point hX hY hns => cases hQ
  | point hX hY hns =>
    cases hc with
    | infinity => cases hQ
    | point hX' hY' hns' =>
      rw [Affine.Point.some.injEq] at hQ
      obtain ⟨rfl, rfl⟩ := hQ
      rw [hX.unique hX', hY.unique hY']

theorem enc_identity : Enc secpEcmhIdentity 0 := .infinity

theorem Enc.add {b c : Fixed 33} {P Q : Pt} (hb : Enc b P) (hc : Enc c Q) :
    Enc (secpEcmhAdd b c) (P + Q) := (rep_add hb.load hc.load).ser

theorem Enc.negate {b : Fixed 33} {P : Pt} (h : Enc b P) : Enc (secpEcmhNegate b) (-P) := by
  unfold secpEcmhNegate
  cases h with
  | infinity => exact .infinity
  | @point X Y x y hX hY hns =>
    obtain ⟨hneg, hodd⟩ := feIsOdd_neg hY (y_ne_zero (eq_of_nonsingular hns))
    have hns' : (curve (7 : ZMod fieldP)).Nonsingular x (-y) :=
      nonsingular_of_eq (by rw [neg_sq]; exact eq_of_nonsingular hns)
    have hpt : -(Affine.Point.some x y hns) = .some x (-y) hns' := by
      rw [Affine.Point.neg_some, Affine.Point.some.injEq]
      exact ⟨rfl, negY_eq x y⟩
    have henc : secpEcmhNegate (compress X Y) = compress X (feSub feP Y) := by
      apply Subtype.ext
      unfold secpEcmhNegate
      rw [if_pos (compress_head_ne_zero X Y), compress_head]
      unfold compress
      rw [hodd]
      cases feIsOdd Y <;> rfl
    unfold secpEcmhNegate at henc
    rw [henc, hpt]
    exact .point hX hneg hns'

/-- An accumulator that decodes is a point's. -/
theorem exists_enc {b : Fixed 33} (h : secpOnCurve b.val = true) : ∃ P, Enc b P := by
  unfold secpOnCurve at h
  obtain ⟨⟨X, Y⟩, hdec⟩ := Option.isSome_iff_exists.mp h
  obtain ⟨x, y, hX, hY, hcurve, hbytes⟩ := pubDecode_some hdec
  have heq : compress X Y = b := Subtype.ext (hbytes b.property)
  rw [← heq]
  exact ⟨_, .point hX hY (nonsingular_of_eq hcurve)⟩

/-! ### Hashing to the curve -/

/-- A reduced abscissa of a curve point, with the even ordinate. -/
theorem enc_even {X : Fe} (hX : Reduced X)
    (h : feEq (feSqr (feSqrt (rhsCurve X))) (rhsCurve X) = true) {pt : Fixed 33}
    (hpt : pt.val = 0x02 :: (limbsToBe32 X).val) : ∃ P, Enc pt P := by
  obtain ⟨r, hr, -⟩ := hX.isF.rhs.sqrt
  have hr2 : r ^ 2 = toF X ^ 3 + 7 := by
    rw [pow_two]
    exact (hr.sqr.eq_iff hX.isF.rhs).mp h
  obtain ⟨hy, hpar⟩ := feWithParity_spec hr (y_ne_zero hr2) false
  have heq : compress X (feWithParity (feSqrt (rhsCurve X)) false) = pt := by
    apply Subtype.ext
    rw [hpt]
    unfold compress
    dsimp only
    rw [hpar, if_neg (by decide)]
  rw [← heq]
  rcases hy with hy | hy
  · exact ⟨_, .point hX.isF hy (nonsingular_of_eq hr2)⟩
  · exact ⟨_, .point hX.isF hy (nonsingular_of_eq (by rw [neg_sq, hr2]))⟩

theorem enc_hashFrom {sha256 : Bytes → Hash256} {pre : Bytes} {turns ctr ctr' : ℕ} {pt : Fixed 33}
    (h : ecmhHashFrom sha256 pre turns ctr = some (ctr', pt)) : ∃ P, Enc pt P := by
  induction turns generalizing ctr with
  | zero => cases h
  | succ turns ih =>
    unfold ecmhHashFrom at h
    dsimp only at h
    split at h
    · exact ih h
    · rename_i hroot
      rw [Bool.not_eq_true, Bool.not_eq_false'] at hroot
      rw [Option.some.injEq, Prod.mk.injEq] at h
      exact enc_even (reduced_feCondSubP _) hroot (congrArg Subtype.val h.2.symm)

/-- More turns find the same point. -/
theorem ecmhHashFrom_mono {sha256 : Bytes → Hash256} {pre : Bytes} {turns turns' ctr : ℕ}
    {r : ℕ × Fixed 33} (hle : turns ≤ turns') (h : ecmhHashFrom sha256 pre turns ctr = some r) :
    ecmhHashFrom sha256 pre turns' ctr = some r := by
  induction turns generalizing turns' ctr with
  | zero => cases h
  | succ turns ih =>
    obtain ⟨k, rfl⟩ : ∃ k, turns' = k + 1 := ⟨turns' - 1, by omega⟩
    unfold ecmhHashFrom at h ⊢
    dsimp only at h ⊢
    split at h
    · rename_i hc
      rw [if_pos hc]
      exact ih (by omega) h
    · rename_i hc
      rw [if_neg hc]
      exact h

/-- The point that a row is hashed to. -/
noncomputable def hashPoint (sha256 : Bytes → Hash256) (turns : ℕ) (r : TaggedRow) : Pt :=
  open Classical in
  if h : ∃ P, ∃ ctr pt, secpEcmhHash sha256 turns (taggedPreimage r) = some (ctr, pt) ∧ Enc pt P
  then h.choose else 0

theorem enc_hash {sha256 : Bytes → Hash256} {turns : ℕ} {r : TaggedRow} {ctr : ℕ} {pt : Fixed 33}
    (h : secpEcmhHash sha256 turns (taggedPreimage r) = some (ctr, pt)) :
    Enc pt (hashPoint sha256 turns r) := by
  obtain ⟨P, hP⟩ := enc_hashFrom h
  have hex : ∃ P, ∃ ctr pt, secpEcmhHash sha256 turns (taggedPreimage r) = some (ctr, pt) ∧ Enc pt P :=
    ⟨P, ctr, pt, h, hP⟩
  obtain ⟨ctr', pt', hsome, henc⟩ := hex.choose_spec
  rw [h, Option.some.injEq, Prod.mk.injEq] at hsome
  unfold hashPoint
  rw [dif_pos hex, hsome.2]
  exact henc

/-! ### Runs -/

theorem ecmhChange_enc {sha256 : Bytes → Hash256} {turns : ℕ} {acc : Fixed 33} {P : Pt}
    (hacc : Enc acc P) (c : Change TaggedRow)
    (h : (secpEcmhHash sha256 turns (taggedPreimage c.key)).isSome) :
    ∃ acc', ecmhChange sha256 turns acc c = some acc' ∧
      Enc acc' (P + c.sign • hashPoint sha256 turns c.key) := by
  obtain ⟨⟨ctr, pt⟩, hsome⟩ := Option.isSome_iff_exists.mp h
  have hpt := enc_hash hsome
  obtain ⟨ins, key⟩ := c
  cases ins with
  | true =>
    refine ⟨secpEcmhAdd acc pt, ?_, ?_⟩
    · simp [ecmhChange, ecmhFoldRow, hsome]
    · rw [sign_insert, one_smul]
      exact hacc.add hpt
  | false =>
    refine ⟨secpEcmhAdd acc (secpEcmhNegate pt), ?_, ?_⟩
    · simp [ecmhChange, ecmhUnfoldRow, hsome]
    · rw [sign_remove, neg_one_smul]
      exact hacc.add hpt.negate

/-- An accumulator stands for the sum over the changes. -/
theorem ecmhRun_enc {sha256 : Bytes → Hash256} {turns : ℕ} (cs : List (Change TaggedRow))
    (h : ∀ c ∈ cs, (secpEcmhHash sha256 turns (taggedPreimage c.key)).isSome) {acc : Fixed 33}
    {P : Pt} (hacc : Enc acc P) :
    ∃ acc', ecmhRun sha256 turns acc cs = some acc' ∧
      Enc acc' (P + signedSum (hashPoint sha256 turns) cs) := by
  induction cs generalizing acc P with
  | nil =>
    refine ⟨acc, rfl, ?_⟩
    rw [signedSum_nil, add_zero]
    exact hacc
  | cons c cs ih =>
    obtain ⟨acc₁, hstep, henc₁⟩ := ecmhChange_enc hacc c (h c List.mem_cons_self)
    obtain ⟨acc₂, hrun, henc₂⟩ := ih (fun d hd => h d (List.mem_cons_of_mem _ hd)) henc₁
    refine ⟨acc₂, ?_, ?_⟩
    · unfold ecmhRun at hrun ⊢
      rw [List.foldlM_cons, hstep]
      exact hrun
    · rw [signedSum_cons, ← add_assoc]
      exact henc₂

/-- A table's accumulator is the run that inserts its rows. -/
theorem ecmhTable_eq (sha256 : Bytes → Hash256) (turns : ℕ) (rows : List TaggedRow) :
    ecmhTable sha256 turns rows
      = ecmhRun sha256 turns secpEcmhIdentity (rows.map fun r => ⟨true, r⟩) := by
  unfold ecmhTable ecmhRun
  rw [List.foldlM_map]
  rfl

/-- Runs of the same sum end in equal bytes. -/
theorem ecmhRun_eq {sha256 : Bytes → Hash256} {turns : ℕ} {cs ds : List (Change TaggedRow)}
    (hcs : ∀ c ∈ cs, (secpEcmhHash sha256 turns (taggedPreimage c.key)).isSome)
    (hds : ∀ c ∈ ds, (secpEcmhHash sha256 turns (taggedPreimage c.key)).isSome)
    (h : signedSum (hashPoint sha256 turns) cs = signedSum (hashPoint sha256 turns) ds) :
    ∃ acc, ecmhRun sha256 turns secpEcmhIdentity cs = some acc ∧
      ecmhRun sha256 turns secpEcmhIdentity ds = some acc := by
  obtain ⟨acc, hrun, henc⟩ := ecmhRun_enc cs hcs enc_identity
  obtain ⟨acc', hrun', henc'⟩ := ecmhRun_enc ds hds enc_identity
  rw [h] at henc
  rw [henc'.unique henc] at hrun'
  exact ⟨acc, hrun, hrun'⟩

/-- A history of a table's rows ends in the table's accumulator. -/
theorem ecmhRun_history {sha256 : Bytes → Hash256} {turns : ℕ} {κ : Type} (tagged : κ → TaggedRow)
    {cs : List (Change κ)} {rows : List κ} (h : History cs rows)
    (hash : ∀ c ∈ cs, (secpEcmhHash sha256 turns (taggedPreimage (tagged c.key))).isSome) :
    ∃ acc, ecmhRun sha256 turns secpEcmhIdentity (cs.map (Change.map tagged)) = some acc ∧
      ecmhTable sha256 turns (rows.map tagged) = some acc := by
  rw [ecmhTable_eq]
  refine ecmhRun_eq ?_ ?_ ?_
  · intro c hc
    obtain ⟨d, hd, rfl⟩ := List.mem_map.mp hc
    exact hash d hd
  · intro c hc
    obtain ⟨r, hr, rfl⟩ := List.mem_map.mp hc
    obtain ⟨k, hk, rfl⟩ := List.mem_map.mp hr
    exact hash ⟨true, k⟩ (h.mem hk)
  · rw [signedSum_map, h.signedSum_eq, signedSum_inserts, List.map_map]
    rfl

/-! ### Pre-images -/

/-- A row of one of the tables. -/
inductive StateRow where
  | nameRow (r : SmNameRow)
  | commitRow (c : SmCommit)
  | mutRow (m : SmMut)

def StateRow.tagged : StateRow → TaggedRow
  | nameRow r => nameTagged r
  | commitRow c => commitTagged c
  | mutRow m => mutTagged m

/-- The row can be held in its C type. -/
def StateRow.Fits : StateRow → Prop
  | nameRow r => NameFits r
  | commitRow c => CommitFits c
  | mutRow m => MutFits m

/-- The row up to `owner_type`. -/
def StateRow.untyped : StateRow → StateRow
  | nameRow r => nameRow (NamespaceIndexer.untyped r)
  | commitRow c => commitRow c
  | mutRow m => mutRow m

theorem nameRecord_untyped (r : SmNameRow) : nameRecord (untyped r) = nameRecord r := rfl

/-- Two rows share a pre-image exactly when they agree up to `owner_type`. -/
theorem taggedPreimage_eq_iff {x y : StateRow} (hx : x.Fits) (hy : y.Fits) :
    taggedPreimage x.tagged = taggedPreimage y.tagged ↔ x.untyped = y.untyped := by
  have hpre : taggedPreimage x.tagged = taggedPreimage y.tagged ↔ x.tagged = y.tagged := by
    unfold taggedPreimage
    rw [List.append_assoc, List.append_assoc, List.append_cancel_left_eq, List.singleton_append,
      List.singleton_append, List.cons_eq_cons, Prod.ext_iff]
  rw [hpre]
  cases x with
  | nameRow r =>
    cases y with
    | nameRow q =>
      simp only [StateRow.tagged, nameTagged, StateRow.untyped, Prod.mk.injEq, true_and,
        StateRow.nameRow.injEq]
      refine ⟨fun h => Delimited.inj nameRecord_delimited hx hy h, fun h => ?_⟩
      rw [← nameRecord_untyped r, h, nameRecord_untyped]
    | commitRow c =>
      simp [StateRow.tagged, nameTagged, commitTagged, StateRow.untyped, tagName, tagCommit]
    | mutRow m =>
      simp [StateRow.tagged, nameTagged, mutTagged, StateRow.untyped, tagName, tagMut]
  | commitRow c =>
    cases y with
    | nameRow q =>
      simp [StateRow.tagged, nameTagged, commitTagged, StateRow.untyped, tagName, tagCommit]
    | commitRow d =>
      simp only [StateRow.tagged, commitTagged, StateRow.untyped, Prod.mk.injEq, true_and,
        StateRow.commitRow.injEq]
      refine ⟨fun h => Delimited.inj commitRecord_delimited hx hy h, fun h => ?_⟩
      rw [h]
    | mutRow m =>
      simp [StateRow.tagged, commitTagged, mutTagged, StateRow.untyped, tagCommit, tagMut]
  | mutRow m =>
    cases y with
    | nameRow q =>
      simp [StateRow.tagged, nameTagged, mutTagged, StateRow.untyped, tagName, tagMut]
    | commitRow c =>
      simp [StateRow.tagged, commitTagged, mutTagged, StateRow.untyped, tagCommit, tagMut]
    | mutRow n =>
      simp only [StateRow.tagged, mutTagged, StateRow.untyped, Prod.mk.injEq, true_and,
        StateRow.mutRow.injEq]
      refine ⟨fun h => Delimited.inj mutRecord_delimited hx hy h, fun h => ?_⟩
      rw [h]

/-! ### The digest -/

/-- The digest is a function of the tables: runs of the same net counts end in equal bytes, any
history of the tables ends in their digest, and what is hashed of a row is the row up to
`owner_type`. -/
theorem smStateEcmh_of_tables (sha256 : Bytes → Hash256) (turns : ℕ) :
    (∀ cs ds : List (Change TaggedRow),
      (∀ c ∈ cs ++ ds, (secpEcmhHash sha256 turns (taggedPreimage c.key)).isSome) →
      (∀ r, net cs r = net ds r) →
      ∃ acc, ecmhRun sha256 turns secpEcmhIdentity cs = some acc ∧
        ecmhRun sha256 turns secpEcmhIdentity ds = some acc) ∧
    (∀ (s : SmState) (names : List (Change SmNameRow)) (commits : List (Change SmCommit))
      (muts : List (Change SmMut)),
      History names s.names → History commits s.commits → History muts s.muts →
      (∀ c ∈ names, (secpEcmhHash sha256 turns (taggedPreimage (nameTagged c.key))).isSome) →
      (∀ c ∈ commits, (secpEcmhHash sha256 turns (taggedPreimage (commitTagged c.key))).isSome) →
      (∀ c ∈ muts, (secpEcmhHash sha256 turns (taggedPreimage (mutTagged c.key))).isSome) →
      ∃ an ac am,
        ecmhRun sha256 turns secpEcmhIdentity (names.map (Change.map nameTagged)) = some an ∧
        ecmhRun sha256 turns secpEcmhIdentity (commits.map (Change.map commitTagged)) = some ac ∧
        ecmhRun sha256 turns secpEcmhIdentity (muts.map (Change.map mutTagged)) = some am ∧
        smStateEcmh sha256 turns s = some (ecmhCombined sha256 an ac am)) ∧
    (∀ x y : StateRow, x.Fits → y.Fits →
      (taggedPreimage x.tagged = taggedPreimage y.tagged ↔ x.untyped = y.untyped)) := by
  refine ⟨?_, ?_, fun x y => taggedPreimage_eq_iff⟩
  · intro cs ds hash hnet
    exact ecmhRun_eq (fun c hc => hash c (List.mem_append_left _ hc))
      (fun c hc => hash c (List.mem_append_right _ hc)) (signedSum_eq_of_net _ hnet)
  · intro s names commits muts hnames hcommits hmuts hashN hashC hashM
    obtain ⟨an, hrunN, htabN⟩ := ecmhRun_history nameTagged hnames hashN
    obtain ⟨ac, hrunC, htabC⟩ := ecmhRun_history commitTagged hcommits hashC
    obtain ⟨am, hrunM, htabM⟩ := ecmhRun_history mutTagged hmuts hashM
    refine ⟨an, ac, am, hrunN, hrunC, hrunM, ?_⟩
    unfold smStateEcmh
    rw [htabN, htabC, htabM]

/-- The first candidate is taken when its right-hand side has a root. -/
theorem secpEcmhHash_isSome_of {sha256 : Bytes → Hash256} {pre : Bytes} {h : Hash256}
    (hsha : sha256 (ecmhH2cTag ++ pre ++ leBytes 4 0) = h) (y : ℕ)
    (hy : y * y % fieldP = (beVal h.val ^ 3 + 7) % fieldP) (turns : ℕ) :
    (secpEcmhHash sha256 (turns + 1) pre).isSome := by
  have hX : IsF (feCondSubP (be32ToLimbs h)) (beVal h.val : ZMod fieldP) := by
    refine ⟨reduced_feCondSubP _, ?_⟩
    rw [toF_feCondSubP, toF, limbVal_be32ToLimbs]
  have hroot := (feSqrt_iff hX).mpr ⟨(y : ZMod fieldP), by
    have hcast := (ZMod.natCast_eq_natCast_iff _ _ fieldP).mpr hy
    push_cast at hcast
    exact hcast.symm⟩
  subst hsha
  unfold secpEcmhHash ecmhHashFrom
  dsimp only
  rw [hroot, if_neg (by decide)]
  rfl

theorem sampleOwner_length : (List.replicate 20 (1 : Byte)).length = 20 := rfl

/-- The hash on the pre-images of two mutation rows. -/
def sampleSha (b : Bytes) : Hash256 :=
  if b = ecmhH2cTag ++ taggedPreimage (mutTagged ⟨⟨List.replicate 20 1, sampleOwner_length⟩, 1⟩) ++ leBytes 4 0 then
    ⟨[66, 197, 10, 25, 137, 255, 252, 56, 40, 164, 16, 17, 171, 220, 223, 193, 45, 9, 248, 177, 56,
      26, 85, 29, 231, 195, 133, 160, 103, 241, 21, 1], rfl⟩
  else if b = ecmhH2cTag ++ taggedPreimage (mutTagged ⟨⟨List.replicate 20 1, sampleOwner_length⟩, 2⟩) ++ leBytes 4 0
    then
    ⟨[32, 24, 86, 205, 24, 75, 65, 172, 47, 194, 156, 155, 79, 217, 7, 138, 41, 103, 253, 244, 198,
      13, 217, 222, 6, 203, 222, 64, 37, 19, 13, 90], rfl⟩
  else zeros 32

theorem sampleSha_ends {m : SmMut} (h : m = ⟨⟨List.replicate 20 1, rfl⟩, 1⟩ ∨
    m = ⟨⟨List.replicate 20 1, rfl⟩, 2⟩) :
    (secpEcmhHash sampleSha 1 (taggedPreimage (mutTagged m))).isSome := by
  rcases h with rfl | rfl
  · exact secpEcmhHash_isSome_of (if_pos rfl)
      0xc58bcd54666eb8f3d810d6695d254ca397c2ab7bb4fadb80b38eb370934d7db
      (by decide +kernel) 0
  · exact secpEcmhHash_isSome_of ((if_neg (by decide)).trans (if_pos rfl))
      0x598b3fc288550ca1c02186ee2651fcbe6b4e3ee549a300d88f0853d8588d1c8b
      (by decide +kernel) 0

/-- One mutation row kept, another inserted and removed. -/
theorem smStateEcmh_of_tables_sample :
    (∃ acc,
      ecmhRun sampleSha 1 secpEcmhIdentity
        [⟨true, mutTagged ⟨⟨List.replicate 20 1, rfl⟩, 1⟩⟩,
          ⟨true, mutTagged ⟨⟨List.replicate 20 1, rfl⟩, 2⟩⟩,
          ⟨false, mutTagged ⟨⟨List.replicate 20 1, rfl⟩, 1⟩⟩] = some acc ∧
      ecmhRun sampleSha 1 secpEcmhIdentity
        [⟨true, mutTagged ⟨⟨List.replicate 20 1, rfl⟩, 2⟩⟩] = some acc) ∧
    (∃ an ac am, ecmhRun sampleSha 1 secpEcmhIdentity [] = some an ∧
      ecmhRun sampleSha 1 secpEcmhIdentity [] = some ac ∧
      ecmhRun sampleSha 1 secpEcmhIdentity
        [⟨true, mutTagged ⟨⟨List.replicate 20 1, rfl⟩, 1⟩⟩,
          ⟨true, mutTagged ⟨⟨List.replicate 20 1, rfl⟩, 2⟩⟩,
          ⟨false, mutTagged ⟨⟨List.replicate 20 1, rfl⟩, 1⟩⟩] = some am ∧
      smStateEcmh sampleSha 1
        { smNew 0 with muts := [⟨⟨List.replicate 20 1, rfl⟩, 2⟩] }
        = some (ecmhCombined sampleSha an ac am)) ∧
    (taggedPreimage (mutTagged ⟨⟨List.replicate 20 1, rfl⟩, 1⟩)
        = taggedPreimage (mutTagged ⟨⟨List.replicate 20 1, rfl⟩, 2⟩) ↔
      (StateRow.mutRow ⟨⟨List.replicate 20 1, rfl⟩, 1⟩).untyped
        = (StateRow.mutRow ⟨⟨List.replicate 20 1, rfl⟩, 2⟩).untyped) := by
  obtain ⟨hnet, hhistory, hpre⟩ := smStateEcmh_of_tables sampleSha 1
  refine ⟨hnet _ _ ?_ ?_, ?_, hpre (.mutRow _) (.mutRow _) ?_ ?_⟩
  · intro c hc
    simp only [List.cons_append, List.nil_append, List.mem_cons, List.not_mem_nil, or_false] at hc
    rcases hc with rfl | rfl | rfl | rfl
    · exact sampleSha_ends (Or.inl rfl)
    · exact sampleSha_ends (Or.inr rfl)
    · exact sampleSha_ends (Or.inl rfl)
    · exact sampleSha_ends (Or.inr rfl)
  · intro r
    simp only [net, List.map_cons, List.map_nil, List.sum_cons, List.sum_nil, sign_insert,
      sign_remove]
    split_ifs <;> rfl
  · have hone : History (κ := SmMut) [⟨true, ⟨⟨List.replicate 20 1, rfl⟩, 1⟩⟩]
        [⟨⟨List.replicate 20 1, rfl⟩, 1⟩] := History.insert _ .nil (.refl _)
    have htwo := History.insert ⟨⟨List.replicate 20 1, rfl⟩, 2⟩ hone (.refl _)
    have hthree := History.remove ⟨⟨List.replicate 20 1, rfl⟩, 1⟩ htwo (.swap _ _ _)
    have hrun := hhistory { smNew 0 with muts := [⟨⟨List.replicate 20 1, rfl⟩, 2⟩] } [] [] _ .nil .nil
      hthree (by simp) (by simp) (by
        intro c hc
        simp only [List.cons_append, List.nil_append, List.mem_cons, List.not_mem_nil,
          or_false] at hc
        rcases hc with rfl | rfl | rfl
        · exact sampleSha_ends (Or.inl rfl)
        · exact sampleSha_ends (Or.inr rfl)
        · exact sampleSha_ends (Or.inl rfl))
    exact hrun
  · exact ⟨by norm_num, by norm_num⟩
  · exact ⟨by norm_num, by norm_num⟩

end NamespaceIndexer.Curve
