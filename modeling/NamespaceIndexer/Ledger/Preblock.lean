import NamespaceIndexer.Ledger.RefineBlock
import NamespaceIndexer.Ledger.Skip

/-!
# One sweep of `sm_preblock` over the table

The sweep reads every row once, whatever its removals move where, so it is the
map of one row function. That function at a time undoes no more and no less than
it would have at any earlier time, so two boundaries in order are the later one.
-/

namespace NamespaceIndexer

open Fold Lib

/-! ### One row -/

/-- What a boundary at time `mtp` makes of a row: its reserve, its offer, then its lease. -/
def dueRow (mtp : ℤ) (r : SmNameRow) : Option SmNameRow :=
  if mtp ≥ r.leaseExpiry then none else some (closeRow mtp r)

theorem closeRow_owned (mtp : ℤ) {r : SmNameRow} (h : r.st = .OWNED) : closeRow mtp r = r := by
  unfold closeRow closeOffer closeReserve
  simp [h]

theorem closeRow_open {mtp : ℤ} {r : SmNameRow} (h : r.st = .LISTED ∨ r.st = .OFFERED) :
    closeRow mtp r = if mtp ≥ r.offerExpiry then returnToSeller r else r := by
  have hr : closeReserve mtp r = r := by
    unfold closeReserve
    rcases h with h | h <;> simp [h]
  unfold closeRow
  rw [hr]
  unfold closeOffer
  simp [h]

/-- A reserve that is over, back on the open listing. -/
def relisted (r : SmNameRow) : SmNameRow :=
  { r with st := .LISTED, reserveExpiry := 0, burnLeg := 0, payLeg := 0, buyer := zeros 20 }

theorem closeRow_reserved {mtp : ℤ} {r : SmNameRow} (h : r.st = .RESERVED) :
    closeRow mtp r = if mtp < r.reserveExpiry then r
      else if r.reserveExpiry < r.offerExpiry then closeRow mtp (relisted r)
      else returnToSeller r := by
  have hopen : (relisted r).st = .LISTED := rfl
  have hret : (returnToSeller r).st = .OWNED := rfl
  unfold closeRow closeReserve
  by_cases h1 : mtp < r.reserveExpiry
  · rw [if_pos h1, if_neg (by omega)]
    unfold closeOffer
    simp [h]
  · rw [if_neg h1, if_pos ⟨h, by omega⟩]
    by_cases h2 : r.reserveExpiry < r.offerExpiry
    · rw [if_pos h2, if_pos h2]
      simp [hopen]
      rfl
    · rw [if_neg h2, if_neg h2]
      unfold closeOffer
      simp [hret]

theorem closeRow_closeRow {m₁ m₂ : ℤ} (hm : m₁ ≤ m₂) (r : SmNameRow) :
    closeRow m₂ (closeRow m₁ r) = closeRow m₂ r := by
  have hopen : ∀ r : SmNameRow, r.st = .LISTED ∨ r.st = .OFFERED →
      closeRow m₂ (closeRow m₁ r) = closeRow m₂ r := by
    intro r h
    have h₂ : closeRow m₂ r = if m₂ ≥ r.offerExpiry then returnToSeller r else r := closeRow_open h
    rw [closeRow_open h]
    by_cases h1 : m₁ ≥ r.offerExpiry
    · rw [if_pos h1, closeRow_owned m₂ rfl, h₂, if_pos (by omega)]
    · rw [if_neg h1]
  cases h : r.st with
  | OWNED => rw [closeRow_owned m₁ h]
  | LISTED => exact hopen r (Or.inl h)
  | OFFERED => exact hopen r (Or.inr h)
  | RESERVED =>
    have h₂ : closeRow m₂ r = if m₂ < r.reserveExpiry then r
        else if r.reserveExpiry < r.offerExpiry then closeRow m₂ (relisted r)
        else returnToSeller r := closeRow_reserved h
    rw [closeRow_reserved h]
    by_cases h1 : m₁ < r.reserveExpiry
    · rw [if_pos h1]
    · have hlater : ¬ m₂ < r.reserveExpiry := by omega
      rw [if_neg h1, h₂, if_neg hlater]
      by_cases h2 : r.reserveExpiry < r.offerExpiry
      · rw [if_pos h2, if_pos h2]
        exact hopen (relisted r) (Or.inl rfl)
      · rw [if_neg h2, if_neg h2, closeRow_owned m₂ rfl]

/-- The later boundary does all that the earlier one would have. -/
theorem dueRow_dueRow {m₁ m₂ : ℤ} (hm : m₁ ≤ m₂) (r : SmNameRow) :
    (dueRow m₁ r).bind (dueRow m₂) = dueRow m₂ r := by
  unfold dueRow
  by_cases h1 : m₁ ≥ r.leaseExpiry
  · rw [if_pos h1, if_pos (by omega)]
    rfl
  · rw [if_neg h1, Option.bind_some, closeRow_leaseExpiry, closeRow_closeRow hm]

/-! ### The sweep -/

/-- The rows that the name loop reads, in its order. -/
def preblockReads (height mtp : ℤ) : ℕ → SmState → ℕ → List SmNameRow
  | 0, _, _ => []
  | fuel + 1, s, i =>
    if i < s.names.length then
      s.row i :: preblockReads height mtp fuel (preblockStep height mtp s i).1
        (preblockStep height mtp s i).2
    else []

/-- One iteration: the row behind `p` is settled, and what is left ahead is only reordered. -/
theorem preblockStep_names (height mtp : ℤ) {s : SmState} {p q : List SmNameRow} {r : SmNameRow}
    (h : s.names = p ++ r :: q) :
    ∃ q', q'.Perm q ∧
      (preblockStep height mtp s p.length).1.names = p ++ (dueRow mtp r).toList ++ q' ∧
      (preblockStep height mtp s p.length).2 = (p ++ (dueRow mtp r).toList).length := by
  have hsplit : (s.setRow p.length (closeRow mtp r)).names = p ++ closeRow mtp r :: q := by
    change s.names.set _ _ = _
    rw [h, List.set_append_right _ _ (Nat.le_refl _)]
    simp
  unfold preblockStep dueRow
  simp only [row_of_split h, closeRow_leaseExpiry]
  by_cases hl : mtp ≥ r.leaseExpiry
  · rw [if_pos hl, if_pos hl]
    obtain ⟨q', hq', hswap⟩ := RowTable.swapRemove_append p (closeRow mtp r) q
    refine ⟨q', hq', ?_, by simp⟩
    change RowTable.swapRemove (smBumpMutation _ _ _).names p.length = _
    rw [names_smBumpMutation, hsplit, hswap]
    simp
  · rw [if_neg hl, if_neg hl]
    refine ⟨q, List.Perm.refl q, ?_, by simp⟩
    rw [hsplit]
    simp

theorem preblockLoop_names (height mtp : ℤ) (fuel : ℕ) {s : SmState} {p q : List SmNameRow}
    (h : s.names = p ++ q) (hf : q.length ≤ fuel) :
    (preblockReads height mtp fuel s p.length).Perm q ∧
      (preblockLoop height mtp fuel s p.length).names.Perm (p ++ q.filterMap (dueRow mtp)) := by
  induction fuel generalizing s p q with
  | zero =>
    have hq : q = [] := List.length_eq_zero_iff.mp (by omega)
    subst hq
    exact ⟨List.Perm.refl _, by unfold preblockLoop; rw [h]; simp⟩
  | succ fuel ih =>
    unfold preblockReads preblockLoop
    cases q with
    | nil =>
      rw [if_neg (by rw [h]; simp), if_neg (by rw [h]; simp), h]
      exact ⟨List.Perm.refl _, by simp⟩
    | cons r q =>
      rw [if_pos (by rw [h]; simp), if_pos (by rw [h]; simp), row_of_split h]
      obtain ⟨q', hq', hnames, hnext⟩ := preblockStep_names height mtp h
      have hlen : q'.length ≤ fuel := by
        rw [hq'.length_eq]
        simp only [List.length_cons] at hf
        omega
      obtain ⟨hreads, hrest⟩ := ih hnames hlen
      rw [← hnext] at hreads hrest
      refine ⟨(hreads.trans hq').cons r, hrest.trans ?_⟩
      rw [List.append_assoc]
      refine List.Perm.append_left p ?_
      have hhead : (r :: q).filterMap (dueRow mtp)
          = (dueRow mtp r).toList ++ q.filterMap (dueRow mtp) := by
        cases hd : dueRow mtp r <;> simp [hd]
      rw [hhead]
      exact (hq'.filterMap _).append_left _

theorem preblockStep_lapses (height mtp : ℤ) {s : SmState} {p q : List SmNameRow} {r : SmNameRow}
    (h : s.names = p ++ r :: q) :
    (preblockStep height mtp s p.length).1.ev .LAPSE
      = s.ev .LAPSE + if mtp ≥ r.leaseExpiry then 1 else 0 := by
  have hbump : ∀ (s : SmState) (who : H160), (smBumpMutation s who height).ev = s.ev := by
    intro s who
    unfold smBumpMutation
    split
    · split <;> rfl
    · rfl
  unfold preblockStep
  simp only [row_of_split h, closeRow_leaseExpiry]
  split
  · change (smBumpMutation _ _ _).ev .LAPSE + 1 = _
    rw [hbump]
    rfl
  · rfl

/-- Every lease that is over is counted. -/
theorem preblockLoop_lapses (height mtp : ℤ) (fuel : ℕ) {s : SmState} {p q : List SmNameRow}
    (h : s.names = p ++ q) (hf : q.length ≤ fuel) :
    (preblockLoop height mtp fuel s p.length).ev .LAPSE
      = s.ev .LAPSE + (q.filter fun r => mtp ≥ r.leaseExpiry).length := by
  induction fuel generalizing s p q with
  | zero =>
    have hq : q = [] := List.length_eq_zero_iff.mp (by omega)
    subst hq
    rfl
  | succ fuel ih =>
    unfold preblockLoop
    cases q with
    | nil =>
      rw [if_neg (by rw [h]; simp)]
      rfl
    | cons r q =>
      rw [if_pos (by rw [h]; simp)]
      obtain ⟨q', hq', hnames, hnext⟩ := preblockStep_names height mtp h
      have hlen : q'.length ≤ fuel := by
        rw [hq'.length_eq]
        simp only [List.length_cons] at hf
        omega
      have hrest := ih hnames hlen
      rw [← hnext, preblockStep_lapses height mtp h,
        (hq'.filter fun r => mtp ≥ r.leaseExpiry).length_eq] at hrest
      refine hrest.trans ?_
      rw [List.filter_cons]
      by_cases hl : mtp ≥ r.leaseExpiry
      · rw [if_pos hl, if_pos (decide_eq_true hl), List.length_cons]
        omega
      · rw [if_neg hl, if_neg (by simpa using hl)]
        omega

/-- A block start that counts no lapse ends no lease. -/
theorem noLapse_of_ev {s : SmState} {height mtp : ℤ} {rate : UInt64}
    (h : (smBeginBlock s height mtp rate).ev .LAPSE = s.ev .LAPSE) : NoLapse s mtp := by
  have hcount := preblockLoop_lapses height mtp s.names.length (p := []) (q := s.names) rfl le_rfl
  have hev : (smBeginBlock s height mtp rate).ev .LAPSE
      = (preblockLoop height mtp s.names.length s 0).ev .LAPSE := rfl
  rw [List.length_nil] at hcount
  rw [hev, hcount] at h
  have hnone : (s.names.filter fun r => mtp ≥ r.leaseExpiry) = [] :=
    List.length_eq_zero_iff.mp (by omega)
  intro r hr
  have hno := List.filter_eq_nil_iff.mp hnone r hr
  simpa using hno

/-- More fuel than rows changes nothing: the loop has ended. -/
theorem preblockLoop_fuel (height mtp : ℤ) {fuel fuel' : ℕ} {s : SmState} {p q : List SmNameRow}
    (h : s.names = p ++ q) (hf : q.length ≤ fuel) (hle : fuel ≤ fuel') :
    preblockLoop height mtp fuel' s p.length = preblockLoop height mtp fuel s p.length := by
  induction fuel generalizing fuel' s p q with
  | zero =>
    have hq : q = [] := List.length_eq_zero_iff.mp (by omega)
    subst hq
    cases fuel' with
    | zero => rfl
    | succ fuel' =>
      unfold preblockLoop
      rw [if_neg (by rw [h]; simp)]
  | succ fuel ih =>
    obtain ⟨k, rfl⟩ := Nat.exists_eq_add_of_le hle
    rw [show fuel + 1 + k = fuel + k + 1 by omega]
    unfold preblockLoop
    cases q with
    | nil => rw [if_neg (by rw [h]; simp), if_neg (by rw [h]; simp)]
    | cons r q =>
      rw [if_pos (by rw [h]; simp), if_pos (by rw [h]; simp)]
      obtain ⟨q', hq', hnames, hnext⟩ := preblockStep_names height mtp h
      have hlen : q'.length ≤ fuel := by
        rw [hq'.length_eq]
        simp only [List.length_cons] at hf
        omega
      have hih := ih hnames hlen (Nat.le_add_right fuel k)
      rw [← hnext] at hih
      exact hih

/-! ### Two boundaries -/

/-- The names and commits after `sm_preblock`, up to order. -/
theorem smPreblock_tables (s : SmState) (height mtp : ℤ) :
    (smPreblock s height mtp).names.Perm (s.names.filterMap (dueRow mtp)) ∧
      (smPreblock s height mtp).commits.Perm
        (s.commits.filter fun c => ¬ mtp > c.commitTime + commitExpiry) := by
  have hcommits : ∀ fuel (s : SmState) i,
      (preblockLoop height mtp fuel s i).commits = s.commits := by
    intro fuel
    induction fuel with
    | zero => exact fun _ _ => rfl
    | succ fuel ih =>
      intro s i
      unfold preblockLoop
      split
      · rw [ih]
        unfold preblockStep
        simp only
        split
        · change (smBumpMutation _ _ _).commits = _
          unfold smBumpMutation
          split
          · split <;> rfl
          · rfl
        · rfl
      · rfl
  constructor
  · exact (preblockLoop_names height mtp s.names.length (p := []) (q := s.names) rfl le_rfl).2
  · unfold smPreblock
    simp only [hcommits]
    exact pruneCommits_perm mtp s.commits.length [] s.commits le_rfl

/-- Two boundaries in order leave the tables of the later one alone; and one boundary reads every
row once and settles it by itself. -/
theorem smPreblock_compose (s : SmState) (h₁ h₂ : ℤ) {m₁ m₂ : ℤ} (hm : m₁ ≤ m₂) :
    (smPreblock (smPreblock s h₁ m₁) h₂ m₂).names.Perm (smPreblock s h₂ m₂).names ∧
    (smPreblock (smPreblock s h₁ m₁) h₂ m₂).commits.Perm (smPreblock s h₂ m₂).commits ∧
    ∀ height mtp : ℤ,
      (preblockReads height mtp s.names.length s 0).Perm s.names ∧
      (smPreblock s height mtp).names.Perm
        ((preblockReads height mtp s.names.length s 0).filterMap (dueRow mtp)) ∧
      ∀ fuel ≥ s.names.length,
        preblockLoop height mtp fuel s 0 = preblockLoop height mtp s.names.length s 0 := by
  obtain ⟨hn₁, hc₁⟩ := smPreblock_tables s h₁ m₁
  obtain ⟨hn₂, hc₂⟩ := smPreblock_tables s h₂ m₂
  obtain ⟨hn, hc⟩ := smPreblock_tables (smPreblock s h₁ m₁) h₂ m₂
  refine ⟨?_, ?_, fun height mtp => ?_⟩
  · refine (hn.trans (hn₁.filterMap _)).trans (List.Perm.trans ?_ hn₂.symm)
    rw [List.filterMap_filterMap]
    simp only [dueRow_dueRow hm]
    exact List.Perm.refl _
  · refine (hc.trans (hc₁.filter _)).trans (List.Perm.trans ?_ hc₂.symm)
    rw [List.filter_filter]
    refine List.Perm.of_eq (List.filter_congr fun c _ => ?_)
    rw [← Bool.decide_and, decide_eq_decide]
    omega
  · have hreads := (preblockLoop_names height mtp s.names.length (p := []) (q := s.names)
      rfl le_rfl).1
    refine ⟨hreads, (smPreblock_tables s height mtp).1.trans (hreads.symm.filterMap _), ?_⟩
    intro fuel hfuel
    exact preblockLoop_fuel height mtp (p := []) (q := s.names) rfl le_rfl hfuel

/-- A reserve inside its offer, and a lease that ends between the two. -/
def twoDue : SmState :=
  { activationHeight := 0
    names := [{ name := [97], leaseExpiry := 150 },
      { name := [98], leaseExpiry := 9000, st := .RESERVED, price := 1000, offerExpiry := 200,
        reserveExpiry := 100 }] }

theorem smPreblock_compose_sample :
    (smPreblock (smPreblock twoDue 1 160) 2 250).names.Perm (smPreblock twoDue 2 250).names ∧
      (smPreblock twoDue 1 160).names =
        [{ name := [98], leaseExpiry := 9000, st := .LISTED, price := 1000, offerExpiry := 200 }] ∧
      (preblockReads 1 160 2 twoDue 0).Perm twoDue.names := by
  obtain ⟨hn, -, hreads⟩ := smPreblock_compose twoDue 1 2 (show (160 : ℤ) ≤ 250 by decide)
  exact ⟨hn, by decide, (hreads 1 160).1⟩

end NamespaceIndexer
