import Mathlib.Data.List.GetD
import NamespaceIndexer.Daemon.NetPolicy

/-!
# The table of bans (`net_policy.c`)

A ban lasts a day. The table is bounded: when it is full the ban that ends first makes room.
-/

namespace NamespaceIndexer.Daemon

open Fold

def idxBanScore : ℤ := 100
def idxBanS : ℤ := 24 * 3600
def idxBanCap : ℕ := 4096

/-- A row of `g_ban`; the address is a string of at most 45 bytes. -/
structure Ban where
  ip : Bytes
  until_ : ℤ
  deriving DecidableEq

/-- `ban_gc`. -/
def banGc (bans : List Ban) (now : ℤ) : List Ban := bans.filter fun b => now < b.until_

/-- `net_policy_banned`: the table behind it, and the answer. -/
def netPolicyBanned (bans : List Ban) (ip : Bytes) (now : ℤ) : List Ban × Bool :=
  if ip = [] then (bans, false) else (banGc bans now, (banGc bans now).any fun b => b.ip = ip)

/-- The index of the first row that ends first. -/
def oldestBan (bans : List Ban) : ℕ :=
  (List.range' 1 (bans.length - 1)).foldl
    (fun oldest i =>
      if (bans.getD i ⟨[], 0⟩).until_ < (bans.getD oldest ⟨[], 0⟩).until_ then i else oldest) 0

/-- The last row is moved over the one that ends first. -/
def evictBan (bans : List Ban) : List Ban :=
  (bans.set (oldestBan bans) (bans.getD (bans.length - 1) ⟨[], 0⟩)).dropLast

/-- `net_policy_ban`. -/
def netPolicyBan (bans : List Ban) (ip : Bytes) (now : ℤ) : List Ban :=
  if ip = [] then bans
  else
    let bans := banGc bans now
    match bans.findIdx? fun b => b.ip = ip with
    | some i => bans.set i ⟨(bans.getD i ⟨[], 0⟩).ip, now + idxBanS⟩
    | none =>
      let bans := if idxBanCap ≤ bans.length then evictBan bans else bans
      bans ++ [⟨ip.take 45, now + idxBanS⟩]

/-- `net_policy_score_add`: the score, and whether this was the one that reached 100. -/
def netPolicyScoreAdd (score n : ℤ) : ℤ × Bool :=
  if n ≤ 0 then (score, false)
  else
    let after := if idxBanScore * 4 < score + n then idxBanScore * 4 else score + n
    (after, score < idxBanScore ∧ idxBanScore ≤ after)

theorem netPolicyScoreAdd_low {score n : ℤ} (hn : 0 < n) (hlow : score + n < 100) :
    netPolicyScoreAdd score n = (score + n, false) := by
  unfold netPolicyScoreAdd idxBanScore
  simp only [not_le.mpr hn, if_false, if_neg (show ¬ (100 * 4 : ℤ) < score + n by omega)]
  simp [hlow]

theorem netPolicyScoreAdd_high {score n : ℤ} (hn : 0 < n) (hlow : score < 100) (hhigh : 100 ≤ score + n) :
    ∃ after, netPolicyScoreAdd score n = (after, true) := by
  refine ⟨_, Prod.ext rfl ?_⟩
  unfold netPolicyScoreAdd idxBanScore
  simp only [not_le.mpr hn, if_false]
  refine decide_eq_true ⟨hlow, ?_⟩
  split <;> omega

/-! ### The row that makes room -/

/-- The loop of the eviction ends with the index of a row that ends first. -/
theorem oldestBan_spec {bans : List Ban} (hne : bans ≠ []) :
    ∃ h : oldestBan bans < bans.length, ∀ b ∈ bans, bans[oldestBan bans].until_ ≤ b.until_ := by
  have hpos : 0 < bans.length := List.length_pos_iff.mpr hne
  -- after `k` turns the index is that of a row which ends no later than the first `k + 1` do
  have hloop : ∀ k, k < bans.length →
      let o := (List.range' 1 k).foldl
        (fun oldest i =>
          if (bans.getD i ⟨[], 0⟩).until_ < (bans.getD oldest ⟨[], 0⟩).until_ then i else oldest) 0
      o ≤ k ∧ ∀ j ≤ k, (bans.getD o ⟨[], 0⟩).until_ ≤ (bans.getD j ⟨[], 0⟩).until_ := by
    intro k
    induction k with
    | zero =>
      intro _
      exact ⟨le_rfl, fun j hj => by rw [Nat.le_zero.mp hj]; exact le_rfl⟩
    | succ k ih =>
      intro hk
      obtain ⟨hle, hmin⟩ := ih (by omega)
      rw [List.range'_concat, List.foldl_append]
      simp only [List.foldl_cons, List.foldl_nil, Nat.one_mul]
      split
      · rename_i hlt
        refine ⟨by omega, fun j hj => ?_⟩
        by_cases hjk : j ≤ k
        · exact hlt.le.trans (hmin j hjk)
        · rw [show j = 1 + k by omega]
      · rename_i hge
        refine ⟨by omega, fun j hj => ?_⟩
        by_cases hjk : j ≤ k
        · exact hmin j hjk
        · rw [show j = 1 + k by omega]
          exact not_lt.mp hge
  obtain ⟨hle, hmin⟩ := hloop (bans.length - 1) (by omega)
  change oldestBan bans ≤ _ at hle
  change ∀ j ≤ _, (bans.getD (oldestBan bans) ⟨[], 0⟩).until_ ≤ _ at hmin
  have hlt : oldestBan bans < bans.length := by omega
  refine ⟨hlt, fun b hb => ?_⟩
  obtain ⟨j, hj, rfl⟩ := List.getElem_of_mem hb
  have h := hmin j (by omega)
  rwa [List.getD_eq_getElem _ _ hlt, List.getD_eq_getElem _ _ hj] at h

/-- One row goes, and none ends before it. -/
theorem evictBan_perm {bans : List Ban} (hne : bans ≠ []) :
    ∃ o, bans.Perm (o :: evictBan bans) ∧ ∀ b ∈ evictBan bans, o.until_ ≤ b.until_ := by
  obtain ⟨hlt, hmin⟩ := oldestBan_spec hne
  have hperm : bans.Perm (bans[oldestBan bans] :: evictBan bans) := by
    unfold evictBan
    generalize oldestBan bans = o at hlt
    obtain ⟨front, z, rfl⟩ : ∃ front z, bans = front ++ [z] :=
      ⟨_, _, (List.dropLast_append_getLast hne).symm⟩
    have hz : (front ++ [z]).getD ((front ++ [z]).length - 1) ⟨[], 0⟩ = z := by simp
    rw [hz]
    by_cases ho : o < front.length
    · rw [List.set_append_left _ _ ho, List.dropLast_concat, List.getElem_append_left ho]
      refine (List.perm_append_singleton z front).trans ?_
      refine ((List.getElem_cons_eraseIdx_perm ho).symm.cons z).trans ?_
      exact (List.Perm.swap ..).trans ((List.set_perm_cons_eraseIdx ho z).symm.cons _)
    · have heq : o = front.length := by
        rw [List.length_append, List.length_singleton] at hlt
        omega
      subst heq
      have hset : (front ++ [z]).set front.length z = front ++ [z] := by simp
      rw [hset, List.dropLast_concat]
      simp
  exact ⟨_, hperm, fun b hb => hmin b (hperm.mem_iff.mpr (List.mem_cons_of_mem _ hb))⟩

/-- What a ban does to the table, after the rows that have ended are gone: the row of the address is new
or set anew, and a row that ends first makes room where there is none. -/
theorem netPolicyBan_perm {bans : List Ban} {ip : Bytes} (now : ℤ) (hnodup : (bans.map Ban.ip).Nodup)
    (hne : ip ≠ []) (hlen : ip.length ≤ 45) :
    ∃ rest, (netPolicyBan bans ip now).Perm (⟨ip, now + idxBanS⟩ :: rest) ∧
      (∀ b ∈ rest, b.ip ≠ ip) ∧
      ((∃ old, old.ip = ip ∧ (banGc bans now).Perm (old :: rest)) ∨
        (rest = banGc bans now ∧ rest.length < idxBanCap) ∨
        ∃ o, o.ip ≠ ip ∧ (banGc bans now).Perm (o :: rest) ∧ idxBanCap ≤ (banGc bans now).length ∧
          ∀ b ∈ rest, o.until_ ≤ b.until_) := by
  have hgc : ((banGc bans now).map Ban.ip).Nodup := hnodup.sublist (List.filter_sublist.map _)
  unfold netPolicyBan
  rw [if_neg hne, List.take_of_length_le hlen]
  generalize banGc bans now = g at hgc
  dsimp only
  cases hfind : g.findIdx? fun b => b.ip = ip with
  | some i =>
    obtain ⟨hi, hip, -⟩ := List.findIdx?_eq_some_iff_getElem.mp hfind
    have hip := of_decide_eq_true hip
    dsimp only
    rw [List.getD_eq_getElem _ _ hi, hip]
    have hperm := List.getElem_cons_eraseIdx_perm hi
    refine ⟨g.eraseIdx i, List.set_perm_cons_eraseIdx hi _, fun b hb heq => ?_,
      Or.inl ⟨_, hip, hperm.symm⟩⟩
    rw [(hperm.map Ban.ip).nodup_iff.symm, List.map_cons, List.nodup_cons] at hgc
    exact hgc.1 (by rw [hip, ← heq]; exact List.mem_map_of_mem hb)
  | none =>
    have hnone : ∀ b ∈ g, b.ip ≠ ip := fun b hb => by
      simpa using List.findIdx?_eq_none_iff.mp hfind b hb
    dsimp only
    by_cases hfull : idxBanCap ≤ g.length
    · rw [if_pos hfull]
      have hg : g ≠ [] := List.ne_nil_of_length_pos (Nat.lt_of_lt_of_le (by decide) hfull)
      obtain ⟨o, hperm, hmin⟩ := evictBan_perm hg
      exact ⟨_, List.perm_append_singleton .., fun b hb => hnone b (hperm.mem_iff.mpr
        (List.mem_cons_of_mem _ hb)), Or.inr (Or.inr ⟨o, hnone o (hperm.mem_iff.mpr
        List.mem_cons_self), hperm, hfull, hmin⟩)⟩
    · rw [if_neg hfull]
      exact ⟨_, List.perm_append_singleton .., hnone, Or.inr (Or.inl ⟨rfl, not_le.mp hfull⟩)⟩

/-! ### Runs -/

/-- Addresses other than that of `e` that were banned at its time or later. -/
def rivals (hist : List (Bytes × ℤ)) (e : Bytes × ℤ) : Finset Bytes :=
  ((hist.filter fun x => x.1 ≠ e.1 ∧ e.2 ≤ x.2).map Prod.fst).toFinset

/-- The table after the bans of `hist`: a row is about the last ban of its address, and an address
whose ban lasts has a row, or the table has been filled by others since. -/
structure BansOk (hist : List (Bytes × ℤ)) (now : ℤ) (bans : List Ban) : Prop where
  nodup : (bans.map Ban.ip).Nodup
  cap : bans.length ≤ idxBanCap
  past : ∀ e ∈ hist, e.2 ≤ now
  last : ∀ b ∈ bans, ∃ t, b.until_ = t + idxBanS ∧ (b.ip, t) ∈ hist ∧ ∀ t', (b.ip, t') ∈ hist → t' ≤ t
  kept : ∀ e ∈ hist, now < e.2 + idxBanS →
    (∃ b ∈ bans, b.ip = e.1) ∨ idxBanCap ≤ (rivals hist e).card

theorem mem_rivals {hist : List (Bytes × ℤ)} {e : Bytes × ℤ} {ip : Bytes} :
    ip ∈ rivals hist e ↔ ip ≠ e.1 ∧ ∃ t, e.2 ≤ t ∧ (ip, t) ∈ hist := by
  unfold rivals
  rw [List.mem_toFinset, List.mem_map]
  constructor
  · rintro ⟨⟨x, t⟩, hx, rfl⟩
    obtain ⟨hin, hand⟩ := List.mem_filter.mp hx
    have hand := of_decide_eq_true hand
    exact ⟨hand.1, t, hand.2, hin⟩
  · rintro ⟨hne, t, ht, hin⟩
    exact ⟨(ip, t), List.mem_filter.mpr ⟨hin, decide_eq_true ⟨hne, ht⟩⟩, rfl⟩

namespace BansOk

variable {hist : List (Bytes × ℤ)} {now now' : ℤ} {bans : List Ban}

theorem empty (now : ℤ) : BansOk [] now [] where
  nodup := List.nodup_nil
  cap := Nat.zero_le _
  past _ h := absurd h List.not_mem_nil
  last _ h := absurd h List.not_mem_nil
  kept _ h := absurd h List.not_mem_nil

theorem later (h : BansOk hist now bans) (hle : now ≤ now') : BansOk hist now' bans where
  nodup := h.nodup
  cap := h.cap
  past e he := (h.past e he).trans hle
  last := h.last
  kept e he hlive := h.kept e he (by omega)

theorem gc (h : BansOk hist now bans) (hle : now ≤ now') : BansOk hist now' (banGc bans now') where
  nodup := h.nodup.sublist (List.filter_sublist.map _)
  cap := (List.length_filter_le ..).trans h.cap
  past e he := (h.past e he).trans hle
  last b hb := h.last b (List.mem_of_mem_filter hb)
  kept e he hlive := by
    rcases h.kept e he (by omega) with ⟨b, hb, hip⟩ | hcard
    · obtain ⟨t, hu, -, hmax⟩ := h.last b hb
      have ht := hmax e.2 (by rw [hip]; exact he)
      exact Or.inl ⟨b, List.mem_filter.mpr ⟨hb, decide_eq_true (by omega)⟩, hip⟩
    · exact Or.inr hcard

/-- The addresses of a table that was full when the row of `e` made room, and the new one. -/
theorem card_rivals {ip : Bytes} {o : Ban} {rest : List Ban} {e : Bytes × ℤ}
    (h : BansOk hist now' bans) (hperm : bans.Perm (o :: rest)) (hfull : idxBanCap ≤ bans.length)
    (hmin : ∀ b ∈ rest, o.until_ ≤ b.until_) (hnew : ∀ b ∈ rest, b.ip ≠ ip) (hip : o.ip ≠ ip)
    (he : e ∈ hist) (heo : o.ip = e.1) : idxBanCap ≤ (rivals ((ip, now') :: hist) e).card := by
  have hnodup := (hperm.map Ban.ip).nodup_iff.mp h.nodup
  rw [List.map_cons, List.nodup_cons] at hnodup
  obtain ⟨t, hu, -, hmax⟩ := h.last o (hperm.mem_iff.mpr List.mem_cons_self)
  have het := hmax e.2 (by rw [heo]; exact he)
  have hnodup' : (ip :: rest.map Ban.ip).Nodup := List.nodup_cons.mpr ⟨fun hin => by
    obtain ⟨b, hb, hbip⟩ := List.mem_map.mp hin
    exact hnew b hb hbip, hnodup.2⟩
  have hsub : (ip :: rest.map Ban.ip).toFinset ⊆ rivals ((ip, now') :: hist) e := by
    intro x hx
    rw [mem_rivals]
    rcases List.mem_cons.mp (List.mem_toFinset.mp hx) with rfl | hx
    · exact ⟨fun heq => hip (heo.trans heq.symm), now', h.past e he, List.mem_cons_self⟩
    · obtain ⟨b, hb, rfl⟩ := List.mem_map.mp hx
      obtain ⟨t', hu', hin, -⟩ := h.last b (hperm.mem_iff.mpr (List.mem_cons_of_mem _ hb))
      have hle := hmin b hb
      refine ⟨fun heq => hnodup.1 ?_, t', by omega, List.mem_cons_of_mem _ hin⟩
      rw [heo, ← heq]
      exact List.mem_map_of_mem hb
  have hcard := Finset.card_le_card hsub
  rw [List.toFinset_card_of_nodup hnodup', List.length_cons, List.length_map] at hcard
  have hlen := hperm.length_eq
  rw [List.length_cons] at hlen
  omega

theorem ban (h : BansOk hist now bans) (hle : now ≤ now') {ip : Bytes} (hne : ip ≠ [])
    (hlen : ip.length ≤ 45) : BansOk ((ip, now') :: hist) now' (netPolicyBan bans ip now') := by
  obtain ⟨rest, hperm, hothers, hcase⟩ := netPolicyBan_perm now' h.nodup hne hlen
  have hgc := h.gc hle
  have hrest : ∀ b ∈ rest, b ∈ banGc bans now' := by
    rcases hcase with ⟨old, -, hp⟩ | ⟨rfl, -⟩ | ⟨o, -, hp, -⟩
    · exact fun b hb => hp.mem_iff.mpr (List.mem_cons_of_mem _ hb)
    · exact fun b hb => hb
    · exact fun b hb => hp.mem_iff.mpr (List.mem_cons_of_mem _ hb)
  have hnodup : (rest.map Ban.ip).Nodup := by
    rcases hcase with ⟨old, -, hp⟩ | ⟨rfl, -⟩ | ⟨o, -, hp, -⟩
    · exact (List.nodup_cons.mp ((hp.map Ban.ip).nodup_iff.mp hgc.nodup)).2
    · exact hgc.nodup
    · exact (List.nodup_cons.mp ((hp.map Ban.ip).nodup_iff.mp hgc.nodup)).2
  refine ⟨?_, ?_, fun e he => ?_, fun b hb => ?_, fun e he hlive => ?_⟩
  · rw [(hperm.map Ban.ip).nodup_iff, List.map_cons, List.nodup_cons]
    refine ⟨fun hin => ?_, hnodup⟩
    obtain ⟨b, hb, hip⟩ := List.mem_map.mp hin
    exact hothers b hb hip
  · have hcap := hgc.cap
    rw [hperm.length_eq, List.length_cons]
    rcases hcase with ⟨old, -, hp⟩ | ⟨-, hroom⟩ | ⟨o, -, hp, -⟩
    · rwa [hp.length_eq, List.length_cons] at hcap
    · exact hroom
    · rwa [hp.length_eq, List.length_cons] at hcap
  · rcases List.mem_cons.mp he with rfl | he
    · exact le_rfl
    · exact hgc.past e he
  · rcases List.mem_cons.mp (hperm.mem_iff.mp hb) with rfl | hb
    · refine ⟨now', rfl, List.mem_cons_self, fun t ht => ?_⟩
      rcases List.mem_cons.mp ht with ht | ht
      · rw [(Prod.mk.inj ht).2]
      · exact hgc.past _ ht
    · obtain ⟨t, hu, hin, hmax⟩ := hgc.last b (hrest b hb)
      refine ⟨t, hu, List.mem_cons_of_mem _ hin, fun t' ht' => ?_⟩
      rcases List.mem_cons.mp ht' with ht' | ht'
      · exact absurd (Prod.mk.inj ht').1 (hothers b hb)
      · exact hmax t' ht'
  · by_cases hip : e.1 = ip
    · exact Or.inl ⟨_, hperm.mem_iff.mpr List.mem_cons_self, hip.symm⟩
    · have hold : e ∈ hist := by
        rcases List.mem_cons.mp he with rfl | he
        · exact absurd rfl hip
        · exact he
      rcases hgc.kept e hold hlive with ⟨b, hb, hbe⟩ | hcard
      · have hrow : b ∈ rest → ∃ b ∈ netPolicyBan bans ip now', b.ip = e.1 := fun hb =>
          ⟨b, hperm.mem_iff.mpr (List.mem_cons_of_mem _ hb), hbe⟩
        rcases hcase with ⟨old, hold', hp⟩ | ⟨heq, -⟩ | ⟨o, ho, hp, hfull, hmin⟩
        · rcases List.mem_cons.mp (hp.mem_iff.mp hb) with rfl | hb
          · exact absurd (hbe.symm.trans hold') hip
          · exact Or.inl (hrow hb)
        · exact Or.inl (hrow (heq ▸ hb))
        · rcases List.mem_cons.mp (hp.mem_iff.mp hb) with rfl | hb
          · exact Or.inr (hgc.card_rivals hp hfull hmin hothers ho hold hbe)
          · exact Or.inl (hrow hb)
      · refine Or.inr (hcard.trans (Finset.card_le_card fun x hx => ?_))
        obtain ⟨hx, t, ht, hin⟩ := mem_rivals.mp hx
        exact mem_rivals.mpr ⟨hx, t, ht, List.mem_cons_of_mem _ hin⟩

/-- The answer of `net_policy_banned`. -/
theorem banned (h : BansOk hist now bans) (hle : now ≤ now') {ip : Bytes} (hne : ip ≠ []) :
    ((netPolicyBanned bans ip now').2 = true → ∃ t, (ip, t) ∈ hist ∧ now' < t + idxBanS) ∧
      ((netPolicyBanned bans ip now').2 = false → ∀ t, (ip, t) ∈ hist → now' < t + idxBanS →
        idxBanCap ≤ (rivals hist (ip, t)).card) := by
  have hgc := h.gc hle
  unfold netPolicyBanned
  rw [if_neg hne]
  constructor
  · intro hany
    obtain ⟨b, hb, hip⟩ := List.any_eq_true.mp hany
    have hip := of_decide_eq_true hip
    obtain ⟨t, hu, hin, -⟩ := hgc.last b hb
    have hlive := of_decide_eq_true (List.mem_filter.mp hb).2
    exact ⟨t, hip ▸ hin, by omega⟩
  · intro hnone t hin hlive
    rcases hgc.kept _ hin hlive with ⟨b, hb, hip⟩ | hcard
    · have hany : ((banGc bans now').any fun b => b.ip = ip) = true :=
        List.any_eq_true.mpr ⟨b, hb, decide_eq_true hip⟩
      rw [show ((banGc bans now').any fun b => b.ip = ip) = false from hnone] at hany
      cases hany
    · exact hcard

end BansOk

/-! ### From points to refusals -/

section Policy

variable {C : Type} [DecidableEq C]

/-- What `conn_ip` writes into its 46 bytes. -/
abbrev ConnIp := { ip : Bytes // ip.length ≤ 45 }

/-- A connection is opened, or dropped for another reason; points are held against its peer; an address
is asked about before a connection to or from it. -/
inductive PolicyEvent (C : Type) where
  | opened (c : C)
  | misbehave (c : C) (ip : ConnIp) (n : ℤ) (now : ℤ)
  | banned (ip : Bytes) (now : ℤ)

/-- The scores of the connections, and the table. -/
structure Policy (C : Type) where
  score : C → ℤ
  bans : List Ban

/-- `serve_conn_misbehave`; a dropped connection has its score reset. -/
def serveConnMisbehave (p : Policy C) (c : C) (ip : ConnIp) (n now : ℤ) : Policy C :=
  if n ≤ 0 then p
  else
    match netPolicyScoreAdd (p.score c) n with
    | (score, false) => { p with score := Function.update p.score c score }
    | (_, true) =>
      { score := Function.update p.score c 0
        bans := if ip.val = [] then p.bans else netPolicyBan p.bans ip.val now }

def Policy.step (p : Policy C) : PolicyEvent C → Policy C
  | .opened c => { p with score := Function.update p.score c 0 }
  | .misbehave c ip n now => serveConnMisbehave p c ip n now
  | .banned ip now => { p with bans := (netPolicyBanned p.bans ip now).1 }

/-- What a ban stands for: the points against each connection since it was opened, and the times at
which they came to 100. -/
structure PeerPoints (C : Type) where
  points : C → ℤ
  hist : List (Bytes × ℤ)

def PeerPoints.step (q : PeerPoints C) : PolicyEvent C → PeerPoints C
  | .opened c => { q with points := Function.update q.points c 0 }
  | .misbehave c ip n now =>
    if n ≤ 0 then q
    else if q.points c + n < 100 then { q with points := Function.update q.points c (q.points c + n) }
    else
      { points := Function.update q.points c 0
        hist := if ip.val = [] then q.hist else (ip.val, now) :: q.hist }
  | .banned _ _ => q

/-- The clock at an event, where it is read. -/
def PolicyEvent.now? : PolicyEvent C → Option ℤ
  | .opened _ => none
  | .misbehave _ _ _ now => some now
  | .banned _ now => some now

def Policy.init : Policy C := ⟨fun _ => 0, []⟩

def PeerPoints.init : PeerPoints C := ⟨fun _ => 0, []⟩

/-- The scores are the points, and the table is about the times that they came to 100. -/
structure Policy.Ok (q : PeerPoints C) (now : ℤ) (p : Policy C) : Prop where
  score : p.score = q.points
  low : ∀ c, q.points c < 100
  bans : BansOk q.hist now p.bans

theorem update_lt {f : C → ℤ} (h : ∀ c, f c < 100) (c : C) {v : ℤ} (hv : v < 100) (x : C) :
    Function.update f c v x < 100 := by
  by_cases hx : x = c
  · rw [hx, Function.update_self]
    exact hv
  · rw [Function.update_of_ne hx]
    exact h x

theorem Policy.Ok.misbehave {p : Policy C} {q : PeerPoints C} {t now : ℤ} (h : p.Ok q t) (hle : t ≤ now)
    (c : C) (ip : ConnIp) (n : ℤ) :
    (p.step (.misbehave c ip n now)).Ok (q.step (.misbehave c ip n now)) now := by
  have hlow := h.low c
  have hlater : ∀ {p' : Policy C} {q' : PeerPoints C}, p'.score = q'.points → (∀ c, q'.points c < 100) →
      p'.bans = p.bans → q'.hist = q.hist → p'.Ok q' now := fun hs hl hb hq => by
    refine ⟨hs, hl, ?_⟩
    rw [hb, hq]
    exact h.bans.later hle
  unfold Policy.step PeerPoints.step serveConnMisbehave
  by_cases hn : n ≤ 0
  · simp only [hn, if_true]
    exact hlater h.score h.low rfl rfl
  · have hpos : 0 < n := not_le.mp hn
    have hscore : p.score c = q.points c := congrFun h.score c
    have hzero := update_lt h.low c (v := 0) (by decide)
    simp only [hn, if_false, hscore]
    by_cases hreach : q.points c + n < 100
    · rw [netPolicyScoreAdd_low hpos hreach]
      simp only [hreach, if_true]
      exact hlater (by rw [h.score]) (update_lt h.low c hreach) rfl rfl
    · obtain ⟨after, hadd⟩ := netPolicyScoreAdd_high hpos hlow (not_lt.mp hreach)
      rw [hadd]
      simp only [hreach, if_false]
      by_cases hip : ip.val = []
      · simp only [hip, if_true]
        exact hlater (by rw [h.score]) hzero rfl rfl
      · simp only [hip, if_false]
        exact ⟨by rw [h.score], hzero, h.bans.ban hle hip ip.2⟩

/-- A run of both. -/
theorem Policy.Ok.run (events : List (PolicyEvent C)) {p : Policy C} {q : PeerPoints C} {t now : ℤ}
    (h : p.Ok q t) (hmono : (events.filterMap PolicyEvent.now?).Pairwise (· ≤ ·))
    (hstart : ∀ x ∈ events.filterMap PolicyEvent.now?, t ≤ x)
    (hend : ∀ x ∈ events.filterMap PolicyEvent.now?, x ≤ now) (hle : t ≤ now) :
    ∃ t' ≤ now, (events.foldl Policy.step p).Ok (events.foldl PeerPoints.step q) t' := by
  induction events generalizing p q t with
  | nil => exact ⟨t, hle, h⟩
  | cons e events ih =>
    rw [List.foldl_cons, List.foldl_cons]
    cases e with
    | opened c =>
      have hstep : (p.step (.opened c)).Ok (q.step (.opened c)) t := by
        refine ⟨?_, update_lt h.low c (by decide), h.bans⟩
        change Function.update p.score c 0 = Function.update q.points c 0
        rw [h.score]
      exact ih hstep hmono hstart hend hle
    | misbehave c ip n time =>
      have hnext := List.pairwise_cons.mp hmono
      exact ih (h.misbehave (hstart time List.mem_cons_self) c ip n) hnext.2 hnext.1
        (fun x hx => hend x (List.mem_cons_of_mem _ hx)) (hend time List.mem_cons_self)
    | banned ip time =>
      have hnext := List.pairwise_cons.mp hmono
      have hstep : (p.step (.banned ip time)).Ok (q.step (.banned ip time)) time := by
        refine ⟨h.score, h.low, ?_⟩
        have htime := hstart time List.mem_cons_self
        change BansOk q.hist time (netPolicyBanned p.bans ip time).1
        unfold netPolicyBanned
        by_cases hip : ip = []
        · rw [if_pos hip]
          exact h.bans.later htime
        · rw [if_neg hip]
          exact h.bans.gc htime
      exact ih hstep hnext.2 hnext.1 (fun x hx => hend x (List.mem_cons_of_mem _ hx))
        (hend time List.mem_cons_self)

/-- Over every run with a clock that never goes back: the table stays within its bound; an address is
refused only where, within the last day, the points against one connection to it came to 100 since that
was opened; and an address to which this happened is refused for a day, unless 4096 others have come to
100 points in the meantime. -/
theorem refusals (events : List (PolicyEvent C)) {ip : Bytes} {now : ℤ} (hip : ip ≠ [])
    (hmono : (events.filterMap PolicyEvent.now?).Pairwise (· ≤ ·))
    (hend : ∀ t ∈ events.filterMap PolicyEvent.now?, t ≤ now) :
    let p := events.foldl Policy.step Policy.init
    let q := events.foldl PeerPoints.step PeerPoints.init
    p.bans.length ≤ 4096 ∧
      ((netPolicyBanned p.bans ip now).2 = true → ∃ t, (ip, t) ∈ q.hist ∧ now < t + 24 * 3600) ∧
      ((netPolicyBanned p.bans ip now).2 = false → ∀ t, (ip, t) ∈ q.hist → now < t + 24 * 3600 →
        4096 ≤ (rivals q.hist (ip, t)).card) := by
  obtain ⟨t₀, hle₀, hstart⟩ : ∃ t₀ ≤ now, ∀ x ∈ events.filterMap PolicyEvent.now?, t₀ ≤ x := by
    cases hx : events.filterMap PolicyEvent.now? with
    | nil => exact ⟨now, le_rfl, fun x hx => absurd hx List.not_mem_nil⟩
    | cons x xs =>
      rw [hx] at hmono hend
      refine ⟨x, hend x List.mem_cons_self, fun y hy => ?_⟩
      rcases List.mem_cons.mp hy with rfl | hy
      · exact le_rfl
      · exact (List.pairwise_cons.mp hmono).1 y hy
  have hinit : (Policy.init : Policy C).Ok PeerPoints.init t₀ :=
    ⟨rfl, fun _ => (by decide : (0 : ℤ) < 100), .empty t₀⟩
  obtain ⟨t, ht, hok⟩ := hinit.run events hmono hstart hend hle₀
  exact ⟨hok.bans.cap, hok.bans.banned ht hip⟩

/-- Five times twenty points, and the question ten seconds later. -/
def fiveTimes : List (PolicyEvent (Fin 1)) :=
  .opened 0 :: [100, 101, 102, 103, 104].map fun now => .misbehave 0 ⟨[49], by decide⟩ 20 now

theorem refusals_fiveTimes :
    (netPolicyBanned (fiveTimes.foldl Policy.step Policy.init).bans [49] 114).2 = true ∧
      ∃ t, ([49], t) ∈ (fiveTimes.foldl PeerPoints.step PeerPoints.init).hist ∧ (114 : ℤ) < t + 24 * 3600 := by
  have hbanned : (netPolicyBanned (fiveTimes.foldl Policy.step Policy.init).bans [49] 114).2 = true := by
    decide +kernel
  exact ⟨hbanned, (refusals fiveTimes (by decide) (by decide) (by decide)).2.1 hbanned⟩

end Policy

end NamespaceIndexer.Daemon
