import NamespaceIndexer.Daemon.RelayPools
import NamespaceIndexer.Hash.Sha256

/-!
# Transactions over a network of nodes

Nodes that run `serve_dispatch` over connections to each other and to others outside. From outside
anything may come at any time; between nodes messages keep their order. Clocks and stores are inputs.
-/

namespace NamespaceIndexer.Daemon

open Fold Lib Flood

variable (sha256 : Bytes → Hash256) {N C : Type} [DecidableEq N] [DecidableEq C] (L : Links N C)
  (submitted : List Bytes)

/-- The pools of the nodes, the budgets of their connections, and what goes over these. -/
structure Net (N C : Type) where
  pool : N → Mempool
  gd : C → GdBudget
  wire : Wire C RelayMsg

def Net.init : Net N C := ⟨fun _ => {}, fun _ => {}, Wire.empty⟩

/-- What a handler says at each connection of its node, where the message came over `r`. -/
def Dispatched.out (d : Dispatched) (r c : C) : List RelayMsg :=
  if c = r then d.reply else if L.owner c = L.owner r then d.announce.toList else []

/-- A handler's results take effect. -/
def Net.settle (net : Net N C) (r : C) (w : Wire C RelayMsg) (d : Dispatched) : Net N C where
  pool := Function.update net.pool (L.owner r) d.pool
  gd := Function.update net.gd r d.gd
  wire := w.post L (d.out L r)

/-- A message comes over `r`. -/
def Net.receive (net : Net N C) (r : C) (w : Wire C RelayMsg) (ss : RelayStore) (now : ℤ)
    (m : RelayMsg) : Net N C :=
  net.settle L r w (serveDispatch sha256 (net.pool (L.owner r)) (net.gd r) ss now m)

/-- A message comes from outside, where the transactions are among `submitted`, or the first one in
flight between two nodes is read. -/
inductive Net.Step (net : Net N C) : Net N C → Prop where
  | outside {r m} (ss : RelayStore) (now : ℤ) (hp : L.peer r = none)
      (hm : m.cmd = .tx → m.pl ∈ submitted) : Step net (net.receive sha256 L r net.wire ss now m)
  | between {r s m rest} (ss : RelayStore) (now : ℤ) (hp : L.peer r = some s)
      (hm : net.wire.inbox r = m :: rest) :
      Step net (net.receive sha256 L r (net.wire.read r rest) ss now m)

/-- The items of the flooding: the valid transactions. -/
def items : Set Bytes := {raw | raw ∈ submitted.filter (relayable sha256)}

/-- The network floods the valid transactions. -/
structure Floods (st : State N C Bytes) (net : Net N C) : Prop where
  pools : ∀ n, PoolOk sha256 submitted (net.pool n)
  has : ∀ n, st.has n = {raw | raw ∈ (net.pool n).raws}
  sent : ∀ {c d}, L.peer c = some d → net.wire.sent c = (st.wire.sent c).map (encode sha256)
  inbox : ∀ {c d}, L.peer c = some d → net.wire.inbox c = (st.wire.inbox c).map (encode sha256)
  budget : ∀ {c d}, L.peer c = some d →
    (net.gd c).gdBytes ≤ ((delivered (st.wire.sent c)).map List.length).sum

variable {sha256} {L} {submitted} {st : State N C Bytes} {net net' : Net N C}

omit [DecidableEq N] [DecidableEq C] in
theorem floods_init : Floods sha256 L submitted (State.init : State N C Bytes) Net.init where
  pools _ := poolOk_empty
  has _ := by
    ext raw
    constructor
    · exact fun h => h.elim
    · intro h
      exact absurd (PoolOk.handed (poolOk_empty : PoolOk sha256 [] {}) h) (by simp)
  sent _ := rfl
  inbox _ := rfl
  budget _ := le_rfl

/-- A handler's results take effect on both sides. -/
theorem Floods.settle (h : Floods sha256 L submitted st net) {r : C} {d : Dispatched}
    {w : Wire C RelayMsg} {has : N → Set Bytes} {v : Wire C (Msg Bytes)} {out : C → List (Msg Bytes)}
    (hpool : PoolOk sha256 submitted d.pool)
    (hself : has (L.owner r) = {raw | raw ∈ d.pool.raws})
    (hothers : ∀ n, n ≠ L.owner r → has n = st.has n)
    (hsent : w.sent = net.wire.sent ∧ v.sent = st.wire.sent)
    (hinbox : ∀ {c e}, L.peer c = some e → w.inbox c = (v.inbox c).map (encode sha256))
    (hout : ∀ {c e}, L.peer c = some e → d.out L r c = (out c).map (encode sha256))
    (hgd : ∀ {s}, L.peer r = some s →
      d.gd.gdBytes ≤ ((delivered (st.wire.sent r ++ out r)).map List.length).sum) :
    Floods sha256 L submitted ⟨has, v.post L out⟩ (net.settle L r w d) where
  pools n := by
    by_cases hn : n = L.owner r
    · subst hn
      simpa [Net.settle] using hpool
    · simpa [Net.settle, hn] using h.pools n
  has n := by
    by_cases hn : n = L.owner r
    · subst hn
      simpa [Net.settle] using hself
    · simpa [Net.settle, hn] using (hothers n hn).trans (h.has n)
  sent {c e} hp := by
    change w.sent c ++ d.out L r c = (v.sent c ++ out c).map _
    rw [List.map_append, hsent.1, hsent.2, h.sent hp, hout hp]
  inbox {c e} hp := by
    change (w.post L _).inbox c = ((v.post L out).inbox c).map _
    rw [Wire.post_inbox _ _ hp, Wire.post_inbox _ _ hp, List.map_append, hinbox hp, hout (L.symm hp)]
  budget {c e} hp := by
    change (Function.update net.gd r d.gd c).gdBytes ≤ ((delivered (v.sent c ++ out c)).map _).sum
    rw [hsent.2]
    by_cases hc : c = r
    · subst hc
      rw [Function.update_self]
      exact hgd hp
    · rw [Function.update_of_ne hc]
      refine (h.budget hp).trans ?_
      rw [delivered_append, List.map_append, List.sum_append]
      exact Nat.le_add_right _ _

variable (sha256) in
theorem out_reply {r : C} {d : Dispatched} (hann : d.announce = none) {ms : List (Msg Bytes)}
    (hreply : d.reply = ms.map (encode sha256)) (c : C) :
    d.out L r c = (Wire.only r ms c).map (encode sha256) := by
  unfold Dispatched.out Wire.only
  by_cases hc : c = r
  · rw [if_pos hc, if_pos hc, hreply]
  · rw [if_neg hc, if_neg hc, hann]
    simp

/-- Only a transaction changes the pool or is announced. -/
theorem dispatch_of_ne_tx (sha256 : Bytes → Hash256) (p : Mempool) (g : GdBudget) (ss : RelayStore)
    (now : ℤ) {m : RelayMsg} (hm : m.cmd ≠ .tx) :
    (serveDispatch sha256 p g ss now m).pool = p ∧ (serveDispatch sha256 p g ss now m).announce = none := by
  unfold serveDispatch
  cases hcmd : m.cmd with
  | tx => exact absurd hcmd hm
  | block => exact ⟨rfl, rfl⟩
  | mempool => exact ⟨rfl, rfl⟩
  | inv | getdata =>
    dsimp only
    cases netPolicyReadCount m.pl with
    | none => exact ⟨rfl, rfl⟩
    | some c =>
      dsimp only
      split <;> exact ⟨rfl, rfl⟩

section Tx

variable (h : Floods sha256 L submitted st net) (hsub : Handed sha256 submitted) {r : C}
  {w : Wire C RelayMsg} {v : Wire C (Msg Bytes)} (ss : RelayStore) (now : ℤ) {raw : Bytes}
  (hsent : w.sent = net.wire.sent ∧ v.sent = st.wire.sent)
  (hinbox : ∀ {c e}, L.peer c = some e → w.inbox c = (v.inbox c).map (encode sha256))
include h hsub hsent hinbox

/-- A transaction that the node has, or that is not valid, changes nothing. -/
theorem Floods.tx_old (hraw : raw ∈ submitted)
    (hold : raw ∈ items sha256 submitted → raw ∈ st.has (L.owner r)) :
    Floods sha256 L submitted ⟨st.has, v⟩ (net.receive sha256 L r w ss now ⟨.tx, raw⟩) := by
  obtain ⟨hpool, hraws, hok⟩ := (h.pools (L.owner r)).accept_old hsub hraw (fun hvalid => by
    have hin := hold (List.mem_filter.mpr ⟨hraw, hvalid⟩)
    rwa [h.has] at hin) now
  have hann : (serveDispatch sha256 (net.pool (L.owner r)) (net.gd r) ss now ⟨.tx, raw⟩).announce = none := by
    change (if _ then some _ else none) = _
    rw [hok, if_neg Bool.false_ne_true]
  have hhas : st.has (L.owner r) =
      {x | x ∈ ((net.pool (L.owner r)).accept sha256 raw now).pool.raws} := by rw [hraws, h.has]
  have hout : ∀ {c e}, L.peer c = some e →
      (serveDispatch sha256 (net.pool (L.owner r)) (net.gd r) ss now ⟨.tx, raw⟩).out L r c =
        ([] : List (Msg Bytes)).map (encode sha256) := fun {c e} _ => by
    rw [out_reply sha256 hann (by rfl : _ = ([] : List (Msg Bytes)).map _)]
    simp [Wire.only]
  have hfloods := h.settle hpool hhas (fun _ _ => rfl) hsent hinbox hout
    fun hp => (h.budget hp).trans (by rw [List.append_nil])
  rwa [Wire.post_nil] at hfloods

/-- A valid transaction that the node does not have is pooled and announced. -/
theorem Floods.tx_new (hraw : raw ∈ items sha256 submitted) (hnew : raw ∉ st.has (L.owner r))
    {skip : Option C} (hskip : ∀ {c e}, L.peer c = some e → (skip = some c ↔ c = r)) :
    Floods sha256 L submitted
      ⟨gain st.has (L.owner r) raw, v.post L (told L (L.owner r) skip raw)⟩
      (net.receive sha256 L r w ss now ⟨.tx, raw⟩) := by
  rw [h.has] at hnew
  obtain ⟨hpool, hraws, hok, htxid⟩ := (h.pools (L.owner r)).accept_new hsub hraw hnew now
  have hann : (serveDispatch sha256 (net.pool (L.owner r)) (net.gd r) ss now ⟨.tx, raw⟩).announce =
      some (encode sha256 (.announce raw)) := by
    change (if _ then some _ else none) = _
    rw [hok, if_pos rfl, htxid]
    rfl
  refine h.settle hpool ?_ (fun n hn => ?_) hsent hinbox (fun {c e} hp => ?_) fun {s} hp =>
    (h.budget hp).trans ?_
  · ext x
    rw [mem_gain, h.has]
    change _ ↔ x ∈ ((net.pool (L.owner r)).accept sha256 raw now).pool.raws
    rw [hraws.mem_iff, List.mem_cons]
    simp
  · exact Function.update_of_ne hn ..
  · unfold Dispatched.out told
    rw [hann]
    by_cases hc : c = r
    · rw [if_pos hc, if_neg fun hand => hand.2 ((hskip hp).mpr hc)]
      rfl
    · rw [if_neg hc]
      have hsk : skip ≠ some c := fun hs => hc ((hskip hp).mp hs)
      by_cases howner : L.owner c = L.owner r
      · rw [if_pos howner, if_pos ⟨howner, hsk⟩]
        rfl
      · rw [if_neg howner, if_neg fun hand => howner hand.1]
        rfl
  · rw [delivered_append, List.map_append, List.sum_append]
    exact Nat.le_add_right _ _

end Tx

/-- A message from outside. -/
theorem Floods.outside (h : Floods sha256 L submitted st net) (hsub : Handed sha256 submitted) {r : C}
    {m : RelayMsg} (ss : RelayStore) (now : ℤ) (hp : L.peer r = none)
    (hm : m.cmd = .tx → m.pl ∈ submitted) :
    ∃ st', Relation.ReflTransGen (Flood.Step L (items sha256 submitted)) st st' ∧
      Floods sha256 L submitted st' (net.receive sha256 L r net.wire ss now m) := by
  have hne : ∀ {c e}, L.peer c = some e → c ≠ r := fun hpeer heq => by
    rw [heq, hp] at hpeer
    cases hpeer
  by_cases htx : m.cmd = .tx
  · obtain ⟨cmd, raw⟩ := m
    obtain rfl : cmd = .tx := htx
    have hraw := hm rfl
    by_cases hnew : raw ∈ items sha256 submitted ∧ raw ∉ st.has (L.owner r)
    · exact ⟨_, .single (.submit hnew.1 hnew.2),
        h.tx_new hsub ss now ⟨rfl, rfl⟩ h.inbox hnew.1 hnew.2 fun hpeer =>
          ⟨fun hs => absurd hs (by simp), fun heq => absurd heq (hne hpeer)⟩⟩
    · exact ⟨st, .refl, h.tx_old hsub ss now ⟨rfl, rfl⟩ h.inbox hraw fun hin =>
        not_not.mp fun hnot => hnew ⟨hin, hnot⟩⟩
  · obtain ⟨hpool, hann⟩ := dispatch_of_ne_tx sha256 (net.pool (L.owner r)) (net.gd r) ss now htx
    have hout : ∀ {c e}, L.peer c = some e →
        (serveDispatch sha256 (net.pool (L.owner r)) (net.gd r) ss now m).out L r c =
          ([] : List (Msg Bytes)).map (encode sha256) := fun hpeer => by
      unfold Dispatched.out
      rw [if_neg (hne hpeer), hann]
      simp
    have hfloods := h.settle (by rw [hpool]; exact h.pools (L.owner r))
      (by rw [hpool]; exact h.has (L.owner r)) (fun _ _ => rfl) ⟨rfl, rfl⟩ h.inbox hout fun hpeer => by
        rw [hp] at hpeer
        cases hpeer
    rw [Wire.post_nil] at hfloods
    exact ⟨st, .refl, hfloods⟩

/-- A message between nodes. -/
theorem Floods.between (h : Floods sha256 L submitted st net) (hsub : Handed sha256 submitted)
    (hinv : Inv L (items sha256 submitted) st) {r s : C} {m : RelayMsg} {rest : List RelayMsg}
    (ss : RelayStore) (now : ℤ) (hp : L.peer r = some s) (hm : net.wire.inbox r = m :: rest) :
    ∃ st', Relation.ReflTransGen (Flood.Step L (items sha256 submitted)) st st' ∧
      Floods sha256 L submitted st' (net.receive sha256 L r (net.wire.read r rest) ss now m) := by
  classical
  rw [h.inbox hp] at hm
  obtain ⟨am, arest, ham, rfl, rfl⟩ := List.map_eq_cons_iff.mp hm
  have hread : ∀ {c e}, L.peer c = some e →
      (net.wire.read r (arest.map (encode sha256))).inbox c =
        ((st.wire.read r arest).inbox c).map (encode sha256) := fun {c e} hpeer => by
    by_cases hc : c = r
    · subst hc
      simp
    · rw [Wire.read_inbox_of_ne _ hc, Wire.read_inbox_of_ne _ hc, h.inbox hpeer]
  have hhead : am ∈ st.wire.inbox r := by rw [ham]; exact List.mem_cons_self
  have hpool := h.pools (L.owner r)
  cases am with
  | announce raw =>
    have hraw := hinv.held _ (hinv.has_of_announce (L.symm hp) hhead)
    have hdispatch := hpool.dispatch_announce hsub (net.gd r) ss now hraw
    refine ⟨_, .single (.reply hp ham fun t ht => by cases ht), ?_⟩
    unfold Net.receive
    rw [hdispatch]
    refine h.settle hpool (h.has _) (fun _ _ => rfl) ⟨rfl, rfl⟩ hread (fun {c e} _ => ?_)
      fun {_} _ => (h.budget hp).trans ?_
    · refine out_reply sha256 rfl ?_ c
      rw [answer, h.has]
      by_cases hin : raw ∈ (net.pool (L.owner r)).raws
      · simp [hin]
      · simp [hin]
    · rw [delivered_append, List.map_append, List.sum_append]
      exact Nat.le_add_right _ _
  | request raw =>
    have hhas := hinv.has_of_request hp hhead
    have hraw : raw ∈ (net.pool (L.owner r)).raws := by rwa [h.has] at hhas
    have hfit : (net.gd r).gdBytes + raw.length ≤ idxGetdataBytes := by
      have hnodup := List.nodup_cons.mpr ⟨hinv.notMem_delivered hp hhead,
        delivered_nodup (hinv.sent_nodup hp)⟩
      have hin : raw :: delivered (st.wire.sent r) ⊆ submitted.filter (relayable sha256) :=
        List.cons_subset.mpr ⟨hinv.held _ hhas, fun x hx => by
          obtain ⟨t, ht, hx⟩ := hinv.sent_mem hp (mem_delivered.mp hx)
          rcases hx with hx | hx | hx <;> cases hx
          exact ht⟩
      have hle := sum_length_le hnodup hin
      have hbudget := h.budget hp
      have htotal := hsub.bytes
      rw [List.map_cons, List.sum_cons] at hle
      omega
    obtain ⟨g, hg, hdispatch⟩ := hpool.dispatch_request hsub (net.gd r) ss now hraw hfit
    refine ⟨_, .single (.reply hp ham fun t ht => by cases ht), ?_⟩
    unfold Net.receive
    rw [hdispatch]
    refine h.settle hpool (h.has _) (fun _ _ => rfl) ⟨rfl, rfl⟩ hread (fun {c e} _ => ?_)
      fun {_} _ => hg.trans ?_
    · exact out_reply sha256 rfl (by rw [answer_request hhas]; rfl) c
    · have hbudget := h.budget hp
      rw [Wire.only_self, answer_request hhas, delivered_append, List.map_append, List.sum_append]
      exact Nat.add_le_add_right hbudget _
  | deliver raw =>
    have hraw := hinv.held _ (hinv.has_of_deliver (L.symm hp) hhead)
    by_cases hnew : raw ∈ st.has (L.owner r)
    · have hfloods := h.tx_old (w := net.wire.read r (arest.map (encode sha256)))
        (v := st.wire.read r arest) hsub ss now ⟨rfl, rfl⟩ hread (List.mem_of_mem_filter hraw)
        fun _ => hnew
      refine ⟨_, .single (.reply hp ham fun t ht => ?_), ?_⟩
      · cases ht
        exact hnew
      · have hnone : (Wire.only r (answer (st.has (L.owner r)) (.deliver raw)) : C → List (Msg Bytes)) =
            fun _ => [] := by
          funext c
          unfold Wire.only
          split <;> rfl
        rw [hnone, Wire.post_nil]
        exact hfloods
    · refine ⟨_, .single (.learn hp ham hnew), ?_⟩
      exact h.tx_new (w := net.wire.read r (arest.map (encode sha256)))
        (v := st.wire.read r arest) hsub ss now ⟨rfl, rfl⟩ hread hraw hnew fun _ =>
        ⟨fun hs => (Option.some.inj hs).symm, fun hc => congrArg some hc.symm⟩

/-! ### Runs -/

/-- A step of the network is one of the flooding, or none. -/
theorem Floods.step (h : Floods sha256 L submitted st net) (hsub : Handed sha256 submitted)
    (hinv : Inv L (items sha256 submitted) st) (hs : Net.Step sha256 L submitted net net') :
    ∃ st', Relation.ReflTransGen (Flood.Step L (items sha256 submitted)) st st' ∧
      Floods sha256 L submitted st' net' := by
  cases hs with
  | outside ss now hp hm => exact h.outside hsub ss now hp hm
  | between ss now hp hm => exact h.between hsub hinv ss now hp hm

/-- Every run of the network is one of the flooding. -/
theorem Floods.run (h : Floods sha256 L submitted st net) (hsub : Handed sha256 submitted)
    (hinv : Inv L (items sha256 submitted) st)
    (hs : Relation.ReflTransGen (Net.Step sha256 L submitted) net net') :
    ∃ st', Relation.ReflTransGen (Flood.Step L (items sha256 submitted)) st st' ∧
      Floods sha256 L submitted st' net' := by
  induction hs with
  | refl => exact ⟨st, .refl, h⟩
  | tail _ hstep ih =>
    obtain ⟨mid, hrun, hmid⟩ := ih
    obtain ⟨st', hrest, hst⟩ := hmid.step hsub (hinv.run hrun) hstep
    exact ⟨st', hrun.trans hrest, hst⟩

omit [DecidableEq N] [DecidableEq C] in
/-- What goes over a link between nodes, each message once. -/
theorem Floods.sent_nodup (h : Floods sha256 L submitted st net) (hsub : Handed sha256 submitted)
    (hinv : Inv L (items sha256 submitted) st) {c d : C} (hp : L.peer c = some d) :
    (net.wire.sent c).Nodup ∧
      (net.wire.sent c).length ≤ 3 * (submitted.filter (relayable sha256)).length := by
  have hnodup : (net.wire.sent c).Nodup := by
    rw [h.sent hp]
    refine List.Nodup.map_on (fun m hm m' hm' heq => ?_) (hinv.sent_nodup hp)
    obtain ⟨raw, hraw, hkind⟩ := hinv.sent_mem hp hm
    obtain ⟨raw', hraw', hkind'⟩ := hinv.sent_mem hp hm'
    exact encode_inj hsub (List.mem_of_mem_filter hraw) (List.mem_of_mem_filter hraw') hkind hkind' heq
  have hin : net.wire.sent c ⊆ (submitted.filter (relayable sha256)).flatMap fun raw =>
      [encode sha256 (.announce raw), encode sha256 (.request raw), encode sha256 (.deliver raw)] := by
    intro m hm
    rw [h.sent hp] at hm
    obtain ⟨am, ham, rfl⟩ := List.mem_map.mp hm
    obtain ⟨raw, hraw, hkind⟩ := hinv.sent_mem hp ham
    refine List.mem_flatMap.mpr ⟨raw, hraw, ?_⟩
    rcases hkind with rfl | rfl | rfl <;> simp
  refine ⟨hnodup, (List.subperm_of_subset hnodup hin).length_le.trans ?_⟩
  rw [List.length_flatMap]
  simp [Nat.mul_comm]

/-- What is handed to one of the nodes over any connection from outside, is relayed as follows, in any
order of deliveries, with any clocks and stores. A pool holds nothing but valid transactions that were
handed in; over a connection between nodes no message goes twice, at most three for each valid
transaction, and none is held against its sender; and when nothing is in flight between nodes any more,
a valid transaction that was handed to a node is in the pool of every node it is connected to, directly
or through others. -/
theorem relay_floods (hsub : Handed sha256 submitted)
    (hs : Relation.ReflTransGen (Net.Step sha256 L submitted) Net.init net) :
    (∀ n, ∀ raw ∈ (net.pool n).raws, raw ∈ submitted ∧ relayable sha256 raw = true) ∧
      (∀ c d, L.peer c = some d → (net.wire.sent c).Nodup ∧
        (net.wire.sent c).length ≤ 3 * (submitted.filter (relayable sha256)).length) ∧
      (∀ r s m rest, L.peer r = some s → net.wire.inbox r = m :: rest → ∀ ss now,
        (serveDispatch sha256 (net.pool (L.owner r)) (net.gd r) ss now m).misbehave = none) ∧
      ∀ r raw ss now, L.peer r = none → raw ∈ submitted → relayable sha256 raw = true →
        ∀ net', Relation.ReflTransGen (Net.Step sha256 L submitted)
            (net.receive sha256 L r net.wire ss now ⟨.tx, raw⟩) net' →
          net'.wire.Quiet L →
            ∀ n, Relation.ReflTransGen L.Linked (L.owner r) n → raw ∈ (net'.pool n).raws := by
  obtain ⟨st, hrun, h⟩ := floods_init.run hsub inv_init hs
  have hinv := inv_init.run hrun
  refine ⟨fun n raw hraw => List.mem_filter.mp ((h.pools n).handed hraw),
    fun c d hp => h.sent_nodup hsub hinv hp, fun r s m rest hp hm ss now => ?_, ?_⟩
  · rw [h.inbox hp] at hm
    obtain ⟨am, -, -, rfl, -⟩ := List.map_eq_cons_iff.mp hm
    exact misbehave_encode ..
  · intro r raw ss now hp hraw hvalid net' hs' hquiet n hn
    have hin := List.mem_filter.mpr ⟨hraw, hvalid⟩
    obtain ⟨st₁, hrun₁, h₁⟩ := h.outside hsub ss now (m := ⟨.tx, raw⟩) hp fun _ => hraw
    have hinv₁ := hinv.run hrun₁
    have hfirst : raw ∈ st₁.has (L.owner r) := by
      rw [h₁.has]
      change raw ∈ (Function.update net.pool (L.owner r) _ (L.owner r)).raws
      rw [Function.update_self]
      exact (h.pools (L.owner r)).mem_accept hsub hin now
    obtain ⟨st₂, hrun₂, h₂⟩ := h₁.run hsub hinv₁ hs'
    have hquiet₂ : st₂.wire.Quiet L := fun c d hpeer => by
      have hnil := hquiet c d hpeer
      rwa [h₂.inbox hpeer, List.map_eq_nil_iff] at hnil
    have hlast := (hinv₁.run hrun₂).same hquiet₂ hn (has_mono hrun₂ _ hfirst)
    rwa [h₂.has] at hlast

def pairPeer (c : Fin 3) : Option (Fin 3) := if c = 0 then some 1 else if c = 1 then some 0 else none

theorem pairPeer_symm : ∀ {c d}, pairPeer c = some d → pairPeer d = some c := by decide

/-- Two nodes with a connection between them, and one from outside to the first. -/
def pairLinks : Links Bool (Fin 3) where
  owner c := c = 1
  peer := pairPeer
  symm := pairPeer_symm

/-- One input, and one coin for a key hash. -/
def payment : Bytes :=
  leBytes 4 1 ++ [1] ++ List.replicate 36 0xF1 ++ [0] ++ leBytes 4 0xFFFFFFFF ++ [1] ++
    leBytes 8 100000000 ++ [25, 0x76, 0xA9, 20] ++ List.replicate 20 0x11 ++ [0x88, 0xAC] ++ leBytes 4 0

/-- The first message at an end is read. -/
def readFirst (net : Net Bool (Fin 3)) (r : Fin 3) : Net Bool (Fin 3) :=
  match net.wire.inbox r with
  | [] => net
  | m :: rest => net.receive Hash.sha256 pairLinks r (net.wire.read r rest) none 1700000000 m

theorem readFirst_step (net : Net Bool (Fin 3)) {r s : Fin 3} (hp : pairLinks.peer r = some s) :
    Relation.ReflTransGen (Net.Step Hash.sha256 pairLinks [payment]) net (readFirst net r) := by
  unfold readFirst
  cases hin : net.wire.inbox r with
  | nil => exact .refl
  | cons m rest => exact .single (.between none 1700000000 hp hin)

/-- The payment comes from outside. -/
def paid : Net Bool (Fin 3) :=
  Net.init.receive Hash.sha256 pairLinks 2 Wire.empty none 1700000000 ⟨.tx, payment⟩

/-- The other node reads the announcement, the first node the request, and the other node the
transaction. -/
def relayed : Net Bool (Fin 3) := readFirst (readFirst (readFirst paid 1) 0) 1

theorem relay_floods_payment :
    relayable Hash.sha256 payment = true ∧
      Relation.ReflTransGen (Net.Step Hash.sha256 pairLinks [payment]) paid relayed ∧
      relayed.wire.Quiet pairLinks ∧
      ((relayed.wire.sent 0).map RelayMsg.cmd = [.inv, .tx] ∧
        (relayed.wire.sent 1).map RelayMsg.cmd = [.getdata]) ∧
      payment ∈ (relayed.pool true).raws := by
  have hvalid : relayable Hash.sha256 payment = true := by decide +kernel
  have hlen : payment.length ≤ idxGetdataBytes := by decide
  have hsub : Handed Hash.sha256 [payment] :=
    { count := by rw [List.filter_cons_of_pos hvalid]; decide
      bytes := by
        rw [List.filter_cons_of_pos hvalid]
        simpa using hlen
      ids := fun raw hraw raw' hraw' _ => by
        rw [List.mem_singleton.mp hraw, List.mem_singleton.mp hraw']
      apart := fun raw hraw raw' hraw' hne => by
        rw [List.mem_singleton.mp hraw, List.mem_singleton.mp hraw'] at hne
        exact absurd rfl hne }
  have hlink : pairLinks.Linked false true := ⟨0, 1, by decide, by decide, by decide⟩
  have hrun : Relation.ReflTransGen (Net.Step Hash.sha256 pairLinks [payment]) paid relayed :=
    ((readFirst_step paid (r := 1) (s := 0) (by decide)).trans
      (readFirst_step _ (r := 0) (s := 1) (by decide))).trans
      (readFirst_step _ (r := 1) (s := 0) (by decide))
  have hempty : ∀ c : Fin 3, (relayed.wire.inbox c).length = 0 := by decide +kernel
  have hquiet : relayed.wire.Quiet pairLinks :=
    fun c _ _ => List.length_eq_zero_iff.mp (hempty c)
  have hsent : (relayed.wire.sent 0).map RelayMsg.cmd = [.inv, .tx] ∧
      (relayed.wire.sent 1).map RelayMsg.cmd = [.getdata] := by
    decide +kernel
  have hflood := (relay_floods hsub .refl).2.2.2 2 payment none 1700000000 (by decide) (by simp)
    hvalid relayed hrun hquiet true (.single hlink)
  exact ⟨hvalid, hrun, hquiet, hsent, hflood⟩

end NamespaceIndexer.Daemon
