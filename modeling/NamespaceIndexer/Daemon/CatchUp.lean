import NamespaceIndexer.Daemon.Follow

/-!
# A node at most a window behind catches up over one connection

Whatever else is pushed onto its stage meanwhile, so long as it is not of the chain it follows.
-/

namespace NamespaceIndexer.Daemon

open Fold Lib

variable {sha256 idxPowHash : Bytes → Hash256}
variable {idxAttribute : Bytes → ℕ → Option (H160 × Byte)}
variable {coin : Coin} {activation : UInt64}
variable {pick : (Hash256 → ℤ) → List StagedRow → List StagedRow}

variable (sha256 coin) in
/-- Neither a block of the chain nor on top of one. -/
def Foreign (raws : List Bytes) (raw : Bytes) : Prop :=
  (∀ link ∈ links sha256 coin raws, prevField raw ≠ link.val) ∧
    rawHash sha256 raw ∉ raws.map (rawHash sha256)

instance (raws : List Bytes) (raw : Bytes) : Decidable (Foreign sha256 coin raws raw) :=
  inferInstanceAs (Decidable (_ ∧ _))

variable (sha256 coin) in
/-- A pull falls into a new window of the peer and comes after what is on the stage; a push is of no
block of the chain. -/
def FollowLegal (raws : List Bytes) (cg : Follower × GdBudget) : FollowEvent → Prop
  | .pull theirNow ourNow =>
    0 < theirNow ∧ (cg.2.gdWinT = 0 ∨ idxGetdataWindowS ≤ theirNow - cg.2.gdWinT) ∧
      ∀ r ∈ cg.1.stage, cg.1.stamp (r.hash sha256) < ourNow
  | .push pl _ => Foreign sha256 coin raws pl

def FollowEvent.isPull : FollowEvent → Bool
  | .pull _ _ => true
  | .push _ _ => false

variable (sha256 coin) in
/-- The blocks wait on the stage, and nothing else of the chain does. -/
structure Waits (raws batch : List Bytes) (stage : List StagedRow) : Prop where
  here : ∀ raw ∈ batch, ∃ r ∈ stage, r.raw = raw
  rest : ∀ r ∈ stage, r.raw ∈ batch ∨ Foreign sha256 coin raws r.raw

/-! ### Onto the stage -/

section Stage

variable (sha256 coin) in
/-- So much of a pull has arrived at this second. -/
structure Arrived (raws news : List Bytes) (now : ℤ) (c : Follower) : Prop where
  here : ∀ raw ∈ news, ∃ r ∈ c.stage, r.raw = raw ∧ c.stamp (r.hash sha256) = now
  rest : ∀ r ∈ c.stage, r.raw ∈ news ∨ Foreign sha256 coin raws r.raw
  few : c.stage.countP (fun r => now ≤ c.stamp (r.hash sha256)) ≤ news.length

variable {raws news : List Bytes} {now : ℤ} {c : Follower}

theorem serveBlock_node (pl : Bytes) : (serveBlock sha256 pick c pl now).toServeNode = c.toServeNode := by
  unfold serveBlock
  split <;> rfl

theorem Arrived.put (h : Arrived sha256 coin raws news now c) (hpick : FreshestFirst sha256 pick)
    {r : StagedRow} (hraw : r.raw ∈ raws) (hnew : r.hash sha256 ∉ news.map (rawHash sha256))
    (hlen : news.length < 31) :
    Arrived sha256 coin raws (news ++ [r.raw]) now (serveStoreStagePut sha256 pick c r now) := by
  have hother : ∀ x ∈ c.stage, x.hash sha256 ≠ r.hash sha256 := by
    intro x hx heq
    rcases h.rest x hx with hin | hforeign
    · apply hnew
      rw [← heq]
      exact List.mem_map_of_mem hin
    · apply hforeign.2
      show x.hash sha256 ∈ _
      rw [heq]
      exact List.mem_map_of_mem hraw
  have hhad : (c.stage.any fun x => x.hash sha256 = r.hash sha256) = false := by
    rw [List.any_eq_false]
    intro x hx
    simpa using hother x hx
  have hput : serveStoreStagePut sha256 pick c r now =
      { c with
        stage := pick (Function.update c.stamp (r.hash sha256) now)
          ((c.stage ++ [r]).filter fun x =>
            now - 3600 ≤ Function.update c.stamp (r.hash sha256) now (x.hash sha256))
        stamp := Function.update c.stamp (r.hash sha256) now } := by
    unfold serveStoreStagePut
    dsimp only
    rw [hhad]
    rfl
  generalize hstamp : Function.update c.stamp (r.hash sha256) now = stamp at hput
  have hself : stamp (r.hash sha256) = now := by
    rw [← hstamp, Function.update_self]
  have hkept : ∀ x ∈ c.stage, stamp (x.hash sha256) = c.stamp (x.hash sha256) := by
    intro x hx
    rw [← hstamp, Function.update_of_ne (hother x hx)]
  generalize hrows : ((c.stage ++ [r]).filter fun x => now - 3600 ≤ stamp (x.hash sha256)) = rows at hput
  have hmem : ∀ x ∈ pick stamp rows, x ∈ c.stage ∨ x = r := by
    intro x hx
    have hx := (hpick.sublist stamp rows).mem hx
    rw [← hrows] at hx
    simpa using (List.mem_filter.mp hx).1
  have hcount : (pick stamp rows).countP (fun x => now ≤ stamp (x.hash sha256)) ≤ news.length + 1 := by
    have hsub : (pick stamp rows).Sublist (c.stage ++ [r]) := by
      apply (hpick.sublist stamp rows).trans
      rw [← hrows]
      exact List.filter_sublist
    apply (hsub.countP_le).trans
    rw [List.countP_append, List.countP_congr fun x hx => by rw [hkept x hx]]
    exact Nat.add_le_add h.few List.countP_le_length
  have hstay : ∀ x ∈ rows, stamp (x.hash sha256) = now → x ∈ pick stamp rows := by
    intro x hx hnow
    by_contra hout
    -- then all that are picked are as fresh, and more than there are
    have hall : (pick stamp rows).countP (fun x => now ≤ stamp (x.hash sha256)) =
        (pick stamp rows).length := by
      rw [List.countP_eq_length]
      intro y hy
      have hle := hpick.fresh stamp rows y hy x hx hout
      rw [hnow] at hle
      exact decide_eq_true hle
    have hfull := hpick.full stamp rows
    have hall_rows : rows.length ≤ (pick stamp rows).length := by omega
    rw [(hpick.sublist stamp rows).eq_of_length_le hall_rows] at hout
    exact hout hx
  rw [hput]
  constructor
  · intro raw hin
    have hrow : ∃ x ∈ c.stage ++ [r], x.raw = raw ∧ stamp (x.hash sha256) = now := by
      rcases List.mem_append.mp hin with hin | hin
      · obtain ⟨x, hx, hxraw, hnow⟩ := h.here raw hin
        exact ⟨x, List.mem_append_left _ hx, hxraw, (hkept x hx).trans hnow⟩
      · rw [List.mem_singleton] at hin
        exact ⟨r, by simp, hin.symm, hself⟩
    obtain ⟨x, hx, hxraw, hnow⟩ := hrow
    refine ⟨x, hstay x ?_ hnow, hxraw, hnow⟩
    rw [← hrows, List.mem_filter]
    exact ⟨hx, decide_eq_true (by omega)⟩
  · intro x hx
    rcases hmem x hx with hx | rfl
    · exact (h.rest x hx).imp_left (List.mem_append_left _)
    · exact Or.inl (List.mem_append_right _ List.mem_cons_self)
  · show _ ≤ (news ++ [r.raw]).length
    rw [List.length_append]
    exact hcount

theorem Arrived.blocks (h : Arrived sha256 coin raws news now c) (hpick : FreshestFirst sha256 pick)
    {batch : List Bytes} (hbatch : ∀ raw ∈ batch, raw ∈ raws ∧ 80 ≤ raw.length)
    (hnodup : ((news ++ batch).map (rawHash sha256)).Nodup) (hlen : news.length + batch.length ≤ 16) :
    let c' := (batch.map fun raw => (⟨.block, raw⟩ : RelayMsg)).foldl
      (fun c m => if m.cmd = .block then serveBlock sha256 pick c m.pl now else c) c
    Arrived sha256 coin raws (news ++ batch) now c' ∧ c'.toServeNode = c.toServeNode := by
  induction batch generalizing news c with
  | nil =>
    rw [List.append_nil]
    exact ⟨h, rfl⟩
  | cons raw batch ih =>
    obtain ⟨hraw, hlong⟩ := hbatch raw List.mem_cons_self
    rw [List.length_cons] at hlen
    rw [List.append_cons] at hnodup ⊢
    have hnew : rawHash sha256 raw ∉ news.map (rawHash sha256) := by
      have hfirst := hnodup
      rw [List.map_append, List.map_append] at hfirst
      have hdisj := List.disjoint_of_nodup_append (List.Nodup.of_append_left hfirst)
      exact fun hin => hdisj hin List.mem_cons_self
    have hblock : serveBlock sha256 pick c raw now =
        serveStoreStagePut sha256 pick c ⟨raw, hlong⟩ now := dif_pos hlong
    have hput := h.put hpick (r := ⟨raw, hlong⟩) hraw hnew (by omega)
    rw [← hblock] at hput
    have hrest := ih hput (fun x hx => hbatch x (List.mem_cons_of_mem _ hx)) hnodup
      (by rw [List.length_append, List.length_singleton]; omega)
    exact ⟨hrest.1, hrest.2.trans (serveBlock_node raw)⟩

theorem Arrived.waits (h : Arrived sha256 coin raws news now c) : Waits sha256 coin raws news c.stage where
  here := by
    intro raw hraw
    obtain ⟨r, hr, heq, -⟩ := h.here raw hraw
    exact ⟨r, hr, heq⟩
  rest := h.rest

theorem arrived_none (hrest : ∀ r ∈ c.stage, Foreign sha256 coin raws r.raw)
    (hlate : ∀ r ∈ c.stage, c.stamp (r.hash sha256) < now) : Arrived sha256 coin raws [] now c where
  here := fun _ hraw => absurd hraw List.not_mem_nil
  rest := fun r hr => Or.inr (hrest r hr)
  few := by
    rw [List.length_nil, Nat.le_zero, List.countP_eq_zero]
    intro r hr
    simpa using hlate r hr

/-- A push of another block leaves the stage without any of the chain. -/
theorem serveBlock_foreign (hpick : FreshestFirst sha256 pick)
    (hrest : ∀ r ∈ c.stage, Foreign sha256 coin raws r.raw) {pl : Bytes}
    (hpl : Foreign sha256 coin raws pl) :
    ∀ r ∈ (serveBlock sha256 pick c pl now).stage, Foreign sha256 coin raws r.raw := by
  intro r hr
  unfold serveBlock at hr
  split at hr
  · rename_i hlong
    have hin := List.mem_of_mem_filter ((hpick.sublist _ _).mem hr)
    split at hin
    · exact hrest r hin
    · rcases List.mem_append.mp hin with hin | hin
      · exact hrest r hin
      · rw [List.mem_singleton.mp hin]
        exact hpl
  · exact hrest r hr

end Stage

/-! ### Off the stage -/

section Pass

variable {raws below batch above : List Bytes} {stage : List StagedRow}

theorem Waits.none_next (h : Waits sha256 coin raws [] stage) {link : Hash256}
    (hlink : link ∈ links sha256 coin raws) : serveStoreStageNext stage link = none := by
  unfold serveStoreStageNext
  rw [List.find?_eq_none]
  intro r hr
  rw [decide_eq_true_eq]
  rcases h.rest r hr with hin | hforeign
  · cases hin
  · exact hforeign.1 link hlink

/-- What stands on the tip is the first block that waits. -/
theorem Waits.next (hpow : coin.powlimit ≠ 0)
    (hvalid : ValidChain sha256 idxPowHash idxAttribute coin activation raws)
    (hnodup : (links sha256 coin raws).Nodup) {raw : Bytes} (hraws : raws = below ++ raw :: batch ++ above)
    (h : Waits sha256 coin raws (raw :: batch) stage) {link : Hash256}
    (hlink : link ∈ links sha256 coin raws) (hprev : prevField raw = link.val) :
    ∃ r, serveStoreStageNext stage link = some r ∧ r.raw = raw := by
  obtain ⟨r0, hr0, hraw0⟩ := h.here raw List.mem_cons_self
  have hsome : (serveStoreStageNext stage link).isSome := by
    unfold serveStoreStageNext
    rw [List.find?_isSome]
    exact ⟨r0, hr0, decide_eq_true (by rw [hraw0, hprev])⟩
  obtain ⟨r, hr⟩ := Option.isSome_iff_exists.mp hsome
  have hmem := List.mem_of_find?_eq_some hr
  have hr_prev : prevField r.raw = link.val := by simpa using List.find?_some hr
  refine ⟨r, hr, ?_⟩
  rcases h.rest r hmem with hin | hforeign
  · rcases List.mem_cons.mp hin with heq | hin
    · exact heq
    · -- a later block stands on a later link
      obtain ⟨i, hi⟩ := List.mem_iff_getElem?.mp hin
      have hfirst : raws[below.length]? = some raw := by
        rw [hraws, List.append_assoc, List.getElem?_append_right le_rfl]
        simp
      have hlater : raws[below.length + (i + 1)]? = some r.raw := by
        rw [hraws, List.append_assoc, List.getElem?_append_right (by omega), Nat.add_sub_cancel_left,
          List.cons_append, List.getElem?_cons_succ, List.getElem?_append_left]
        · exact hi
        · exact (List.getElem?_eq_some_iff.mp hi).1
      obtain ⟨l1, hl1, hp1⟩ := hvalid.prev_link hpow hfirst
      obtain ⟨l2, hl2, hp2⟩ := hvalid.prev_link hpow hlater
      have hsame : l1 = l2 := Subtype.ext (by rw [← hp1, ← hp2, hprev, hr_prev])
      subst hsame
      have hindex := (List.getElem?_inj (List.getElem?_eq_some_iff.mp hl1).1 hnodup).mp (hl1.trans hl2.symm)
      omega
  · exact absurd hr_prev (hforeign.1 link hlink)

theorem Waits.del (hnodup : (links sha256 coin raws).Nodup) {raw : Bytes}
    (hraws : raws = below ++ raw :: batch ++ above)
    (h : Waits sha256 coin raws (raw :: batch) stage) :
    Waits sha256 coin raws batch (serveStoreStageDel sha256 stage (rawHash sha256 raw)) := by
  have hmap : (raws.map (rawHash sha256)).Nodup := (List.nodup_cons.mp hnodup).2
  constructor
  · intro next hnext
    obtain ⟨r, hr, rfl⟩ := h.here next (List.mem_cons_of_mem _ hnext)
    refine ⟨r, List.mem_filter.mpr ⟨hr, decide_eq_true ?_⟩, rfl⟩
    intro heq
    rw [hraws, List.map_append, List.map_append] at hmap
    have hbatch := List.Nodup.of_append_right (List.Nodup.of_append_left hmap)
    rw [List.map_cons, List.nodup_cons, ← heq] at hbatch
    exact hbatch.1 (List.mem_map_of_mem hnext)
  · intro r hr
    obtain ⟨hr, hne⟩ := List.mem_filter.mp hr
    rcases h.rest r hr with hin | hforeign
    · rcases List.mem_cons.mp hin with heq | hin
      · have hne := of_decide_eq_true hne
        rw [← heq] at hne
        exact absurd rfl hne
      · exact Or.inl hin
    · exact Or.inr hforeign

theorem GrownTo.of_bare {n n' : ServeNode} (h : GrownTo sha256 coin n' raws) (hbare : n.bare = n'.bare) :
    GrownTo sha256 coin n raws := by
  have hnode : n.bare.node = n'.bare.node := by rw [hbare]
  have hheight : n.node.height = n'.node.height := (congrArg Node.height hnode :)
  have hblocks : n.node.db.blocks = n'.node.db.blocks := (congrArg (fun m => m.db.blocks) hnode :)
  have hstore : n.store = n'.store := (congrArg ServeNode.store hbare :)
  constructor
  · rw [hheight]
    exact h.height
  · exact (congrArg Node.tip hnode :).trans h.tip
  · rw [hstore]
    exact h.headers
  · rw [hstore]
    exact h.blockwin
  · rw [hblocks]
    exact h.blocks
  · rw [hblocks, hheight]
    exact h.top
  · rw [hblocks]
    exact h.ordered

/-- The loop of the pass connects all that waits. -/
theorem foldStage_waits (hpow : coin.powlimit ≠ 0)
    (hvalid : ValidChain sha256 idxPowHash idxAttribute coin activation raws)
    (hnodup : (links sha256 coin raws).Nodup) (touched w : Bytes → Bool) {guard : ℕ} {n : StageNode}
    (hraws : raws = below ++ batch ++ above) (hguard : batch.length ≤ guard)
    (hn : n.toServeNode.bare = (grown sha256 idxAttribute coin activation w below).bare)
    (h : Waits sha256 coin raws batch n.stage) :
    let n' := (foldStage sha256 idxPowHash idxAttribute coin touched guard n).1
    n'.toServeNode.bare = (grown sha256 idxAttribute coin activation w (below ++ batch)).bare ∧
      Waits sha256 coin raws [] n'.stage := by
  induction batch generalizing guard n below with
  | nil =>
    rw [List.append_nil] at hraws ⊢
    have hgrown : GrownTo sha256 coin n.toServeNode below := by
      rw [hraws] at hvalid
      exact ((hvalid.front _).grownTo hpow w).of_bare hn
    have hnext : n.node.tip.bind (serveStoreStageNext n.stage) = none := by
      rw [Option.bind_eq_none_iff]
      intro link hlink
      apply h.none_next
      rw [hgrown.tip] at hlink
      rw [hraws, links_append]
      exact List.mem_append_left _ (List.mem_of_getLast? hlink)
    cases guard with
    | zero => exact ⟨hn, h⟩
    | succ guard =>
      unfold foldStage
      rw [hnext]
      exact ⟨hn, h⟩
  | cons raw batch ih =>
    cases guard with
    | zero => cases hguard
    | succ guard =>
      have hchain : ValidChain sha256 idxPowHash idxAttribute coin activation (below ++ [raw]) := by
        apply ValidChain.front (batch ++ above)
        rw [List.append_assoc, List.singleton_append, ← List.cons_append, ← List.append_assoc, ← hraws]
        exact hvalid
      have hgrown := ((hchain.front _).grownTo hpow w).of_bare hn
      have hbare := hn.trans (bare_grown idxAttribute activation w (fun _ => false) below)
      have hnode := congrArg ServeNode.node hbare
      obtain ⟨⟨tip, hlast, hprev⟩, hok⟩ := hchain.last
      have htip : n.node.tip = some tip := (congrArg Node.tip hnode :).trans hlast
      have hlink : tip ∈ links sha256 coin raws := by
        rw [hgrown.tip] at htip
        rw [hraws, List.append_assoc, links_append]
        exact List.mem_append_left _ (List.mem_of_getLast? htip)
      obtain ⟨r, hr, rfl⟩ := h.next hpow hvalid hnodup hraws hlink hprev
      have hheight : n.node.height =
          (grown sha256 idxAttribute coin activation (fun _ => false) below).node.height :=
        (congrArg Node.height hnode :)
      rw [← blockValidate_bare idxPowHash hbare, ← hheight] at hok
      have hnext : n.node.tip.bind (serveStoreStageNext n.stage) = some r := by
        rw [htip]
        exact hr
      have hconnect : (n.connect sha256 idxAttribute r.raw (touched r.raw)).bare =
          (grown sha256 idxAttribute coin activation w (below ++ [r.raw])).bare := by
        rw [grown_append]
        exact connect_bare_congr idxAttribute hn r.raw _ _
      have hparts : raws = below ++ [r.raw] ++ batch ++ above := by
        rw [hraws]
        simp
      have hrest := ih hparts (Nat.succ_le_succ_iff.mp hguard)
        (n := ⟨n.connect sha256 idxAttribute r.raw (touched r.raw),
          serveStoreStageDel sha256 n.stage (r.hash sha256)⟩) hconnect (h.del hnodup hraws)
      rw [List.append_assoc, List.singleton_append] at hrest
      unfold foldStage
      rw [hnext]
      dsimp only
      rw [if_pos hok]
      exact hrest

/-- Where nothing of the chain waits there is no branch to weigh. -/
theorem stageReorg_waits (touched : Bytes → Bool) {n : StageNode}
    (hblocks : ∀ b ∈ n.node.db.blocks, b.hash ∈ links sha256 coin raws)
    (h : Waits sha256 coin raws [] n.stage) :
    stageReorg sha256 idxPowHash idxAttribute coin activation touched n = n := by
  have hfork : stageFork coin n.node.db n.node.height n.stage = none := by
    unfold stageFork
    rw [List.findSome?_eq_none_iff]
    intro i _
    dsimp only
    split
    · rfl
    · split
      · rfl
      · rename_i fh hget
        have hlink : fh ∈ links sha256 coin raws := by
          unfold idxDbBlockGet at hget
          obtain ⟨b, hb, rfl⟩ := Option.map_eq_some_iff.mp hget
          exact hblocks b (OrderedTable.find?_some BlockRow.height hb).1
        rw [h.none_next hlink]
        rfl
  unfold stageReorg
  rw [hfork]
  split <;> rfl

/-- A pass connects all that waits. -/
theorem stagePass_waits (hpow : coin.powlimit ≠ 0)
    (hvalid : ValidChain sha256 idxPowHash idxAttribute coin activation raws)
    (hnodup : (links sha256 coin raws).Nodup) (touched w : Bytes → Bool) {n : StageNode}
    (hraws : raws = below ++ batch ++ above) (hlen : batch.length ≤ 512)
    (hn : n.toServeNode.bare = (grown sha256 idxAttribute coin activation w below).bare)
    (h : Waits sha256 coin raws batch n.stage) :
    let n' := stagePass sha256 idxPowHash idxAttribute coin activation touched n
    n'.toServeNode.bare = (grown sha256 idxAttribute coin activation w (below ++ batch)).bare ∧
      Waits sha256 coin raws [] n'.stage := by
  obtain ⟨hbare, hwaits⟩ := foldStage_waits hpow hvalid hnodup touched w hraws hlen hn h
  unfold stagePass
  generalize foldStage sha256 idxPowHash idxAttribute coin touched 512 n = out at hbare hwaits ⊢
  obtain ⟨n', folded⟩ := out
  have hgrown : GrownTo sha256 coin n'.toServeNode (below ++ batch) := by
    rw [hraws] at hvalid
    exact ((hvalid.front _).grownTo hpow w).of_bare hbare
  have hblocks : ∀ b ∈ n'.node.db.blocks, b.hash ∈ links sha256 coin raws := by
    intro b hb
    have hin := List.mem_map_of_mem (f := BlockRow.hash) hb
    rw [hgrown.hashes] at hin
    rw [hraws, links_append]
    exact List.mem_append_left _ (List.mem_cons_of_mem _ hin)
  dsimp only
  rw [stageReorg_waits touched hblocks hwaits]
  split
  · exact ⟨(bare_project n'.toServeNode).trans hbare, hwaits⟩
  · exact ⟨hbare, hwaits⟩

end Pass

/-! ### Rounds -/

section Rounds

variable (sha256 idxPowHash idxAttribute coin activation)

/-- A node that connected the first `k` blocks, with an empty stage. -/
def followStart (ours : Bytes → Bool) (raws : List Bytes) (k : ℕ) : Follower × GdBudget :=
  ({ grown sha256 idxAttribute coin activation ours (raws.take k) with stage := [] }, {})

/-- The follower holds the first `k` blocks, and nothing of the chain waits. -/
structure Following (w : Bytes → Bool) (raws : List Bytes) (k : ℕ) (c : Follower) : Prop where
  bare : c.toServeNode.bare = (grown sha256 idxAttribute coin activation w (raws.take k)).bare
  rest : ∀ r ∈ c.stage, Foreign sha256 coin raws r.raw

variable {sha256 idxPowHash idxAttribute coin activation}
variable {theirs : Bytes → Bool} {raws : List Bytes} {k : ℕ} {peer : Peer}

/-- A pull brings the follower sixteen blocks further. -/
theorem Following.pull (hpow : coin.powlimit ≠ 0)
    (hvalid : ValidChain sha256 idxPowHash idxAttribute coin activation raws)
    (hnodup : (links sha256 coin raws).Nodup) (hsize : ∀ raw ∈ raws, raw.length ≤ 2 ^ 20)
    (hpeer : peer.store = (grown sha256 idxAttribute coin activation theirs raws).store)
    (hpick : FreshestFirst sha256 pick) (touched : Bytes → Bool) (pool : Mempool)
    (hk : 0 < k) (hne : raws ≠ []) (hwindow : raws.length ≤ k + 289) {c : Follower} {gd : GdBudget}
    (h : Following sha256 idxAttribute coin activation theirs raws k c) {theirNow ourNow : ℤ}
    (hlegal : FollowLegal sha256 coin raws (c, gd) (.pull theirNow ourNow)) :
    Following sha256 idxAttribute coin activation theirs raws (k + 16)
      (followStep sha256 idxPowHash idxAttribute coin activation pick touched pool peer (c, gd)
        (.pull theirNow ourNow)).1 := by
  obtain ⟨hpos, hgd, hlate⟩ := hlegal
  have htake : raws.take k ≠ [] := by
    rw [ne_eq, List.take_eq_nil_iff, not_or]
    exact ⟨by omega, hne⟩
  obtain ⟨below, raw, hsplit⟩ := (List.eq_nil_or_concat (raws.take k)).resolve_left htake
  rw [List.concat_eq_append] at hsplit
  have hraws : raws = below ++ raw :: raws.drop k := by
    rw [List.append_cons, ← hsplit, List.take_append_drop]
  have hfront : ValidChain sha256 idxPowHash idxAttribute coin activation (raws.take k) := by
    apply ValidChain.front (raws.drop k)
    rw [List.take_append_drop]
    exact hvalid
  have hours := (hfront.grownTo hpow theirs).of_bare h.bare
  rw [hsplit] at hours
  have hlong : ∀ raw ∈ raws, 80 ≤ raw.length := fun raw hraw => (hvalid.parses hpow hraw).length_ge
  have hpeers : GrownTo sha256 coin (grown sha256 idxAttribute coin activation theirs raws)
      (below ++ raw :: raws.drop k) := by
    rw [← hraws]
    exact hvalid.grownTo hpow theirs
  have hdistinct : (links sha256 coin (below ++ raw :: raws.drop k)).Nodup := by
    rw [← hraws]
    exact hnodup
  have hmsgs := pullBlocks_eq hpeers hours hdistinct
    (by rw [List.length_drop]; omega)
    (fun x hx => ⟨fun hnil => by have := hlong x (List.mem_of_mem_drop hx); simp [hnil] at this,
      hsize x (List.mem_of_mem_drop hx)⟩) hpeer
    (fun r hr hin => (h.rest r hr).2 (by
      rw [List.map_drop] at hin
      exact List.mem_of_mem_drop hin)) pool hpos hgd ourNow
  have hbatch : ∀ raw ∈ (raws.drop k).take 16, raw ∈ raws ∧ 80 ≤ raw.length := by
    intro x hx
    have hx := List.mem_of_mem_drop (List.mem_of_mem_take hx)
    exact ⟨hx, hlong x hx⟩
  have hbatch_nodup : ((([] : List Bytes) ++ (raws.drop k).take 16).map (rawHash sha256)).Nodup := by
    rw [List.nil_append, List.map_take, List.map_drop]
    exact ((List.nodup_cons.mp hnodup).2.drop).take
  obtain ⟨harrived, hnode⟩ := (arrived_none h.rest hlate).blocks hpick hbatch hbatch_nodup
    (by rw [List.length_nil, Nat.zero_add]; exact List.length_take_le _ _)
  rw [List.nil_append] at harrived
  have hparts : raws = raws.take k ++ (raws.drop k).take 16 ++ (raws.drop k).drop 16 := by
    rw [List.append_assoc, List.take_append_drop, List.take_append_drop]
  have hpass := stagePass_waits hpow hvalid hnodup touched theirs hparts
    (by have := List.length_take_le 16 (raws.drop k); omega)
    ((congrArg ServeNode.bare hnode).trans h.bare) harrived.waits
  rw [← List.take_add] at hpass
  unfold followStep
  dsimp only
  rw [hmsgs]
  constructor
  · exact hpass.1
  · intro r hr
    exact (hpass.2.rest r hr).resolve_left List.not_mem_nil

theorem Following.push (idxPowHash : Bytes → Hash256) (hpick : FreshestFirst sha256 pick)
    (touched : Bytes → Bool) (pool : Mempool) (peer : Peer) {c : Follower} {gd : GdBudget}
    (h : Following sha256 idxAttribute coin activation theirs raws k c)
    {pl : Bytes} {now : ℤ} (hlegal : FollowLegal sha256 coin raws (c, gd) (.push pl now)) :
    Following sha256 idxAttribute coin activation theirs raws k
      (followStep sha256 idxPowHash idxAttribute coin activation pick touched pool peer (c, gd)
        (.push pl now)).1 where
  bare := (congrArg ServeNode.bare (serveBlock_node pl)).trans h.bare
  rest := serveBlock_foreign hpick h.rest hlegal

variable (sha256 idxPowHash idxAttribute coin activation)

/-- A node that is at most 289 blocks behind a peer follows it over one connection, in the order of the
chain: pulls that fall into different windows bring it sixteen blocks each, until it holds what the peer
holds. The wallets of the two may differ, and so may their projections; other peers may push blocks of
other chains meanwhile. -/
theorem follow_catches_up (hpow : coin.powlimit ≠ 0) (raws : List Bytes)
    (hvalid : ValidChain sha256 idxPowHash idxAttribute coin activation raws)
    (hnodup : (links sha256 coin raws).Nodup) (hsize : ∀ raw ∈ raws, raw.length ≤ 2 ^ 20)
    (k : ℕ) (hk : 0 < k) (hkl : k ≤ raws.length) (hwindow : raws.length ≤ k + 289)
    (pick : (Hash256 → ℤ) → List StagedRow → List StagedRow) (hpick : FreshestFirst sha256 pick)
    (theirs ours touched : Bytes → Bool) (pool : Mempool) (peer : Peer)
    (hpeer : peer.store = (grown sha256 idxAttribute coin activation theirs raws).store)
    (es : List FollowEvent) :
    let start := followStart sha256 idxAttribute coin activation ours raws k
    let step := followStep sha256 idxPowHash idxAttribute coin activation pick touched pool peer
    Run.Along step (FollowLegal sha256 coin raws) start es →
      (es.foldl step start).1.toServeNode.bare =
        (grown sha256 idxAttribute coin activation theirs
          (raws.take (k + 16 * es.countP FollowEvent.isPull))).bare := by
  intro start step hrun
  have hne : raws ≠ [] := by
    rintro rfl
    exact absurd hkl (by simpa using hk.ne')
  have hstep : ∀ (es : List FollowEvent) (cg : Follower × GdBudget) (j : ℕ), k ≤ j →
      Following sha256 idxAttribute coin activation theirs raws j cg.1 →
      Run.Along step (FollowLegal sha256 coin raws) cg es →
      Following sha256 idxAttribute coin activation theirs raws
        (j + 16 * es.countP FollowEvent.isPull) (es.foldl step cg).1 := by
    intro es
    induction es with
    | nil => exact fun cg j _ h _ => h
    | cons e es ih =>
      intro cg j hj h hrun
      cases e with
      | pull theirNow ourNow =>
        have hnext := h.pull hpow hvalid hnodup hsize hpeer hpick touched pool (by omega) hne (by omega)
          hrun.1
        have hlast := ih _ (j + 16) (by omega) hnext hrun.2
        rw [List.countP_cons_of_pos rfl, Nat.mul_add, Nat.mul_one, Nat.add_comm (16 * _), ← Nat.add_assoc]
        exact hlast
      | push pl now =>
        have hnext := h.push idxPowHash hpick touched pool peer hrun.1
        have hlast := ih _ j hj hnext hrun.2
        rw [List.countP_cons_of_neg (by simp [FollowEvent.isPull])]
        exact hlast
  have hstart : Following sha256 idxAttribute coin activation theirs raws k start.1 :=
    ⟨bare_grown idxAttribute activation ours theirs (raws.take k), fun _ hr => absurd hr List.not_mem_nil⟩
  exact (hstep es start k le_rfl hstart hrun).bare

end Rounds

/-! ### A race that is not followed -/

section Freshest

variable (sha256) (stamp : Hash256 → ℤ)

/-- Once a row is too many, one of the stalest goes. -/
def keepFreshest (kept : List StagedRow) (r : StagedRow) : List StagedRow :=
  if (kept ++ [r]).length ≤ 32 then kept ++ [r]
  else (kept ++ [r]).eraseP fun x => (kept ++ [r]).all fun y => stamp (x.hash sha256) ≤ stamp (y.hash sha256)

def freshest (rows : List StagedRow) : List StagedRow := rows.foldl (keepFreshest sha256 stamp) []

theorem exists_stalest (rows : List StagedRow) (h : rows ≠ []) :
    ∃ x ∈ rows, (rows.all fun y => stamp (x.hash sha256) ≤ stamp (y.hash sha256)) = true := by
  induction rows with
  | nil => exact absurd rfl h
  | cons r rows ih =>
    by_cases hnil : rows = []
    · subst hnil
      exact ⟨r, List.mem_cons_self, by simp⟩
    · obtain ⟨x, hx, hall⟩ := ih hnil
      rw [List.all_eq_true] at hall
      simp only [decide_eq_true_eq] at hall
      rcases le_total (stamp (x.hash sha256)) (stamp (r.hash sha256)) with hle | hle
      · exact ⟨x, List.mem_cons_of_mem _ hx, by simpa [hle] using hall⟩
      · exact ⟨r, List.mem_cons_self, by simpa using fun y hy => hle.trans (hall y hy)⟩

/-- What a row too many drives out is no fresher than what stays. -/
theorem keepFreshest_split {kept : List StagedRow} (hfull : kept.length = 32) (r : StagedRow) :
    ∃ left x right, kept ++ [r] = left ++ x :: right ∧ keepFreshest sha256 stamp kept r = left ++ right ∧
      ∀ y ∈ kept ++ [r], stamp (x.hash sha256) ≤ stamp (y.hash sha256) := by
  obtain ⟨m, hm, hmin⟩ := exists_stalest sha256 stamp (kept ++ [r]) (by simp)
  obtain ⟨x, left, right, -, hx, hsplit, herase⟩ := List.exists_of_eraseP
    (p := fun x => (kept ++ [r]).all fun y => stamp (x.hash sha256) ≤ stamp (y.hash sha256)) hm hmin
  refine ⟨left, x, right, hsplit, ?_, fun y hy => of_decide_eq_true (List.all_eq_true.mp hx y hy)⟩
  unfold keepFreshest
  rw [if_neg (by rw [List.length_append, List.length_singleton, hfull]; decide)]
  exact herase

theorem freshestFirst_freshest : FreshestFirst sha256 (freshest sha256) := by
  have hrows : ∀ (stamp : Hash256 → ℤ) (rows : List StagedRow),
      (freshest sha256 stamp rows).Sublist rows ∧
        (freshest sha256 stamp rows).length = min 32 rows.length ∧
        ∀ r ∈ freshest sha256 stamp rows, ∀ x ∈ rows, x ∉ freshest sha256 stamp rows →
          stamp (x.hash sha256) ≤ stamp (r.hash sha256) := by
    intro stamp rows
    induction rows using List.reverseRecOn with
    | nil => exact ⟨List.Sublist.refl _, rfl, fun _ hr => absurd hr List.not_mem_nil⟩
    | append_singleton rows r ih =>
      have hnext : freshest sha256 stamp (rows ++ [r]) =
          keepFreshest sha256 stamp (freshest sha256 stamp rows) r := List.foldl_concat ..
      rw [hnext]
      generalize freshest sha256 stamp rows = kept at ih
      obtain ⟨hsub, hlen, hfresh⟩ := ih
      by_cases hroom : kept.length < 32
      · have hall : kept = rows := hsub.eq_of_length_le (by omega)
        have hkeep : keepFreshest sha256 stamp kept r = rows ++ [r] := by
          unfold keepFreshest
          rw [if_pos (by simpa using hroom), hall]
        rw [hkeep, List.length_append, List.length_singleton]
        rw [hall] at hroom
        exact ⟨List.Sublist.refl _, by omega, fun _ _ x hx hout => absurd hx hout⟩
      · have hfull : kept.length = 32 := by omega
        obtain ⟨left, x, right, hsplit, hkeep, hmin⟩ := keepFreshest_split sha256 stamp hfull r
        have hcount := congrArg List.length hsplit
        simp only [List.length_append, List.length_cons, List.length_nil] at hcount
        rw [hkeep]
        refine ⟨?_, ?_, ?_⟩
        · have hleft : (left ++ right).Sublist (left ++ x :: right) :=
            (List.sublist_cons_self x right).append_left left
          rw [← hsplit] at hleft
          exact hleft.trans (hsub.append_right [r])
        · rw [List.length_append, List.length_append, List.length_singleton]
          omega
        · intro y hy z hz hout
          have hy_all : y ∈ kept ++ [r] := by
            rw [hsplit]
            exact ((List.sublist_cons_self x right).append_left left).mem hy
          by_cases hz_all : z ∈ kept ++ [r]
          · -- it is the one that was driven out
            rw [hsplit] at hz_all
            have hzx : z = x := by
              simp only [List.mem_append, List.mem_cons] at hz_all hout
              tauto
            rw [hzx]
            exact hmin y hy_all
          · -- it was out before, so it is no fresher than any that was in
            rw [List.mem_append, not_or] at hz_all
            have hz_rows : z ∈ rows := (List.mem_append.mp hz).resolve_right hz_all.2
            have hold : ∀ w ∈ kept, stamp (z.hash sha256) ≤ stamp (w.hash sha256) :=
              fun w hw => hfresh w hw z hz_rows hz_all.1
            rcases List.eq_nil_or_concat right with hnil | ⟨right', b, hright⟩
            · subst hnil
              obtain ⟨hleft, -⟩ := List.append_inj' hsplit rfl
              rw [List.append_nil, ← hleft] at hy
              exact hold y hy
            · rw [hright, List.concat_eq_append, ← List.cons_append, ← List.append_assoc] at hsplit
              obtain ⟨hleft, -⟩ := List.append_inj' hsplit rfl
              have hx_kept : x ∈ kept := by
                rw [hleft]
                exact List.mem_append_right _ List.mem_cons_self
              exact (hold x hx_kept).trans (hmin y hy_all)
  exact ⟨fun stamp rows => (hrows stamp rows).1, fun stamp rows => (hrows stamp rows).2.1,
    fun stamp rows => (hrows stamp rows).2.2⟩

end Freshest

/-- A chain of two blocks, the second merged-mined. -/
theorem validChain_raced :
    ValidChain raceSha256 racePowHash commitAttribute minedCoin 0 [minedBlock1, mergedBlock2] := by
  have hfirst : prevField minedBlock1 = (zeros 32 : Hash256).val := by decide +kernel
  have hsecond : prevField mergedBlock2 = (rawHash raceSha256 minedBlock1).val := by decide +kernel
  exact ⟨⟨⟨_, by decide +kernel, hfirst⟩, by decide +kernel⟩,
    ⟨⟨_, by decide +kernel, hsecond⟩, by decide +kernel⟩, trivial⟩

/-- A merged-mined block is pulled while a race against it is pushed. -/
def racedEvents : List FollowEvent := [.push raceRow3.raw 50, .pull 100 200]

theorem follow_catches_up_raced :
    let raws := [minedBlock1, mergedBlock2]
    let whole := grown raceSha256 commitAttribute minedCoin 0 (fun _ => true) raws
    let start := followStart raceSha256 commitAttribute minedCoin 0 (fun _ => false) raws 1
    let step := followStep raceSha256 racePowHash commitAttribute minedCoin 0 (freshest raceSha256)
      (fun _ => false) {} ⟨whole.store, [], {}⟩
    (racedEvents.foldl step start).1.toServeNode.bare = whole.bare := by
  intro raws whole start step
  have hnodup : (links raceSha256 minedCoin raws).Nodup := by decide +kernel
  have hsize : ∀ raw ∈ raws, raw.length ≤ 2 ^ 20 := by decide +kernel
  have hforeign : Foreign raceSha256 minedCoin raws raceRow3.raw := by decide +kernel
  have hpull : FollowLegal raceSha256 minedCoin raws (step start (.push raceRow3.raw 50)) (.pull 100 200) :=
    ⟨by decide, Or.inl (by decide +kernel), by decide +kernel⟩
  have hpeer : (⟨whole.store, [], {}⟩ : Peer).store = whole.store := by dsimp only
  have htake : raws.take (1 + 16 * racedEvents.countP FollowEvent.isPull) = raws :=
    List.take_of_length_le (by decide)
  have hall := follow_catches_up raceSha256 racePowHash commitAttribute minedCoin 0 (by decide) raws
    validChain_raced hnodup hsize 1 (by decide) (by decide) (by decide) (freshest raceSha256)
    (freshestFirst_freshest raceSha256) (fun _ => true) (fun _ => false) (fun _ => false) {}
    ⟨whole.store, [], {}⟩ hpeer racedEvents ⟨hforeign, hpull, trivial⟩
  rw [htake] at hall
  subst start step whole
  exact hall

end NamespaceIndexer.Daemon
