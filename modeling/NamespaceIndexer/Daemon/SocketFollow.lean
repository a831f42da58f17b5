import NamespaceIndexer.Daemon.SocketSafe
import NamespaceIndexer.Daemon.Weighing

/-!
# A pass with a peer that has a heavier chain

The peer offers its blocks above the fork, and streams them before it answers for their headers. The
first of them waits for the headers and the rest are dropped; the next round brings them.
-/

namespace NamespaceIndexer.Daemon

open Fold Lib

variable {sha256 idxPowHash : Bytes → Hash256}
variable {idxAttribute : Bytes → ℕ → Option (H160 × Byte)}
variable {coin : Coin} {activation : UInt64}

/-! ### The headers of a valid chain -/

section Valid

theorem bits_ne_zero_of_check {pp : PowParams} {raw : Bytes} {span : ℕ}
    (h : idxPowCheck2 sha256 idxPowHash pp raw = some span) : le32At raw 72 ≠ 0 := by
  intro hzero
  obtain ⟨target, htarget, -⟩ := idxPowCheck2_eq_some.mp h
  unfold powTarget at htarget
  rw [hzero] at htarget
  split at htarget
  · cases htarget
  · cases htarget

theorem ValidChain.bits_ne_zero (hpow : coin.powlimit ≠ 0) {raws : List Bytes}
    (h : ValidChain sha256 idxPowHash idxAttribute coin activation raws) {raw : Bytes}
    (hraw : raw ∈ raws) : le32At raw 72 ≠ 0 := by
  obtain ⟨below, above, rfl⟩ := List.append_of_mem hraw
  have hfront : ValidChain sha256 idxPowHash idxAttribute coin activation (below ++ [raw]) := by
    apply ValidChain.front above
    simpa using h
  obtain ⟨m, -, -, ⟨span, hspan⟩, -⟩ := blockValidate_parts hpow hfront.last.2
  exact bits_ne_zero_of_check hspan

/-- The header of a valid block, with its AuxPoW, is one that a weighing accepts. -/
theorem weighs_of_valid (hpow : coin.powlimit ≠ 0) {db : Db} {pos : ℤ} {raw : Bytes}
    (h : blockValidate sha256 idxPowHash coin db pos raw = true) :
    ∃ m, (idxParseBlock sha256 raw).2 = some m ∧
      idxPowCheck2 sha256 idxPowHash coin.powParams (headerElement raw) =
        some (headerElement raw).length ∧
      (powContext coin db (pos - 1)).Expects coin (le32At (headerElement raw) 72) := by
  obtain ⟨m, hm, -, ⟨span, hspan⟩, hexp, -⟩ := blockValidate_parts hpow h
  obtain ⟨hge, htake, body, hbody⟩ := headerElement_take hm
  have hlen : span = (headerElement raw).length := by
    apply headerElement_span hm body
    rw [← hbody]
    exact hspan
  have hbits : le32At (headerElement raw) 72 = m.bits := by
    rw [(idxParseBlock_fields hm).2, ← le32At_take (show 72 + 4 ≤ 80 by omega), htake,
      le32At_take (by omega)]
  have happend := idxPowCheck2_append hspan []
  have hfront : raw.take span = headerElement raw := by
    rw [hlen]
    exact (congrArg (List.take _) hbody).trans List.take_left
  rw [hfront, List.append_nil, hlen] at happend
  exact ⟨m, hm, happend, by rw [hbits]; exact hexp⟩

theorem prevField_headerElement {raw : Bytes} {m : IdxBlockMeta}
    (h : (idxParseBlock sha256 raw).2 = some m) :
    prevField (headerElement raw) = prevField raw := by
  rw [← prevField_take, (headerElement_take h).2.1, prevField_take]

/-- The headers of a valid chain follow one another from any of its links on. -/
theorem ValidChain.extends (hpow : coin.powlimit ≠ 0) (more : List Bytes) {raws : List Bytes}
    (h : ValidChain sha256 idxPowHash idxAttribute coin activation (raws ++ more)) {bc : BranchCtx}
    (hctx : bc.context = powContext coin
      (grown sha256 idxAttribute coin activation (fun _ => false) raws).node.db
      (coin.start + raws.length))
    (hlink : (links sha256 coin raws).getLast? = some bc.prevHash) :
    Extends sha256 idxPowHash coin bc (more.map headerElement) := by
  induction more generalizing raws bc with
  | nil => trivial
  | cons raw more ih =>
    rw [← List.singleton_append, ← List.append_assoc] at h
    have hfront := h.front more
    have hgrown := (hfront.front _).grownTo hpow fun _ => false
    obtain ⟨⟨tip, htip, hprev⟩, hvalid⟩ := hfront.last
    have htip' : tip = bc.prevHash := by
      rw [hgrown.tip, hlink] at htip
      exact (Option.some.inj htip).symm
    obtain ⟨m, hm, hcheck, hexp⟩ := weighs_of_valid hpow hvalid
    rw [Int.add_sub_cancel, hgrown.height, ← hctx] at hexp
    have hstanding : Standing coin
        (grown sha256 idxAttribute coin activation (fun _ => false) raws).node bc.context := by
      refine ⟨hgrown.ordered, hgrown.top, ?_, ?_⟩
      · rw [hgrown.height]
        omega
      · rw [hgrown.height]
        exact hctx
    obtain ⟨hnext, hheight, -⟩ := hstanding.connect idxAttribute (raw, false) hm
    refine ⟨?_, hcheck, hexp, ih h ?_ ?_⟩
    · rw [prevField_headerElement hm, ← htip']
      exact hprev
    · have hlen : (coin.start : ℤ) + ((raws ++ [raw]).length : ℕ) =
          (connectBranch sha256 idxAttribute
            (grown sha256 idxAttribute coin activation (fun _ => false) raws).node
            (raw, false)).height := by
        rw [hheight, hgrown.height, List.length_append, List.length_singleton]
        push_cast
        ring
      rw [grown_append, hlen]
      exact hnext.context
    · rw [links_append, List.getLast?_append]
      show some (rawHash sha256 raw) = some (idxSha256d sha256 ((headerElement raw).take 80))
      rw [(headerElement_take hm).2.1]
      rfl

end Valid

/-! ### Blocks that come in order -/

section Blocks

variable {touched : Bytes → Bool} {p : SyncPass} {raws : List Bytes} {raw pl : Bytes}
variable {gotAny : Bool} {left : ℕ}

theorem SyncPass.connectTip_valid (hpow : coin.powlimit ≠ 0)
    (h : blockValidate sha256 idxPowHash coin p.n.node.db (p.n.node.height + 1) pl = true) :
    p.connectTip sha256 idxPowHash idxAttribute coin touched gotAny left pl =
      ({ p with n := p.n.connect sha256 idxAttribute pl (touched pl) } : SyncPass).blockDone
        true left := by
  obtain ⟨m, hm, -⟩ := blockValidate_parts hpow h
  unfold SyncPass.connectTip
  rw [if_pos h]
  unfold connectBlock
  simp only [hm, Bool.or_true]

variable (touched gotAny left) in
/-- The next block of the chain, when blocks are awaited. -/
theorem SyncPass.takeBlock_next (hpow : coin.powlimit ≠ 0)
    (h : RecordsChain sha256 idxPowHash idxAttribute coin activation p.n raws)
    (hmore : ValidChain sha256 idxPowHash idxAttribute coin activation (raws ++ [raw])) :
    RecordsChain sha256 idxPowHash idxAttribute coin activation
        (p.n.connect sha256 idxAttribute raw (touched raw)) (raws ++ [raw]) ∧
      p.takeBlock sha256 idxPowHash idxAttribute coin touched gotAny left raw =
        ({ p with n := p.n.connect sha256 idxAttribute raw (touched raw) } : SyncPass).blockDone
          true left := by
  obtain ⟨tip, htip, hprev, hvalid⟩ := h.next hpow hmore
  have hlen := (hmore.parses hpow (List.mem_append_right raws List.mem_cons_self)).length_ge
  have htip' : (copyFrom 32 (raw.drop 4) : Hash256) = tip := by
    apply Subtype.ext
    rw [copyFrom_val (by rw [List.length_drop]; omega), ← hprev]
    rfl
  refine ⟨h.connect hpow htip hprev hvalid _, ?_⟩
  unfold SyncPass.takeBlock
  rw [if_neg (by omega)]
  dsimp only
  rw [htip', if_pos htip]
  exact SyncPass.connectTip_valid hpow hvalid

/-- The blocks that were asked for come in order. -/
theorem SyncPass.blocks_run (hpow : coin.powlimit ≠ 0) {bs : List Bytes} (hne : bs ≠ [])
    (h : RecordsChain sha256 idxPowHash idxAttribute coin activation p.n raws)
    (hvalid : ValidChain sha256 idxPowHash idxAttribute coin activation (raws ++ bs))
    (hp : p.phase = .blocks gotAny bs.length) :
    let p' := (bs.map (Recv.msg .block)).foldl
      (SyncPass.recv sha256 idxPowHash idxAttribute coin activation touched) p
    RecordsChain sha256 idxPowHash idxAttribute coin activation p'.n (raws ++ bs) ∧
      p'.phase = .inv := by
  induction bs generalizing p raws gotAny with
  | nil => exact absurd rfl hne
  | cons raw bs ih =>
    rw [← List.singleton_append, ← List.append_assoc] at hvalid
    obtain ⟨hnext, htake⟩ := SyncPass.takeBlock_next touched gotAny (raw :: bs).length hpow h
      (hvalid.front bs)
    have hrecv : p.recv sha256 idxPowHash idxAttribute coin activation touched (.msg .block raw) =
        ({ p with n := p.n.connect sha256 idxAttribute raw (touched raw) } : SyncPass).blockDone true
          (raw :: bs).length := by
      unfold SyncPass.recv
      rw [hp]
      exact htake
    rw [List.map_cons, List.foldl_cons, hrecv]
    unfold SyncPass.blockDone
    cases bs with
    | nil =>
      rw [if_pos (by simp)]
      exact ⟨hnext.project, rfl⟩
    | cons raw' bs =>
      rw [if_neg (by simp)]
      have hrun := ih
        (p := { p with
          n := p.n.connect sha256 idxAttribute raw (touched raw)
          phase := .blocks true (raw' :: bs).length })
        (List.cons_ne_nil raw' bs) hnext hvalid rfl
      rw [List.append_assoc] at hrun
      exact hrun

end Blocks

/-! ### The fork -/

section Fork

variable {touched : Bytes → Bool} {p : SyncPass} {ours : List Bytes} {raw : Bytes}
variable {gotAny : Bool} {left : ℕ} {n : ServeNode} {j : ℕ} {link : Hash256}

theorem RecordsChain.heightByHash (hpow : coin.powlimit ≠ 0)
    (h : RecordsChain sha256 idxPowHash idxAttribute coin activation n ours)
    (hnodup : (links sha256 coin ours).Nodup) (hj0 : 0 < j)
    (hlink : (links sha256 coin ours)[j]? = some link) :
    idxDbBlockHeightByHash n.node.db link = coin.start + j := by
  have hgrown := h.valid.grownTo hpow fun _ => false
  obtain ⟨i, rfl⟩ : ∃ i, j = i + 1 := ⟨j - 1, by omega⟩
  have hraw := hlink
  unfold links at hraw
  rw [List.getElem?_cons_succ, List.getElem?_map] at hraw
  obtain ⟨raw, hraw, hhash⟩ := Option.map_eq_some_iff.mp hraw
  obtain ⟨b, hb, hbhash⟩ := hgrown.block_at hraw
  have hmem := (OrderedTable.find?_some BlockRow.height hb).1
  rw [← h.blocks] at hmem
  unfold idxDbBlockHeightByHash
  cases hfind : n.node.db.blocks.find? fun r => r.hash = link with
  | none =>
    have hnot := List.find?_eq_none.mp hfind b hmem
    exact absurd (decide_eq_true (hbhash.trans hhash)) hnot
  | some r =>
    have hrhash : r.hash = link := by simpa using List.find?_some hfind
    have hr := List.mem_of_find?_eq_some hfind
    rw [h.blocks] at hr
    obtain ⟨i', raw', hraw', hheight, hlink'⟩ := hgrown.block_mem hr
    have hsame : (links sha256 coin ours)[i' + 1]? = some link := by
      unfold links
      rw [List.getElem?_cons_succ, List.getElem?_map, hraw', ← hrhash, hlink']
      rfl
    have hindex := (List.getElem?_inj (List.getElem?_eq_some_iff.mp hlink).1 hnodup).mp
      (hlink.trans hsame.symm)
    rw [Option.map_some, Option.getD_some, hheight]
    push_cast
    omega

theorem RecordsChain.oursAbove_isSome (hpow : coin.powlimit ≠ 0)
    (h : RecordsChain sha256 idxPowHash idxAttribute coin activation n ours) {k : ℕ}
    (hk : j + k ≤ ours.length) : ∃ w, oursAbove n.node.db (coin.start + j) k = some w := by
  induction k with
  | zero => exact ⟨0, rfl⟩
  | succ k ih =>
    obtain ⟨low, hlow⟩ := ih (by omega)
    obtain ⟨raw, hraw⟩ : ∃ raw, ours[j + k]? = some raw := ⟨_, List.getElem?_eq_getElem (by omega)⟩
    have hbits := h.valid.bits_at hpow hraw
    rw [← h.blocks] at hbits
    obtain ⟨r, hr, hrbits⟩ := Option.map_eq_some_iff.mp hbits
    have hpos : (coin.start : ℤ) + j + (k + 1) = coin.start + (j + k : ℕ) + 1 := by omega
    have hne := h.valid.bits_ne_zero hpow (List.mem_of_getElem? hraw)
    unfold oursAbove
    rw [hpos, hr, hlow]
    dsimp only
    rw [hrbits, if_neg hne]
    exact ⟨_, rfl⟩

variable (touched gotAny left) in
/-- A block that forks from the chain waits for the headers of its branch. -/
theorem SyncPass.takeBlock_fork (hpow : coin.powlimit ≠ 0)
    (h : RecordsChain sha256 idxPowHash idxAttribute coin activation p.n ours)
    (hnodup : (links sha256 coin ours).Nodup) (hj0 : 0 < j) (hj : j < ours.length)
    (hlink : (links sha256 coin ours)[j]? = some link) (hprev : prevField raw = link.val)
    (hlen : 80 ≤ raw.length) (hfork : ∀ r, ours[j]? = some r → rawHash sha256 r ≠ rawHash sha256 raw)
    (hvalid : blockValidate sha256 idxPowHash coin
      (grown sha256 idxAttribute coin activation (fun _ => false) (ours.take j)).node.db
      (coin.start + j + 1) raw = true) :
    p.takeBlock sha256 idxPowHash idxAttribute coin touched gotAny left raw =
      { p with
        phase := .headers gotAny left ⟨raw, coin.start + j, headersWork (ours.drop j),
          seedAt sha256 idxAttribute coin activation ours j link, 0, 0⟩ } := by
  have hcopy : (copyFrom 32 (raw.drop 4) : Hash256) = link := by
    apply Subtype.ext
    rw [copyFrom_val (by rw [List.length_drop]; omega), ← hprev]
    rfl
  have htip : p.n.node.tip ≠ some link := by
    rw [h.tip]
    intro hlast
    rw [List.getLast?_eq_getElem?] at hlast
    have hindex := (List.getElem?_inj (List.getElem?_eq_some_iff.mp hlink).1 hnodup).mp
      (hlink.trans hlast.symm)
    have hcount : (links sha256 coin ours).length = ours.length + 1 := by simp [links]
    omega
  obtain ⟨r, hr⟩ : ∃ r, ours[j]? = some r := ⟨_, List.getElem?_eq_getElem hj⟩
  obtain ⟨b, hb, hbhash⟩ := (h.valid.grownTo hpow fun _ => false).block_at hr
  rw [← h.blocks] at hb
  have hget : idxDbBlockGet p.n.node.db (coin.start + j + 1) ≠ some (rawHash sha256 raw) := by
    unfold idxDbBlockGet
    rw [hb, Option.map_some, hbhash]
    intro hsame
    exact hfork r hr (Option.some.inj hsame)
  have hk : (p.n.node.height - (coin.start + j)).toNat = ours.length - j := by
    rw [h.height]
    omega
  obtain ⟨w, hw⟩ := h.oursAbove_isSome (j := j) hpow (k := ours.length - j) (by omega)
  have hwork := h.ours hpow (by omega) hw
  rw [List.take_of_length_le (by rw [List.length_drop])] at hwork
  unfold SyncPass.takeBlock
  rw [if_neg (by omega)]
  dsimp only
  rw [hcopy, if_neg htip, h.heightByHash hpow hnodup hj0 hlink,
    if_neg (by rw [h.height]; omega), if_neg hget, if_pos ((h.validate hpow hj.le raw).trans hvalid),
    hk, hw]
  dsimp only
  rw [hwork, h.seedAt hpow hj.le]

/-- What a weighing waits through. -/
def PassedOver : Recv → Prop
  | .msg .headers _ | .silence | .stop => False
  | _ => True

theorem SyncPass.passOver_run {w : Weighing} {between : List Recv} (hp : p.phase = .headers gotAny left w)
    (hall : ∀ r ∈ between, PassedOver r) (hlen : w.tries + between.length < 4096) :
    between.foldl (SyncPass.recv sha256 idxPowHash idxAttribute coin activation touched) p =
      { p with phase := .headers gotAny left { w with tries := w.tries + between.length } } := by
  induction between generalizing p w with
  | nil =>
    rw [List.foldl_nil, List.length_nil, Nat.add_zero, ← hp]
  | cons r between ih =>
    rw [List.length_cons] at hlen
    have hrecv : p.recv sha256 idxPowHash idxAttribute coin activation touched r =
        { p with phase := .headers gotAny left { w with tries := w.tries + 1 } } := by
      have hover : p.passOver gotAny left w =
          { p with phase := .headers gotAny left { w with tries := w.tries + 1 } } := by
        unfold SyncPass.passOver
        rw [if_pos (by omega)]
      have hr := hall r List.mem_cons_self
      unfold SyncPass.recv
      rw [hp]
      rcases r with ⟨cmd, pl⟩ | _ | _ | _
      · cases cmd
        case headers => exact hr.elim
        all_goals exact hover
      · exact hover
      · exact hr.elim
      · exact hr.elim
    rw [List.foldl_cons, hrecv]
    refine (ih rfl (fun x hx => hall x (List.mem_cons_of_mem r hx)) ?_).trans ?_
    · dsimp only
      omega
    · dsimp only
      rw [List.length_cons, Nat.add_assoc, Nat.add_comm 1]

variable (touched gotAny left) in
/-- Headers that outweigh what is cut: the chain ends in the block that waited. -/
theorem SyncPass.takeHeaders_heavier (hpow : coin.powlimit ≠ 0)
    (h : RecordsChain sha256 idxPowHash idxAttribute coin activation p.n ours) (hj0 : 0 < j)
    (hj : j ≤ ours.length) {es : List Bytes}
    (hes : Extends sha256 idxPowHash coin (seedAt sha256 idxAttribute coin activation ours j link) es)
    (hfew : es.length ≤ 0xFFFF) {w : Weighing} (hforkH : w.forkH = coin.start + j)
    (hbc : w.bc = seedAt sha256 idxAttribute coin activation ours j link)
    (hheavier : w.ours < headersWork es)
    (hvalid : ValidChain sha256 idxPowHash idxAttribute coin activation (ours.take j ++ [w.pl])) :
    ∃ n : ServeNode,
      RecordsChain sha256 idxPowHash idxAttribute coin activation n (ours.take j ++ [w.pl]) ∧
        p.takeHeaders sha256 idxPowHash idxAttribute coin activation touched gotAny left w
            (headersMessage es) =
          ({ p with n := n } : SyncPass).blockDone true left := by
  obtain ⟨hok, hcut⟩ := h.reorg hpow hj0 hj
  obtain ⟨tip, htip, hprev, hnext⟩ := hcut.next hpow hvalid
  have hweigh : branchWeigh sha256 idxPowHash coin w.bc (headersMessage es) =
      some (es.foldl (BranchCtx.next sha256) w.bc, es.length) := by
    rw [branchWeigh_headersMessage _ hfew, hbc]
    exact weighHeaders_of_extends hes
  refine ⟨_, hcut.connect hpow htip hprev hnext (touched w.pl), ?_⟩
  unfold SyncPass.takeHeaders
  rw [hweigh]
  dsimp only
  rw [hbc, seedAt_work, if_pos hheavier]
  unfold SyncPass.reorgTo
  rw [hforkH, if_pos hok]
  exact SyncPass.connectTip_valid
    (p := { p with n := p.n.reorg sha256 idxAttribute coin activation (coin.start + j) }) hpow hnext

end Fork

/-! ### The pass -/

section Pass

variable (sha256) in
/-- The blocks that a peer offers. -/
def offer (raws : List Bytes) : Recv :=
  .msg .inv (inventory (raws.map fun raw => (2, rawHash sha256 raw)))

variable (sha256) in
theorem invWanted_offer (raws : List Bytes) (h : raws.length ≤ 600) :
    invWanted (inventory (raws.map fun raw => (2, rawHash sha256 raw))) = some raws.length := by
  have hlen : (raws.map fun raw => ((2 : ℕ), rawHash sha256 raw)).length ≤ 0xFFFF := by
    rw [List.length_map]
    omega
  obtain ⟨rest, hcount, hitems⟩ := inventory_read hlen (by
    intro it hit
    obtain ⟨raw, -, rfl⟩ := List.mem_map.mp hit
    norm_num)
  have hall : (raws.map fun raw => ((2 : ℕ), rawHash sha256 raw)).countP (fun it => it.1 = 2) =
      raws.length := by
    rw [List.countP_map]
    exact List.countP_eq_length.mpr fun raw _ => rfl
  unfold invWanted
  rw [hcount, Option.map_some]
  dsimp only
  rw [hitems, hall, Nat.min_eq_right h]

theorem headersWork_map {raws : List Bytes} (h : ∀ raw ∈ raws, Parses sha256 raw) :
    headersWork (raws.map headerElement) = headersWork raws := by
  unfold headersWork
  rw [List.map_map]
  refine congrArg (fun ws : List ℕ => ws.sum % 2 ^ 256) (List.map_congr_left fun raw hraw => ?_)
  obtain ⟨m, hm⟩ := Option.isSome_iff_exists.mp (h raw hraw)
  have hlen := (h raw hraw).length_ge
  show idxPowWork (le32At (headerElement raw) 72) = _
  rw [← le32At_take (show 72 + 4 ≤ 80 by omega), (headerElement_take hm).2.1, le32At_take (by omega)]

variable {touched : Bytes → Bool} {p : SyncPass} {raws rest : List Bytes}

/-- Blocks are awaited after an offer. -/
theorem SyncPass.recv_offer (hp : p.phase = .inv) {raw : Bytes} (hfew : rest.length < 600) :
    p.recv sha256 idxPowHash idxAttribute coin activation touched (offer sha256 (raw :: rest)) =
      { p with phase := .blocks false (rest.length + 1) } := by
  have hwant := invWanted_offer sha256 (raw :: rest) hfew
  unfold SyncPass.recv offer
  rw [hp]
  dsimp only
  unfold SyncPass.takeInv
  rw [hwant]
  rfl

variable (touched) in
/-- The rest of the branch comes in a round of its own. -/
theorem SyncPass.rest_run (hpow : coin.powlimit ≠ 0)
    (h : RecordsChain sha256 idxPowHash idxAttribute coin activation p.n raws)
    (hvalid : ValidChain sha256 idxPowHash idxAttribute coin activation (raws ++ rest))
    (hfew : rest.length < 600) :
    let p' := ([.silence, offer sha256 rest] ++ rest.map (Recv.msg .block)).foldl
      (SyncPass.recv sha256 idxPowHash idxAttribute coin activation touched)
      (p.blockDone true (rest.length + 1))
    RecordsChain sha256 idxPowHash idxAttribute coin activation p'.n (raws ++ rest) ∧
      p'.phase = .inv := by
  cases rest with
  | nil =>
    have hwant := invWanted_offer sha256 [] (Nat.zero_le 600)
    let q : SyncPass := { p with n := { p.n with node := p.n.node.project }, idle := 1, phase := .inv }
    have hsilence : (p.blockDone true 1).recv sha256 idxPowHash idxAttribute coin activation touched
        .silence = q := rfl
    have hoffer : q.recv sha256 idxPowHash idxAttribute coin activation touched (offer sha256 []) =
        q.idleOn := by
      unfold SyncPass.recv offer
      dsimp only [q]
      unfold SyncPass.takeInv
      rw [hwant]
      rfl
    intro p'
    have hp' : p' = q.idleOn := by
      rw [← hoffer, ← hsilence]
      rfl
    rw [hp', List.append_nil]
    exact ⟨h.project, rfl⟩
  | cons raw rest =>
    let q : SyncPass := { p with n := { p.n with node := p.n.node.project }, idle := 0, phase := .inv }
    have hdone : p.blockDone true ((raw :: rest).length + 1) =
        { p with phase := .blocks true (rest.length + 1) } := by
      unfold SyncPass.blockDone
      rw [if_neg (by simp)]
      rfl
    have hsilence : SyncPass.recv sha256 idxPowHash idxAttribute coin activation touched
        { p with phase := .blocks true (rest.length + 1) } .silence = q := rfl
    have hoffer : q.recv sha256 idxPowHash idxAttribute coin activation touched
        (offer sha256 (raw :: rest)) = { q with phase := .blocks false (rest.length + 1) } :=
      SyncPass.recv_offer rfl (by simpa using Nat.lt_of_succ_lt hfew)
    rw [List.foldl_append, List.foldl_cons, List.foldl_cons, List.foldl_nil, hdone, hsilence, hoffer]
    exact SyncPass.blocks_run (p := { q with phase := .blocks false (rest.length + 1) }) hpow
      (List.cons_ne_nil raw rest) h.project hvalid rfl

variable (sha256) in
/-- What a peer sends that has `raw :: rest` above the fork. -/
def branchReceives (raw : Bytes) (rest : List Bytes) (between : List Recv) : List Recv :=
  [offer sha256 (raw :: rest), .msg .block raw] ++ between ++
    [.msg .headers (headersMessage ((raw :: rest).map headerElement))] ++
    ([.silence, offer sha256 rest] ++ rest.map (Recv.msg .block))

end Pass

variable (sha256 idxPowHash idxAttribute coin activation) in
/-- A node and its peer are on valid chains that fork, and the branch of the peer is of at most 600 blocks
and carries more work. The peer offers it and sends the first block, then fewer than 4096 messages that
are passed over, then the headers; after a silence it offers the rest and sends it. The node ends on the
chain of the peer and asks for more. -/
theorem pass_takes_heavier (hpow : coin.powlimit ≠ 0) (touched : Bytes → Bool) (p : SyncPass)
    (hp : p.phase = .inv) (common ours : List Bytes) (raw : Bytes) (rest : List Bytes)
    (hours : RecordsChain sha256 idxPowHash idxAttribute coin activation p.n (common ++ ours))
    (htheirs : ValidChain sha256 idxPowHash idxAttribute coin activation (common ++ raw :: rest))
    (hcommon : common ≠ []) (hfork : ∃ r ∈ ours.head?, rawHash sha256 r ≠ rawHash sha256 raw)
    (hnodup : (links sha256 coin (common ++ ours)).Nodup) (hfew : rest.length < 600)
    (hheavier : headersWork ours < headersWork (raw :: rest)) (between : List Recv)
    (hbetween : ∀ r ∈ between, PassedOver r) (hsoon : between.length < 4096) :
    let p' := (branchReceives sha256 raw rest between).foldl
      (SyncPass.recv sha256 idxPowHash idxAttribute coin activation touched) p
    RecordsChain sha256 idxPowHash idxAttribute coin activation p'.n (common ++ raw :: rest) ∧
      p'.phase = .inv := by
  obtain ⟨first, hfirst, hother⟩ := hfork
  have hj0 : 0 < common.length := List.length_pos_of_ne_nil hcommon
  have hours0 : 0 < ours.length := by
    cases ours with
    | nil => cases hfirst
    | cons r ours => exact Nat.succ_pos _
  have hj : common.length < (common ++ ours).length := by
    rw [List.length_append]
    omega
  have htake : (common ++ ours).take common.length = common := List.take_left
  have hdrop : (common ++ ours).drop common.length = ours := List.drop_left
  have hvalid : ValidChain sha256 idxPowHash idxAttribute coin activation (common ++ [raw]) := by
    apply ValidChain.front rest
    rw [List.append_assoc]
    exact htheirs
  have hgrown := (hvalid.front _).grownTo hpow fun _ => false
  obtain ⟨⟨link, hlast, hprev⟩, hblock⟩ := hvalid.last
  rw [hgrown.tip] at hlast
  rw [hgrown.height] at hblock
  have hlink : (links sha256 coin (common ++ ours))[common.length]? = some link := by
    rw [← getLast?_links_take hj.le, htake]
    exact hlast
  have hlen := (hvalid.parses hpow (List.mem_append_right common List.mem_cons_self)).length_ge
  have hfirst' : ∀ r, (common ++ ours)[common.length]? = some r →
      rawHash sha256 r ≠ rawHash sha256 raw := by
    intro r hr
    rw [List.getElem?_append_right le_rfl, Nat.sub_self, ← List.head?_eq_getElem?, hfirst] at hr
    cases hr
    exact hother
  -- the headers of the branch follow the fork
  have hext : Extends sha256 idxPowHash coin
      (seedAt sha256 idxAttribute coin activation (common ++ ours) common.length link)
      ((raw :: rest).map headerElement) := by
    apply ValidChain.extends hpow (raw :: rest) htheirs
    · unfold seedAt branchSeed
      rw [htake]
    · exact hlast
  have hparses : ∀ r ∈ raw :: rest, Parses sha256 r := fun r hr =>
    htheirs.parses hpow (List.mem_append_right common hr)
  have hcount : ((raw :: rest).map headerElement).length ≤ 0xFFFF := by
    rw [List.length_map, List.length_cons]
    omega
  let recv := SyncPass.recv sha256 idxPowHash idxAttribute coin activation touched
  let headers : Recv := .msg .headers (headersMessage ((raw :: rest).map headerElement))
  let w (tries : ℕ) : Weighing := ⟨raw, coin.start + common.length, headersWork ours,
    seedAt sha256 idxAttribute coin activation (common ++ ours) common.length link, 0, tries⟩
  let waiting (tries : ℕ) : SyncPhase := .headers false (rest.length + 1) (w tries)
  have hfork : [offer sha256 (raw :: rest), .msg .block raw].foldl recv p =
      { p with phase := waiting 0 } := by
    have hwaits := SyncPass.takeBlock_fork touched false (rest.length + 1)
      (p := { p with phase := .blocks false (rest.length + 1) }) hpow hours hnodup hj0 hj hlink hprev hlen
      hfirst' (by rw [htake]; exact hblock)
    rw [hdrop] at hwaits
    rw [List.foldl_cons, List.foldl_cons, List.foldl_nil]
    dsimp only [recv]
    rw [SyncPass.recv_offer hp hfew]
    exact hwaits
  have hsoon' : 0 + between.length < 4096 := by omega
  have hpassed : between.foldl recv { p with phase := waiting 0 } =
      { p with phase := waiting (0 + between.length) } :=
    SyncPass.passOver_run (p := { p with phase := waiting 0 }) (w := w 0) rfl hbetween hsoon'
  obtain ⟨n, hn, hcut⟩ : ∃ n : ServeNode,
      RecordsChain sha256 idxPowHash idxAttribute coin activation n (common ++ [raw]) ∧
        [headers].foldl recv { p with phase := waiting (0 + between.length) } =
          ({ p with n := n, phase := waiting (0 + between.length) } : SyncPass).blockDone true
            (rest.length + 1) := by
    have hvalid' : ValidChain sha256 idxPowHash idxAttribute coin activation
        ((common ++ ours).take common.length ++ [raw]) := by
      rw [htake]
      exact hvalid
    have hwork : headersWork ours < headersWork ((raw :: rest).map headerElement) := by
      rw [headersWork_map hparses]
      exact hheavier
    have hheaders := SyncPass.takeHeaders_heavier (p := { p with phase := waiting (0 + between.length) })
      (w := w (0 + between.length)) touched false (rest.length + 1) hpow hours hj0 hj.le hext hcount rfl
      rfl hwork hvalid'
    rw [htake] at hheaders
    exact hheaders
  have hrest : ValidChain sha256 idxPowHash idxAttribute coin activation (common ++ [raw] ++ rest) := by
    rw [List.append_assoc]
    exact htheirs
  have hend := SyncPass.rest_run touched
    (p := { p with n := n, phase := waiting (0 + between.length) }) hpow hn hrest hfew
  rw [List.append_assoc] at hend
  have hall : (branchReceives sha256 raw rest between).foldl recv p =
      ([.silence, offer sha256 rest] ++ rest.map (Recv.msg .block)).foldl recv
        (({ p with n := n, phase := waiting (0 + between.length) } : SyncPass).blockDone true
          (rest.length + 1)) := by
    rw [← hcut, ← hpassed, ← hfork]
    simp only [branchReceives, List.foldl_append, headers]
  intro p'
  have hp' : p' = _ := hall
  rw [hp']
  exact hend

theorem pass_takes_heavier_raced :
    let p : SyncPass :=
      { n := grown raceSha256 commitAttribute minedCoin 0 (fun _ => false) [minedBlock1, mergedBlock2] }
    let p' := (branchReceives raceSha256 minedBlock2 [raceRow3.raw]
      [.msg .block raceRow3.raw, .skipped]).foldl
        (SyncPass.recv raceSha256 racePowHash commitAttribute minedCoin 0 fun _ => false) p
    RecordsChain raceSha256 racePowHash commitAttribute minedCoin 0 p'.n
        ([minedBlock1] ++ minedBlock2 :: [raceRow3.raw]) ∧
      p'.phase = .inv := by
  intro p
  have hours := recordsChain_grown (by decide) validChain_raced fun _ => false
  have htheirs : ValidChain raceSha256 racePowHash commitAttribute minedCoin 0
      ([minedBlock1] ++ minedBlock2 :: [raceRow3.raw]) := by
    have hfirst : prevField minedBlock1 = (zeros 32 : Hash256).val := by decide +kernel
    have hsecond : prevField minedBlock2 = (rawHash raceSha256 minedBlock1).val := by decide +kernel
    have hthird : prevField raceRow3.raw = (rawHash raceSha256 minedBlock2).val := by decide +kernel
    exact ⟨⟨⟨_, by decide +kernel, hfirst⟩, by decide +kernel⟩,
      ⟨⟨_, by decide +kernel, hsecond⟩, by decide +kernel⟩,
      ⟨⟨_, by decide +kernel, hthird⟩, by decide +kernel⟩, trivial⟩
  have hother : rawHash raceSha256 mergedBlock2 ≠ rawHash raceSha256 minedBlock2 := by decide +kernel
  have hnodup : (links raceSha256 minedCoin ([minedBlock1] ++ [mergedBlock2])).Nodup := by decide +kernel
  have hheavier : headersWork [mergedBlock2] < headersWork (minedBlock2 :: [raceRow3.raw]) := by
    decide +kernel
  exact pass_takes_heavier raceSha256 racePowHash commitAttribute minedCoin 0 (by decide)
    (fun _ => false) p rfl [minedBlock1] [mergedBlock2] minedBlock2 [raceRow3.raw] hours htheirs (by decide)
    ⟨mergedBlock2, rfl, hother⟩ hnodup (by decide) hheavier [.msg .block raceRow3.raw, .skipped]
    (by simp [PassedOver]) (by decide)

end NamespaceIndexer.Daemon
