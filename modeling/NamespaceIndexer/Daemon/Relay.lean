import NamespaceIndexer.Daemon.MempoolRuns
import NamespaceIndexer.Daemon.NetPolicy
import NamespaceIndexer.Daemon.StageReorg

/-!
# The relay branches of `serve_dispatch`

What a node does with the inventory messages of a connection that is up: it asks for what it does not
know, sends what it is asked for while the budget of the connection lasts, and announces the
transactions that its pool accepts.
-/

namespace NamespaceIndexer.Daemon

open Fold Lib

/-! ### Messages -/

/-- The commands of these branches. -/
inductive RelayCmd where
  | inv
  | getdata
  | block
  | tx
  | mempool
  deriving DecidableEq

/-- A command and its payload. -/
structure RelayMsg where
  cmd : RelayCmd
  pl : Bytes
  deriving DecidableEq

/-- One item of an inventory: its type and a hash. -/
def putItem (it : ℕ × Hash256) : Bytes := leBytes 4 it.1 ++ it.2.val

/-- An inventory as every branch writes it. -/
def inventory (items : List (ℕ × Hash256)) : Bytes := putVarint items.length ++ items.flatMap putItem

/-- The loop over the items, while there are 36 more bytes. -/
def readItems : ℕ → Bytes → List (ℕ × Hash256)
  | 0, _ => []
  | cnt + 1, pl =>
    if 36 ≤ pl.length then (leVal (pl.take 4), copyFrom 32 (pl.drop 4)) :: readItems cnt (pl.drop 36)
    else []

@[simp] theorem length_putItem (it : ℕ × Hash256) : (putItem it).length = 36 := by
  rw [putItem, List.length_append, length_leBytes, it.2.2]

/-- The items that were written are read, with nothing left over. -/
theorem readItems_flatMap {items : List (ℕ × Hash256)} (h : ∀ it ∈ items, it.1 < 2 ^ 32) :
    readItems items.length (items.flatMap putItem) = items := by
  induction items with
  | nil => rfl
  | cons it items ih =>
    have hlt := h it List.mem_cons_self
    have htake : (putItem it ++ items.flatMap putItem).take 4 = leBytes 4 it.1 := by
      rw [putItem, List.append_assoc, List.take_left' (length_leBytes 4 it.1)]
    have hdrop : (putItem it ++ items.flatMap putItem).drop 4 = it.2.val ++ items.flatMap putItem := by
      rw [putItem, List.append_assoc, List.drop_left' (length_leBytes 4 it.1)]
    have hrest : (putItem it ++ items.flatMap putItem).drop 36 = items.flatMap putItem :=
      List.drop_left' (length_putItem it)
    rw [List.length_cons, List.flatMap_cons, readItems,
      if_pos (by rw [List.length_append, length_putItem]; omega), htake, hdrop, hrest, leVal_leBytes,
      copyFrom_append, Nat.mod_eq_of_lt (by simpa using hlt),
      ih fun x hx => h x (List.mem_cons_of_mem _ hx)]

/-- An inventory that a node writes is read as it was written. -/
theorem inventory_read {items : List (ℕ × Hash256)} (hlen : items.length ≤ 0xFFFF)
    (h : ∀ it ∈ items, it.1 < 2 ^ 32) :
    ∃ rest, netPolicyReadCount (inventory items) = some (items.length, rest) ∧
      readItems items.length rest = items :=
  ⟨_, netPolicyReadCount_putVarint hlen _, readItems_flatMap h⟩

/-! ### The pool -/

namespace Mempool

/-- `mempool_has`. -/
def has (p : Mempool) (txid : Hash256) : Bool := (p.findEntry txid).isSome

/-- `mempool_seen`. -/
def seen (p : Mempool) (txid : Hash256) : Bool := (p.findEntry txid).isSome || p.gSeen.any fun t => t = txid

/-- `mempool_get_copy`. -/
def getCopy (p : Mempool) (txid : Hash256) : Option Bytes := (p.findEntry txid).map MpEntry.raw

/-- `mempool_txids`. -/
def txids (p : Mempool) (max : ℕ) : List Hash256 := (p.entries.map MpEntry.txid).take max

end Mempool

/-! ### The branches -/

section Branches

variable (sha256 : Bytes → Hash256)

/-- The serve store with its stage, or none. -/
abbrev RelayStore := Option (ServeStore × List StagedRow)

/-- `serve_store_have`. -/
def serveStoreHave (ss : RelayStore) (hash : Hash256) : Bool :=
  match ss with
  | none => false
  | some (ss, stage) => ss.headers.any (fun r => r.hash = hash) || stage.any fun r => r.hash sha256 = hash

/-- `want` and `wblk`. -/
structure Wants where
  want : List Hash256 := []
  wblk : List Hash256 := []

/-- One turn of the loop of the `inv` branch. -/
def wantItem (p : Mempool) (ss : RelayStore) (w : Wants) (it : ℕ × Hash256) : Wants :=
  if it.1 = 1 ∧ w.want.length < 128 then
    if p.has it.2 || p.seen it.2 then w else { w with want := w.want ++ [it.2] }
  else if it.1 = 2 ∧ w.wblk.length < 16 ∧ ss.isSome then
    if serveStoreHave sha256 ss it.2 then w else { w with wblk := w.wblk ++ [it.2] }
  else w

/-- The answer of the `inv` branch: what is not known is asked for. -/
def invReply (p : Mempool) (ss : RelayStore) (items : List (ℕ × Hash256)) : List RelayMsg :=
  let w := items.foldl (wantItem sha256 p ss) {}
  if w.want.length + w.wblk.length = 0 then []
  else [⟨.getdata, inventory (w.want.map (1, ·) ++ w.wblk.map (2, ·))⟩]

/-- The body of an item that is asked for, and the blocks it counts for. -/
def itemBody (p : Mempool) (ss : RelayStore) (it : ℕ × Hash256) : Option (RelayMsg × ℕ) :=
  if it.1 = 2 ∧ ss.isSome then
    (ss.bind fun s => serveStoreBlock s.1 it.2).map fun raw => (⟨.block, raw⟩, 1)
  else if it.1 = 1 then (p.getCopy it.2).map fun raw => (⟨.tx, raw⟩, 0)
  else none

/-- The loop of the `getdata` branch: the bodies that are sent, and the budget left. It ends where
enough items were looked at, or a body is refused. -/
def serveGetdata (p : Mempool) (ss : RelayStore) (now : ℤ) :
    List (ℕ × Hash256) → ℕ → GdBudget → List RelayMsg × GdBudget
  | [], _, g => ([], g)
  | it :: items, examined, g =>
    if netPolicyGetdataItemsOk examined then
      match itemBody p ss it with
      | none => serveGetdata p ss now items (examined + 1) g
      | some (m, blocks) =>
        match netPolicyGetdataOk g now blocks m.pl.length with
        | (g, false) => ([], g)
        | (g, true) =>
          let out := serveGetdata p ss now items (examined + 1) g
          (m :: out.1, out.2)
    else ([], g)

/-- What a message changes at the node and at the connection it came over, what is sent there, the
transaction that is announced on the others, and what is held against the peer. -/
structure Dispatched where
  pool : Mempool
  gd : GdBudget
  reply : List RelayMsg := []
  announce : Option RelayMsg := none
  misbehave : Option (ℕ × String) := none

/-- The relay branches of `serve_dispatch`. -/
def serveDispatch (p : Mempool) (gd : GdBudget) (ss : RelayStore) (now : ℤ) (m : RelayMsg) :
    Dispatched :=
  match m.cmd with
  | .inv =>
    match netPolicyReadCount m.pl with
    | none => ⟨p, gd, [], none, none⟩
    | some (cnt, rest) =>
      if idxMaxInvSz < cnt then ⟨p, gd, [], none, some (20, "inv count")⟩
      else ⟨p, gd, invReply sha256 p ss (readItems cnt rest), none, none⟩
  | .getdata =>
    match netPolicyReadCount m.pl with
    | none => ⟨p, gd, [], none, none⟩
    | some (cnt, rest) =>
      if idxMaxInvSz < cnt then ⟨p, gd, [], none, some (20, "getdata count")⟩
      else
        let out := serveGetdata p ss now (readItems cnt rest) 0 gd
        ⟨p, out.2, out.1, none, none⟩
  | .block => ⟨p, gd, [], none, none⟩
  | .tx =>
    let out := p.accept sha256 m.pl now
    ⟨out.pool, gd, [], if out.ok then some ⟨.inv, inventory [(1, out.txid)]⟩ else none, none⟩
  | .mempool =>
    let ids := p.txids 1000
    ⟨p, gd, if ids = [] then [] else [⟨.inv, inventory (ids.map (1, ·))⟩], none, none⟩

/-! ### The bodies that a connection is sent -/

/-- A message over a connection, and what its handler finds. -/
structure ConnInput where
  now : ℤ
  pool : Mempool
  ss : RelayStore
  msg : RelayMsg

def ConnInput.dispatch (i : ConnInput) (g : GdBudget) : Dispatched :=
  serveDispatch sha256 i.pool g i.ss i.now i.msg

/-- The `block` and `tx` messages among some. -/
def bodies (ms : List RelayMsg) : List RelayMsg := ms.filter fun m => m.cmd = .block ∨ m.cmd = .tx

def blockCount (ms : List RelayMsg) : ℕ := ms.countP fun m => m.cmd = .block

def bodyBytes (ms : List RelayMsg) : ℕ := (ms.map fun m => m.pl.length).sum

/-- The bodies that a connection is sent in the ten seconds from `a` on. -/
def sentWithin (a : ℤ) : GdBudget → List ConnInput → List RelayMsg
  | _, [] => []
  | g, i :: is =>
    let d := i.dispatch sha256 g
    (if a ≤ i.now ∧ i.now < a + idxGetdataWindowS then bodies d.reply else []) ++ sentWithin a d.gd is

variable {sha256} {p : Mempool} {ss : RelayStore} {a now : ℤ} {g : GdBudget} {b y : ℕ}

theorem itemBody_spec {it : ℕ × Hash256} {m : RelayMsg} {blocks : ℕ}
    (h : itemBody p ss it = some (m, blocks)) :
    (m.cmd = .block ∧ blocks = 1) ∨ (m.cmd = .tx ∧ blocks = 0) := by
  unfold itemBody at h
  by_cases hblock : it.1 = 2 ∧ ss.isSome
  · rw [if_pos hblock] at h
    obtain ⟨raw, -, hm⟩ := Option.map_eq_some_iff.mp h
    cases hm
    exact Or.inl ⟨rfl, rfl⟩
  · rw [if_neg hblock] at h
    by_cases htx : it.1 = 1
    · rw [if_pos htx] at h
      obtain ⟨raw, -, hm⟩ := Option.map_eq_some_iff.mp h
      cases hm
      exact Or.inr ⟨rfl, rfl⟩
    · rw [if_neg htx] at h
      cases h

theorem blockCount_cons {it : ℕ × Hash256} {m : RelayMsg} {blocks : ℕ}
    (h : itemBody p ss it = some (m, blocks)) (ms : List RelayMsg) :
    blockCount (m :: ms) = blocks + blockCount ms := by
  unfold blockCount
  rcases itemBody_spec h with ⟨hm, rfl⟩ | ⟨hm, rfl⟩ <;> simp [hm, Nat.add_comm]

theorem serveGetdata_bodies (items : List (ℕ × Hash256)) (examined : ℕ) (g : GdBudget) :
    ∀ m ∈ (serveGetdata p ss now items examined g).1, m.cmd = .block ∨ m.cmd = .tx := by
  induction items generalizing examined g with
  | nil => exact fun m hm => absurd hm List.not_mem_nil
  | cons it items ih =>
    intro m hm
    unfold serveGetdata at hm
    split at hm
    · split at hm
      · exact ih _ _ m hm
      · rename_i m' blocks hbody
        split at hm
        · exact absurd hm List.not_mem_nil
        · rcases List.mem_cons.mp hm with rfl | hm
          · exact (itemBody_spec hbody).imp And.left And.left
          · exact ih _ _ m hm
    · exact absurd hm List.not_mem_nil

/-- A whole answer keeps to the window; what is sent before the ten seconds does not count. -/
theorem Spent.serveGetdata (hpos : 0 < now) (hlate : now < a + idxGetdataWindowS)
    (items : List (ℕ × Hash256)) (examined : ℕ) (h : Spent a g b y)
    (hearly : now < a → b = 0 ∧ y = 0) :
    let out := Daemon.serveGetdata p ss now items examined g
    Spent a out.2 (b + if a ≤ now then blockCount out.1 else 0)
      (y + if a ≤ now then bodyBytes out.1 else 0) := by
  induction items generalizing examined g b y with
  | nil => simpa [Daemon.serveGetdata, blockCount, bodyBytes] using h
  | cons it items ih =>
    unfold Daemon.serveGetdata
    by_cases hex : netPolicyGetdataItemsOk examined
    · rw [if_pos hex]
      cases hbody : itemBody p ss it with
      | none => exact ih _ h hearly
      | some body =>
        obtain ⟨m, blocks⟩ := body
        have hok := h.getdataOk hpos hlate hearly blocks m.pl.length
        cases hg : netPolicyGetdataOk g now blocks m.pl.length with
        | mk g' ok =>
          rw [hg] at hok
          cases ok with
          | false => simpa [hg, blockCount, bodyBytes] using hok
          | true =>
            simp only [hg]
            by_cases ha : a ≤ now
            · have hout := ih (examined + 1) hok.1 fun hlt => absurd hlt (not_lt.mpr ha)
              dsimp only at hout
              rw [if_pos ha, if_pos ha] at hout ⊢
              rw [blockCount_cons hbody, bodyBytes, List.map_cons, List.sum_cons, ← bodyBytes,
                ← Nat.add_assoc, ← Nat.add_assoc]
              exact hout
            · have hout := ih (examined + 1) hok.2 hearly
              dsimp only at hout
              rw [if_neg ha, if_neg ha] at hout ⊢
              exact hout
    · rw [if_neg hex]
      simpa [blockCount, bodyBytes] using h

variable (sha256) in
/-- A message over the connection: what it is sent is the bodies of a `getdata` answer, or none. -/
theorem Spent.dispatch {i : ConnInput} (hpos : 0 < i.now) (hlate : i.now < a + idxGetdataWindowS)
    (h : Spent a g b y) (hearly : i.now < a → b = 0 ∧ y = 0) :
    let d := i.dispatch sha256 g
    Spent a d.gd (b + if a ≤ i.now then blockCount (bodies d.reply) else 0)
      (y + if a ≤ i.now then bodyBytes (bodies d.reply) else 0) := by
  have hnone : ∀ ms, bodies ms = [] → Spent a g (b + if a ≤ i.now then blockCount (bodies ms) else 0)
      (y + if a ≤ i.now then bodyBytes (bodies ms) else 0) := fun ms hms => by
    simpa [hms, blockCount, bodyBytes] using h
  unfold ConnInput.dispatch serveDispatch
  cases hcmd : i.msg.cmd with
  | inv =>
    dsimp only
    cases hcount : netPolicyReadCount i.msg.pl with
    | none => exact hnone [] rfl
    | some c =>
      dsimp only
      split
      · exact hnone [] rfl
      · refine hnone _ ?_
        unfold invReply
        dsimp only
        split <;> rfl
  | getdata =>
    dsimp only
    cases hcount : netPolicyReadCount i.msg.pl with
    | none => exact hnone [] rfl
    | some c =>
      dsimp only
      split
      · exact hnone [] rfl
      · have hall : bodies (Daemon.serveGetdata i.pool i.ss i.now (readItems c.1 c.2) 0 g).1 =
            (Daemon.serveGetdata i.pool i.ss i.now (readItems c.1 c.2) 0 g).1 :=
          List.filter_eq_self.mpr fun m hm => decide_eq_true (serveGetdata_bodies _ _ _ m hm)
        rw [hall]
        exact h.serveGetdata hpos hlate _ _ hearly
  | block => exact hnone [] rfl
  | tx => exact hnone [] rfl
  | mempool =>
    refine hnone _ ?_
    dsimp only
    split <;> rfl

theorem sentWithin_late {is : List ConnInput} (h : ∀ i ∈ is, a + idxGetdataWindowS ≤ i.now)
    (g : GdBudget) : sentWithin sha256 a g is = [] := by
  induction is generalizing g with
  | nil => rfl
  | cons i is ih =>
    have hi := h i List.mem_cons_self
    rw [sentWithin, if_neg (by omega)]
    exact ih (fun x hx => h x (List.mem_cons_of_mem _ hx)) _

variable (sha256) in
theorem sentWithin_le {is : List ConnInput} (hpos : ∀ i ∈ is, 0 < i.now)
    (hmono : is.Pairwise fun i j => i.now ≤ j.now) (h : Spent a g b y)
    (hearly : ∀ i ∈ is, i.now < a → b = 0 ∧ y = 0) :
    b + blockCount (sentWithin sha256 a g is) ≤ 2 * idxGetdataBlocks ∧
      y + bodyBytes (sentWithin sha256 a g is) ≤ 2 * idxGetdataBytes := by
  induction is generalizing g b y with
  | nil => exact h.le
  | cons i is ih =>
    obtain ⟨hnext, hmono⟩ := List.pairwise_cons.mp hmono
    by_cases hlate : i.now < a + idxGetdataWindowS
    · have hspent := h.dispatch sha256 (hpos i List.mem_cons_self) hlate
        (hearly i List.mem_cons_self)
      dsimp only at hspent
      rw [sentWithin]
      by_cases ha : a ≤ i.now
      · rw [if_pos ha, if_pos ha] at hspent
        have hout := ih (fun x hx => hpos x (List.mem_cons_of_mem _ hx)) hmono hspent
          fun x hx hlt => absurd hlt (not_lt.mpr (ha.trans (hnext x hx)))
        rw [if_pos ⟨ha, hlate⟩]
        simp only [blockCount, bodyBytes, List.countP_append, List.map_append, List.sum_append] at hout ⊢
        omega
      · rw [if_neg ha, if_neg ha] at hspent
        rw [if_neg fun hin => ha hin.1, List.nil_append]
        exact ih (fun x hx => hpos x (List.mem_cons_of_mem _ hx)) hmono hspent
          fun x hx hlt => hearly i List.mem_cons_self (not_le.mp ha)
    · have hnone : sentWithin sha256 a g (i :: is) = [] := sentWithin_late (fun x hx => by
        rcases List.mem_cons.mp hx with rfl | hx
        · exact not_lt.mp hlate
        · exact (not_lt.mp hlate).trans (hnext x hx)) g
      rw [hnone]
      exact h.le

/-- Whatever a peer sends over a connection, and whatever the pool and the store hold at each message:
in any ten seconds it is sent at most 32 blocks, and at most 32 MiB of blocks and transactions. -/
theorem getdata_rate (sha256 : Bytes → Hash256) (is : List ConnInput) (hpos : ∀ i ∈ is, 0 < i.now)
    (hmono : is.Pairwise fun i j => i.now ≤ j.now) (a : ℤ) :
    blockCount (sentWithin sha256 a {} is) ≤ 32 ∧
      bodyBytes (sentWithin sha256 a {} is) ≤ 32 * 1024 * 1024 := by
  have hle := sentWithin_le sha256 hpos hmono (Spent.start a) fun _ _ _ => ⟨rfl, rfl⟩
  simpa [idxGetdataBlocks, idxGetdataBytes] using hle

/-- Blocks asked for at three times. -/
def askedThrice : List ConnInput :=
  let ss : RelayStore := some (⟨[⟨1, zeros 32, []⟩], [⟨1, [7]⟩]⟩, [])
  [100, 108, 112].map fun now => ⟨now, {}, ss, ⟨.getdata, inventory [(2, zeros 32), (1, zeros 32)]⟩⟩

theorem getdata_rate_askedThrice :
    (∀ i ∈ askedThrice, 0 < i.now) ∧ blockCount (sentWithin (fun _ => zeros 32) 105 {} askedThrice) = 2 ∧
      blockCount (sentWithin (fun _ => zeros 32) 105 {} askedThrice) ≤ 32 ∧
      bodyBytes (sentWithin (fun _ => zeros 32) 105 {} askedThrice) ≤ 32 * 1024 * 1024 := by
  have hpos : ∀ i ∈ askedThrice, 0 < i.now := by simp [askedThrice]
  have hmono : askedThrice.Pairwise fun i j => i.now ≤ j.now := by simp [askedThrice]
  exact ⟨hpos, by decide +kernel, getdata_rate _ _ hpos hmono 105⟩

end Branches

end NamespaceIndexer.Daemon
