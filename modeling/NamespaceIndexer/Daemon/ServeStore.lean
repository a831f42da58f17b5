import NamespaceIndexer.Daemon.Db

/-!
# The serve cache (`serve_store.c`)

Every header, a window of raw blocks, and the answers of `serve_dispatch` that are read off them.
The two tables are pruned by different rules.
-/

namespace NamespaceIndexer.Daemon

open Fold Lib

/-- A row of `headers`. -/
structure HeaderRow where
  height : ℤ
  hash : Hash256
  hdr : Bytes
  deriving DecidableEq

structure ServeStore where
  headers : List HeaderRow := []
  blockwin : List RawRow := []

/-- `SERVE_BLOCK_WINDOW`. -/
def serveBlockWindow : ℤ := 288

/-- `serve_store_put`. -/
def serveStorePut (ss : ServeStore) (height : ℤ) (hash : Hash256) (hdr raw : Bytes) (tip : ℤ) :
    ServeStore where
  headers := OrderedTable.put HeaderRow.height ⟨height, hash, hdr⟩ ss.headers
  blockwin := (OrderedTable.put RawRow.height ⟨height, raw⟩ ss.blockwin).filter
    fun r => ¬ r.height < tip - serveBlockWindow

/-- `serve_store_prune_above`. -/
def serveStorePruneAbove (ss : ServeStore) (height : ℤ) : ServeStore where
  headers := OrderedTable.upTo HeaderRow.height height ss.headers
  blockwin := OrderedTable.upTo RawRow.height height ss.blockwin

/-- The row that `serve_store_locate` stops at; no row is a return of -1. -/
def serveStoreLocate (ss : ServeStore) (locator : List Hash256) : Option HeaderRow :=
  locator.findSome? fun hash => ss.headers.find? fun r => r.hash = hash

/-- The rows above a height, in order, at most `max`. -/
def headersAbove (ss : ServeStore) (afterHeight : ℤ) (max : ℕ) : List HeaderRow :=
  (ss.headers.filter fun r => afterHeight < r.height).take max

/-- `serve_store_headers_from`. -/
def serveStoreHeadersFrom (ss : ServeStore) (afterHeight : ℤ) (max : ℕ) : List Bytes :=
  (headersAbove ss afterHeight max).map HeaderRow.hdr

/-- `serve_store_hashes_from`. -/
def serveStoreHashesFrom (ss : ServeStore) (afterHeight : ℤ) (max : ℕ) : List Hash256 :=
  (headersAbove ss afterHeight max).map HeaderRow.hash

/-- `serve_store_win_floor`. -/
def serveStoreWinFloor (ss : ServeStore) : Option ℤ := (ss.blockwin.map RawRow.height).min?

/-- `serve_store_block`: the first joined row, if it holds bytes. -/
def serveStoreBlock (ss : ServeStore) (hash : Hash256) : Option Bytes :=
  let rows := (ss.headers.filter fun r => r.hash = hash).filterMap fun r =>
    OrderedTable.find? RawRow.height ss.blockwin r.height
  match rows.head? with
  | some w => if w.raw = [] then none else some w.raw
  | none => none

/-- The `getblocks` branch of `serve_dispatch`: the hashes of the answer, none for silence. -/
def getblocksReply (ss : ServeStore) (locator : List Hash256) : List Hash256 :=
  match serveStoreLocate ss locator, serveStoreWinFloor ss with
  | some r, some wfloor =>
    if r.height < 0 ∨ wfloor < 0 ∨ r.height + 1 < wfloor then []
    else serveStoreHashesFrom ss r.height 500
  | _, _ => []

/-! ### Answers without a gap -/

/-- The previous-block field of a header. -/
def prevField (hdr : Bytes) : Bytes := (hdr.drop 4).take 32

theorem prevField_take (raw : Bytes) : prevField (raw.take 80) = prevField raw := by
  unfold prevField
  rw [List.drop_take, List.take_take]
  rfl

/-- The store holds a header with this hash on top of that one. -/
def ChildOf (ss : ServeStore) (parent child : Hash256) : Prop :=
  ∃ r ∈ ss.headers, r.hash = child ∧ prevField r.hdr = parent.val

/-- The answer to a locator goes up block by block from what it located, and every block of it is
there. -/
def AnswersWhole (ss : ServeStore) (locator : List Hash256) : Prop :=
  ∀ r, serveStoreLocate ss locator = some r →
    List.IsChain (ChildOf ss) (r.hash :: getblocksReply ss locator) ∧
      ∀ hash ∈ getblocksReply ss locator, (serveStoreBlock ss hash).isSome

/-- The headers are a chain up from `start`, and from the floor of the window on the blocks are
there. -/
structure Whole (start : ℤ) (ss : ServeStore) : Prop where
  ordered : OrderedTable.Ordered HeaderRow.height ss.headers
  low : ∀ r ∈ ss.headers, start < r.height
  filled : ∀ r ∈ ss.headers, ∀ h, start < h → h < r.height → ∃ r' ∈ ss.headers, r'.height = h
  linked : ∀ r ∈ ss.headers, ∀ r' ∈ ss.headers, r'.height = r.height + 1 →
    prevField r'.hdr = r.hash.val
  bodies : ∀ w ∈ ss.blockwin, w.raw ≠ []
  window : ∀ w ∈ ss.blockwin, ∀ r ∈ ss.headers, w.height ≤ r.height →
    ∃ w' ∈ ss.blockwin, w'.height = r.height

section Store

variable {start : ℤ} {ss : ServeStore}

theorem whole_empty : Whole start {} where
  ordered := List.Pairwise.nil
  low := fun _ hr => absurd hr List.not_mem_nil
  filled := fun _ hr => absurd hr List.not_mem_nil
  linked := fun _ hr => absurd hr List.not_mem_nil
  bodies := fun _ hw => absurd hw List.not_mem_nil
  window := fun _ hw => absurd hw List.not_mem_nil

theorem Whole.prune (hs : Whole start ss) (height : ℤ) :
    Whole start (serveStorePruneAbove ss height) where
  ordered := hs.ordered.upTo HeaderRow.height height
  low := fun r hr => hs.low r ((OrderedTable.mem_upTo HeaderRow.height).mp hr).1
  filled := by
    intro r hr h hlo hlt
    obtain ⟨hr, hle⟩ := (OrderedTable.mem_upTo HeaderRow.height).mp hr
    obtain ⟨r', hr', rfl⟩ := hs.filled r hr h hlo hlt
    exact ⟨r', (OrderedTable.mem_upTo HeaderRow.height).mpr ⟨hr', by omega⟩, rfl⟩
  linked := by
    intro r hr r' hr'
    exact hs.linked r ((OrderedTable.mem_upTo HeaderRow.height).mp hr).1 r'
      ((OrderedTable.mem_upTo HeaderRow.height).mp hr').1
  bodies := fun w hw => hs.bodies w ((OrderedTable.mem_upTo RawRow.height).mp hw).1
  window := by
    intro w hw r hr hle
    obtain ⟨hw, -⟩ := (OrderedTable.mem_upTo RawRow.height).mp hw
    obtain ⟨hr, hrle⟩ := (OrderedTable.mem_upTo HeaderRow.height).mp hr
    obtain ⟨w', hw', heq⟩ := hs.window w hw r hr hle
    exact ⟨w', (OrderedTable.mem_upTo RawRow.height).mpr ⟨hw', by omega⟩, heq⟩

/-- No header above `height` is left, or the row there is this block and the window reaches down to
it. -/
def NoStale (ss : ServeStore) (height : ℤ) (hash : Hash256) : Prop :=
  (∀ r ∈ ss.headers, r.height ≤ height) ∨
    (∃ r ∈ ss.headers, r.height = height ∧ r.hash = hash) ∧
      ∃ w ∈ ss.blockwin, w.height ≤ height + 1

instance (height : ℤ) (hash : Hash256) : Decidable (NoStale ss height hash) :=
  inferInstanceAs (Decidable (_ ∨ (_ ∧ _)))

theorem mem_blockwin_put {height : ℤ} {hash : Hash256} {hdr raw : Bytes} {w : RawRow} :
    w ∈ (serveStorePut ss height hash hdr raw height).blockwin ↔
      (w = ⟨height, raw⟩ ∨ w ∈ ss.blockwin ∧ w.height ≠ height) ∧
        height - serveBlockWindow ≤ w.height := by
  unfold serveStorePut
  rw [List.mem_filter, OrderedTable.mem_put RawRow.height, decide_eq_true_eq, not_lt]

/-- A block on top of the chain at `height - 1` keeps the store whole where nothing is stale. -/
theorem Whole.put (hs : Whole start ss) {height : ℤ} {hash : Hash256} {hdr raw : Bytes}
    (hlow : start < height) (hraw : raw ≠ [])
    (hfill : ∀ h, start < h → h < height → ∃ r ∈ ss.headers, r.height = h)
    (hlink : ∀ r ∈ ss.headers, r.height = height - 1 → prevField hdr = r.hash.val)
    (hstale : NoStale ss height hash) :
    Whole start (serveStorePut ss height hash hdr raw height) := by
  have hmem : ∀ r, r ∈ (serveStorePut ss height hash hdr raw height).headers ↔
      r = ⟨height, hash, hdr⟩ ∨ r ∈ ss.headers ∧ r.height ≠ height :=
    fun r => OrderedTable.mem_put HeaderRow.height
  have hheight : ∀ h, (∃ r ∈ ss.headers, r.height = h) →
      ∃ r ∈ (serveStorePut ss height hash hdr raw height).headers, r.height = h := by
    rintro h ⟨r, hr, rfl⟩
    by_cases hh : r.height = height
    · exact ⟨_, (hmem _).mpr (Or.inl rfl), hh.symm⟩
    · exact ⟨r, (hmem r).mpr (Or.inr ⟨hr, hh⟩), rfl⟩
  have hnew : (⟨height, raw⟩ : RawRow) ∈
      (serveStorePut ss height hash hdr raw height).blockwin := by
    refine mem_blockwin_put.mpr ⟨Or.inl rfl, ?_⟩
    show height - 288 ≤ height
    omega
  -- what the window has above the new block is still there
  have hkeep : ∀ w ∈ ss.blockwin, height - serveBlockWindow ≤ w.height →
      ∃ w' ∈ (serveStorePut ss height hash hdr raw height).blockwin, w'.height = w.height := by
    intro w hw hle
    by_cases hh : w.height = height
    · exact ⟨_, hnew, hh.symm⟩
    · exact ⟨w, mem_blockwin_put.mpr ⟨Or.inr ⟨hw, hh⟩, hle⟩, rfl⟩
  refine ⟨hs.ordered.put HeaderRow.height _, ?_, ?_, ?_, ?_, ?_⟩
  · intro r hr
    rcases (hmem r).mp hr with rfl | ⟨hr, -⟩
    · exact hlow
    · exact hs.low r hr
  · intro r hr h hlo hlt
    apply hheight
    rcases (hmem r).mp hr with rfl | ⟨hr, -⟩
    · exact hfill h hlo hlt
    · exact hs.filled r hr h hlo hlt
  · intro r hr r' hr' hnext
    rcases (hmem r).mp hr with rfl | ⟨hold, -⟩
    · rcases (hmem r').mp hr' with rfl | ⟨hold', -⟩
      · dsimp only at hnext
        omega
      · rcases hstale with hall | ⟨⟨r0, hr0, hh0, rfl⟩, -⟩
        · have hle := hall r' hold'
          dsimp only at hnext
          omega
        · exact hs.linked r0 hr0 r' hold' (by dsimp only at hnext; omega)
    · rcases (hmem r').mp hr' with rfl | ⟨hold', -⟩
      · exact hlink r hold (by dsimp only at hnext; omega)
      · exact hs.linked r hold r' hold' hnext
  · intro w hw
    rcases (mem_blockwin_put.mp hw).1 with rfl | ⟨hw, -⟩
    · exact hraw
    · exact hs.bodies w hw
  · intro w hw r hr hle
    obtain ⟨hw, hbound⟩ := mem_blockwin_put.mp hw
    rcases (hmem r).mp hr with rfl | ⟨hr, hne⟩
    · exact ⟨_, hnew, rfl⟩
    · -- an older row of the window at or below `r`
      have hold : ∃ w0 ∈ ss.blockwin, w0.height ≤ r.height := by
        rcases hw with rfl | ⟨hw, -⟩
        · rcases hstale with hall | ⟨-, w0, hw0, hw0le⟩
          · have := hall r hr
            dsimp only at hle
            omega
          · exact ⟨w0, hw0, by dsimp only at hle; omega⟩
        · exact ⟨w, hw, hle⟩
      obtain ⟨w0, hw0, hle0⟩ := hold
      obtain ⟨w', hw', heq⟩ := hs.window w0 hw0 r hr hle0
      obtain ⟨w'', hw'', heq'⟩ := hkeep w' hw' (by omega)
      exact ⟨w'', hw'', heq'.trans heq⟩

/-! ### The answer -/

/-- Rows of one height after another, from `height` on. -/
def Consecutive : ℤ → List HeaderRow → Prop
  | _, [] => True
  | height, r :: rows => r.height = height ∧ Consecutive (height + 1) rows

theorem consecutive_of_filled {height : ℤ} {rows : List HeaderRow}
    (hord : OrderedTable.Ordered HeaderRow.height rows) (hlow : ∀ r ∈ rows, height ≤ r.height)
    (hfill : ∀ r ∈ rows, ∀ h, height ≤ h → h < r.height → ∃ r' ∈ rows, r'.height = h) :
    Consecutive height rows := by
  induction rows generalizing height with
  | nil => trivial
  | cons r rows ih =>
    obtain ⟨hfirst, hrest⟩ := List.pairwise_cons.mp hord
    have hr : r.height = height := by
      have hle := hlow r (List.mem_cons_self ..)
      by_contra hne
      obtain ⟨r', hr', heq⟩ := hfill r (List.mem_cons_self ..) height le_rfl (by omega)
      rcases List.mem_cons.mp hr' with rfl | hr'
      · exact hne heq
      · have hlt := hfirst r' hr'
        omega
    refine ⟨hr, ih hrest ?_ ?_⟩
    · intro r' hr'
      have hlt := hfirst r' hr'
      omega
    · intro r' hr' h hge hlt
      obtain ⟨r'', hr'', heq⟩ := hfill r' (List.mem_cons_of_mem _ hr') h (by omega) hlt
      rcases List.mem_cons.mp hr'' with rfl | hr''
      · omega
      · exact ⟨r'', hr'', heq⟩

theorem Consecutive.take {height : ℤ} {rows : List HeaderRow} (h : Consecutive height rows)
    (n : ℕ) : Consecutive height (rows.take n) := by
  induction rows generalizing height n with
  | nil =>
    rw [List.take_nil]
    trivial
  | cons r rows ih =>
    cases n with
    | zero => trivial
    | succ n => exact ⟨h.1, ih h.2 n⟩

theorem Whole.chain_of_consecutive (hs : Whole start ss) {rows : List HeaderRow} {r : HeaderRow}
    (hr : r ∈ ss.headers) (hrows : ∀ r' ∈ rows, r' ∈ ss.headers)
    (h : Consecutive (r.height + 1) rows) :
    List.IsChain (ChildOf ss) (r.hash :: rows.map HeaderRow.hash) := by
  induction rows generalizing r with
  | nil => exact List.IsChain.singleton _
  | cons r' rows ih =>
    have hr' := hrows r' (List.mem_cons_self ..)
    refine List.IsChain.cons_cons ⟨r', hr', rfl, hs.linked r hr r' hr' h.1⟩ ?_
    refine ih hr' (fun x hx => hrows x (List.mem_cons_of_mem _ hx)) ?_
    rw [h.1]
    exact h.2

theorem serveStoreLocate_mem {locator : List Hash256} {r : HeaderRow}
    (h : serveStoreLocate ss locator = some r) : r ∈ ss.headers := by
  obtain ⟨hash, -, hfind⟩ := List.exists_of_findSome?_eq_some h
  exact List.mem_of_find?_eq_some hfind

theorem serveStoreBlock_isSome (hbodies : ∀ w ∈ ss.blockwin, w.raw ≠ []) {r : HeaderRow}
    (hr : r ∈ ss.headers) (hw : ∃ w ∈ ss.blockwin, w.height = r.height) :
    (serveStoreBlock ss r.hash).isSome := by
  obtain ⟨w, hw, hheight⟩ := hw
  have hfound : (OrderedTable.find? RawRow.height ss.blockwin r.height).isSome := by
    unfold OrderedTable.find?
    rw [List.find?_isSome]
    exact ⟨w, hw, by simpa using hheight⟩
  obtain ⟨w0, hw0⟩ := Option.isSome_iff_exists.mp hfound
  have hjoined : w0 ∈ (ss.headers.filter fun r' => r'.hash = r.hash).filterMap fun r' =>
      OrderedTable.find? RawRow.height ss.blockwin r'.height := by
    rw [List.mem_filterMap]
    exact ⟨r, List.mem_filter.mpr ⟨hr, by simp⟩, hw0⟩
  unfold serveStoreBlock
  dsimp only
  generalize hrows : (ss.headers.filter fun r' => r'.hash = r.hash).filterMap (fun r' =>
    OrderedTable.find? RawRow.height ss.blockwin r'.height) = rows at hjoined
  cases rows with
  | nil => cases hjoined
  | cons w1 rows =>
    have hmem : w1 ∈ (ss.headers.filter fun r' => r'.hash = r.hash).filterMap fun r' =>
        OrderedTable.find? RawRow.height ss.blockwin r'.height := by
      rw [hrows]
      exact List.mem_cons_self ..
    obtain ⟨r', -, hfind⟩ := List.mem_filterMap.mp hmem
    have hbody := hbodies w1 (OrderedTable.find?_some RawRow.height hfind).1
    dsimp only [List.head?]
    rw [if_neg hbody]
    rfl

theorem Whole.headersAbove_consecutive (hs : Whole start ss) {r : HeaderRow}
    (hr : r ∈ ss.headers) (max : ℕ) :
    Consecutive (r.height + 1) (headersAbove ss r.height max) := by
  apply Consecutive.take
  apply consecutive_of_filled (hs.ordered.filter _)
  · intro r' hr'
    have hlt := of_decide_eq_true (List.mem_filter.mp hr').2
    omega
  · intro r' hr' h hge hlt
    have hlow := hs.low r hr
    obtain ⟨r'', hr'', heq⟩ := hs.filled r' (List.mem_filter.mp hr').1 h (by omega) hlt
    exact ⟨r'', List.mem_filter.mpr ⟨hr'', decide_eq_true (by omega)⟩, heq⟩

/-- A whole store answers without a gap. -/
theorem Whole.answers (hs : Whole start ss) (locator : List Hash256) : AnswersWhole ss locator := by
  intro r hloc
  have hr := serveStoreLocate_mem hloc
  unfold getblocksReply
  rw [hloc]
  cases hfloor : serveStoreWinFloor ss with
  | none => exact ⟨List.IsChain.singleton _, fun _ h => absurd h List.not_mem_nil⟩
  | some wfloor =>
    dsimp only
    split
    · exact ⟨List.IsChain.singleton _, fun _ h => absurd h List.not_mem_nil⟩
    · rename_i hin
      have hmem : ∀ r' ∈ headersAbove ss r.height 500, r' ∈ ss.headers ∧ r.height < r'.height := by
        intro r' hr'
        obtain ⟨hr', hlt⟩ := List.mem_filter.mp (List.mem_of_mem_take hr')
        exact ⟨hr', of_decide_eq_true hlt⟩
      have hcons := hs.headersAbove_consecutive hr 500
      refine ⟨hs.chain_of_consecutive hr (fun r' hr' => (hmem r' hr').1) hcons, ?_⟩
      intro hash hhash
      obtain ⟨r', hr', rfl⟩ := List.mem_map.mp hhash
      obtain ⟨hr', hlt⟩ := hmem r' hr'
      apply serveStoreBlock_isSome hs.bodies hr'
      obtain ⟨hmin, -⟩ := List.min?_eq_some_iff.mp hfloor
      obtain ⟨w, hw, hwf⟩ := List.mem_map.mp hmin
      exact hs.window w hw r' hr' (by omega)

end Store

end NamespaceIndexer.Daemon
