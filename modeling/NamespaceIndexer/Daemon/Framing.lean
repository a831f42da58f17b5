import NamespaceIndexer.Daemon.Chain
import NamespaceIndexer.Fold.Digest
import NamespaceIndexer.Fold.Encode

/-!
# Frames of a connection (`idx_serve` in `sync.c`)

The serve thread appends what it receives to a buffer and takes whole frames off its front. The
buffer bound is tested before frames are taken: what a chunk completes counts against it.
-/

namespace NamespaceIndexer.Daemon

open Fold Lib

/-- `SERVE_MSG_MAX`. -/
def serveMsgMax : ℕ := 2 * 1024 * 1024

/-- A frame by what is dispatched: the command and the payload. -/
structure Frame where
  cmd : Fixed 12
  payload : Bytes
deriving DecidableEq

/-- A connection of the serve thread, with the state of the dispatcher. -/
inductive SConn (σ : Type) where
  | opened (s : σ) (buf : Bytes)
  | dropped (s : σ)

section Loop

variable (sha256 : Bytes → Hash256) (magic : Fixed 4) {σ : Type}

/-- The checksum of a header. -/
def checksum (payload : Bytes) : Bytes := (idxSha256d sha256 payload).val.take 4

/-- `plen`. -/
def payloadLen (h : Bytes) : ℕ := leVal ((h.drop 16).take 4)

/-- The loop over the frames in the buffer. The dispatcher says whether the connection is still
up. -/
def takeFrames (dispatch : σ → Frame → σ × Bool) (s : σ) (buf : Bytes) : SConn σ :=
  if buf.length < 24 then .opened s buf
  else if buf.take 4 ≠ magic.val then .dropped s
  else if payloadLen buf > serveMsgMax then .dropped s
  else if buf.length < 24 + payloadLen buf then .opened s buf
  else
    let payload := (buf.drop 24).take (payloadLen buf)
    if (buf.drop 20).take 4 ≠ checksum sha256 payload then .dropped s
    else
      match dispatch s ⟨copyFrom 12 (buf.drop 4), payload⟩ with
      | (s, false) => .dropped s
      | (s, true) => takeFrames dispatch s (buf.drop (24 + payloadLen buf))
termination_by buf.length
decreasing_by
  rw [List.length_drop]
  omega

/-- One `recv` of the serve thread. -/
def serveRecv (dispatch : σ → Frame → σ × Bool) : SConn σ → Bytes → SConn σ
  | .dropped s, _ => .dropped s
  | .opened s buf, chunk =>
    if chunk.length = 0 then .dropped s
    else if buf.length + chunk.length > serveMsgMax + 1024 then .dropped s
    else takeFrames sha256 magic dispatch s (buf ++ chunk)

def serveRun (dispatch : σ → Frame → σ × Bool) (s : σ) (chunks : List Bytes) : SConn σ :=
  chunks.foldl (serveRecv sha256 magic dispatch) (.opened s [])

def Frame.header (f : Frame) : Bytes :=
  magic.val ++ (f.cmd.val ++ (leBytes 4 f.payload.length ++ checksum sha256 f.payload))

/-- A well-formed frame on the wire. -/
def Frame.bytes (f : Frame) : Bytes := f.header sha256 magic ++ f.payload

def stream (fs : List Frame) : Bytes := (fs.map (Frame.bytes sha256 magic)).flatten

/-- The frames dispatched one by one. -/
def dispatchAll (dispatch : σ → Frame → σ × Bool) : σ → List Frame → SConn σ
  | s, [] => .opened s []
  | s, f :: fs =>
    match dispatch s f with
    | (s, false) => .dropped s
    | (s, true) => dispatchAll dispatch s fs

end Loop

/-! ### Where the buffer bound holds -/

def Frame.size (f : Frame) : ℕ := 24 + f.payload.length

/-- The length of what the first `n` bytes of the frames hold of a frame that they do not end. -/
def unfinished : List Frame → ℕ → ℕ
  | [], n => n
  | f :: fs, n => if n < f.size then n else unfinished fs (n - f.size)

/-- From the `n`-th byte on, no chunk goes past the bound of the buffer with the unfinished frame
before it. -/
def WithinBound (fs : List Frame) : ℕ → List Bytes → Prop
  | _, [] => True
  | n, chunk :: chunks => unfinished fs n + chunk.length ≤ serveMsgMax + 1024 ∧
      WithinBound fs (n + chunk.length) chunks

/-! ### One frame -/

section Frames

variable {sha256 : Bytes → Hash256} {magic : Fixed 4} {σ : Type}
  {dispatch : σ → Frame → σ × Bool} {f : Frame} {s : σ}

@[simp] theorem length_checksum (payload : Bytes) : (checksum sha256 payload).length = 4 := by
  rw [checksum, List.length_take, (idxSha256d sha256 payload).property]
  rfl

@[simp] theorem length_header : (f.header sha256 magic).length = 24 := by
  simp only [Frame.header, List.length_append, magic.property, f.cmd.property, length_leBytes,
    length_checksum]

theorem length_bytes : (f.bytes sha256 magic).length = f.size := by
  rw [Frame.bytes, List.length_append, length_header, Frame.size]

/-- The fields of a header, whatever follows it. -/
theorem header_fields (tail : Bytes) (hlen : f.payload.length ≤ serveMsgMax) :
    let w := f.header sha256 magic ++ tail
    w.take 4 = magic.val ∧ copyFrom 12 (w.drop 4) = f.cmd ∧ payloadLen w = f.payload.length ∧
      (w.drop 20).take 4 = checksum sha256 f.payload ∧ w.drop 24 = tail := by
  have hmax : serveMsgMax < 256 ^ 4 := by decide
  have hdrop4 : (f.header sha256 magic ++ tail).drop 4 = f.cmd.val ++
      (leBytes 4 f.payload.length ++ checksum sha256 f.payload ++ tail) := by
    rw [Frame.header, List.append_assoc, List.drop_left' magic.property, List.append_assoc]
  have hdrop16 : (f.header sha256 magic ++ tail).drop 16 = leBytes 4 f.payload.length ++
      (checksum sha256 f.payload ++ tail) := by
    have h12 : (f.header sha256 magic ++ tail).drop 16
        = ((f.header sha256 magic ++ tail).drop 4).drop 12 := by
      rw [List.drop_drop]
    rw [h12, hdrop4, List.drop_left' f.cmd.property, List.append_assoc]
  have hdrop20 : (f.header sha256 magic ++ tail).drop 20 = checksum sha256 f.payload ++ tail := by
    have h4 : (f.header sha256 magic ++ tail).drop 20
        = ((f.header sha256 magic ++ tail).drop 16).drop 4 := by
      rw [List.drop_drop]
    rw [h4, hdrop16, List.drop_left' (length_leBytes ..)]
  dsimp only
  refine ⟨?_, ?_, ?_, ?_, ?_⟩
  · rw [Frame.header, List.append_assoc, List.take_left' magic.property]
  · rw [hdrop4]
    apply Subtype.ext
    rw [copyFrom_val (by rw [List.length_append, f.cmd.property]; omega),
      List.take_left' f.cmd.property]
  · rw [payloadLen, hdrop16, List.take_left' (length_leBytes ..), leVal_leBytes,
      Nat.mod_eq_of_lt (by omega)]
  · rw [hdrop20, List.take_left' (length_checksum _)]
  · exact List.drop_left' length_header

/-- A whole frame in front is dispatched. -/
theorem takeFrames_frame (hlen : f.payload.length ≤ serveMsgMax) (rest : Bytes) :
    takeFrames sha256 magic dispatch s (f.bytes sha256 magic ++ rest) = match dispatch s f with
      | (s, false) => .dropped s
      | (s, true) => takeFrames sha256 magic dispatch s rest := by
  obtain ⟨hmagic, hcmd, hplen, hck, hdrop⟩ :=
    @header_fields sha256 magic f (f.payload ++ rest) hlen
  have hsize : (f.header sha256 magic ++ (f.payload ++ rest)).length
      = 24 + (f.payload.length + rest.length) := by
    rw [List.length_append, length_header, List.length_append]
  rw [Frame.bytes, List.append_assoc, takeFrames, if_neg (by omega), if_neg (not_not.mpr hmagic),
    hplen, if_neg (not_lt.mpr hlen), if_neg (by omega), hdrop, List.take_left, hck, hcmd]
  dsimp only
  rw [if_neg (not_not.mpr rfl), ← List.drop_drop, hdrop, List.drop_left]

/-- A frame that is not whole waits. -/
theorem takeFrames_part (hlen : f.payload.length ≤ serveMsgMax) {n : ℕ} (hn : n < f.size) :
    takeFrames sha256 magic dispatch s ((f.bytes sha256 magic).take n)
      = .opened s ((f.bytes sha256 magic).take n) := by
  have hcut : ((f.bytes sha256 magic).take n).length = n := by
    rw [List.length_take, length_bytes]
    omega
  rw [takeFrames, hcut]
  by_cases hshort : n < 24
  · rw [if_pos hshort]
  have hpart : (f.bytes sha256 magic).take n
      = f.header sha256 magic ++ f.payload.take (n - 24) := by
    rw [Frame.bytes, List.take_append, length_header, List.take_of_length_le]
    rw [length_header]
    omega
  obtain ⟨hmagic, -, hplen, -, -⟩ :=
    @header_fields sha256 magic f (f.payload.take (n - 24)) hlen
  rw [← hpart] at hmagic hplen
  rw [Frame.size] at hn
  rw [if_neg hshort, if_neg (not_not.mpr hmagic), hplen, if_neg (not_lt.mpr hlen), if_pos hn]

/-! ### A stream of frames -/

variable (sha256 magic dispatch) in
/-- What the first `n` bytes of the frames make of the connection. -/
def afterBytes : σ → List Frame → ℕ → SConn σ
  | s, [], _ => .opened s []
  | s, f :: fs, n =>
    if n < f.size then .opened s ((f.bytes sha256 magic).take n)
    else
      match dispatch s f with
      | (s, false) => .dropped s
      | (s, true) => afterBytes s fs (n - f.size)

variable {fs : List Frame} {n : ℕ}

theorem stream_cons : stream sha256 magic (f :: fs) = f.bytes sha256 magic ++ stream sha256 magic fs :=
  rfl

theorem takeFrames_stream (hfs : ∀ f ∈ fs, f.payload.length ≤ serveMsgMax) :
    takeFrames sha256 magic dispatch s ((stream sha256 magic fs).take n)
      = afterBytes sha256 magic dispatch s fs n := by
  induction fs generalizing s n with
  | nil =>
    have hempty : (stream sha256 magic []).take n = [] := List.take_nil
    rw [hempty, takeFrames, if_pos (by simp)]
    rfl
  | cons f fs ih =>
    have hf := hfs f List.mem_cons_self
    rw [stream_cons, afterBytes]
    by_cases hpart : n < f.size
    · rw [if_pos hpart, List.take_append_of_le_length (by rw [length_bytes]; omega)]
      exact takeFrames_part hf hpart
    · rw [if_neg hpart, List.take_append, length_bytes,
        List.take_of_length_le (by rw [length_bytes]; omega), takeFrames_frame hf]
      split
      · rfl
      · exact ih fun f hf => hfs f (List.mem_cons_of_mem _ hf)

/-- More bytes of the stream. -/
theorem takeFrames_more (hfs : ∀ f ∈ fs, f.payload.length ≤ serveMsgMax) {s' : σ} {buf : Bytes}
    (h : afterBytes sha256 magic dispatch s fs n = .opened s' buf) (m : ℕ) :
    takeFrames sha256 magic dispatch s' (buf ++ ((stream sha256 magic fs).drop n).take m)
      = afterBytes sha256 magic dispatch s fs (n + m) := by
  induction fs generalizing s n with
  | nil =>
    cases h
    have hempty : ((stream sha256 magic []).drop n).take m = [] := by
      rw [stream, List.map_nil, List.flatten_nil, List.drop_nil, List.take_nil]
    rw [hempty, List.append_nil, takeFrames, if_pos (by simp)]
    rfl
  | cons f fs ih =>
    rw [afterBytes] at h
    by_cases hpart : n < f.size
    · rw [if_pos hpart] at h
      cases h
      have htake : (f.bytes sha256 magic).take n = (stream sha256 magic (f :: fs)).take n := by
        rw [stream_cons, List.take_append_of_le_length (by rw [length_bytes]; omega)]
      rw [htake, ← List.take_add]
      exact takeFrames_stream hfs
    · rw [if_neg hpart] at h
      have hdrop : (stream sha256 magic (f :: fs)).drop n
          = (stream sha256 magic fs).drop (n - f.size) := by
        rw [stream_cons, List.drop_append, length_bytes,
          List.drop_of_length_le (by rw [length_bytes]; omega), List.nil_append]
      rw [hdrop, afterBytes, if_neg (by omega), Nat.sub_add_comm (not_lt.mp hpart)]
      split at h
      · cases h
      · exact ih (fun f hf => hfs f (List.mem_cons_of_mem _ hf)) h

theorem afterBytes_dropped {s' : σ} (h : afterBytes sha256 magic dispatch s fs n = .dropped s')
    (m : ℕ) : afterBytes sha256 magic dispatch s fs (n + m) = .dropped s' := by
  induction fs generalizing s n with
  | nil => cases h
  | cons f fs ih =>
    rw [afterBytes] at h ⊢
    by_cases hpart : n < f.size
    · rw [if_pos hpart] at h
      cases h
    · rw [if_neg hpart] at h
      rw [if_neg (by omega), Nat.sub_add_comm (not_lt.mp hpart)]
      split at h
      · exact h
      · exact ih h

theorem afterBytes_buf {s' : σ} {buf : Bytes} (hn : n ≤ (stream sha256 magic fs).length)
    (h : afterBytes sha256 magic dispatch s fs n = .opened s' buf) :
    buf.length = unfinished fs n := by
  induction fs generalizing s n with
  | nil =>
    cases h
    exact (Nat.le_zero.mp hn).symm
  | cons f fs ih =>
    rw [stream_cons, List.length_append, length_bytes] at hn
    rw [afterBytes] at h
    rw [unfinished]
    by_cases hpart : n < f.size
    · rw [if_pos hpart] at h ⊢
      cases h
      rw [List.length_take, length_bytes]
      omega
    · rw [if_neg hpart] at h ⊢
      split at h
      · cases h
      · exact ih (by omega) h

theorem afterBytes_all :
    afterBytes sha256 magic dispatch s fs (stream sha256 magic fs).length
      = dispatchAll dispatch s fs := by
  induction fs generalizing s with
  | nil => rfl
  | cons f fs ih =>
    rw [stream_cons, List.length_append, length_bytes, afterBytes, dispatchAll,
      if_neg (by omega), Nat.add_sub_cancel_left]
    split
    · rfl
    · exact ih

/-! ### Runs over chunks -/

/-- One `recv` within the bound. -/
theorem serveRecv_after (hfs : ∀ f ∈ fs, f.payload.length ≤ serveMsgMax) {chunk rest : Bytes}
    (hn : n ≤ (stream sha256 magic fs).length) (hchunk : 1 ≤ chunk.length)
    (hrest : chunk ++ rest = (stream sha256 magic fs).drop n)
    (hbound : unfinished fs n + chunk.length ≤ serveMsgMax + 1024) :
    serveRecv sha256 magic dispatch (afterBytes sha256 magic dispatch s fs n) chunk
      = afterBytes sha256 magic dispatch s fs (n + chunk.length) := by
  cases hafter : afterBytes sha256 magic dispatch s fs n with
  | dropped s' => rw [serveRecv, afterBytes_dropped hafter]
  | opened s' buf =>
    have hmore := takeFrames_more hfs hafter chunk.length
    rw [← hrest, List.take_left] at hmore
    have hbuf := afterBytes_buf hn hafter
    rw [serveRecv, if_neg (by omega), if_neg (by omega), hmore]

theorem serveRun_within (hfs : ∀ f ∈ fs, f.payload.length ≤ serveMsgMax) {chunks : List Bytes}
    (hchunks : ∀ chunk ∈ chunks, 1 ≤ chunk.length) (hn : n ≤ (stream sha256 magic fs).length)
    (hrest : chunks.flatten = (stream sha256 magic fs).drop n) (hbound : WithinBound fs n chunks) :
    chunks.foldl (serveRecv sha256 magic dispatch) (afterBytes sha256 magic dispatch s fs n)
      = dispatchAll dispatch s fs := by
  induction chunks generalizing n with
  | nil =>
    have hend : (stream sha256 magic fs).length ≤ n := List.drop_eq_nil_iff.mp hrest.symm
    rw [List.foldl_nil, le_antisymm hn hend]
    exact afterBytes_all
  | cons chunk chunks ih =>
    rw [List.flatten_cons] at hrest
    have hlen := congrArg List.length hrest
    rw [List.length_append, List.length_drop] at hlen
    have htail : chunks.flatten = (stream sha256 magic fs).drop (n + chunk.length) := by
      rw [← List.drop_drop, ← hrest, List.drop_left]
    rw [List.foldl_cons,
      serveRecv_after hfs hn (hchunks _ List.mem_cons_self) hrest hbound.1]
    exact ih (fun c hc => hchunks c (List.mem_cons_of_mem _ hc)) (by omega) htail hbound.2

theorem foldl_dropped (s : σ) (chunks : List Bytes) :
    chunks.foldl (serveRecv sha256 magic dispatch) (.dropped s) = .dropped s := by
  induction chunks with
  | nil => rfl
  | cons chunk chunks ih => exact ih

/-- A dispatcher that never drops the connection. -/
theorem afterBytes_opened (hopen : ∀ s f, (dispatch s f).2 = true) :
    ∃ s' buf, afterBytes sha256 magic dispatch s fs n = .opened s' buf := by
  induction fs generalizing s n with
  | nil => exact ⟨s, [], rfl⟩
  | cons f fs ih =>
    rw [afterBytes]
    split
    · exact ⟨_, _, rfl⟩
    split
    · rename_i hdispatch
      have hdrop := hopen s f
      rw [hdispatch] at hdrop
      cases hdrop
    · exact ih

/-- Past the bound, the connection is dropped although the dispatcher keeps it. -/
theorem serveRun_past (hopen : ∀ s f, (dispatch s f).2 = true)
    (hfs : ∀ f ∈ fs, f.payload.length ≤ serveMsgMax) {chunks : List Bytes}
    (hchunks : ∀ chunk ∈ chunks, 1 ≤ chunk.length) (hn : n ≤ (stream sha256 magic fs).length)
    (hrest : chunks.flatten = (stream sha256 magic fs).drop n)
    (hbound : ¬ WithinBound fs n chunks) :
    ∃ s', chunks.foldl (serveRecv sha256 magic dispatch)
      (afterBytes sha256 magic dispatch s fs n) = .dropped s' := by
  induction chunks generalizing n with
  | nil => exact absurd trivial hbound
  | cons chunk chunks ih =>
    have hpos := hchunks _ List.mem_cons_self
    rw [List.flatten_cons] at hrest
    have hlen := congrArg List.length hrest
    rw [List.length_append, List.length_drop] at hlen
    have htail : chunks.flatten = (stream sha256 magic fs).drop (n + chunk.length) := by
      rw [← List.drop_drop, ← hrest, List.drop_left]
    rw [List.foldl_cons]
    by_cases hfits : unfinished fs n + chunk.length ≤ serveMsgMax + 1024
    · rw [serveRecv_after hfs hn hpos hrest hfits]
      exact ih (fun c hc => hchunks c (List.mem_cons_of_mem _ hc)) (by omega) htail
        fun h => hbound ⟨hfits, h⟩
    · obtain ⟨s', buf, hafter⟩ :
          ∃ s' buf, afterBytes sha256 magic dispatch s fs n = .opened s' buf := afterBytes_opened hopen
      have hbuf := afterBytes_buf hn hafter
      rw [hafter, serveRecv, if_neg (by omega), if_pos (by omega)]
      exact ⟨s', foldl_dropped s' chunks⟩

theorem dispatchAll_opened (hopen : ∀ s f, (dispatch s f).2 = true) :
    ∃ s', dispatchAll dispatch s fs = .opened s' [] := by
  induction fs generalizing s with
  | nil => exact ⟨s, rfl⟩
  | cons f fs ih =>
    rw [dispatchAll]
    split
    · rename_i hdispatch
      have hdrop := hopen s f
      rw [hdispatch] at hdrop
      cases hdrop
    · exact ih

end Frames

/-- Whatever the dispatcher, the run over the chunks is the run over the frames. -/
def Reassembles (sha256 : Bytes → Hash256) (magic : Fixed 4) (fs : List Frame)
    (chunks : List Bytes) : Prop :=
  ∀ (σ : Type) (dispatch : σ → Frame → σ × Bool) (s : σ),
    serveRun sha256 magic dispatch s chunks = dispatchAll dispatch s fs

theorem reassembles_iff {sha256 : Bytes → Hash256} {magic : Fixed 4} {fs : List Frame}
    (hfs : ∀ f ∈ fs, f.payload.length ≤ serveMsgMax) {chunks : List Bytes}
    (hchunks : ∀ chunk ∈ chunks, 1 ≤ chunk.length)
    (hstream : chunks.flatten = stream sha256 magic fs) :
    Reassembles sha256 magic fs chunks ↔ WithinBound fs 0 chunks := by
  have hstart : ∀ {σ : Type} (dispatch : σ → Frame → σ × Bool) (s : σ),
      SConn.opened s [] = afterBytes sha256 magic dispatch s fs 0 := by
    intro σ dispatch s
    cases fs with
    | nil => rfl
    | cons f fs =>
      rw [afterBytes, if_pos (by rw [Frame.size]; omega)]
      rfl
  constructor
  · intro h
    by_contra hbound
    have hopen : ∀ (s : Unit) (f : Frame), ((fun s _ => (s, true)) : Unit → Frame → _) s f |>.2 := by
      intro _ _
      rfl
    obtain ⟨s', hdropped⟩ := serveRun_past (s := ()) hopen hfs hchunks (Nat.zero_le _) hstream hbound
    obtain ⟨s'', hall⟩ : ∃ s'', dispatchAll (fun s _ => (s, true)) () fs = .opened s'' [] :=
      dispatchAll_opened hopen
    have hrun := h Unit (fun s _ => (s, true)) ()
    rw [serveRun, hstart, hdropped, hall] at hrun
    cases hrun
  · intro hbound σ dispatch s
    rw [serveRun, hstart dispatch]
    exact serveRun_within hfs hchunks (Nat.zero_le _) hstream hbound

/-- However the frames are cut into chunks, they are dispatched in order and the connection stays up,
exactly if no chunk goes past the bound of the buffer. -/
theorem serve_reassembles_iff (sha256 : Bytes → Hash256) (magic : Fixed 4) {fs : List Frame}
    (hfs : ∀ f ∈ fs, f.payload.length ≤ serveMsgMax) {chunks : List Bytes}
    (hchunks : ∀ chunk ∈ chunks, 1 ≤ chunk.length ∧ chunk.length ≤ 8192)
    (hstream : chunks.flatten = stream sha256 magic fs) :
    Reassembles sha256 magic fs chunks ↔ WithinBound fs 0 chunks :=
  reassembles_iff hfs (fun chunk hchunk => (hchunks chunk hchunk).1) hstream

/-- A `ping` and a `pong`. -/
def pingPong : List Frame :=
  [⟨copyFrom 12 [0x70, 0x69, 0x6E, 0x67], [1, 2, 3, 4, 5, 6, 7, 8]⟩,
    ⟨copyFrom 12 [0x70, 0x6F, 0x6E, 0x67], [8, 7, 6, 5, 4, 3, 2, 1]⟩]

/-- The two frames in three chunks: the first ends inside a header, the second inside the other
frame's header, the third with that frame. -/
def pingPongChunks : List Bytes :=
  let bytes := stream (fun _ => zeros 32) (zeros 4) pingPong
  [bytes.take 10, (bytes.drop 10).take 30, bytes.drop 40]

theorem serve_reassembles_pingPong :
    serveRun (fun _ => zeros 32) (zeros 4) (fun s f => (s ++ [f], true)) [] pingPongChunks =
      .opened pingPong [] := by
  have hbound : WithinBound pingPong 0 pingPongChunks :=
    ⟨by decide, by decide, by decide, trivial⟩
  exact (@serve_reassembles_iff (fun _ => zeros 32) (zeros 4) pingPong (by decide)
    pingPongChunks (by decide) (by decide)).mpr hbound (List Frame) (fun s f => (s ++ [f], true)) []

/-! ### A stream that is dropped -/

/-- A frame of zeros. -/
def zeroFrame (len : ℕ) : Frame := ⟨zeros 12, List.replicate len 0⟩

/-- The first `k * n` bytes in chunks of `k`. -/
def pieces (k : ℕ) : ℕ → Bytes → List Bytes
  | 0, _ => []
  | n + 1, s => s.take k :: pieces k n (s.drop k)

theorem length_of_mem_pieces {k n : ℕ} {s chunk : Bytes} (hlen : s.length = k * n)
    (h : chunk ∈ pieces k n s) : chunk.length = k := by
  induction n generalizing s with
  | zero => cases h
  | succ n ih =>
    rw [Nat.mul_succ] at hlen
    rcases List.mem_cons.mp h with rfl | h
    · rw [List.length_take]
      omega
    · exact ih (by rw [List.length_drop]; omega) h

theorem flatten_pieces {k n : ℕ} {s : Bytes} (hlen : s.length = k * n) :
    (pieces k n s).flatten = s := by
  induction n generalizing s with
  | zero => exact (List.length_eq_zero_iff.mp hlen).symm
  | succ n ih =>
    rw [Nat.mul_succ] at hlen
    rw [pieces, List.flatten_cons, ih (by rw [List.length_drop]; omega), List.take_append_drop]

theorem WithinBound.pieces {fs : List Frame} {k n m i : ℕ} {s : Bytes} (hlen : s.length = k * n)
    (h : WithinBound fs m (pieces k n s)) (hi : i < n) :
    unfinished fs (m + k * i) + k ≤ serveMsgMax + 1024 := by
  induction n generalizing s m i with
  | zero => omega
  | succ n ih =>
    rw [Nat.mul_succ] at hlen
    have hfirst : (s.take k).length = k := by
      rw [List.length_take]
      omega
    obtain ⟨hnow, hlater⟩ := h
    rw [hfirst] at hnow hlater
    cases i with
    | zero => exact hnow
    | succ i =>
      have hstep := ih (by rw [List.length_drop]; omega) hlater (Nat.lt_of_succ_lt_succ hi)
      rwa [Nat.mul_succ, Nat.add_comm (k * i), ← Nat.add_assoc]

/-- A frame of the largest size, and a second one whose first bytes come with its last. -/
theorem serve_drops :
    ¬ ∀ (sha256 : Bytes → Hash256) (magic : Fixed 4) (fs : List Frame) (chunks : List Bytes),
      (∀ f ∈ fs, f.payload.length ≤ serveMsgMax) →
      (∀ chunk ∈ chunks, 1 ≤ chunk.length ∧ chunk.length ≤ 8192) →
      chunks.flatten = stream sha256 magic fs → Reassembles sha256 magic fs chunks := by
  intro h
  have hsize : ∀ len, (zeroFrame len).size = 24 + len := by
    intro len
    rw [Frame.size, zeroFrame, List.length_replicate]
  have hlen : (stream (fun _ => zeros 32) (zeros 4) [zeroFrame 2097152, zeroFrame 8144]).length
      = 8192 * 257 := by
    rw [stream_cons, stream_cons, List.length_append, List.length_append, length_bytes,
      length_bytes, hsize, hsize]
    rfl
  have hfs : ∀ f ∈ [zeroFrame 2097152, zeroFrame 8144], f.payload.length ≤ serveMsgMax := by
    intro f hf
    have hpayload : f.size ≤ 24 + 2097152 → f.payload.length ≤ serveMsgMax := by
      intro hle
      rw [Frame.size] at hle
      exact Nat.le_of_add_le_add_left hle
    rcases List.mem_pair.mp hf with rfl | rfl
    · exact hpayload (by rw [hsize])
    · exact hpayload (by rw [hsize]; omega)
  have hchunks := fun chunk (hchunk : chunk ∈ _) => length_of_mem_pieces hlen hchunk
  have hright := h (fun _ => zeros 32) (zeros 4) _ _ hfs
    (fun chunk hchunk => by have := hchunks chunk hchunk; omega) (flatten_pieces hlen)
  have hbound := (reassembles_iff hfs (fun chunk hchunk => by have := hchunks chunk hchunk; omega)
    (flatten_pieces hlen)).mp hright
  have hpast := hbound.pieces hlen (i := 256) (by omega)
  rw [unfinished, hsize, if_pos (by omega), serveMsgMax] at hpast
  omega

end NamespaceIndexer.Daemon
