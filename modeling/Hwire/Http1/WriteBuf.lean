import Hwire.Message

/-!
# The write buffer

`BufList` joins a deque of buffers. `WriteBuf` puts a reusable cursor for message heads in front of it: with
the `Flatten` strategy everything is copied behind the heads, with `Queue` bodies are kept as they are.
-/

namespace Hwire.Http1
open Lib LawfulBuf

variable {B : Type} [Buf B]

/-! ### Lists of buffers -/

structure BufList (B : Type) where
  bufs : List B := []
  remaining : Nat := 0

namespace BufList

def push (l : BufList B) (buf : B) : BufList B :=
  ⟨l.bufs ++ [buf], l.remaining + Buf.remaining buf⟩

omit [Buf B] in
def bufsCnt (l : BufList B) : Nat := l.bufs.length

def chunk (l : BufList B) : Bytes := (l.bufs.head?.map Buf.chunk).getD []

def advanceBufs : List B → Nat → List B
  | [], _ => []
  | front :: rest, cnt =>
    if cnt = 0 then front :: rest
    else
      let rem := Buf.remaining front
      if rem > cnt then Buf.advance front cnt :: rest
      else advanceBufs rest (cnt - rem)

def advance (l : BufList B) (cnt : Nat) : BufList B := ⟨advanceBufs l.bufs cnt, l.remaining - cnt⟩

def vectoredBufs : List B → Nat → List Bytes
  | [], _ => []
  | buf :: rest, n =>
    let xs := Buf.chunksVectored buf n
    if xs.length = n then xs else xs ++ vectoredBufs rest (n - xs.length)

def chunksVectored (l : BufList B) (n : Nat) : List Bytes := if n = 0 then [] else vectoredBufs l.bufs n

instance : Buf (BufList B) := ⟨remaining, chunk, advance, chunksVectored⟩

variable [LawfulBuf B]

def contents (l : BufList B) : Bytes := l.bufs.flatMap bytes

/-- The cached counter is right and no buffer is empty. -/
structure Ok (l : BufList B) : Prop where
  counted : l.remaining = l.contents.length
  nonempty : ∀ b ∈ l.bufs, 0 < Buf.remaining b

theorem Ok.empty : Ok ({} : BufList B) := ⟨rfl, by simp⟩

@[simp] theorem contents_push (l : BufList B) (b : B) : (l.push b).contents = l.contents ++ bytes b := by
  simp [contents, push]

theorem Ok.push {l : BufList B} (h : l.Ok) {b : B} (hb : 0 < Buf.remaining b) : (l.push b).Ok := by
  refine ⟨?_, ?_⟩
  · rw [contents_push, List.length_append, ← h.counted, ← remaining_eq]; rfl
  · intro c hc
    rcases List.mem_append.mp hc with hc | hc
    · exact h.nonempty c hc
    · rw [List.mem_singleton.mp hc]; exact hb

/-- The loop drops exactly `cnt` bytes and pops exactly the buffers it empties. -/
theorem advanceBufs_spec (bufs : List B) (cnt : Nat) (nonempty : ∀ b ∈ bufs, 0 < Buf.remaining b)
    (h : cnt ≤ (bufs.flatMap bytes).length) :
    (advanceBufs bufs cnt).flatMap bytes = (bufs.flatMap bytes).drop cnt ∧
      ∀ b ∈ advanceBufs bufs cnt, 0 < Buf.remaining b := by
  induction bufs generalizing cnt with
  | nil => simp [advanceBufs]
  | cons front rest ih =>
    have hf := remaining_eq front
    have hrest : ∀ b ∈ rest, 0 < Buf.remaining b := fun b hb => nonempty b (List.mem_cons_of_mem _ hb)
    rw [advanceBufs]
    split
    · next h0 => subst h0; exact ⟨by simp, nonempty⟩
    · dsimp only
      split
      · next hgt =>
        refine ⟨?_, ?_⟩
        · rw [List.flatMap_cons, List.flatMap_cons, bytes_advance _ _ (by omega),
            List.drop_append_of_le_length (by omega)]
        · intro b hb
          rcases List.mem_cons.mp hb with rfl | hb
          · rw [remaining_eq, bytes_advance _ _ (by omega), List.length_drop]; omega
          · exact hrest b hb
      · next hle =>
        rw [List.flatMap_cons, List.length_append] at h
        obtain ⟨hc, hn⟩ := ih (cnt - Buf.remaining front) hrest (by omega)
        have past : (bytes front).drop cnt = [] := List.drop_eq_nil_of_le (by omega)
        refine ⟨?_, hn⟩
        rw [hc, List.flatMap_cons, List.drop_append, past, hf, List.nil_append]

theorem contents_advance {l : BufList B} (h : l.Ok) {cnt : Nat} (hc : cnt ≤ l.remaining) :
    (l.advance cnt).contents = l.contents.drop cnt :=
  (advanceBufs_spec l.bufs cnt h.nonempty (h.counted ▸ hc)).1

theorem Ok.advance {l : BufList B} (h : l.Ok) {cnt : Nat} (hc : cnt ≤ l.remaining) : (l.advance cnt).Ok := by
  refine ⟨?_, (advanceBufs_spec l.bufs cnt h.nonempty (h.counted ▸ hc)).2⟩
  rw [contents_advance h hc, List.length_drop, ← h.counted]; rfl

theorem vectoredBufs_isPrefix (bufs : List B) (n : Nat) : (vectoredBufs bufs n).flatten <+: bufs.flatMap bytes := by
  induction bufs generalizing n with
  | nil => simp [vectoredBufs]
  | cons buf rest ih =>
    have hl := vectored_length_le buf n
    rw [vectoredBufs, List.flatMap_cons]
    split
    · exact (vectored_isPrefix buf n).trans (List.prefix_append _ _)
    · rw [List.flatten_append, vectored_all buf n (by omega)]
      exact (List.prefix_append_right_inj _).mpr (ih _)

theorem chunksVectored_isPrefix (l : BufList B) (n : Nat) : (l.chunksVectored n).flatten <+: l.contents := by
  unfold chunksVectored
  split
  · simp
  · exact vectoredBufs_isPrefix _ _

theorem chunk_isPrefix (l : BufList B) : l.chunk <+: l.contents := by
  unfold chunk contents
  cases l.bufs with
  | nil => simp
  | cons b rest => exact (LawfulBuf.chunk_isPrefix b).trans (List.prefix_append _ _)

end BufList

/-! ### The cursor over the head bytes -/

/-- A `Vec<u8>` with a read position. Only `maybe_unshift` looks at the capacity. -/
structure Cursor where
  bytes : Bytes := []
  capacity : Nat := 0
  pos : Nat := 0

namespace Cursor

def remaining (c : Cursor) : Nat := c.bytes.length - c.pos

def chunk (c : Cursor) : Bytes := c.bytes.drop c.pos

def advance (c : Cursor) (cnt : Nat) : Cursor := { c with pos := c.pos + cnt }

/-- `Vec::extend_from_slice`, with the amortised growth of the standard library. -/
def extend (c : Cursor) (data : Bytes) : Cursor :=
  let required := c.bytes.length + data.length
  { c with
    bytes := c.bytes ++ data
    capacity := if required ≤ c.capacity then c.capacity else max 8 (max (c.capacity * 2) required) }

/-- Move the unread bytes to the front unless there is room for `additional` bytes anyway. -/
def maybeUnshift (c : Cursor) (additional : Nat) : Cursor :=
  if c.pos = 0 then c
  else if c.capacity - c.bytes.length ≥ additional then c
  else { c with bytes := c.bytes.drop c.pos, pos := 0 }

def reset (c : Cursor) : Cursor := { c with bytes := [], pos := 0 }

instance : Buf Cursor := ⟨remaining, chunk, advance, fun c n => Buf.oneSlice c.remaining c.chunk n⟩

theorem remaining_eq_length_chunk (c : Cursor) : c.remaining = c.chunk.length := by simp [remaining, chunk]

instance : LawfulBuf Cursor where
  bytes := chunk
  remaining_eq := remaining_eq_length_chunk
  chunk_isPrefix c := List.prefix_refl _
  chunk_ne_nil c h := List.ne_nil_of_length_pos (remaining_eq_length_chunk c ▸ h)
  bytes_advance c n _ := by simp [Buf.advance, advance, chunk, Nat.add_comm]
  vectored_isPrefix c n := by
    show (Buf.oneSlice c.remaining c.chunk n).flatten <+: _
    rw [remaining_eq_length_chunk]; exact oneSlice_flatten_isPrefix _ n
  vectored_length_le c n := oneSlice_length_le _ _ n
  vectored_all c n h := by
    change (Buf.oneSlice c.remaining c.chunk n).length < n at h
    show (Buf.oneSlice c.remaining c.chunk n).flatten = _
    rw [remaining_eq_length_chunk] at h ⊢; exact oneSlice_flatten_all _ n h

def Ok (c : Cursor) : Prop := c.pos ≤ c.bytes.length

@[simp] theorem chunk_extend {c : Cursor} (h : c.Ok) (data : Bytes) : (c.extend data).chunk = c.chunk ++ data := by
  simp [chunk, extend, List.drop_append_of_le_length h]

theorem Ok.extend {c : Cursor} (h : c.Ok) (data : Bytes) : (c.extend data).Ok := by
  unfold Ok at *
  simp [Cursor.extend]; omega

@[simp] theorem chunk_maybeUnshift (c : Cursor) (n : Nat) : (c.maybeUnshift n).chunk = c.chunk := by
  unfold maybeUnshift
  split
  · rfl
  split
  · rfl
  · simp [chunk]

theorem Ok.maybeUnshift {c : Cursor} (h : c.Ok) (n : Nat) : (c.maybeUnshift n).Ok := by
  unfold Cursor.maybeUnshift
  split
  · exact h
  split
  · exact h
  · simp [Ok]

@[simp] theorem chunk_reset (c : Cursor) : c.reset.chunk = [] := by simp [chunk, reset]

theorem Ok.reset (c : Cursor) : c.reset.Ok := by simp [Ok, Cursor.reset]

theorem Ok.advance {c : Cursor} {n : Nat} (h : n ≤ c.remaining) (hc : c.Ok) : (c.advance n).Ok := by
  simp only [Ok, Cursor.advance, remaining] at *; omega

@[simp] theorem chunk_advance (c : Cursor) (n : Nat) : (c.advance n).chunk = c.chunk.drop n := by
  simp [chunk, advance, Nat.add_comm]

end Cursor

/-! ### Heads, then the queue -/

def INIT_BUFFER_SIZE : Nat := 8192
def DEFAULT_MAX_BUFFER_SIZE : Nat := 8192 + 4096 * 100
def MAX_BUF_LIST_BUFFERS : Nat := 16

inductive WriteStrategy where
  | flatten | queue
  deriving DecidableEq, Repr

structure WriteBuf (B : Type) where
  headers : Cursor := { capacity := INIT_BUFFER_SIZE }
  maxBufSize : Nat := DEFAULT_MAX_BUFFER_SIZE
  queue : BufList B := {}
  strategy : WriteStrategy

namespace WriteBuf

/-- The copy loop of `buffer`. `fuel` bounds the number of chunks. -/
def copyChunks : Nat → Cursor → B → Cursor
  | 0, head, _ => head
  | fuel + 1, head, buf =>
    let slice := Buf.chunk buf
    if slice = [] then head else copyChunks fuel (head.extend slice) (Buf.advance buf slice.length)

def buffer (w : WriteBuf B) (buf : B) : WriteBuf B :=
  match w.strategy with
  | .flatten =>
    let head := w.headers.maybeUnshift (Buf.remaining buf)
    { w with headers := copyChunks (Buf.remaining buf + 1) head buf }
  | .queue => { w with queue := w.queue.push buf }

omit [Buf B] in
def remaining (w : WriteBuf B) : Nat := w.headers.remaining + w.queue.remaining

omit [Buf B] in
def canBuffer (w : WriteBuf B) : Bool :=
  match w.strategy with
  | .flatten => w.remaining < w.maxBufSize
  | .queue => w.queue.bufsCnt < MAX_BUF_LIST_BUFFERS && w.remaining < w.maxBufSize

omit [Buf B] in
/-- Appending to `headers_mut().bytes` -/
def extendHeaders (w : WriteBuf B) (data : Bytes) : WriteBuf B := { w with headers := w.headers.extend data }

def chunk (w : WriteBuf B) : Bytes :=
  let headers := w.headers.chunk
  if headers ≠ [] then headers else w.queue.chunk

def advance (w : WriteBuf B) (cnt : Nat) : WriteBuf B :=
  let hrem := w.headers.remaining
  if hrem = cnt then { w with headers := w.headers.reset }
  else if hrem > cnt then { w with headers := w.headers.advance cnt }
  else { w with headers := w.headers.reset, queue := w.queue.advance (cnt - hrem) }

def chunksVectored (w : WriteBuf B) (n : Nat) : List Bytes :=
  let xs := Buf.chunksVectored w.headers n
  xs ++ w.queue.chunksVectored (n - xs.length)

instance : Buf (WriteBuf B) := ⟨remaining, chunk, advance, chunksVectored⟩

variable [LawfulBuf B]

/-- The bytes not yet written, in wire order. -/
def contents (w : WriteBuf B) : Bytes := w.headers.chunk ++ w.queue.contents

/-- Flattened buffers never use the queue. -/
structure Ok (w : WriteBuf B) : Prop where
  headers : w.headers.Ok
  queue : w.queue.Ok
  flattened : w.strategy = .flatten → w.queue.bufs = []

theorem Ok.new (strategy : WriteStrategy) : Ok ({ strategy := strategy } : WriteBuf B) :=
  ⟨Nat.zero_le _, .empty, fun _ => rfl⟩

theorem Ok.remaining {w : WriteBuf B} (h : w.Ok) : w.remaining = w.contents.length := by
  rw [WriteBuf.remaining, contents, List.length_append, ← h.queue.counted, Cursor.remaining_eq_length_chunk]

theorem contents_eq_headers {w : WriteBuf B} (h : w.queue.bufs = []) : w.contents = w.headers.chunk := by
  simp [contents, BufList.contents, h]

/-- The copy loop appends all the bytes of the buffer. -/
theorem copyChunks_spec (fuel : Nat) (head : Cursor) (buf : B) (ok : head.Ok) (h : Buf.remaining buf < fuel) :
    (copyChunks fuel head buf).chunk = head.chunk ++ bytes buf ∧ (copyChunks fuel head buf).Ok := by
  induction fuel generalizing head buf with
  | zero => omega
  | succ fuel ih =>
    rw [copyChunks]
    split
    · next hs =>
      have : Buf.remaining buf = 0 := by
        by_contra hne
        exact chunk_ne_nil buf (by omega) hs
      exact ⟨by simp [bytes_eq_nil this], ok⟩
    · next hs =>
      obtain ⟨tail, ht⟩ := LawfulBuf.chunk_isPrefix buf
      have hlen : (Buf.chunk buf).length ≤ Buf.remaining buf := by
        rw [remaining_eq, ← ht, List.length_append]; omega
      have hpos := List.length_pos_iff.mpr hs
      have hadv := bytes_advance buf _ hlen
      have hrest : Buf.remaining (Buf.advance buf (Buf.chunk buf).length) < fuel := by
        rw [remaining_eq, hadv, List.length_drop, ← remaining_eq]; omega
      obtain ⟨hc, hok⟩ := ih (head.extend (Buf.chunk buf)) _ (ok.extend _) hrest
      refine ⟨?_, hok⟩
      rw [hc, Cursor.chunk_extend ok, hadv, List.append_assoc, ← ht, List.drop_left]

theorem contents_buffer {w : WriteBuf B} (h : w.Ok) (buf : B) :
    (w.buffer buf).contents = w.contents ++ bytes buf := by
  unfold buffer
  split
  · next hs =>
    have empty := h.flattened hs
    have copied := copyChunks_spec (Buf.remaining buf + 1) (w.headers.maybeUnshift (Buf.remaining buf)) buf
      (h.headers.maybeUnshift _) (Nat.lt_succ_self _)
    rw [contents_eq_headers (by exact empty), contents_eq_headers empty, copied.1, Cursor.chunk_maybeUnshift]
  · simp [contents]

theorem Ok.buffer {w : WriteBuf B} (h : w.Ok) {buf : B} (hb : 0 < Buf.remaining buf) : (w.buffer buf).Ok := by
  unfold WriteBuf.buffer
  split
  · exact ⟨(copyChunks_spec _ _ buf (h.headers.maybeUnshift _) (Nat.lt_succ_self _)).2, h.queue, h.flattened⟩
  · next hs => exact ⟨h.headers, h.queue.push hb, fun e => by simp [hs] at e⟩

/-- A head goes behind everything buffered because the queue is empty. -/
theorem contents_extendHeaders {w : WriteBuf B} (h : w.Ok) (empty : w.queue.remaining = 0) (data : Bytes) :
    (w.extendHeaders data).contents = w.contents ++ data := by
  have none : w.queue.contents = [] := List.length_eq_zero_iff.mp (h.queue.counted ▸ empty)
  simp [contents, extendHeaders, none, Cursor.chunk_extend h.headers]

theorem Ok.extendHeaders {w : WriteBuf B} (h : w.Ok) (data : Bytes) : (w.extendHeaders data).Ok :=
  ⟨h.headers.extend data, h.queue, h.flattened⟩

/-- `advance` crosses from the heads into the queue at the right byte. -/
theorem contents_advance {w : WriteBuf B} (h : w.Ok) {cnt : Nat} (hc : cnt ≤ w.remaining) :
    (w.advance cnt).contents = w.contents.drop cnt ∧ (w.advance cnt).Ok := by
  have hr := Cursor.remaining_eq_length_chunk w.headers
  unfold advance
  dsimp only
  split
  · next he =>
    refine ⟨?_, ⟨.reset _, h.queue, h.flattened⟩⟩
    simp [contents, ← he, hr]
  split
  · next hgt =>
    refine ⟨?_, ⟨.advance (by omega) h.headers, h.queue, h.flattened⟩⟩
    simp only [contents, Cursor.chunk_advance]
    rw [List.drop_append_of_le_length (by omega)]
  · next hne hlt =>
    have hq : cnt - w.headers.remaining ≤ w.queue.remaining := by unfold WriteBuf.remaining at hc; omega
    refine ⟨?_, ⟨.reset _, h.queue.advance hq, ?_⟩⟩
    · have past : w.headers.chunk.drop cnt = [] := List.drop_eq_nil_of_le (by omega)
      simp only [contents, Cursor.chunk_reset, List.nil_append, BufList.contents_advance h.queue hq]
      rw [List.drop_append, past, hr, List.nil_append]
    · intro hs
      show BufList.advanceBufs w.queue.bufs _ = []
      rw [h.flattened hs]; rfl

theorem chunk_isPrefix {w : WriteBuf B} : w.chunk <+: w.contents := by
  unfold chunk contents
  dsimp only
  split
  · exact List.prefix_append _ _
  · next h => rw [not_not.mp h]; exact w.queue.chunk_isPrefix

theorem chunksVectored_isPrefix (w : WriteBuf B) (n : Nat) : (w.chunksVectored n).flatten <+: w.contents := by
  unfold chunksVectored contents
  dsimp only
  rw [List.flatten_append]
  by_cases full : (Buf.chunksVectored w.headers n).length < n
  · rw [vectored_all _ _ full]
    exact (List.prefix_append_right_inj _).mpr (w.queue.chunksVectored_isPrefix _)
  · have hl := vectored_length_le w.headers n
    rw [show n - (Buf.chunksVectored w.headers n).length = 0 by omega]
    simp only [BufList.chunksVectored, if_true, List.flatten_nil, List.append_nil]
    exact (vectored_isPrefix w.headers n).trans (List.prefix_append _ _)

end WriteBuf

end Hwire.Http1
