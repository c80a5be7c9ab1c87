import Hwire.Io
import Hwire.Http1.WriteBuf

/-!
# Buffered I/O

The transport below a connection and the buffers over it. A transport is a script of poll results, to which
the environment may add at any time; past its script it is pending. What it has accepted and how much it has
delivered are recorded.
-/

namespace Hwire.Http1
open Lib LawfulBuf

/-! ### Transports -/

/-- One result of `poll_read`. No bytes are the end of file. -/
inductive ReadEvent where
  | pending
  | data (bytes : Bytes)
  | error (e : IoError)
  deriving DecidableEq, Repr

def ReadEvent.bytes : ReadEvent → Bytes
  | .data bytes => bytes
  | _ => []

/-- One result of `poll_write`: at most `n` of the offered bytes are accepted. -/
inductive WriteEvent where
  | pending
  | accept (n : Nat)
  | error (e : IoError)
  deriving DecidableEq, Repr

structure Transport where
  reads : List ReadEvent := []
  writes : List WriteEvent := []
  flushes : List (Poll (Except IoError Unit)) := []
  shutdowns : List (Poll (Except IoError Unit)) := []
  isWriteVectored : Bool := false
  /-- The end of file is final: every later read finds it again. -/
  sticky : Bool := false
  sawEof : Bool := false
  received : Nat := 0
  written : Bytes := []

namespace Transport

def pollRead (t : Transport) : Poll (Except IoError Bytes) × Transport :=
  if t.sticky && t.sawEof then (.ready (.ok []), t)
  else
    match t.reads with
    | [] => (.pending, t)
    | .pending :: rest => (.pending, { t with reads := rest })
    | .error e :: rest => (.ready (.error e), { t with reads := rest })
    | .data bytes :: rest =>
      (.ready (.ok bytes),
        { t with reads := rest, sawEof := t.sawEof || bytes = [], received := t.received + bytes.length })

def pollWrite (t : Transport) (offered : Bytes) : Poll (Except IoError Nat) × Transport :=
  match t.writes with
  | [] => (.pending, t)
  | .pending :: rest => (.pending, { t with writes := rest })
  | .error e :: rest => (.ready (.error e), { t with writes := rest })
  | .accept n :: rest =>
    (.ready (.ok (min n offered.length)), { t with writes := rest, written := t.written ++ offered.take n })

def pollWriteVectored (t : Transport) (slices : List Bytes) : Poll (Except IoError Nat) × Transport :=
  t.pollWrite slices.flatten

def pollFlush (t : Transport) : Poll (Except IoError Unit) × Transport :=
  match t.flushes with
  | [] => (.pending, t)
  | res :: rest => (res, { t with flushes := rest })

def pollShutdown (t : Transport) : Poll (Except IoError Unit) × Transport :=
  match t.shutdowns with
  | [] => (.pending, t)
  | res :: rest => (res, { t with shutdowns := rest })

end Transport

/-! ### The size of reads -/

def usizeMax : Nat := 2 ^ 64 - 1

inductive ReadStrategy where
  | adaptive (decreaseNow : Bool) (next max : Nat)
  | exact (n : Nat)
  deriving DecidableEq, Repr

def incrPowerOfTwo (n : Nat) : Nat := min (n * 2) usizeMax

def leadingZeros (n : Nat) : Nat := if n = 0 then 64 else 63 - Nat.log2 n

def prevPowerOfTwo (n : Nat) : Nat := usizeMax / 2 ^ (leadingZeros n + 2) + 1

namespace ReadStrategy

def withMax (max : Nat) : ReadStrategy := .adaptive false INIT_BUFFER_SIZE max

def next : ReadStrategy → Nat
  | .adaptive _ next _ => next
  | .exact n => n

def max : ReadStrategy → Nat
  | .adaptive _ _ max => max
  | .exact n => n

/-- Decreasing is a two `record` process. -/
def record (s : ReadStrategy) (bytesRead : Nat) : ReadStrategy :=
  match s with
  | .adaptive decreaseNow next max =>
    if bytesRead ≥ next then .adaptive false (min (incrPowerOfTwo next) max) max
    else
      let decrTo := prevPowerOfTwo next
      if bytesRead < decrTo then
        if decreaseNow then .adaptive false (Nat.max decrTo INIT_BUFFER_SIZE) max
        else .adaptive true next max
      else .adaptive false next max
  | .exact n => .exact n

theorem record_max (s : ReadStrategy) (n : Nat) : (s.record n).max = s.max := by
  cases s with
  | exact n => rfl
  | adaptive decreaseNow next max =>
    unfold record
    dsimp only
    split
    · rfl
    split
    · split
      · rfl
      · rfl
    · rfl

end ReadStrategy

/-! ### Buffers over a transport -/

structure Buffered (B : Type) where
  flushPipeline : Bool := false
  io : Transport
  partialLen : Option Nat := none
  readBlocked : Bool := false
  readBuf : Bytes := []
  readBufStrategy : ReadStrategy := .withMax DEFAULT_MAX_BUFFER_SIZE
  writeBuf : WriteBuf B

namespace Buffered

variable {B : Type}

def new (io : Transport) : Buffered B where
  io
  writeBuf := { strategy := if io.isWriteVectored then .queue else .flatten }

def setMaxBufSize (b : Buffered B) (max : Nat) : Buffered B :=
  { b with readBufStrategy := .withMax max, writeBuf := { b.writeBuf with maxBufSize := max } }

def setReadBufExactSize (b : Buffered B) (sz : Nat) : Buffered B := { b with readBufStrategy := .exact sz }

def setWriteStrategy (b : Buffered B) (strategy : WriteStrategy) : Buffered B :=
  { b with writeBuf := { b.writeBuf with strategy } }

def canHeadersBuf (b : Buffered B) : Bool := b.writeBuf.queue.remaining == 0

def canBuffer (b : Buffered B) : Bool := b.flushPipeline || b.writeBuf.canBuffer

def extendHeaders (b : Buffered B) (data : Bytes) : Buffered B :=
  { b with writeBuf := b.writeBuf.extendHeaders data }

def consumeLeadingLines (b : Buffered B) : Buffered B :=
  { b with readBuf := b.readBuf.dropWhile fun x => x == CR || x == LF }

/-- The space that is reserved for a read is not modelled: a read may return any number of bytes. -/
def pollReadFromIo (b : Buffered B) : Poll (Except IoError Nat) × Buffered B :=
  match b.io.pollRead with
  | (.ready (.ok bytes), io) =>
    (.ready (.ok bytes.length),
      { b with
        io, readBlocked := false, readBuf := b.readBuf ++ bytes
        readBufStrategy := b.readBufStrategy.record bytes.length })
  | (.pending, io) => (.pending, { b with io, readBlocked := true })
  | (.ready (.error e), io) => (.ready (.error e), { b with io, readBlocked := false })

def readMem (b : Buffered B) (len : Nat) : Poll (Except IoError Bytes) × Buffered B :=
  if b.readBuf ≠ [] then
    let n := min len b.readBuf.length
    (.ready (.ok (b.readBuf.take n)), { b with readBuf := b.readBuf.drop n })
  else
    match b.pollReadFromIo with
    | (.pending, b) => (.pending, b)
    | (.ready (.error e), b) => (.ready (.error e), b)
    | (.ready (.ok n), b) =>
      (.ready (.ok (b.readBuf.take (min len n))), { b with readBuf := b.readBuf.drop (min len n) })

instance : MemRead (Buffered B) where
  readMem := readMem
  budget b := b.readBuf.length + (b.io.reads.flatMap ReadEvent.bytes).length

/-- The bytes that were delivered or will be, and that nobody has taken out of the read buffer yet. -/
def unread (b : Buffered B) : Bytes := b.readBuf ++ b.io.reads.flatMap ReadEvent.bytes

/-- A script of non-empty pieces and pending polls that ends in the end of file: its bytes and its pending polls. -/
inductive Feeds : List ReadEvent → Bytes → Nat → Prop where
  | eof : Feeds [.data []] [] 0
  | pending {evs : List ReadEvent} {bytes : Bytes} {stalls : Nat} :
      Feeds evs bytes stalls → Feeds (.pending :: evs) bytes (stalls + 1)
  | data {evs : List ReadEvent} {piece bytes : Bytes} {stalls : Nat} :
      piece ≠ [] → Feeds evs bytes stalls → Feeds (.data piece :: evs) (piece ++ bytes) stalls

theorem Feeds.flatMap_bytes {evs : List ReadEvent} {bytes : Bytes} {stalls : Nat} (h : Feeds evs bytes stalls) :
    evs.flatMap ReadEvent.bytes = bytes := by
  induction h with
  | eof => rfl
  | pending _ ih => simpa [ReadEvent.bytes] using ih
  | data _ _ ih => simp [ReadEvent.bytes, ih]

/-- The buffer over such a script, before the end of file is seen. -/
structure Fed (b : Buffered B) (bytes : Bytes) (stalls : Nat) : Prop where
  open_ : b.io.sawEof = false
  script : ∃ later, Feeds b.io.reads later stalls ∧ bytes = b.readBuf ++ later

theorem Fed.unread {b : Buffered B} {bytes : Bytes} {stalls : Nat} (h : b.Fed bytes stalls) : b.unread = bytes := by
  obtain ⟨later, feeds, rfl⟩ := h.script
  rw [Buffered.unread, feeds.flatMap_bytes]

/-- A read takes one event from the script. -/
theorem pollReadFromIo_fed {b : Buffered B} {bytes : Bytes} {stalls : Nat} (fed : b.Fed bytes stalls) :
    (b.io.reads = [.data []] ∧ bytes = b.readBuf ∧ ∃ b', b.pollReadFromIo = (.ready (.ok 0), b')) ∨
    (∃ evs stalls' b', b.io.reads = .pending :: evs ∧ stalls' < stalls ∧ b.pollReadFromIo = (.pending, b') ∧
      b'.io.reads = evs ∧ b'.readBuf = b.readBuf ∧ b'.partialLen = b.partialLen ∧
      b'.readBufStrategy.max = b.readBufStrategy.max ∧ b'.Fed bytes stalls') ∨
    ∃ piece evs b', b.io.reads = .data piece :: evs ∧ piece ≠ [] ∧ b.pollReadFromIo = (.ready (.ok piece.length), b') ∧
      b'.io.reads = evs ∧ b'.readBuf = b.readBuf ++ piece ∧ b'.partialLen = b.partialLen ∧
      b'.readBufStrategy.max = b.readBufStrategy.max ∧ b'.Fed bytes stalls := by
  obtain ⟨later, feeds, rfl⟩ := fed.script
  have closed : (b.io.sticky && b.io.sawEof) = false := by simp [fed.open_]
  unfold pollReadFromIo Transport.pollRead
  rw [closed]
  generalize script : b.io.reads = evs at feeds
  cases feeds with
  | eof => exact .inl ⟨rfl, List.append_nil _, _, rfl⟩
  | @pending evs _ stalls feeds =>
    exact .inr (.inl ⟨evs, stalls, _, rfl, Nat.lt_succ_self _, rfl, rfl, rfl, rfl, rfl, fed.open_, later, feeds, rfl⟩)
  | @data evs piece later _ ne feeds =>
    refine .inr (.inr ⟨piece, evs, _, rfl, ne, rfl, rfl, rfl, rfl, ReadStrategy.record_max _ _, ?_, later, feeds, ?_⟩)
    · simpa [fed.open_] using ne
    · exact (List.append_assoc _ _ _).symm

theorem readMem_buffered {b : Buffered B} {bytes : Bytes} {stalls len : Nat} (fed : b.Fed bytes stalls)
    (pos : 0 < len) (buffered : b.readBuf ≠ []) :
    ∃ slice rest b', b.readMem len = (.ready (.ok slice), b') ∧ slice ≠ [] ∧ slice.length ≤ len ∧
      bytes = slice ++ rest ∧ b'.Fed rest stalls := by
  obtain ⟨later, feeds, rfl⟩ := fed.script
  have hpos := List.length_pos_iff.mpr buffered
  have taken : b.readBuf.take (min len b.readBuf.length) ≠ [] := by
    apply List.ne_nil_of_length_pos
    rw [List.length_take]; omega
  refine ⟨b.readBuf.take (min len b.readBuf.length), b.readBuf.drop (min len b.readBuf.length) ++ later,
    { b with readBuf := b.readBuf.drop (min len b.readBuf.length) }, ?_, taken, ?_, ?_,
    ⟨fed.open_, later, feeds, rfl⟩⟩
  · rw [readMem, if_pos buffered]
  · rw [List.length_take]; omega
  · rw [← List.append_assoc, List.take_append_drop]

theorem readMem_fed {b : Buffered B} {bytes : Bytes} {stalls len : Nat} (fed : b.Fed bytes stalls) (pos : 0 < len) :
    (∃ b' stalls', b.readMem len = (.pending, b') ∧ stalls' < stalls ∧ b'.Fed bytes stalls') ∨
    (∃ b', b.readMem len = (.ready (.ok []), b') ∧ bytes = []) ∨
    (∃ slice rest b', b.readMem len = (.ready (.ok slice), b') ∧ slice ≠ [] ∧ slice.length ≤ len ∧
      bytes = slice ++ rest ∧ b'.Fed rest stalls) := by
  by_cases buffered : b.readBuf = []
  · have unbuffered := not_not_intro buffered
    obtain ⟨-, all, b', read⟩ | ⟨evs, stalls', b', -, fewer, read, -, -, -, -, fed'⟩ |
      ⟨piece, evs, b', -, ne, read, -, buf, -, -, fed'⟩ := pollReadFromIo_fed fed
    · refine .inr (.inl ⟨{ b' with readBuf := b'.readBuf.drop (min len 0) }, ?_, all.trans buffered⟩)
      rw [readMem, if_neg unbuffered, read]
      simp only [Nat.min_zero, List.take_zero]
    · refine .inl ⟨b', stalls', ?_, fewer, fed'⟩
      rw [readMem, if_neg unbuffered, read]
    · rw [buffered, List.nil_append] at buf
      have same : b.readMem len = b'.readMem len := by
        rw [readMem, if_neg unbuffered, read, readMem, if_pos (buf ▸ ne)]
        dsimp only
        rw [buf]
      rw [same]
      exact .inr (.inr (readMem_buffered fed' pos (buf ▸ ne)))
  · exact .inr (.inr (readMem_buffered fed pos buffered))

def cutBytes (cuts : List (Option Bytes)) : Bytes := cuts.flatMap (·.getD [])

/-- A buffer that holds some bytes already, over a transport that delivers the pieces and then the end of file. -/
def ofCuts (buffered : Bytes) (cuts : List (Option Bytes)) : Buffered B where
  io := { reads := cuts.map (fun cut => cut.elim .pending .data) ++ [.data []] }
  readBuf := buffered
  writeBuf := { strategy := .flatten }

theorem feeds_cuts {cuts : List (Option Bytes)} (nonempty : ∀ piece ∈ cuts, piece ≠ some []) :
    Feeds (cuts.map (fun cut => cut.elim .pending .data) ++ [.data []]) (cutBytes cuts) (cuts.count none) := by
  induction cuts with
  | nil => exact .eof
  | cons cut cuts ih =>
    obtain ⟨ne, later⟩ := List.forall_mem_cons.mp nonempty
    cases cut with
    | none => simpa [cutBytes] using Feeds.pending (ih later)
    | some piece => simpa [cutBytes] using Feeds.data (fun e => ne (congrArg some e)) (ih later)

theorem ofCuts_fed {buffered : Bytes} {cuts : List (Option Bytes)} (nonempty : ∀ piece ∈ cuts, piece ≠ some []) :
    (ofCuts buffered cuts : Buffered B).Fed (buffered ++ cutBytes cuts) (cuts.count none) :=
  ⟨rfl, _, feeds_cuts nonempty, rfl⟩

instance : LawfulRead (Buffered B) where
  Fed := Fed
  readMem_fed := readMem_fed
  budget_fed {b bytes stalls} fed := by
    obtain ⟨later, feeds, rfl⟩ := fed.script
    simp [MemRead.budget, feeds.flatMap_bytes]

/-- `Pin::new(&mut self.io).poll_flush(cx)` -/
def pollFlushIo (b : Buffered B) : Poll (Except IoError Unit) × Buffered B :=
  let (res, io) := b.io.pollFlush
  (res, { b with io })

/-- `poll_write` of the flattened bytes, and `advance` on the cursor -/
def pollWriteHeaders (b : Buffered B) : Poll (Except IoError Nat) × Buffered B :=
  match b.io.pollWrite b.writeBuf.headers.chunk with
  | (.ready (.ok n), io) =>
    (.ready (.ok n), { b with io, writeBuf := { b.writeBuf with headers := b.writeBuf.headers.advance n } })
  | (res, io) => (res, { b with io })

def writeZero : IoError := ⟨.writeZero, "write zero"⟩

/-- `write` until nothing is `left`, then `finish`. Without fuel there is no result. -/
def flushWith (write : Buffered B → Poll (Except IoError Nat) × Buffered B) (left : Buffered B → Nat)
    (finish : Buffered B → Poll (Except IoError Unit) × Buffered B) :
    Nat → Buffered B → Option (Poll (Except IoError Unit) × Buffered B)
  | 0, _ => none
  | fuel + 1, b =>
    match write b with
    | (.pending, b) => some (.pending, b)
    | (.ready (.error e), b) => some (.ready (.error e), b)
    | (.ready (.ok n), b) =>
      if left b = 0 then some (finish b)
      else if n = 0 then some (.ready (.error writeZero), b)
      else flushWith write left finish fuel b

/-- What holds of every way in which a round can end the loop, and is carried back over a round that does not. -/
theorem flushWith_induct {write : Buffered B → Poll (Except IoError Nat) × Buffered B} {left : Buffered B → Nat}
    {finish : Buffered B → Poll (Except IoError Unit) × Buffered B}
    {P : Buffered B → Poll (Except IoError Unit) × Buffered B → Prop}
    (stops : ∀ b b', write b = (.pending, b') → P b (.pending, b'))
    (fails : ∀ b b' e, write b = (.ready (.error e), b') → P b (.ready (.error e), b'))
    (ends : ∀ b b' n, write b = (.ready (.ok n), b') → left b' = 0 → P b (finish b'))
    (zero : ∀ b b', write b = (.ready (.ok 0), b') → left b' ≠ 0 → P b (.ready (.error writeZero), b'))
    (turns : ∀ b b' n out, write b = (.ready (.ok n), b') → left b' ≠ 0 → n ≠ 0 → P b' out → P b out)
    {fuel : Nat} {b : Buffered B} {out : Poll (Except IoError Unit) × Buffered B}
    (run : flushWith write left finish fuel b = some out) : P b out := by
  induction fuel generalizing b with
  | zero => cases run
  | succ fuel ih =>
    rw [flushWith] at run
    split at run
    · next wrote =>
      obtain rfl := Option.some.inj run
      exact stops _ _ wrote
    · next wrote =>
      obtain rfl := Option.some.inj run
      exact fails _ _ _ wrote
    · next n b' wrote =>
      split at run
      · next none =>
        obtain rfl := Option.some.inj run
        exact ends _ _ _ wrote none
      next more =>
      split at run
      · next nothing =>
        obtain rfl := Option.some.inj run
        exact zero _ _ (nothing ▸ wrote) more
      · next some_bytes => exact turns _ _ _ _ wrote more some_bytes (ih run)

/-- A loop whose rounds shrink the buffer ends within as many rounds as there are bytes. -/
theorem flushWith_ends {write : Buffered B → Poll (Except IoError Nat) × Buffered B} {left : Buffered B → Nat}
    {finish : Buffered B → Poll (Except IoError Unit) × Buffered B} {I : Buffered B → Prop}
    (shrinks : ∀ b b' n, I b → write b = (.ready (.ok n), b') →
      I b' ∧ b'.writeBuf.remaining + n = b.writeBuf.remaining)
    {fuel : Nat} {b : Buffered B} (start : I b) (enough : b.writeBuf.remaining < fuel) :
    ∃ out, flushWith write left finish fuel b = some out := by
  induction fuel generalizing b with
  | zero => omega
  | succ fuel ih =>
    rw [flushWith]
    split
    · exact ⟨_, rfl⟩
    · exact ⟨_, rfl⟩
    · next n b' wrote =>
      obtain ⟨next, fewer⟩ := shrinks _ _ _ start wrote
      split
      · exact ⟨_, rfl⟩
      split
      · exact ⟨_, rfl⟩
      · exact ih next (by omega)

/-- The write loop of `poll_flush_flattened` -/
def flushFlattened : Nat → Buffered B → Option (Poll (Except IoError Unit) × Buffered B) :=
  flushWith pollWriteHeaders (fun b => b.writeBuf.headers.remaining) fun b =>
    { b with writeBuf := { b.writeBuf with headers := b.writeBuf.headers.reset } }.pollFlushIo

variable [Buf B]

def buffer (b : Buffered B) (buf : B) : Buffered B := { b with writeBuf := b.writeBuf.buffer buf }

def MAX_BUFS : Nat := 64

/-- `tokio_util::io::poll_write_buf` on the write buffer -/
def pollWriteBuf (b : Buffered B) : Poll (Except IoError Nat) × Buffered B :=
  if b.writeBuf.remaining = 0 then (.ready (.ok 0), b)
  else
    let (res, io) :=
      if b.io.isWriteVectored then b.io.pollWriteVectored (b.writeBuf.chunksVectored MAX_BUFS)
      else b.io.pollWrite b.writeBuf.chunk
    match res with
    | .ready (.ok n) => (.ready (.ok n), { b with io, writeBuf := b.writeBuf.advance n })
    | res => (res, { b with io })

/-- The write loop of `poll_flush` -/
def flushQueue : Nat → Buffered B → Option (Poll (Except IoError Unit) × Buffered B) :=
  flushWith pollWriteBuf (fun b => b.writeBuf.remaining) pollFlushIo

/-- The write loop of either strategy, with fuel for as many rounds as there are bytes. -/
def flushLoop (b : Buffered B) : Option (Poll (Except IoError Unit) × Buffered B) :=
  match b.writeBuf.strategy with
  | .flatten => flushFlattened (b.writeBuf.remaining + 1) b
  | .queue => flushQueue (b.writeBuf.remaining + 1) b

def pollFlush (b : Buffered B) : Poll (Except IoError Unit) × Buffered B :=
  if b.flushPipeline && !b.readBuf.isEmpty then (.ready (.ok ()), b)
  else if b.writeBuf.remaining = 0 then b.pollFlushIo
  else b.flushLoop.getD (.pending, b)

end Buffered

end Hwire.Http1
