import Hwire.Http1.BodyWrites
import Hwire.Http1.Flush
import Hwire.Http1.Truncation

/-!
# Assertions

What the source asserts, function by function: each `Asserts` is the conjunction of the assertions that a call makes
itself and of those of the calls it makes, where it makes them. Where the source checks the kind of a frame, the flag of a
guard or the presence of a buffer in the line above its assertion, there is nothing to state. A loop asserts for any
number of rounds.
-/

namespace Hwire.Http1
open Lib LawfulBuf CheckedBuf

/-! ### Buffers -/

section Buffers

variable {B : Type} [Buf B] [CheckedBuf B]

namespace BufList

def PushAsserts (_ : BufList B) (buf : B) : Prop := 0 < Buf.remaining buf

/-- The loop of `advance` finds a buffer in every round. -/
def AdvanceBufsAsserts : List B → Nat → Prop
  | [], cnt => cnt = 0
  | front :: rest, cnt =>
    if cnt = 0 then True
    else
      let rem := Buf.remaining front
      if rem > cnt then CheckedBuf.AdvanceAsserts front cnt
      else CheckedBuf.AdvanceAsserts front rem ∧ AdvanceBufsAsserts rest (cnt - rem)

def AdvanceAsserts (l : BufList B) (cnt : Nat) : Prop := cnt ≤ l.remaining ∧ AdvanceBufsAsserts l.bufs cnt

theorem advanceBufs_asserts [LawfulBuf B] (bufs : List B) (cnt : Nat) (inside : cnt ≤ (bufs.flatMap bytes).length) :
    AdvanceBufsAsserts bufs cnt := by
  induction bufs generalizing cnt with
  | nil => simpa [AdvanceBufsAsserts] using inside
  | cons front rest ih =>
    rw [List.flatMap_cons, List.length_append, ← remaining_eq] at inside
    rw [AdvanceBufsAsserts]
    split
    · trivial
    · dsimp only
      split
      · next more => exact advance_asserts _ _ (Nat.le_of_lt more)
      · exact ⟨advance_asserts _ _ (Nat.le_refl _), ih _ (by omega)⟩

theorem Ok.advance_asserts [LawfulBuf B] {l : BufList B} (ok : l.Ok) {cnt : Nat} (inside : cnt ≤ l.remaining) :
    l.AdvanceAsserts cnt :=
  ⟨inside, advanceBufs_asserts _ _ (ok.counted ▸ inside)⟩

end BufList

def Cursor.AdvanceAsserts (c : Cursor) (cnt : Nat) : Prop := c.pos + cnt ≤ c.bytes.length

theorem Cursor.Ok.advance_asserts {c : Cursor} (ok : c.Ok) {cnt : Nat} (inside : cnt ≤ c.remaining) :
    c.AdvanceAsserts cnt := by
  unfold Cursor.Ok at ok
  unfold Cursor.remaining at inside
  unfold Cursor.AdvanceAsserts
  omega

namespace WriteBuf

omit [Buf B] [CheckedBuf B] in
def HeadersMutAsserts (w : WriteBuf B) : Prop := w.queue.remaining = 0

def CopyAsserts : Nat → B → Prop
  | 0, _ => True
  | rounds + 1, buf =>
    let slice := Buf.chunk buf
    slice = [] ∨ CheckedBuf.AdvanceAsserts buf slice.length ∧ CopyAsserts rounds (Buf.advance buf slice.length)

def BufferAsserts (w : WriteBuf B) (buf : B) : Prop :=
  0 < Buf.remaining buf ∧
    match w.strategy with
    | .flatten => w.HeadersMutAsserts ∧ ∀ rounds, CopyAsserts rounds buf
    | .queue => w.queue.PushAsserts buf

def AdvanceAsserts (w : WriteBuf B) (cnt : Nat) : Prop :=
  let hrem := w.headers.remaining
  if hrem = cnt then True
  else if hrem > cnt then w.headers.AdvanceAsserts cnt
  else w.queue.AdvanceAsserts (cnt - hrem)

variable [LawfulBuf B]

theorem copy_asserts (rounds : Nat) (buf : B) : CopyAsserts rounds buf := by
  induction rounds generalizing buf with
  | zero => trivial
  | succ rounds ih =>
    have inside : (Buf.chunk buf).length ≤ Buf.remaining buf := by
      rw [remaining_eq]
      exact (LawfulBuf.chunk_isPrefix buf).length_le
    exact .inr ⟨advance_asserts _ _ inside, ih _⟩

omit [CheckedBuf B] in
theorem Ok.headersMut_asserts {w : WriteBuf B} (ok : w.Ok) (flat : w.strategy = .flatten) : w.HeadersMutAsserts := by
  unfold HeadersMutAsserts
  rw [ok.queue.counted, BufList.contents, ok.flattened flat]
  rfl

theorem Ok.buffer_asserts {w : WriteBuf B} (ok : w.Ok) {buf : B} (nonempty : 0 < Buf.remaining buf) :
    w.BufferAsserts buf := by
  refine ⟨nonempty, ?_⟩
  split
  · next flat => exact ⟨ok.headersMut_asserts flat, fun rounds => copy_asserts rounds buf⟩
  · exact nonempty

theorem Ok.advance_asserts {w : WriteBuf B} (ok : w.Ok) {cnt : Nat} (inside : cnt ≤ w.remaining) :
    w.AdvanceAsserts cnt := by
  unfold WriteBuf.remaining at inside
  unfold AdvanceAsserts
  dsimp only
  split
  · trivial
  split
  · exact ok.headers.advance_asserts (by omega)
  · exact ok.queue.advance_asserts (by omega)

end WriteBuf

namespace Buffered

/-- `advance` in `poll_write_buf`, where the transport has accepted bytes -/
def PollWriteBufAsserts (b : Buffered B) : Prop :=
  b.writeBuf.remaining ≠ 0 → ∀ n, b.pollWriteBuf.1 = .ready (.ok n) → b.writeBuf.AdvanceAsserts n

def FlushQueueAsserts : Nat → Buffered B → Prop
  | 0, _ => True
  | rounds + 1, b =>
    b.PollWriteBufAsserts ∧
      match b.pollWriteBuf with
      | (.ready (.ok n), b) => b.writeBuf.remaining = 0 ∨ n = 0 ∨ FlushQueueAsserts rounds b
      | _ => True

def FlushFlattenedAsserts : Nat → Buffered B → Prop
  | 0, _ => True
  | rounds + 1, b =>
    (∀ n, b.pollWriteHeaders.1 = .ready (.ok n) → b.writeBuf.headers.AdvanceAsserts n) ∧
      match b.pollWriteHeaders with
      | (.ready (.ok n), b) => b.writeBuf.headers.remaining = 0 ∨ n = 0 ∨ FlushFlattenedAsserts rounds b
      | _ => True

def PollFlushAsserts (b : Buffered B) : Prop :=
  if b.flushPipeline && !b.readBuf.isEmpty then True
  else if b.writeBuf.remaining = 0 then True
  else
    match b.writeBuf.strategy with
    | .flatten => ∀ rounds, FlushFlattenedAsserts rounds b
    | .queue => ∀ rounds, FlushQueueAsserts rounds b

variable [LawfulBuf B]

theorem flushQueue_asserts (rounds : Nat) {b : Buffered B} (ok : b.WriteOk) : FlushQueueAsserts rounds b := by
  induction rounds generalizing b with
  | zero => trivial
  | succ rounds ih =>
    rw [FlushQueueAsserts]
    cases polled : b.pollWriteBuf with
    | mk res b' =>
      have wrote := pollWriteBuf_wrote ok polled
      refine ⟨?_, ?_⟩
      · intro _ n ready
        have same : res = .ready (.ok n) := by rw [← ready, polled]
        rw [same] at wrote
        have fewer : b'.writeBuf.remaining + n = b.writeBuf.remaining := wrote.remaining
        exact ok.buf.advance_asserts (by omega)
      · split
        · next h =>
          cases h
          exact .inr (.inr (ih wrote.ok))
        · trivial

omit [CheckedBuf B] in
theorem flushFlattened_asserts (rounds : Nat) {b : Buffered B} (ok : b.WriteOk)
    (flat : b.writeBuf.strategy = .flatten) : FlushFlattenedAsserts rounds b := by
  induction rounds generalizing b with
  | zero => trivial
  | succ rounds ih =>
    rw [FlushFlattenedAsserts]
    cases polled : b.pollWriteHeaders with
    | mk res b' =>
      have wrote := pollWriteHeaders_wrote ok flat polled
      refine ⟨?_, ?_⟩
      · intro n ready
        have same : res = .ready (.ok n) := ready
        rw [same] at wrote
        have fewer : b'.writeBuf.remaining + n = b.writeBuf.remaining := wrote.remaining
        have inside := headers_remaining_of_flatten ok flat
        exact ok.buf.headers.advance_asserts (by omega)
      · split
        · next h =>
          cases h
          exact .inr (.inr (ih wrote.ok (wrote.strategy.trans flat)))
        · trivial

theorem pollFlush_asserts {b : Buffered B} (ok : b.WriteOk) : b.PollFlushAsserts := by
  unfold PollFlushAsserts
  split
  · trivial
  split
  · trivial
  split
  · next flat => exact fun rounds => flushFlattened_asserts rounds ok flat
  · intro rounds
    exact flushQueue_asserts rounds ok

end Buffered

end Buffers

/-! ### Encoders -/

instance : CheckedBuf ChunkSize where
  AdvanceAsserts c cnt := cnt ≤ c.remaining
  advance_asserts _ _ inside := inside

namespace EncodedBuf

variable {B : Type} [Buf B] [CheckedBuf B]

def AdvanceAsserts : EncodedBuf B → Nat → Prop
  | exact b, cnt => CheckedBuf.AdvanceAsserts b cnt
  | limited b, cnt => CheckedBuf.AdvanceAsserts b cnt
  | chunked b, cnt => CheckedBuf.AdvanceAsserts b cnt
  | chunkedEnd b, cnt => CheckedBuf.AdvanceAsserts b cnt
  | trailers b, cnt => CheckedBuf.AdvanceAsserts b cnt

instance : CheckedBuf (EncodedBuf B) where
  AdvanceAsserts := EncodedBuf.AdvanceAsserts
  advance_asserts b n inside := by cases b <;> rename_i b <;> exact advance_asserts b n inside

end EncodedBuf

/-- The size line fits in the array that it is written to. -/
def ChunkSize.NewAsserts (len : Nat) : Prop := (ChunkSize.new len).bytes.length ≤ CHUNK_SIZE_MAX_BYTES + 2

namespace Encoder

/-- `encode`, and `encode_and_end` before it buffers -/
def EncodeAsserts (e : Encoder) (msg : Bytes) : Prop :=
  0 < msg.length ∧ (e.isChunked = true → ChunkSize.NewAsserts msg.length)

theorem encode_asserts (e : Encoder) {msg : Bytes} (ne : msg ≠ []) (small : msg.length < 2 ^ 64) : e.EncodeAsserts msg :=
  ⟨List.length_pos_iff.mpr ne, fun _ => chunkSize_fits small⟩

/-- The loop of `encode_trailers` knows the name of every field. -/
def CurNameAsserts : Option HeaderName → List (Option HeaderName × HeaderValue) → Prop
  | _, [] => True
  | curName, (optName, _) :: rest => (optName.or curName).isSome = true ∧ CurNameAsserts (optName.or curName) rest

theorem curName_asserts (name : HeaderName) (fields : List (Option HeaderName × HeaderValue)) :
    CurNameAsserts (some name) fields := by
  induction fields generalizing name with
  | nil => trivial
  | cons field rest ih =>
    obtain ⟨optName, value⟩ := field
    cases optName with
    | none => exact ⟨rfl, ih name⟩
    | some next => exact ⟨rfl, ih next⟩

def EncodeTrailersAsserts (e : Encoder) (trailers : HeaderMap) : Prop :=
  match e.kind with
  | .chunked (some _) => CurNameAsserts none trailers.intoIter
  | _ => True

theorem encodeTrailers_asserts (e : Encoder) (trailers : HeaderMap) : e.EncodeTrailersAsserts trailers := by
  unfold EncodeTrailersAsserts
  split
  · unfold MultiMap.intoIter
    have filled := trailers.values_ne_nil
    cases entries : trailers.entries with
    | nil => trivial
    | cons entry rest =>
      rw [entries] at filled
      obtain ⟨name, values⟩ := entry
      cases values with
      | nil => exact absurd rfl (filled _ List.mem_cons_self)
      | cons value values => exact ⟨rfl, curName_asserts name _⟩
  · trivial

end Encoder

/-! ### Lengths -/

namespace Client
open Headers

/-- A length that is already there is not a valid one. -/
def SetContentLengthAsserts (headers : HeaderMap) : Prop :=
  headers.contains .contentLength = true → contentLengthParseAllValues (headers.getAll .contentLength) = none

def SetLengthAsserts (head : RequestHead) (body : Option BodyLength) : Prop :=
  match body with
  | none => True
  | some body =>
    let headers := head.headers
    let existingConLen := contentLengthParseAll headers
    if head.version ≠ .http11 then
      match existingConLen, body with
      | none, .known _ => SetContentLengthAsserts (headers.remove .transferEncoding)
      | _, _ => True
    else
      match encoderByEntry headers head.subject.method body existingConLen, body with
      | (headers, none), .known _ => SetContentLengthAsserts headers
      -- `unreachable!("BodyLength::Unknown would set chunked")`
      | (_, none), .unknown => False
      | (_, some _), _ => True

/-- The entry decides nothing only for a known length, and changes nothing then. -/
theorem encoderByEntry_none {headers headers' : HeaderMap} {method : Method} {body : BodyLength} {existing : Option Nat}
    (undecided : encoderByEntry headers method body existing = (headers', none)) :
    headers' = headers ∧ existing = none ∧ body ≠ .unknown := by
  unfold encoderByEntry at undecided
  split at undecided
  · split at undecided
    · cases undecided
    · cases undecided
  split at undecided
  · cases undecided
  split at undecided
  · split at undecided
    · cases undecided
    · cases undecided
  · cases undecided
    exact ⟨rfl, rfl, by simp⟩

theorem setLength_asserts (head : RequestHead) (body : Option BodyLength) : SetLengthAsserts head body := by
  unfold SetLengthAsserts
  split
  · trivial
  · next body =>
    dsimp only
    split
    · split
      · next missing =>
        intro _
        rw [MultiMap.getAll_remove, if_neg (by decide)]
        exact missing
      · trivial
    · split
      · next undecided =>
        obtain ⟨rfl, missing, -⟩ := encoderByEntry_none undecided
        intro _
        exact missing
      · next undecided =>
        obtain ⟨-, -, known⟩ := encoderByEntry_none undecided
        exact known rfl
      · trivial

end Client

/-! ### Decoders -/

namespace Chunked

/-- `trailers_buf.as_mut().expect("trailers_buf is None")`, in the states that read trailers -/
def StepAsserts (c : Chunked) : Prop := c.state = .trailer ∨ c.state = .trailerLf → c.trailersBuf.isSome = true

theorem pushSize_state {c c' : Chunked} {d : Nat} (push : c.pushSize d = .ok c') : c'.state = .size := by
  unfold pushSize at push
  split at push
  · cases push
    rfl
  · cases push

theorem putU8_isSome {c c' : Chunked} {buf : Bytes} {b : UInt8} (put : c.putU8 buf b = .ok c') :
    c'.trailersBuf.isSome = true := by
  unfold putU8 at put
  dsimp only at put
  split at put
  · cases put
  · cases put
    rfl

theorem eq_of_map_ok {c' : Chunked} {res : Except IoError Chunked} {f : Chunked → Chunked} (h : res.map f = .ok c') :
    ∃ c, res = .ok c ∧ c' = f c := by
  cases res with
  | error e => cases h
  | ok c =>
    cases h
    exact ⟨c, rfl, rfl⟩

/-- The trailer states are entered with a buffer. -/
theorem onByte_asserts {c c' : Chunked} {b : UInt8} (read : c.onByte b = .ok c') : c'.StepAsserts := by
  unfold StepAsserts
  cases state : c.state <;> simp only [onByte, state] at read
  case start => grind [readStart, pushSize_state]
  case size => grind [readSize, pushSize_state]
  case sizeLws => grind [readSizeLws]
  case extension => grind [readExtension]
  case sizeLf => grind [readSizeLf]
  case bodyCr => grind [readBodyCr]
  case bodyLf => grind [readBodyLf]
  case trailer => grind [readTrailer, eq_of_map_ok, putU8_isSome]
  case trailerLf => grind [readTrailerLf, eq_of_map_ok, putU8_isSome]
  case endCr => grind [readEndCr, eq_of_map_ok, putU8_isSome]
  case endLf => grind [readEndLf, eq_of_map_ok, putU8_isSome]
  case body => grind
  case «end» => grind

variable {R : Type} [MemRead R]

theorem step_asserts {c c' : Chunked} {r r' : R} {buf : Option Bytes} (h : c.step r = (.ready (.ok (c', buf)), r')) :
    c'.StepAsserts := by
  unfold step at h
  split at h
  · next ended =>
    cases h
    intro reads
    simp [ended] at reads
  · unfold stepBody at h
    split at h
    · cases h
    · cases h
    · next slice _ _ =>
      obtain ⟨h, -⟩ := Prod.mk.inj h
      have read := Poll.ready.inj h
      unfold readBody at read
      split at read
      · cases read
      · cases read
        refine fun reads => ?_
        dsimp only at reads
        split at reads
        · simp at reads
        · simp at reads
  · unfold stepByte at h
    split at h
    · cases h
    · cases h
    · cases h
    · next b _ _ _ =>
      obtain ⟨h, -⟩ := Prod.mk.inj h
      have read := Poll.ready.inj h
      cases result : c.onByte b with
      | error e =>
        rw [result] at read
        cases read
      | ok next =>
        rw [result] at read
        cases read
        exact onByte_asserts result

def DecodeAsserts : Nat → Chunked → R → Prop
  | 0, _, _ => True
  | rounds + 1, c, r =>
    c.StepAsserts ∧
      match c.step r with
      | (.ready (.ok (c, none)), r) => c.state = .end ∨ DecodeAsserts rounds c r
      | _ => True

theorem decode_asserts (rounds : Nat) {c : Chunked} (asserts : c.StepAsserts) (r : R) : c.DecodeAsserts rounds r := by
  induction rounds generalizing c r with
  | zero => trivial
  | succ rounds ih =>
    refine ⟨asserts, ?_⟩
    split
    · next stepped => exact .inr (ih (step_asserts stepped) _)
    · trivial

variable [Httparse]

theorem finish_asserts {c : Chunked} (ended : c.state = .end) : c.finish.2.StepAsserts := by
  intro reads
  rw [Decoder.finish_state, ended] at reads
  simp at reads

/-- A decoder that was stopped anywhere can be resumed. -/
theorem decode_resumes (fuel : Nat) {c : Chunked} (asserts : c.StepAsserts) (r : R) :
    (c.decode fuel r).2.1.StepAsserts := by
  induction fuel generalizing c r with
  | zero => exact asserts
  | succ fuel ih =>
    rw [decode]
    split
    · exact asserts
    · exact asserts
    · next stepped =>
      split
      · next ended => exact finish_asserts ended
      split
      · exact step_asserts stepped
      · exact ih (step_asserts stepped) _

end Chunked

namespace Decoder

/-- The trailer states have their buffer. -/
def Resumes : Decoder → Prop
  | .chunked c => c.StepAsserts
  | _ => True

variable {R : Type} [MemRead R]

def DecodeAsserts (d : Decoder) (body : R) : Prop :=
  match d with
  | .chunked c => ∀ rounds, c.DecodeAsserts rounds body
  | _ => True

theorem Resumes.new (len : DecodedLength) (h1MaxHeaders h1MaxHeaderSize : Option Nat) :
    (Decoder.new len h1MaxHeaders h1MaxHeaderSize).Resumes := by
  cases len with
  | chunked => exact fun reads => by simp at reads
  | closeDelimited => trivial
  | length n => trivial

theorem Resumes.decode_asserts {d : Decoder} (resumes : d.Resumes) (body : R) : d.DecodeAsserts body := by
  cases d with
  | chunked c => exact fun rounds => Chunked.decode_asserts rounds resumes body
  | length n => trivial
  | eof isEof => trivial

theorem Resumes.decode [Httparse] {d : Decoder} (resumes : d.Resumes) (body : R) : (d.decode body).2.1.Resumes := by
  cases d with
  | chunked c =>
    show Chunked.StepAsserts (c.decode (MemRead.budget body + 2) body).2.1
    exact Chunked.decode_resumes _ resumes body
  | length n =>
    simp only [Decoder.decode]
    split
    · trivial
    split
    · trivial
    · trivial
    split
    · trivial
    split
    · trivial
    · trivial
  | eof isEof =>
    simp only [Decoder.decode]
    split
    · trivial
    split
    · trivial
    · trivial
    · trivial

end Decoder

end Hwire.Http1
