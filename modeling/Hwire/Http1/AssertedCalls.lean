import Hwire.Http1.Assertions

/-!
# Calls keep their assertions

What a connection asserts, and the invariant that every call keeps: the write buffer is in order, an encoder that is left
has something to do, the cached headers are gone once a head was read, and a decoder can be resumed where it stopped.
-/

namespace Hwire.Http1
open Lib LawfulBuf

/-- `State::idle` is not called on an idle state. -/
def State.TryKeepAliveAsserts (s : State) : Prop :=
  s.reading = .keepAlive → s.writing = .keepAlive → s.keepAlive = .busy → s.isIdle = false

theorem State.tryKeepAlive_asserts (s : State) : s.TryKeepAliveAsserts := by
  intro _ _ busy
  simp [isIdle, busy]

namespace Conn

/-! ### Reading -/

def ForceIoReadAsserts (c : Conn) : Prop := c.isReadClosed = false

def RequireEmptyReadAsserts (c : Conn) : Prop :=
  (c.canReadHead = false ∧ c.canReadBody = false ∧ c.isReadClosed = false) ∧ c.isMidMessage = false ∧
    (c.io.readBuf = [] → c.ForceIoReadAsserts)

def MidMessageDetectEofAsserts (c : Conn) : Prop :=
  (c.canReadHead = false ∧ c.canReadBody = false ∧ c.isReadClosed = false) ∧ c.isMidMessage = true ∧
    ((c.state.allowHalfClose || c.io.readBuf ≠ []) = false → c.ForceIoReadAsserts)

def PollReadKeepAliveAsserts (c : Conn) : Prop :=
  (c.canReadHead = false ∧ c.canReadBody = false) ∧
    if c.isReadClosed then True
    else if c.isMidMessage then c.MidMessageDetectEofAsserts
    else c.RequireEmptyReadAsserts

theorem pollReadKeepAlive_asserts {c : Conn} (head : c.canReadHead = false) (body : c.canReadBody = false) :
    c.PollReadKeepAliveAsserts := by
  refine ⟨⟨head, body⟩, ?_⟩
  split
  · trivial
  next opened =>
  have opened : c.isReadClosed = false := by simpa using opened
  split
  · next mid => exact ⟨⟨head, body, opened⟩, mid, fun _ => opened⟩
  · next between => exact ⟨⟨head, body, opened⟩, by simpa using between, fun _ => opened⟩

variable [Httparse]

def PollReadHeadAsserts (c : Conn) : Prop :=
  c.canReadHead = true ∧
    ∀ msg, (c.io.parse (parseContext c.state)).res = .ready (.ok msg) → msg.decode = .ZERO →
      (c.withParse.withHead msg).state.TryKeepAliveAsserts

theorem pollReadHead_asserts {c : Conn} (can : c.canReadHead = true) : c.PollReadHeadAsserts :=
  ⟨can, fun _ _ _ => State.tryKeepAlive_asserts _⟩

/-- In the state `Reading::Body`. The arm that logs `incoming body unexpectedly ended` is not taken. -/
def PollReadBodyWithAsserts (c : Conn) (d : Decoder) : Prop :=
  d.DecodeAsserts c.io ∧
    match d.decode c.io with
    | (.pending, _, _) => True
    | (.ready (.error _), _, _) => { c.state with reading := .closed }.TryKeepAliveAsserts
    | (.ready (.ok frame), d, _) =>
      ¬ (frame = .data [] ∧ d.isEof = false) ∧
        ∀ reading, (onFrame d frame).1 = some reading → { c.state with reading }.TryKeepAliveAsserts

def PollReadBodyAsserts (c : Conn) : Prop :=
  c.canReadBody = true ∧
    match c.state.reading with
    | .body d => c.PollReadBodyWithAsserts d
    | .continue d => (c.state.writing = .init → c.io.writeBuf.HeadersMutAsserts) ∧ c.PollReadBodyWithAsserts d
    | _ => False

def PollDrainOrCloseReadAsserts (c : Conn) : Prop :=
  match c.state.reading with
  | .continue d => PollReadBodyAsserts { c with state := { c.state with reading := .body d } }
  | _ => c.PollReadBodyAsserts

theorem pollReadBodyWith_asserts {c : Conn} {d : Decoder} (resumes : d.Resumes) : c.PollReadBodyWithAsserts d := by
  refine ⟨resumes.decode_asserts c.io, ?_⟩
  split
  · trivial
  · exact State.tryKeepAlive_asserts _
  · next decoded =>
    refine ⟨?_, fun _ _ => State.tryKeepAlive_asserts _⟩
    rintro ⟨empty, more⟩
    exact absurd ((Decoder.decode_last decoded (.inl empty)).symm.trans more) nofun

/-! ### Writing -/

/-- The state `Writing::Body`, with an encoder that is not at its end -/
def InBody (c : Conn) (asserts : Encoder → Prop) : Prop :=
  match c.state.writing with
  | .body encoder => encoder.isEof = false ∧ asserts encoder
  | _ => False

def WriteBodyAsserts (c : Conn) (chunk : Bytes) : Prop :=
  (c.canWriteBody = true ∧ c.canBufferBody = true) ∧ chunk ≠ [] ∧
    c.InBody fun e => e.EncodeAsserts chunk ∧ c.io.writeBuf.BufferAsserts (e.encode chunk).1

def WriteTrailersAsserts (c : Conn) (trailers : HeaderMap) : Prop :=
  (c.canWriteBody = true ∧ c.canBufferBody = true) ∧
    c.InBody fun e => e.EncodeTrailersAsserts trailers ∧
      ∀ buf, e.encodeTrailers trailers = some buf → c.io.writeBuf.BufferAsserts buf

def WriteBodyAndEndAsserts (c : Conn) (chunk : Bytes) : Prop :=
  (c.canWriteBody = true ∧ c.canBufferBody = true) ∧ chunk ≠ [] ∧
    c.InBody fun e => e.EncodeAsserts chunk ∧ c.io.writeBuf.BufferAsserts (lastBuf e chunk)

def EndBodyAsserts (c : Conn) : Prop :=
  c.canWriteBody = true ∧ c.InBody fun e => ∀ buf, e.end = .ok (some buf) → c.io.writeBuf.BufferAsserts buf

/-- `encode_head`. The headers that are put back into the cache are empty. -/
def WriteHeadAsserts (c : Conn) (head : RequestHead) (body : Option BodyLength) : Prop :=
  c.canWriteHead = true ∧ c.io.writeBuf.HeadersMutAsserts ∧ Client.SetLengthAsserts (c.outgoing head) body ∧
    ∃ c', c.writeHead head body = some c' ∧ c.state.cachedHeaders = none ∧ c'.state.cachedHeaders = some .empty

def PollFlushAsserts (c : Conn) : Prop :=
  c.io.PollFlushAsserts ∧ (c.io.pollFlush.1 = .ready (.ok ()) → c.state.TryKeepAliveAsserts)

end Conn

/-! ### Buffers of a live encoder -/

namespace Encoder

variable {e : Encoder} {chunk : Bytes}

theorem remaining_pos {buf : EncodedBuf Bytes} (ne : bytes buf ≠ []) : 0 < Buf.remaining buf := by
  rw [remaining_eq]
  exact List.length_pos_iff.mpr ne

theorem encode_nonempty (live : e.isEof = false) (ne : chunk ≠ []) : 0 < Buf.remaining (e.encode chunk).1 := by
  apply remaining_pos
  cases kind : e.kind with
  | chunked trailers =>
    rw [(bytes_encode_chunked kind chunk).1]
    exact Conn.chunkBytes_ne_nil chunk
  | length n =>
    rw [(bytes_encode_length kind chunk).1]
    rw [Conn.isEof_length kind] at live
    exact Conn.take_ne_nil (Nat.pos_of_ne_zero (by simpa using live)) ne

theorem encodeAndEnd_eq (e : Encoder) (chunk : Bytes) (dst : WriteBuf (EncodedBuf Bytes)) :
    (e.encodeAndEnd chunk dst).2 = dst.buffer (Conn.lastBuf e chunk) := by
  cases kind : e.kind with
  | chunked trailers => simp only [encodeAndEnd, Conn.lastBuf, kind, remaining_list]
  | length n =>
    simp only [encodeAndEnd, Conn.lastBuf, kind, remaining_list]
    split
    · next same => rw [if_neg (by omega)]
    split
    · rfl
    · rfl

theorem lastBuf_nonempty (live : e.isEof = false) (ne : chunk ≠ []) : 0 < Buf.remaining (Conn.lastBuf e chunk) := by
  apply remaining_pos
  cases kind : e.kind with
  | chunked trailers =>
    rw [bytes_lastBuf_chunked kind]
    exact List.append_ne_nil_of_left_ne_nil (Conn.chunkBytes_ne_nil chunk) _
  | length n =>
    rw [Conn.isEof_length kind] at live
    simp only [Conn.lastBuf, kind]
    split
    · exact Conn.take_ne_nil (Nat.pos_of_ne_zero (by simpa using live)) ne
    · exact ne

theorem encodeTrailers_nonempty {trailers : HeaderMap} {buf : EncodedBuf Bytes}
    (made : e.encodeTrailers trailers = some buf) : 0 < Buf.remaining buf := by
  apply remaining_pos
  unfold encodeTrailers at made
  split at made
  · dsimp only at made
    split at made
    · cases made
    · cases made
      simp [bytes, EncodedBuf.contents, crlf]
  · cases made
  · cases made

theorem end_nonempty {buf : EncodedBuf Bytes} (ends : e.end = .ok (some buf)) : 0 < Buf.remaining buf := by
  unfold Encoder.end at ends
  split at ends
  · cases ends
  · cases ends
    exact remaining_pos Conn.lastChunk_ne_nil
  · cases ends

end Encoder

/-! ### The invariant -/

namespace Conn

structure Sound (c : Conn) : Prop where
  writes : c.io.WriteOk
  live : ∀ e, c.state.writing = .body e → e.isEof = false
  cached : c.state.cachedHeaders ≠ none → c.state.reading = .closed ∨ c.state.reading = .init ∧ c.state.writing ≠ .init
  resumes : ∀ d, c.state.reading = .body d → d.Resumes

theorem handshake_sound (opts : Http1Options) (io : Transport) : (handshake opts io).Sound := by
  refine ⟨⟨?_, ?_⟩, nofun, fun there => absurd rfl there, nofun⟩
  · unfold handshake
    cases opts.h1Writev <;> cases opts.h1ReadBufExactSize <;> cases opts.h1MaxBufSize <;>
      exact ⟨Nat.zero_le _, .empty, fun _ => rfl⟩
  · unfold handshake
    cases opts.h1Writev <;> cases opts.h1ReadBufExactSize <;> cases opts.h1MaxBufSize <;> rfl

theorem Sound.closes {c c' : Conn} (sound : c.Sound) (closes : c.Closes c') : c'.Sound := by
  obtain ⟨-, ⟨reading, writing, -⟩, cached, writes⟩ := closes
  obtain ⟨buf, pipeline⟩ := Prod.mk.inj writes
  refine ⟨⟨by rw [buf]; exact sound.writes.buf, pipeline.trans sound.writes.pipeline⟩, fun e body => ?_, fun there => ?_,
    fun d body => ?_⟩
  · rcases writing with same | ⟨closed, -⟩
    · exact sound.live e (same.symm.trans body)
    · exact absurd (closed.symm.trans body) nofun
  · have before := sound.cached (cached ▸ there)
    grind
  · rcases reading with same | closed
    · exact sound.resumes d (same.symm.trans body)
    · exact absurd (closed.symm.trans body) nofun

theorem Sound.same {c c' : Conn} (sound : c.Sound) (io : c'.io = c.io) (reading : c'.state.reading = c.state.reading)
    (writing : c'.state.writing = c.state.writing) (cached : c'.state.cachedHeaders = c.state.cachedHeaders) : c'.Sound :=
  ⟨io ▸ sound.writes, writing ▸ sound.live, by rw [cached, reading, writing]; exact sound.cached, reading ▸ sound.resumes⟩

theorem Sound.tryKeepAlive {c : Conn} (sound : c.Sound) : c.tryKeepAlive.Sound := by
  have cached : c.state.tryKeepAlive.cachedHeaders = c.state.cachedHeaders := by
    unfold State.tryKeepAlive
    split
    · split
      · rfl
      · rfl
    · rfl
    · rfl
    · rfl
  have tried : Sound { c with state := c.state.tryKeepAlive } := by
    obtain ⟨reading, writing, -, eq⟩ | closes := c.state.tryKeepAlive_cases
    · rw [eq]
      refine ⟨sound.writes, nofun, ?_, nofun⟩
      intro there
      rcases sound.cached there with closed | ⟨init, -⟩
      · exact absurd (reading.symm.trans closed) nofun
      · exact absurd (reading.symm.trans init) nofun
    · exact sound.closes ⟨rfl, closes, cached, rfl⟩
  exact tried.closes (maybeNotify_closes _)

theorem Sound.sendMore {c : Conn} (sound : c.Sound) {writeBuf : WriteBuf (EncodedBuf Bytes)} (ok : writeBuf.Ok)
    (more : Bytes) {next : Writing} (begun : next ≠ .init) (live : ∀ e, next = .body e → e.isEof = false) :
    (c.sendMore writeBuf more next).Sound := by
  refine ⟨⟨ok, sound.writes.pipeline⟩, live, ?_, sound.resumes⟩
  intro there
  rcases sound.cached there with closed | ⟨init, -⟩
  · exact .inl closed
  · exact .inr ⟨init, begun⟩

theorem Sound.buffer {c : Conn} (sound : c.Sound) {buf : EncodedBuf Bytes} (nonempty : 0 < Buf.remaining buf) :
    (c.io.writeBuf.buffer buf).Ok := sound.writes.buf.buffer nonempty

theorem endWriting_cases (e : Encoder) : endWriting e = .keepAlive ∨ endWriting e = .closed := by
  unfold endWriting
  split
  · exact .inr rfl
  · exact .inl rfl

theorem Sound.ended {c : Conn} (sound : c.Sound) {writeBuf : WriteBuf (EncodedBuf Bytes)} (ok : writeBuf.Ok)
    (more : Bytes) {next : Writing} (ended : next = .keepAlive ∨ next = .closed) :
    (c.sendMore writeBuf more next).Sound := by
  rcases ended with rfl | rfl
  · exact sound.sendMore ok more nofun nofun
  · exact sound.sendMore ok more nofun nofun

theorem writeHead_sound {c c' : Conn} {head : RequestHead} {body : Option BodyLength} (inv : c.Inv) (sound : c.Sound)
    (can : c.canWriteHead = true) (h : c.writeHead head body = some c') : c'.Sound := by
  obtain ⟨opened, init, -⟩ := canWriteHead_iff.mp can
  obtain ⟨x, wrote⟩ := writeHead_spec h
  have reading := wrote.reading.trans ((inv.idle init).2.resolve_right opened)
  have writing := wrote.writing
  refine ⟨?_, ?_, fun _ => .inr ⟨reading, ?_⟩, fun d body => absurd (reading.symm.trans body) nofun⟩
  · unfold writeHead at h
    obtain ⟨⟨bytes, encoder⟩, -, rfl⟩ := Option.map_eq_some_iff.mp h
    exact ⟨sound.writes.buf.extendHeaders bytes, sound.writes.pipeline⟩
  · intro e body
    rw [writing] at body
    split at body
    · cases body
    · next more =>
      cases body
      simpa using more
  · rw [writing]
    split
    · exact nofun
    · exact nofun

variable [Httparse]

theorem Sound.withParse {c : Conn} (sound : c.Sound) (can : c.canReadHead = true) : c.withParse.Sound := by
  have writes : c.withParse.io.writes = c.io.writes :=
    Buffered.parseLoop_same (g := Buffered.writes) Buffered.pollReadFromIo_writes (fun _ _ _ => rfl) _ _ _ _
  obtain ⟨buf, pipeline⟩ := Prod.mk.inj writes
  obtain ⟨init, busy⟩ := canReadHead_iff.mp can
  exact ⟨⟨by rw [buf]; exact sound.writes.buf, pipeline.trans sound.writes.pipeline⟩, sound.live, fun _ => .inr ⟨init, busy⟩,
    sound.resumes⟩

theorem pollReadHead_sound {c : Conn} (can : c.canReadHead = true) (sound : c.Sound) : c.pollReadHead.2.Sound := by
  have parsed := sound.withParse can
  obtain ⟨-, eq⟩ | ⟨e, -, eq⟩ | ⟨msg, trailers, found, -, -, eq⟩ := c.pollReadHead_cases
  · rw [eq]
    exact parsed
  · rw [eq]
    exact parsed.closes (c.withParse.onReadHeadError_closes e).1
  · rw [eq]
    have headed : (c.withParse.withHead msg).Sound := by
      have writing : (c.withParse.withHead msg).state.writing = c.state.writing :=
        (State.andKeepAlive_writing _ _).trans (State.busy_writing _)
      refine ⟨parsed.writes, writing ▸ sound.live, ?_, ?_⟩
      · intro there
        refine absurd ?_ there
        exact ((State.andKeepAlive_cachedHeaders _ _).trans (State.busy_cachedHeaders _)).trans found.taken
      · intro d body
        rcases readingAfterHead_plain (s := _) found.plain with ⟨-, keepAlive⟩ | ⟨-, new⟩
        · exact absurd (body.symm.trans keepAlive) nofun
        · cases body.symm.trans new
          exact .new _ _ _
    dsimp only
    split
    · exact headed.tryKeepAlive.same rfl rfl rfl rfl
    · exact headed.same rfl rfl rfl rfl

theorem pollReadBodyWith_sound {c : Conn} {d : Decoder} (reading : c.state.reading = .body d) (sound : c.Sound) :
    (c.pollReadBodyWith d).2.Sound := by
  have writes := Decoder.decode_same (f := Buffered.writes) Buffered.readMem_writes d c.io
  have resumes := (sound.resumes d reading).decode c.io
  have gone : c.state.cachedHeaders = none := by
    by_contra there
    rcases sound.cached there with closed | ⟨init, -⟩
    · exact absurd (reading.symm.trans closed) nofun
    · exact absurd (reading.symm.trans init) nofun
  -- What the decoder leaves behind, in any state that does not read the body with another decoder.
  have read {d' : Decoder} {io : Buffered (EncodedBuf Bytes)} {res : Poll (Except IoError Frame)}
      (decoded : d.decode c.io = (res, d', io)) (log : List Exchange) (next : Reading)
      (same : ∀ d'', next = .body d'' → d'' = d') : Sound ⟨io, { c.state with reading := next }, log⟩ := by
    rw [decoded] at writes resumes
    obtain ⟨buf, pipeline⟩ := Prod.mk.inj writes
    refine ⟨⟨?_, pipeline.trans sound.writes.pipeline⟩, sound.live, fun there => absurd gone there, ?_⟩
    · rw [show io.writeBuf = c.io.writeBuf from buf]
      exact sound.writes.buf
    · intro d'' body
      rw [same d'' body]
      exact resumes
  obtain ⟨d', io, decoded, eq⟩ | ⟨e, d', io, decoded, eq⟩ | ⟨frame, d', io, decoded, -, eq⟩ |
    ⟨data, d', io, decoded, -, -, eq⟩ := c.pollReadBodyWith_cases d
  · rw [eq]
    exact read decoded c.log _ fun d'' same => (Reading.body.inj same).symm
  · rw [eq]
    exact (read decoded c.log .closed nofun).tryKeepAlive
  · rw [eq]
    exact (read decoded (c.withFrame io d' frame .keepAlive).log .keepAlive nofun).tryKeepAlive
  · rw [eq]
    exact read decoded (c.withFrame io d' (.data data) (.body d')).log _ fun d'' same => (Reading.body.inj same).symm

theorem pollReadBody_sound {c : Conn} (inv : c.Inv) (can : c.canReadBody = true) (sound : c.Sound) :
    c.pollReadBody.2.Sound := by
  obtain ⟨d, reading⟩ := inv.reading_of_canReadBody can
  rw [pollReadBody_of_reading reading]
  exact pollReadBodyWith_sound reading sound

theorem Call.sound {c c' : Conn} (call : c.Call c') (inv : c.Inv) (sound : c.Sound) : c'.Sound := by
  cases call with
  | readHead can => exact pollReadHead_sound can sound
  | readBody can => exact pollReadBody_sound inv can sound
  | drain can =>
    obtain ⟨d, reading⟩ := inv.reading_of_canReadBody can
    have read := pollReadBody_sound inv can sound
    rcases pollDrainOrCloseRead_eq reading with eq | eq
    · rw [eq]
      exact read
    · rw [eq]
      exact read.closes (closeRead_closes _)
  | readKeepAlive => exact sound.closes c.pollReadKeepAlive_closes
  | readAgain => exact sound.same rfl rfl rfl rfl
  | closeRead => exact sound.closes c.closeRead_closes
  | close => exact sound.closes ⟨rfl, ⟨.inr rfl, .inr ⟨rfl, rfl⟩, .inr rfl⟩, rfl, rfl⟩
  | @writeBody chunk can ne =>
    obtain ⟨e, writing⟩ := canWriteBody_iff.mp can
    have ok := sound.buffer (Encoder.encode_nonempty (sound.live e writing) ne)
    rw [writeBody_eq writing]
    split
    · next more =>
      refine sound.sendMore ok _ nofun fun e' same => ?_
      rw [← Writing.body.inj same]
      simpa using more
    · exact sound.ended ok _ (endWriting_cases _)
  | @writeTrailers trailers can =>
    obtain ⟨e, writing⟩ := canWriteBody_iff.mp can
    obtain ⟨buf, made, eq⟩ | ⟨-, eq⟩ := writeTrailers_eq writing trailers
    · rw [eq]
      exact sound.ended (sound.buffer (Encoder.encodeTrailers_nonempty made)) _ (endWriting_cases e)
    · rw [eq]
      exact sound
  | @writeBodyAndEnd chunk can ne =>
    obtain ⟨e, writing⟩ := canWriteBody_iff.mp can
    rw [writeBodyAndEnd_eq writing, Encoder.encodeAndEnd_eq]
    refine sound.ended (sound.buffer (Encoder.lastBuf_nonempty (sound.live e writing) ne)) _ ?_
    split
    · exact .inl rfl
    · exact .inr rfl
  | endBody can =>
    obtain ⟨e, writing⟩ := canWriteBody_iff.mp can
    obtain ⟨buf, ended, -, eq⟩ | ⟨err, eq⟩ := endBody_eq writing
    · rw [eq]
      cases buf with
      | none => exact sound.ended sound.writes.buf _ (endWriting_cases e)
      | some buf => exact sound.ended (sound.buffer (Encoder.end_nonempty ended)) _ (endWriting_cases e)
    · rw [eq]
      exact sound.ended sound.writes.buf _ (.inr rfl)
  | flush =>
    have flushed : Sound { c with io := c.io.pollFlush.2 } :=
      ⟨(Buffered.pollFlush_flushed sound.writes).ok, sound.live, sound.cached, sound.resumes⟩
    obtain ⟨-, eq⟩ | ⟨-, eq⟩ := c.pollFlush_eq
    · rw [eq]
      exact flushed.tryKeepAlive
    · rw [eq]
      exact flushed
  | shutdown => exact ⟨⟨sound.writes.buf, sound.writes.pipeline⟩, sound.live, sound.cached, sound.resumes⟩
  | takeError => exact sound.same rfl rfl rfl rfl
  | pendingUpgrade => exact sound.same rfl rfl rfl rfl
  | onUpgrade => exact sound.same rfl rfl rfl rfl

theorem Step.sound {c c' : Conn} (step : c.Step c') (inv : c.Inv) (sound : c.Sound) : c'.Sound := by
  cases step with
  | call call => exact call.sound inv sound
  | writeHead can _ wrote => exact writeHead_sound inv sound can wrote

theorem Steps.sound {c c' : Conn} (steps : c.Steps c') (inv : c.Inv) (sound : c.Sound) : c'.Sound := by
  induction steps with
  | refl => exact sound
  | tail earlier step ih => exact step.sound (Steps.inv earlier inv).1 ih

/-! ### Every call keeps its assertions -/

theorem pollReadBody_asserts {c : Conn} (inv : c.Inv) (sound : c.Sound) (can : c.canReadBody = true) :
    c.PollReadBodyAsserts := by
  obtain ⟨d, reading⟩ := inv.reading_of_canReadBody can
  refine ⟨can, ?_⟩
  rw [reading]
  exact pollReadBodyWith_asserts (sound.resumes d reading)

theorem pollDrainOrCloseRead_asserts {c : Conn} (inv : c.Inv) (sound : c.Sound) (can : c.canReadBody = true) :
    c.PollDrainOrCloseReadAsserts := by
  unfold PollDrainOrCloseReadAsserts
  split
  · next d reading => exact absurd reading (inv.noContinue d)
  · exact pollReadBody_asserts inv sound can

omit [Httparse] in
theorem Sound.inBody {c : Conn} (sound : c.Sound) (can : c.canWriteBody = true) {asserts : Encoder → Prop}
    (holds : ∀ e, e.isEof = false → asserts e) : c.InBody asserts := by
  obtain ⟨e, writing⟩ := canWriteBody_iff.mp can
  unfold InBody
  rw [writing]
  exact ⟨sound.live e writing, holds e (sound.live e writing)⟩

section Writes

omit [Httparse]

variable {c : Conn} (sound : c.Sound) (can : c.canWriteBody = true)
include sound can

theorem writeBody_asserts (buffers : c.canBufferBody = true) {chunk : Bytes} (ne : chunk ≠ [])
    (small : chunk.length < 2 ^ 64) : c.WriteBodyAsserts chunk := by
  refine ⟨⟨can, buffers⟩, ne, sound.inBody can fun e live => ⟨e.encode_asserts ne small, ?_⟩⟩
  exact sound.writes.buf.buffer_asserts (Encoder.encode_nonempty live ne)

theorem writeTrailers_asserts (buffers : c.canBufferBody = true) (trailers : HeaderMap) :
    c.WriteTrailersAsserts trailers := by
  refine ⟨⟨can, buffers⟩, sound.inBody can fun e _ => ⟨e.encodeTrailers_asserts trailers, ?_⟩⟩
  intro buf made
  exact sound.writes.buf.buffer_asserts (Encoder.encodeTrailers_nonempty made)

theorem writeBodyAndEnd_asserts (buffers : c.canBufferBody = true) {chunk : Bytes} (ne : chunk ≠ [])
    (small : chunk.length < 2 ^ 64) : c.WriteBodyAndEndAsserts chunk := by
  refine ⟨⟨can, buffers⟩, ne, sound.inBody can fun e live => ⟨e.encode_asserts ne small, ?_⟩⟩
  exact sound.writes.buf.buffer_asserts (Encoder.lastBuf_nonempty live ne)

theorem endBody_asserts : c.EndBodyAsserts := by
  refine ⟨can, sound.inBody can ?_⟩
  intro e _ buf ends
  exact sound.writes.buf.buffer_asserts (Encoder.end_nonempty ends)

end Writes

section Heads

omit [Httparse]

/-- The version is kept, or it is what an older peer knows. -/
theorem outgoing_version (c : Conn) (head : RequestHead) :
    (c.outgoing head).version = head.version ∨ (c.outgoing head).version = .http10 := by
  unfold outgoing enforceVersion
  split
  · exact .inr rfl
  · split
    · exact .inl rfl
    · exact .inl rfl
  · exact .inl rfl

theorem writeHead_asserts {c : Conn} (sound : c.Sound) (can : c.canWriteHead = true) {head : RequestHead}
    (supported : Client.versionText head.version ≠ none) (body : Option BodyLength) : c.WriteHeadAsserts head body := by
  obtain ⟨opened, init, free⟩ := canWriteHead_iff.mp can
  have gone : c.state.cachedHeaders = none := by
    by_contra there
    rcases sound.cached there with closed | ⟨-, busy⟩
    · exact opened closed
    · exact busy init
  have text : (Client.versionText (c.outgoing head).version).isSome = true := by
    rcases c.outgoing_version head with same | old
    · rw [same]
      exact Option.isSome_iff_ne_none.mpr supported
    · rw [old]
      rfl
  obtain ⟨text, known⟩ := Option.isSome_iff_exists.mp text
  refine ⟨can, by simpa [Buffered.canHeadersBuf, WriteBuf.HeadersMutAsserts] using free, Client.setLength_asserts _ body, ?_⟩
  cases wrote : c.writeHead head body with
  | none =>
    simp only [writeHead, Client.encode, Option.map_map, Option.map_eq_none_iff] at wrote
    cases known.symm.trans wrote
  | some c' =>
    refine ⟨c', rfl, gone, ?_⟩
    obtain ⟨_, -, rfl⟩ := Option.map_eq_some_iff.mp wrote
    rfl

theorem pollFlush_asserts {c : Conn} (sound : c.Sound) : c.PollFlushAsserts :=
  ⟨Buffered.pollFlush_asserts sound.writes, fun _ => State.tryKeepAlive_asserts _⟩

end Heads

end Conn

end Hwire.Http1
