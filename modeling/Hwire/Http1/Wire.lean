import Hwire.Http1.AssertedCalls
import Hwire.Http1.Runs

/-!
# Requests on the wire

What the transport has accepted, followed by what is still buffered, is the requests one after another: each head, and
right behind it the body that was sent for it. Reading never changes that, and only heads and bodies are added.
-/

namespace Hwire.Http1
open Lib LawfulBuf

/-- The head as it was encoded. -/
def Exchange.headBytes (x : Exchange) : Bytes := ((Client.encode x.head x.hint).map Prod.fst).getD []

def Exchange.onWire (x : Exchange) : Bytes := x.headBytes ++ x.sent

/-! ### Reading leaves the wire alone -/

namespace Buffered

variable {B : Type} [Buf B] [LawfulBuf B]

theorem pollReadFromIo_wire (b : Buffered B) : b.pollReadFromIo.2.wire = b.wire := by
  have written : b.io.pollRead.2.written = b.io.written := by
    unfold Transport.pollRead
    split
    · rfl
    split
    · rfl
    · rfl
    · rfl
    · rfl
  unfold pollReadFromIo
  split
  · next read =>
    rw [read] at written
    exact congrArg (· ++ b.writeBuf.contents) written
  · next read =>
    rw [read] at written
    exact congrArg (· ++ b.writeBuf.contents) written
  · next read =>
    rw [read] at written
    exact congrArg (· ++ b.writeBuf.contents) written

theorem readMem_wire (b : Buffered B) (len : Nat) : (b.readMem len).2.wire = b.wire := by
  have wire := b.pollReadFromIo_wire
  unfold readMem
  split
  · rfl
  split
  · next read =>
    rw [read] at wire
    exact wire
  · next read =>
    rw [read] at wire
    exact wire
  · next read =>
    rw [read] at wire
    exact wire

theorem parse_wire [Httparse] (b : Buffered (EncodedBuf Bytes)) (ctx : ParseContext) : (b.parse ctx).io.wire = b.wire :=
  parseLoop_same pollReadFromIo_wire (fun _ _ _ => rfl) _ _ _ b

end Buffered

namespace Conn

/-- Everything that was buffered for the requests of the history, in their order. -/
def wireLog (c : Conn) : Bytes := c.log.flatMap Exchange.onWire

/-- A call that puts `more` on the wire, where the history says so too. -/
structure Lays (c c' : Conn) (more : Bytes) : Prop where
  wire : c'.io.wire = c.io.wire ++ more
  log : c'.wireLog = c.wireLog ++ more

theorem Lays.silent {c c' : Conn} (wire : c'.io.wire = c.io.wire) (log : c'.wireLog = c.wireLog) : c.Lays c' [] :=
  ⟨by rw [wire, List.append_nil], by rw [log, List.append_nil]⟩

theorem wireLog_of_log {c c' : Conn} (log : c'.log = c.log) : c'.wireLog = c.wireLog := by rw [wireLog, wireLog, log]

theorem wireLog_note {c : Conn} {f : Exchange → Exchange} {x : Exchange} (last : c.log.getLast? = some x) {more : Bytes}
    (adds : (f x).onWire = x.onWire ++ more) : (c.note f).wireLog = c.wireLog ++ more := by
  have log := List.dropLast_append_getLast? x last
  rw [wireLog, wireLog, note, ← log, List.modifyLast_concat]
  simp [adds]

theorem wireLog_note_same (c : Conn) {f : Exchange → Exchange} (same : ∀ x, (f x).onWire = x.onWire) :
    (c.note f).wireLog = c.wireLog := by
  rcases List.eq_nil_or_concat c.log with empty | ⟨earlier, x, log⟩
  · rw [wireLog, wireLog, note, empty]
    rfl
  · have last : c.log.getLast? = some x := by rw [log, List.concat_eq_append, List.getLast?_concat]
    have nothing : (f x).onWire = x.onWire ++ [] := by rw [same, List.append_nil]
    rw [wireLog_note last nothing, List.append_nil]

/-! ### The calls -/

theorem wire_of_io {c c' : Conn} (io : c'.io = c.io ∨ c'.io = c.io.pollReadFromIo.2) : c'.io.wire = c.io.wire := by
  obtain same | read := io
  · rw [same]
  · rw [read]
    exact c.io.pollReadFromIo_wire

theorem tryKeepAlive_wire (c : Conn) : c.tryKeepAlive.io.wire = c.io.wire := wire_of_io (maybeNotify_io _)

theorem Lays.tryKeepAlive {c c' : Conn} {more : Bytes} (lays : c.Lays c' more) : c.Lays c'.tryKeepAlive more :=
  ⟨by rw [tryKeepAlive_wire, lays.wire], by rw [wireLog_of_log c'.tryKeepAlive_log, lays.log]⟩

theorem Lays.same {c c' c'' : Conn} {more : Bytes} (lays : c.Lays c' more) (io : c''.io.wire = c'.io.wire)
    (log : c''.log = c'.log) : c.Lays c'' more :=
  ⟨by rw [io, lays.wire], by rw [wireLog_of_log log, lays.log]⟩

/-- What is buffered for a body is noted in the exchange that it is sent for. -/
theorem sendMore_lays {c : Conn} {x : Exchange} (last : c.log.getLast? = some x)
    {writeBuf : WriteBuf (EncodedBuf Bytes)} {more : Bytes} (contents : writeBuf.contents = c.io.writeBuf.contents ++ more)
    (next : Writing) : c.Lays (c.sendMore writeBuf more next) more := by
  refine ⟨?_, ?_⟩
  · show c.io.io.written ++ writeBuf.contents = c.io.io.written ++ c.io.writeBuf.contents ++ more
    rw [contents, List.append_assoc]
  · rw [wireLog_of_log (c.sendMore_log writeBuf more next)]
    exact wireLog_note last (List.append_assoc _ _ _).symm

theorem buffer_lays {c : Conn} (sound : c.Sound) {x : Exchange} (last : c.log.getLast? = some x) (buf : EncodedBuf Bytes)
    (next : Writing) : c.Lays (c.sendMore (c.io.writeBuf.buffer buf) (bytes buf) next) (bytes buf) :=
  sendMore_lays last (WriteBuf.contents_buffer sound.writes.buf buf) next

theorem writeHead_lays {c c' : Conn} {head : RequestHead} {body : Option BodyLength} (sound : c.Sound)
    (can : c.canWriteHead = true) (h : c.writeHead head body = some c') : ∃ more, c.Lays c' more := by
  obtain ⟨-, -, room⟩ := canWriteHead_iff.mp can
  have empty : c.io.writeBuf.queue.remaining = 0 := by simpa [Buffered.canHeadersBuf] using room
  unfold writeHead at h
  dsimp only at h
  obtain ⟨⟨bytes, encoder⟩, encoded, rfl⟩ := Option.map_eq_some_iff.mp h
  refine ⟨bytes, ?_, ?_⟩
  · show c.io.io.written ++ (c.io.writeBuf.extendHeaders bytes).contents = _
    rw [WriteBuf.contents_extendHeaders sound.writes.buf empty, ← List.append_assoc]
    rfl
  · rw [wireLog, List.flatMap_append, List.flatMap_singleton, Exchange.onWire, Exchange.headBytes, encoded]
    exact congrArg (c.wireLog ++ ·) (List.append_nil _)

theorem onReadHeadError_wire (c : Conn) (e : Error) : (c.onReadHeadError e).2.io.wire = c.io.wire := by
  unfold onReadHeadError
  dsimp only
  split
  · rfl
  · rfl

theorem withFrame_lays (c : Conn) {io : Buffered (EncodedBuf Bytes)} (same : io.wire = c.io.wire) (d : Decoder) (frame : Frame)
    (next : Reading) : c.Lays (c.withFrame io d frame next) [] :=
  .silent same (wireLog_note_same c fun _ => rfl)

theorem Looked.lays {c c' : Conn} (looked : c.Looked c') : c.Lays c' [] :=
  .silent (wire_of_io looked.io) (wireLog_of_log looked.closes.log)

theorem pollShutdown_wire (c : Conn) : c.pollShutdown.2.io.wire = c.io.wire := by
  have same : c.io.io.pollShutdown.2.written = c.io.io.written := by
    unfold Transport.pollShutdown
    split
    · rfl
    · rfl
  exact congrArg (· ++ c.io.writeBuf.contents) same

variable [Httparse]

theorem withParse_wire (c : Conn) : c.withParse.io.wire = c.io.wire := c.io.parse_wire _

theorem pollReadHead_lays (c : Conn) : c.Lays c.pollReadHead.2 [] := by
  have parsed : c.Lays c.withParse [] := .silent c.withParse_wire rfl
  obtain ⟨-, eq⟩ | ⟨e, -, eq⟩ | ⟨msg, trailers, -, -, -, eq⟩ := c.pollReadHead_cases
  · rw [eq]
    exact parsed
  · rw [eq]
    exact parsed.same (c.withParse.onReadHeadError_wire e) (c.withParse.onReadHeadError_closes e).1.log
  · rw [eq]
    have headed : c.Lays (c.withParse.withHead msg) [] :=
      .silent c.withParse_wire (wireLog_note_same c.withParse fun _ => rfl)
    dsimp only
    split
    · exact headed.tryKeepAlive.same rfl rfl
    · exact headed.same rfl rfl

theorem pollReadBody_lays {c : Conn} (inv : c.Inv) (can : c.canReadBody = true) : c.Lays c.pollReadBody.2 [] := by
  obtain ⟨d, reading⟩ := inv.reading_of_canReadBody can
  have wire := Decoder.decode_same (f := Buffered.wire) Buffered.readMem_wire d c.io
  rw [pollReadBody_of_reading reading]
  obtain ⟨d', io, decoded, eq⟩ | ⟨e, d', io, decoded, eq⟩ | ⟨frame, d', io, decoded, -, eq⟩ |
    ⟨data, d', io, decoded, -, -, eq⟩ := c.pollReadBodyWith_cases d
  · rw [decoded] at wire
    rw [eq]
    exact .silent wire rfl
  · rw [decoded] at wire
    rw [eq]
    have failed : c.Lays { c with io, state := { c.state with reading := .closed } } [] := .silent wire rfl
    exact failed.tryKeepAlive
  · rw [decoded] at wire
    rw [eq]
    exact (withFrame_lays c wire d' frame .keepAlive).tryKeepAlive
  · rw [decoded] at wire
    rw [eq]
    exact withFrame_lays c wire d' (.data data) (.body d')

/-- A call leaves the wire alone, or adds to the body of the last request. -/
theorem Call.lays {c c' : Conn} (call : c.Call c') (inv : c.Inv) (sound : c.Sound) : ∃ more, c.Lays c' more := by
  have silent {c' : Conn} (wire : c'.io.wire = c.io.wire) (log : c'.log = c.log) : ∃ more, c.Lays c' more :=
    ⟨[], .silent wire (wireLog_of_log log)⟩
  cases call with
  | readHead => exact ⟨[], c.pollReadHead_lays⟩
  | readBody can => exact ⟨[], pollReadBody_lays inv can⟩
  | drain can =>
    obtain ⟨d, reading⟩ := inv.reading_of_canReadBody can
    have read := pollReadBody_lays inv can
    rcases pollDrainOrCloseRead_eq reading with eq | eq
    · rw [eq]
      exact ⟨[], read⟩
    · rw [eq]
      exact ⟨[], read.same rfl rfl⟩
  | readKeepAlive => exact ⟨[], c.pollReadKeepAlive_looked.lays⟩
  | readAgain => exact silent rfl rfl
  | closeRead => exact silent rfl rfl
  | close => exact silent rfl rfl
  | @writeBody chunk can =>
    obtain ⟨e, writing⟩ := canWriteBody_iff.mp can
    obtain ⟨x, last, -⟩ := inv.sending e writing
    rw [writeBody_eq writing]
    exact ⟨_, buffer_lays sound last _ _⟩
  | @writeTrailers trailers can =>
    obtain ⟨e, writing⟩ := canWriteBody_iff.mp can
    obtain ⟨x, last, -⟩ := inv.sending e writing
    obtain ⟨buf, -, eq⟩ | ⟨-, eq⟩ := writeTrailers_eq writing trailers
    · rw [eq]
      exact ⟨_, buffer_lays sound last buf _⟩
    · rw [eq]
      exact silent rfl rfl
  | @writeBodyAndEnd chunk can =>
    obtain ⟨e, writing⟩ := canWriteBody_iff.mp can
    obtain ⟨x, last, -⟩ := inv.sending e writing
    rw [writeBodyAndEnd_eq writing, Encoder.encodeAndEnd_eq]
    exact ⟨_, buffer_lays sound last _ _⟩
  | endBody can =>
    obtain ⟨e, writing⟩ := canWriteBody_iff.mp can
    obtain ⟨x, last, -⟩ := inv.sending e writing
    obtain ⟨buf, -, -, eq⟩ | ⟨err, eq⟩ := endBody_eq writing
    · rw [eq]
      cases buf with
      | none => exact ⟨[], sendMore_lays last (List.append_nil _).symm _⟩
      | some buf => exact ⟨_, buffer_lays sound last buf _⟩
    · rw [eq]
      exact ⟨[], sendMore_lays last (List.append_nil _).symm _⟩
  | flush =>
    have flushed : c.Lays { c with io := c.io.pollFlush.2 } [] :=
      .silent (Buffered.pollFlush_flushed sound.writes).wire rfl
    obtain ⟨-, eq⟩ | ⟨-, eq⟩ := c.pollFlush_eq
    · rw [eq]
      exact ⟨[], flushed.tryKeepAlive⟩
    · rw [eq]
      exact ⟨[], flushed⟩
  | shutdown => exact silent c.pollShutdown_wire rfl
  | takeError => exact silent rfl rfl
  | pendingUpgrade => exact silent rfl rfl
  | onUpgrade => exact silent rfl rfl

theorem Step.lays {c c' : Conn} (step : c.Step c') (inv : c.Inv) (sound : c.Sound) : ∃ more, c.Lays c' more := by
  cases step with
  | call call => exact call.lays inv sound
  | writeHead can _ wrote => exact writeHead_lays sound can wrote

/-- What is on the wire and what the history says grow together. -/
theorem Steps.lays {c c' : Conn} (steps : c.Steps c') (inv : c.Inv) (sound : c.Sound) : ∃ more, c.Lays c' more := by
  induction steps with
  | refl => exact ⟨[], .silent rfl rfl⟩
  | tail earlier step ih =>
    obtain ⟨before, first⟩ := ih
    obtain ⟨after, second⟩ := step.lays (Steps.inv earlier inv).1 (Steps.sound earlier inv sound)
    refine ⟨before ++ after, ?_, ?_⟩
    · rw [second.wire, first.wire, List.append_assoc]
    · rw [second.log, first.log, List.append_assoc]

end Conn

namespace World

theorem handshake_wire (opts : Http1Options) (io : Transport) : (Conn.handshake opts io).io.wire = io.written := by
  unfold Conn.handshake
  cases opts.h1Writev <;> cases opts.h1ReadBufExactSize <;> cases opts.h1MaxBufSize <;> exact List.append_nil _

variable [Httparse]

/-- In every run the transport has accepted, in this order and without anything in between, the head and the body of one
request after the other, up to what the write buffer still holds. -/
theorem run_wire (opts : Http1Options) (io : Transport) (actions : List Action) :
    let c := ((new opts io).run actions).conn
    c.io.io.written ++ c.io.writeBuf.contents = io.written ++ c.log.flatMap Exchange.onWire := by
  obtain ⟨more, lays⟩ :=
    Conn.Steps.lays (run_steps (new opts io) actions) (Conn.handshake_inv opts io) (Conn.handshake_sound opts io)
  have start : (new opts io).conn.io.wire = io.written := handshake_wire opts io
  show ((new opts io).run actions).conn.io.wire = io.written ++ ((new opts io).run actions).conn.wireLog
  rw [lays.wire, lays.log, start]
  rfl

end World

end Hwire.Http1
