import Hwire.Http1.BodyBytes
import Hwire.Http1.HeadsSaid

/-!
# What a step hears

What each step of a connection takes out of the bytes of the transport, with all that the history records of it: heads as
their bytes have them, frames as their decoder returns them, and nothing else.
-/

namespace Hwire.Http1
open Lib Client

namespace Conn

/-! ### What the parser is told -/

/-- The parser of a head would be told the same, but that an exchange may be over. -/
def Asks (c c' : Conn) : Prop :=
  parseContext c'.state = parseContext c.state ∨
    c'.canReadHead = false ∧ parseContext c'.state = { parseContext c.state with reqMethod := none }

/-- What does not change from one exchange to the next. -/
structure Settled (c c' : Conn) : Prop where
  config : c'.state.h1ParserConfig = c.state.h1ParserConfig
  maxHeaders : c'.state.h1MaxHeaders = c.state.h1MaxHeaders
  empty : CacheEmpty c.state.cachedHeaders → CacheEmpty c'.state.cachedHeaders

theorem Settled.trans {c₁ c₂ c₃ : Conn} (h : c₁.Settled c₂) (h' : c₂.Settled c₃) : c₁.Settled c₃ :=
  ⟨h'.config.trans h.config, h'.maxHeaders.trans h.maxHeaders, h'.empty ∘ h.empty⟩

theorem Asks.settled {c c' : Conn} (asks : c.Asks c') : c.Settled c' := by
  have of_eq {c c' : Conn} (method : Option Method) (eq : parseContext c'.state = { parseContext c.state with reqMethod := method }) :
      c.Settled c' := by
    have config := congrArg ParseContext.h1ParserConfig eq
    have maxHeaders := congrArg ParseContext.h1MaxHeaders eq
    have cache : c'.state.cachedHeaders = c.state.cachedHeaders := congrArg ParseContext.cachedHeaders eq
    exact ⟨config, maxHeaders, fun empty => cache ▸ empty⟩
  rcases asks with same | ⟨-, over_⟩
  · exact of_eq c.state.method same
  · exact of_eq none over_

theorem maybeNotify_asks (c : Conn) : parseContext c.maybeNotify.state = parseContext c.state := by
  generalize c.maybeNotify = c', c.maybeNotify_notified = notified
  cases notified with
  | left => rfl
  | buffered => rfl
  | waited => rfl
  | woken => rfl
  | ended _ _ closed =>
    rcases closed with rfl | rfl
    · rfl
    · rfl
  | failed => rfl

/-- An exchange that is over leaves the connection idle, and nothing is read before another request. -/
theorem tryKeepAlive_asks (c : Conn) : c.Asks c.tryKeepAlive := by
  have notified := maybeNotify_asks { c with state := c.state.tryKeepAlive }
  have tried : c.state.tryKeepAlive = c.state.idle ∨ parseContext c.state.tryKeepAlive = parseContext c.state := by
    unfold State.tryKeepAlive
    split
    · split
      · exact .inl rfl
      · exact .inr rfl
    · exact .inr rfl
    · exact .inr rfl
    · exact .inr rfl
  rcases tried with idle | same
  · refine .inr ⟨?_, notified.trans ?_⟩
    · rw [← Bool.not_eq_true]
      intro can
      have before := canReadHead_of_closes (maybeNotify_closes { c with state := c.state.tryKeepAlive }).state can
      rw [idle] at before
      cases before
    · dsimp only
      rw [idle]
      rfl
  · exact .inl (notified.trans same)

theorem Looked.asks {c c' : Conn} (looked : c.Looked c') : parseContext c'.state = parseContext c.state := by
  have forced : parseContext c.forceIoRead.2.state = parseContext c.state := by
    unfold forceIoRead
    split
    · rfl
    · rfl
  cases looked with
  | skipped => rfl
  | read => exact forced
  | ended => exact forced

theorem pollFlush_asks (c : Conn) : c.Asks c.pollFlush.2 := by
  obtain ⟨-, eq⟩ | ⟨-, eq⟩ := c.pollFlush_eq
  · rw [eq]
    exact tryKeepAlive_asks { c with io := c.io.pollFlush.2 }
  · rw [eq]
    exact .inl rfl

theorem writeHead_settled {c c' : Conn} {head : RequestHead} {body : Option BodyLength}
    (h : c.writeHead head body = some c') : c.Settled c' := by
  have busy : c.state.busy.h1ParserConfig = c.state.h1ParserConfig ∧ c.state.busy.h1MaxHeaders = c.state.h1MaxHeaders := by
    unfold State.busy
    split
    · exact ⟨rfl, rfl⟩
    · exact ⟨rfl, rfl⟩
  have enforced : (enforceVersion c.state.busy head).1.h1ParserConfig = c.state.h1ParserConfig ∧
      (enforceVersion c.state.busy head).1.h1MaxHeaders = c.state.h1MaxHeaders := by
    rcases enforceVersion_state c.state.busy head with same | disabled
    · rw [same]
      exact busy
    · rw [disabled]
      exact busy
  unfold writeHead at h
  obtain ⟨⟨bytes, encoder⟩, -, rfl⟩ := Option.map_eq_some_iff.mp h
  exact ⟨enforced.1, enforced.2, fun _ => rfl⟩

theorem writeHead_method {c c' : Conn} {head : RequestHead} {body : Option BodyLength} {x : Exchange}
    (h : c.writeHead head body = some c') (log : c'.log = c.log ++ [x]) : c'.state.method = some x.head.subject.method := by
  unfold writeHead at h
  dsimp only at h
  obtain ⟨⟨bytes, encoder⟩, -, rfl⟩ := Option.map_eq_some_iff.mp h
  cases List.append_cancel_left log
  rfl

/-! ### Steps -/

section Steps

variable [Httparse]

/-- What a call of a decoder takes, and what becomes of it. -/
inductive ReadsBody (c c' : Conn) : Prop where
  | frame {d d' : Decoder} {io : Buffered (EncodedBuf Bytes)} {frame : Frame} (reading : c.state.reading = .body d)
      (out : d.decode c.io = (.ready (.ok frame), d', io))
      (log : c'.log = (c.note fun x => { x with decoded := x.decoded ++ [frame], decoderEof := d'.isEof }).log)
      (unread : c'.unread = io.unread) (body : ∀ d₁, c'.state.reading = .body d₁ → d₁ = d' ∧ d'.isEof = false)
  | stalled {d d' : Decoder} {io : Buffered (EncodedBuf Bytes)} {res : Poll (Except IoError Frame)}
      (reading : c.state.reading = .body d) (out : d.decode c.io = (res, d', io)) (other : ∀ frame, res ≠ .ready (.ok frame))
      (log : c'.log = c.log) (unread : c'.unread = io.unread)
      (body : ∀ d₁, c'.state.reading = .body d₁ → d₁ = d' ∧ res = .pending)

/-- What a step that finds no head and writes none takes out of what is unread, and what it adds to the history. -/
inductive Hears (c c' : Conn) : Prop where
  | aside {f : Exchange → Exchange} (log : c'.log = (c.note f).log)
      (same : ∀ x, (f x).head = x.head ∧ (f x).answer = x.answer ∧ (f x).decoded = x.decoded ∧ (f x).decoderEof = x.decoderEof)
      (unread : c'.unread = c.unread) (asks : c.Asks c') (head : c'.canReadHead = true → c.canReadHead = true)
      (body : ∀ d, c'.state.reading = .body d → c.state.reading = .body d)
  /-- Informational heads, and a part of another head. -/
  | waits {cachedHeaders : Option HeaderMap} (can : c.canReadHead = true) (log : c'.log = c.log)
      (skips : Skips (parseContext c.state) c.unread c'.unread)
      (context : parseContext c'.state = { parseContext c.state with cachedHeaders })
  /-- A head that cannot be read is the end of reading. -/
  | fails (can : c.canReadHead = true) (log : c'.log = c.log) (unread : c'.unread <:+ c.unread)
      (closed : c'.state.reading = .closed)
  | body (reads : c.ReadsBody c')

/-- The head of a response is found. -/
structure HearsHead (c c' : Conn) (msg : ParsedMessage) : Prop where
  said : HeadSaid (parseContext c.state) c.unread msg c'.unread
  log : c'.log = (c.note fun x => { x with answer := some ⟨msg.keepAlive, msg.wantsUpgrade, msg.decode⟩ }).log
  body : ∀ d, c'.state.reading = .body d → msg.decode ≠ .ZERO ∧ d = .new msg.decode c.state.h1MaxHeaders none

theorem Hears.quiet {c c' : Conn} (log : c'.log = c.log) (unread : c'.unread = c.unread) (asks : c.Asks c')
    (head : c'.canReadHead = true → c.canReadHead = true)
    (body : ∀ d, c'.state.reading = .body d → c.state.reading = .body d) : c.Hears c' :=
  .aside (f := fun x => x) (log.trans (by rw [note_id])) (fun _ => ⟨rfl, rfl, rfl, rfl⟩) unread asks head body

theorem Hears.closes {c c' : Conn} (log : c'.log = c.log) (unread : c'.unread = c.unread)
    (asks : parseContext c'.state = parseContext c.state) (closes : c.state.Closes c'.state) : c.Hears c' :=
  .quiet log unread (.inl asks) (canReadHead_of_closes closes) (body_of_closes closes)

theorem ReadsBody.close {c c' : Conn} (h : c.ReadsBody c') : c.ReadsBody c'.closeRead := by
  cases h with
  | frame reading out log unread => exact .frame reading out log unread nofun
  | stalled reading out other log unread => exact .stalled reading out other log unread nofun

/-- A step that finds no head and writes none, wherever it is made. -/
def Mutters (c c' : Conn) : Prop := c.Hears c' ∧ c.Settled c'

theorem Mutters.of_asks {c c' : Conn} (hears : c.Hears c') (asks : c.Asks c') : c.Mutters c' := ⟨hears, asks.settled⟩

omit [Httparse] in
theorem withHead_settled (c : Conn) (msg : ParsedMessage) : c.Settled (c.withHead msg) := by
  have flags : (c.withHead msg).state.h1ParserConfig = c.state.h1ParserConfig ∧
      (c.withHead msg).state.h1MaxHeaders = c.state.h1MaxHeaders ∧
      (c.withHead msg).state.cachedHeaders = c.state.cachedHeaders := by
    unfold withHead note State.busy State.andKeepAlive
    dsimp only
    split
    · split
      · exact ⟨rfl, rfl, rfl⟩
      · exact ⟨rfl, rfl, rfl⟩
    · split
      · exact ⟨rfl, rfl, rfl⟩
      · exact ⟨rfl, rfl, rfl⟩
  obtain ⟨config, maxHeaders, cache⟩ := flags
  exact ⟨config, maxHeaders, fun empty => cache ▸ empty⟩

theorem pollReadHead_hears {c : Conn} (can : c.canReadHead = true) (empty : CacheEmpty c.state.cachedHeaders) :
    (∃ msg, c.pollReadHead.1 = .ready (some (.ok msg)) ∧ c.HearsHead c.pollReadHead.2 msg ∧ c.Settled c.pollReadHead.2) ∨
      (∀ msg, c.pollReadHead.1 ≠ .ready (some (.ok msg))) ∧ c.Mutters c.pollReadHead.2 := by
  have read : (c.io.parse (parseContext c.state)).Reads (parseContext c.state) c.unread := Buffered.parseLoop_reads
  have said : (c.io.parse (parseContext c.state)).Said (parseContext c.state) c.unread := Buffered.parseLoop_said empty
  have parsed : c.Settled c.withParse := ⟨rfl, rfl, fun _ => said.empty⟩
  obtain ⟨pending, eq⟩ | ⟨e, failed, eq⟩ | ⟨msg, trailers, found, ready, res, eq⟩ := c.pollReadHead_cases
  · rw [eq]
    exact .inr ⟨nofun, .waits can rfl (read.skips pending) rfl, parsed⟩
  · right
    rw [eq]
    have closed : (c.withParse.onReadHeadError e).2.state.reading = .closed ∧
        c.withParse.Settled (c.withParse.onReadHeadError e).2 := by
      unfold onReadHeadError
      dsimp only
      split
      · exact ⟨rfl, rfl, rfl, id⟩
      · exact ⟨rfl, rfl, rfl, id⟩
    refine ⟨?_, ?_, parsed.trans closed.2⟩
    · intro msg found
      generalize (c.withParse.onReadHeadError e).1 = err at found
      cases err with
      | none => cases found
      | some err => cases found
    · exact .fails can (c.withParse.onReadHeadError_closes e).1.log ((onReadHeadError_unread _ e).trans read.suffix) closed.1
  · have kept := (tryKeepAlive_asks (c.withParse.withHead msg)).settled
    have headed := withHead_settled c.withParse msg
    have unread : c.pollReadHead.2.unread = c.withParse.unread := by
      rw [eq]
      dsimp only
      split
      · exact tryKeepAlive_unread (c.withParse.withHead msg)
      · rfl
    refine .inl ⟨msg, res, ⟨unread ▸ said.head msg ready, (pollReadHead_ends res).2, ?_⟩, ?_⟩
    · rw [eq]
      intro d reading
      have reads : (c.withParse.withHead msg).state.reading = .body d := by
        dsimp only at reading
        split at reading
        · exact body_of_tryKeepAlive _ d reading
        · exact reading
      obtain ⟨-, kept⟩ | ⟨nonzero, body⟩ := readingAfterHead_plain (s := _) found.plain
      · exact absurd (kept.symm.trans reads) nofun
      · refine ⟨nonzero, (Reading.body.inj (reads.symm.trans body)).trans ?_⟩
        exact congrArg (fun maxHeaders => Decoder.new msg.decode maxHeaders none) headed.maxHeaders
    · rw [eq]
      dsimp only
      split
      · exact parsed.trans (headed.trans ⟨kept.config, kept.maxHeaders, kept.empty⟩)
      · exact parsed.trans ⟨headed.config, headed.maxHeaders, headed.empty⟩

theorem pollReadBody_reads {c : Conn} (inv : c.Inv) (can : c.canReadBody = true) :
    c.ReadsBody c.pollReadBody.2 ∧ c.Settled c.pollReadBody.2 := by
  obtain ⟨d, reading⟩ := inv.reading_of_canReadBody can
  rw [pollReadBody_of_reading reading]
  obtain ⟨d', io, out, eq⟩ | ⟨e, d', io, out, eq⟩ | ⟨frame, d', io, out, -, eq⟩ | ⟨data, d', io, out, -, more, eq⟩ :=
    c.pollReadBodyWith_cases d
  · rw [eq]
    exact ⟨.stalled reading out nofun rfl rfl fun d₁ body => ⟨(Reading.body.inj body).symm, rfl⟩, rfl, rfl, id⟩
  · rw [eq]
    have kept := (tryKeepAlive_asks { c with io, state := { c.state with reading := .closed } }).settled
    refine ⟨.stalled reading out nofun (tryKeepAlive_log _) (tryKeepAlive_unread _) ?_, ⟨kept.config, kept.maxHeaders, kept.empty⟩⟩
    intro d₁ body
    cases body_of_tryKeepAlive _ d₁ body
  · rw [eq]
    have kept := (tryKeepAlive_asks (c.withFrame io d' frame .keepAlive)).settled
    refine ⟨.frame reading out (tryKeepAlive_log _) (tryKeepAlive_unread _) ?_, ⟨kept.config, kept.maxHeaders, kept.empty⟩⟩
    intro d₁ body
    cases body_of_tryKeepAlive _ d₁ body
  · rw [eq]
    exact ⟨.frame reading out rfl rfl fun d₁ body => ⟨(Reading.body.inj body).symm, more⟩, rfl, rfl, id⟩

theorem pollReadBody_mutters {c : Conn} (inv : c.Inv) (can : c.canReadBody = true) : c.Mutters c.pollReadBody.2 := by
  obtain ⟨reads, settled⟩ := pollReadBody_reads inv can
  exact ⟨.body reads, settled⟩

theorem pollDrainOrCloseRead_mutters {c : Conn} (inv : c.Inv) (can : c.canReadBody = true) :
    c.Mutters c.pollDrainOrCloseRead := by
  obtain ⟨d, reading⟩ := inv.reading_of_canReadBody can
  obtain ⟨reads, settled⟩ := pollReadBody_reads inv can
  rcases pollDrainOrCloseRead_eq reading with eq | eq
  · rw [eq]
    exact ⟨.body reads, settled⟩
  · rw [eq]
    exact ⟨.body reads.close, settled.config, settled.maxHeaders, settled.empty⟩

theorem pollReadKeepAlive_mutters (c : Conn) : c.Mutters c.pollReadKeepAlive.2 := by
  have same := c.pollReadKeepAlive_looked.asks
  have closes := c.pollReadKeepAlive_closes
  exact .of_asks (.closes closes.log c.pollReadKeepAlive_unread same closes.state) (.inl same)

theorem pollFlush_mutters (c : Conn) : c.Mutters c.pollFlush.2 := by
  refine .of_asks (.quiet ?_ c.pollFlush_unread c.pollFlush_asks c.pollFlush_aside.head ?_) c.pollFlush_asks
  · obtain ⟨-, eq⟩ | ⟨-, eq⟩ := c.pollFlush_eq
    · rw [eq]
      exact tryKeepAlive_log _
    · rw [eq]
  · obtain ⟨-, eq⟩ | ⟨-, eq⟩ := c.pollFlush_eq
    · rw [eq]
      exact body_of_tryKeepAlive { c with io := c.io.pollFlush.2 }
    · rw [eq]
      exact fun _ => id

theorem Sends.mutters {c c' : Conn} (sends : c.Sends c') (can : c.canWriteBody = true) : c.Mutters c' := by
  have aside := sends.aside can
  obtain rfl | ⟨writeBuf, more, next, -, rfl⟩ := sends
  · exact .of_asks (.closes rfl rfl rfl (.refl _)) (.inl rfl)
  · exact .of_asks (.aside (sendMore_log c writeBuf more next) (fun _ => ⟨rfl, rfl, rfl, rfl⟩) rfl (.inl rfl) aside.head
      fun _ => id) (.inl rfl)

theorem closeRead_mutters (c : Conn) : c.Mutters c.closeRead :=
  .of_asks (.closes rfl rfl rfl c.state.closeRead_closes) (.inl rfl)

theorem close_mutters (c : Conn) : c.Mutters c.closeRead.closeWrite :=
  .of_asks (.closes rfl rfl rfl ⟨.inr rfl, .inr ⟨rfl, rfl⟩, .inr rfl⟩) (.inl rfl)

/-- Calls that only look at the state, or set a mark. -/
theorem Mutters.of_state {c c' : Conn} (log : c'.log = c.log) (unread : c'.unread = c.unread)
    (asks : parseContext c'.state = parseContext c.state) (reading : c'.state.reading = c.state.reading)
    (writing : c'.state.writing = c.state.writing) : c.Mutters c' := by
  refine .of_asks (.quiet log unread (.inl asks) ?_ ?_) (.inl asks)
  · intro can
    rw [canReadHead_iff] at can ⊢
    rwa [← reading, ← writing]
  · intro d body
    exact reading.symm.trans body

end Steps

end Conn

end Hwire.Http1
