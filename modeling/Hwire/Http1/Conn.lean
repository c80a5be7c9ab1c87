import Hwire.Http1.Role

/-!
# A connection

The state of an HTTP/1 client connection: what may be read, what may be written and whether the connection can be
kept alive, over the buffered transport. `log` is a history of the exchanges on the connection that the code does not
have; nothing reads it.
-/

namespace Hwire.Http1
open Lib

/-! ### Parsing a head -/

/-- The result of `Buffered::parse`, with the parts of the context that parsing changes. -/
structure HeadParse where
  res : Poll (Except Error ParsedMessage)
  cachedHeaders : Option HeaderMap
  informed : List ResponseHead
  io : Buffered (EncodedBuf Bytes)

/-- The loop of `Buffered::parse`. Every round takes an event from the transport, so its script is fuel enough. -/
def Buffered.parseLoop [Httparse] : Nat → ParseContext → List ResponseHead → Buffered (EncodedBuf Bytes) → HeadParse
  | 0, ctx, informed, b => ⟨.pending, ctx.cachedHeaders, informed, b⟩
  | fuel + 1, ctx, informed, b =>
    match parseHeaders b.readBuf b.partialLen ctx with
    | (.error e, s) =>
      ⟨.ready (.error (.ofParse e)), s.cachedHeaders, informed ++ s.informed, { b with readBuf := s.buf }⟩
    | (.ok (some msg), s) =>
      ⟨.ready (.ok msg), s.cachedHeaders, informed ++ s.informed, { b with readBuf := s.buf, partialLen := none }⟩
    | (.ok none, s) =>
      let informed := informed ++ s.informed
      let b := { b with readBuf := s.buf }
      let currLen := b.readBuf.length
      if currLen ≥ b.readBufStrategy.max then ⟨.ready (.error .newTooLarge), s.cachedHeaders, informed, b⟩
      else
        -- A head of status 1xx may have taken all the bytes.
        let b := { b with partialLen := if currLen > 0 then some currLen else none }
        match b.pollReadFromIo with
        | (.pending, b) => ⟨.pending, s.cachedHeaders, informed, b⟩
        | (.ready (.error e), b) => ⟨.ready (.error (.newIo e)), s.cachedHeaders, informed, b⟩
        | (.ready (.ok n), b) =>
          if n = 0 then ⟨.ready (.error .newIncomplete), s.cachedHeaders, informed, b⟩
          else parseLoop fuel { ctx with cachedHeaders := s.cachedHeaders } informed b

def Buffered.parse [Httparse] (b : Buffered (EncodedBuf Bytes)) (ctx : ParseContext) : HeadParse :=
  b.parseLoop (b.io.reads.length + 1) ctx []

/-! ### The state -/

inductive Reading where
  | init
  | «continue» (decoder : Decoder)
  | body (decoder : Decoder)
  | keepAlive
  | closed
  deriving DecidableEq, Repr

inductive Writing where
  | init
  | body (encoder : Encoder)
  | keepAlive
  | closed
  deriving DecidableEq

inductive KA where
  | idle | busy | disabled
  deriving DecidableEq, Repr

structure State where
  allowHalfClose : Bool := false
  cachedHeaders : Option HeaderMap := none
  error : Option Error := none
  keepAlive : KA := .busy
  method : Option Method := none
  h1ParserConfig : ParserConfig := {}
  h1MaxHeaders : Option Nat := none
  h09Responses : Bool := false
  onInformational : Bool := false
  notifyRead : Bool := false
  reading : Reading := .init
  writing : Writing := .init
  upgrade : Bool := false
  version : Version := .http11
  allowTrailerFields : Bool := false

namespace State

def close (s : State) : State := { s with reading := .closed, writing := .closed, keepAlive := .disabled }

def closeRead (s : State) : State := { s with reading := .closed, keepAlive := .disabled }

def closeWrite (s : State) : State := { s with writing := .closed, keepAlive := .disabled }

def wantsKeepAlive (s : State) : Bool := s.keepAlive != .disabled

def isIdle (s : State) : Bool := s.keepAlive == .idle

def isReadClosed (s : State) : Bool := s.reading == .closed

def isWriteClosed (s : State) : Bool := s.writing == .closed

def busy (s : State) : State := if s.keepAlive = .disabled then s else { s with keepAlive := .busy }

/-- The status was just set to idle, so the check of the source for an idle state never fails. -/
def idle (s : State) : State :=
  { s with method := none, keepAlive := .idle, reading := .init, writing := .init, notifyRead := true }

def tryKeepAlive (s : State) : State :=
  match s.reading, s.writing with
  | .keepAlive, .keepAlive => if s.keepAlive = .busy then s.idle else s.close
  | .closed, .keepAlive => s.close
  | .keepAlive, .closed => s.close
  | _, _ => s

def andKeepAlive (s : State) (enabled : Bool) : State := if enabled then s else { s with keepAlive := .disabled }

end State

def ParsedMessage.wantsExpect (msg : ParsedMessage) : Bool :=
  msg.expectContinue && (msg.head.version = .http11 || msg.head.version = .http2 || msg.head.version = .http3)

/-! ### The history -/

/-- What the final response of an exchange said, and where in the stream its head ended the wait. -/
structure Answer where
  keepAlive : Bool
  wantsUpgrade : Bool
  decode : DecodedLength
  deriving DecidableEq, Repr

/-- A request head that was written, with what was known at that moment and what became of it. -/
structure Exchange where
  head : RequestHead
  hint : Option BodyLength
  encoder : Encoder
  /-- What was left in the read buffer when the head was encoded. -/
  unread : Bytes
  /-- Whether the transport had reported the end of file by then. -/
  eofSeen : Bool
  sent : Bytes := []
  finished : Bool := false
  answer : Option Answer := none
  decoded : List Frame := []
  decoderEof : Bool := false

/-- The options of a handshake that reach the connection. -/
structure Http1Options where
  h1ParserConfig : ParserConfig := {}
  h1Writev : Option Bool := none
  h1MaxHeaders : Option Nat := none
  h09Responses : Bool := false
  h1ReadBufExactSize : Option Nat := none
  h1MaxBufSize : Option Nat := none
  deriving DecidableEq, Repr

structure Conn where
  io : Buffered (EncodedBuf Bytes)
  state : State := {}
  log : List Exchange := []

namespace Conn

/-- `Conn::new`, with the options that a handshake sets. -/
def handshake (opts : Http1Options) (io : Transport) : Conn :=
  let io : Buffered (EncodedBuf Bytes) := .new io
  let io := opts.h1Writev.elim io fun writev => io.setWriteStrategy (if writev then .queue else .flatten)
  let io := opts.h1ReadBufExactSize.elim io io.setReadBufExactSize
  let io := opts.h1MaxBufSize.elim io io.setMaxBufSize
  { io
    state := { h1ParserConfig := opts.h1ParserConfig, h1MaxHeaders := opts.h1MaxHeaders, h09Responses := opts.h09Responses } }

def note (c : Conn) (f : Exchange → Exchange) : Conn :=
  { c with log := c.log.modifyLast f }

def isReadClosed (c : Conn) : Bool := c.state.isReadClosed

def isWriteClosed (c : Conn) : Bool := c.state.isWriteClosed

def canReadHead (c : Conn) : Bool := c.state.reading == .init && c.state.writing != .init

def canReadBody (c : Conn) : Bool :=
  match c.state.reading with
  | .body _ | .continue _ => true
  | _ => false

def canWriteHead (c : Conn) : Bool :=
  c.state.reading != .closed && c.state.writing == .init && c.io.canHeadersBuf

def canWriteBody (c : Conn) : Bool :=
  match c.state.writing with
  | .body _ => true
  | _ => false

def canBufferBody (c : Conn) : Bool := c.io.canBuffer

def closeRead (c : Conn) : Conn := { c with state := c.state.closeRead }

def closeWrite (c : Conn) : Conn := { c with state := c.state.closeWrite }

/-! ### Idle connections -/

/-- Neither a message being read nor a body being written keeps `maybe_notify` from reading. -/
def mayNotify (s : State) : Bool :=
  match s.reading, s.writing with
  | .init, .body _ => false
  | .init, _ => true
  | _, _ => false

def maybeNotify (c : Conn) : Conn :=
  if !mayNotify c.state then c
  else if c.io.readBlocked then c
  else if c.io.readBuf ≠ [] then { c with state := { c.state with notifyRead := true } }
  else
    match c.io.pollReadFromIo with
    | (.ready (.ok n), io) =>
      if n = 0 then { c with io, state := if c.state.isIdle then c.state.close else c.state.closeRead }
      else { c with io, state := { c.state with notifyRead := true } }
    | (.pending, io) => { c with io }
    | (.ready (.error e), io) => { c with io, state := { c.state.close with error := some (.newIo e), notifyRead := true } }

def tryKeepAlive (c : Conn) : Conn := maybeNotify { c with state := c.state.tryKeepAlive }

/-! ### Reading -/

def hasH2Prefix (c : Conn) : Bool := (ascii "PRI * HTTP/2.0\r\n\r\nSM\r\n\r\n").isPrefixOf c.io.readBuf

/-- The client has no message to answer a parse error with. -/
def onParseError (c : Conn) (e : Error) : Error :=
  if c.state.writing = .init && c.hasH2Prefix then .newVersionH2 else e

def onReadHeadError (c : Conn) (e : Error) : Option Error × Conn :=
  let mustError := !c.state.isIdle
  let c := c.closeRead
  let c := { c with io := c.io.consumeLeadingLines }
  let wasMidParse := e.isParse || c.io.readBuf ≠ []
  if wasMidParse || mustError then (some (c.onParseError e), c) else (none, c.closeWrite)

/-- The state that a parsed head leads to, before the look at an idle connection. -/
def readingAfterHead (s : State) (msg : ParsedMessage) : Reading :=
  if msg.decode = .ZERO then .keepAlive
  else if msg.wantsExpect then
    .continue (.new msg.decode s.h1MaxHeaders none)
  else .body (.new msg.decode s.h1MaxHeaders none)

def parseContext (s : State) : ParseContext where
  cachedHeaders := s.cachedHeaders
  reqMethod := s.method
  h1ParserConfig := s.h1ParserConfig
  h1MaxHeaders := s.h1MaxHeaders
  h09Responses := s.h09Responses
  onInformational := s.onInformational

/-- `None` of the source is the inner `none`. -/
def pollReadHead [Httparse] (c : Conn) : Poll (Option (Except Error ParsedMessage)) × Conn :=
  let parsed := c.io.parse (parseContext c.state)
  let c := { c with io := parsed.io, state := { c.state with cachedHeaders := parsed.cachedHeaders } }
  match parsed.res with
  | .pending => (.pending, c)
  | .ready (.error e) =>
    let (err, c) := c.onReadHeadError e
    (.ready (err.map .error), c)
  | .ready (.ok msg) =>
    let state := ({ c.state with h09Responses := false, onInformational := false }).busy.andKeepAlive msg.keepAlive
    let state := { state with version := msg.head.version, reading := readingAfterHead state msg }
    let c := { c with state }.note fun x =>
      { x with answer := some ⟨msg.keepAlive, msg.wantsUpgrade, msg.decode⟩ }
    let c := if msg.decode = .ZERO then c.tryKeepAlive else c
    let allowTrailerFields := msg.head.headers.get .te == some (.fromStatic "trailers")
    (.ready (some (.ok msg)), { c with state := { c.state with allowTrailerFields } })

/-- What `poll_read_body` makes of a frame: the next state, if it changes, and what is returned. -/
def onFrame (d : Decoder) (frame : Frame) : Option Reading × Option Frame :=
  match frame with
  | .data slice =>
    if d.isEof then (some .keepAlive, if slice ≠ [] then some frame else none)
    -- All three decoders are at their end or fail when they read an empty slice.
    else if slice = [] then (some .closed, none)
    else (none, some frame)
  | .trailers _ => (some .keepAlive, some frame)

def pollReadBodyWith [Httparse] (c : Conn) (d : Decoder) : Poll (Option (Except IoError Frame)) × Conn :=
  match d.decode c.io with
  | (.pending, d, io) => (.pending, { c with io, state := { c.state with reading := .body d } })
  | (.ready (.error e), _, io) =>
    (.ready (some (.error e)), tryKeepAlive { c with io, state := { c.state with reading := .closed } })
  | (.ready (.ok frame), d, io) =>
    let c := { c with io, state := { c.state with reading := .body d } }.note fun x =>
      { x with decoded := x.decoded ++ [frame], decoderEof := d.isEof }
    match onFrame d frame with
    | (some reading, ret) => (.ready (ret.map .ok), tryKeepAlive { c with state := { c.state with reading } })
    | (none, ret) => (.ready (ret.map .ok), c)

def pollReadBody [Httparse] (c : Conn) : Poll (Option (Except IoError Frame)) × Conn :=
  match c.state.reading with
  | .body d => c.pollReadBodyWith d
  | .continue d =>
    -- Write the 100 Continue if not already responded.
    let c := if c.state.writing = .init then { c with io := c.io.extendHeaders (ascii "HTTP/1.1 100 Continue\r\n\r\n") } else c
    c.pollReadBodyWith d
  -- `unreachable!("poll_read_body invalid state")`
  | _ => (.ready none, c)

def forceIoRead (c : Conn) : Poll (Except IoError Nat) × Conn :=
  match c.io.pollReadFromIo with
  | (.ready (.error e), io) => (.ready (.error e), { c with io, state := c.state.close })
  | (res, io) => (res, { c with io })

/-- The io object must have nothing to read for a client that is about to be idle. -/
def requireEmptyRead (c : Conn) : Poll (Except Error Unit) × Conn :=
  if c.io.readBuf ≠ [] then (.ready (.error .newUnexpectedMessage), c)
  else
    match c.forceIoRead with
    | (.pending, c) => (.pending, c)
    | (.ready (.error e), c) => (.ready (.error (.newIo e)), c)
    | (.ready (.ok n), c) =>
      if n = 0 then
        (if c.state.isIdle then .ready (.ok ()) else .ready (.error .newIncomplete), { c with state := c.state.closeRead })
      else (.ready (.error .newUnexpectedMessage), c)

def midMessageDetectEof (c : Conn) : Poll (Except Error Unit) × Conn :=
  if c.state.allowHalfClose || c.io.readBuf ≠ [] then (.pending, c)
  else
    match c.forceIoRead with
    | (.pending, c) => (.pending, c)
    | (.ready (.error e), c) => (.ready (.error (.newIo e)), c)
    | (.ready (.ok n), c) =>
      if n = 0 then (.ready (.error .newIncomplete), { c with state := c.state.closeRead })
      else (.ready (.ok ()), c)

def isMidMessage (c : Conn) : Bool := !(c.state.reading == .init && c.state.writing == .init)

def pollReadKeepAlive (c : Conn) : Poll (Except Error Unit) × Conn :=
  if c.isReadClosed then (.pending, c)
  else if c.isMidMessage then c.midMessageDetectEof
  else c.requireEmptyRead

/-- If the read side can be cheaply drained, do so. Otherwise, close. -/
def pollDrainOrCloseRead [Httparse] (c : Conn) : Conn :=
  let c := match c.state.reading with
    | .continue d => { c with state := { c.state with reading := .body d } }
    | _ => c
  let c := c.pollReadBody.2
  match c.state.reading with
  | .init | .keepAlive => c
  | _ => c.closeRead

def wantsReadAgain (c : Conn) : Bool × Conn :=
  (c.state.notifyRead, { c with state := { c.state with notifyRead := false } })

/-! ### Writing -/

def fixKeepAlive (s : State) (head : RequestHead) : State × RequestHead :=
  let outgoingIsKeepAlive := (head.headers.get .connection).any Headers.connectionKeepAlive
  if outgoingIsKeepAlive then (s, head)
  else
    match head.version with
    | .http10 => ({ s with keepAlive := .disabled }, head)
    | .http11 =>
      if s.wantsKeepAlive then
        (s, { head with headers := head.headers.insert .connection (.fromStatic "keep-alive") })
      else (s, head)
    | _ => (s, head)

/-- If we know the remote speaks an older version, we try to fix up any messages to work with our older peer. -/
def enforceVersion (s : State) (head : RequestHead) : State × RequestHead :=
  match s.version with
  | .http10 =>
    let (s, head) := fixKeepAlive s head
    (s, { head with version := .http10 })
  | .http11 =>
    if s.keepAlive = .disabled then
      (s, { head with headers := head.headers.insert .connection (.fromStatic "close" Headers.close_valid) })
    else (s, head)
  | _ => (s, head)

/-- The state after a head without a body, or after the last data of one. -/
def endWriting (e : Encoder) : Writing := if e.isLast then .closed else .keepAlive

/-- The state after the trailers, or after the end of the body. -/
def endBodyWriting (e : Encoder) : Writing := if e.isLast || e.isCloseDelimited then .closed else .keepAlive

/-- No encoder is delimited by the end of the connection. -/
@[simp] theorem endBodyWriting_eq (e : Encoder) : endBodyWriting e = endWriting e := by
  simp [endBodyWriting, endWriting, Encoder.isCloseDelimited]

/-- There is no result where encoding the head panics. -/
def writeHead (c : Conn) (head : RequestHead) (body : Option BodyLength) : Option Conn :=
  let (state, head) := enforceVersion c.state.busy head
  (Client.encode head body).map fun (bytes, encoder) =>
    { io := c.io.extendHeaders bytes
      state := { state with
        method := some head.subject.method
        cachedHeaders := some .empty
        onInformational := head.extensions.onInformational
        writing := if !encoder.isEof then .body encoder else endWriting encoder }
      log := c.log ++
        [{ head := head, hint := body, encoder := encoder, unread := c.io.readBuf, eofSeen := c.io.io.sawEof,
           finished := encoder.isEof && decide (endWriting encoder = .keepAlive) }] }

def buffer (c : Conn) (buf : EncodedBuf Bytes) : Conn :=
  { c with io := c.io.buffer buf }.note fun x => { x with sent := x.sent ++ LawfulBuf.bytes buf }

def setWriting (c : Conn) (writing : Writing) : Conn :=
  { c with state := { c.state with writing } }.note fun x => { x with finished := x.finished || decide (writing = Writing.keepAlive) }

def writeBody (c : Conn) (chunk : Bytes) : Conn :=
  match c.state.writing with
  | .body encoder =>
    let (buf, encoder) := encoder.encode chunk
    let c := c.buffer buf
    if !encoder.isEof then c.setWriting (.body encoder) else c.setWriting (endWriting encoder)
  -- `unreachable!("write_body invalid state")`
  | _ => c

def writeTrailers (c : Conn) (trailers : HeaderMap) : Conn :=
  match c.state.writing with
  | .body encoder =>
    match encoder.encodeTrailers trailers with
    | some buf => (c.buffer buf).setWriting (endBodyWriting encoder)
    | none => c
  -- `unreachable!("write_trailers invalid state")`
  | _ => c

/-- The buffer that `encode_and_end` puts into the write buffer. -/
def lastBuf (encoder : Encoder) (chunk : Bytes) : EncodedBuf Bytes :=
  match encoder.kind with
  | .chunked _ => .chunked ⟨⟨ChunkSize.new chunk.length, chunk⟩, ascii "\r\n0\r\n\r\n"⟩
  | .length remaining => if chunk.length > remaining then .limited ⟨chunk, remaining⟩ else .exact chunk

def writeBodyAndEnd (c : Conn) (chunk : Bytes) : Conn :=
  match c.state.writing with
  | .body encoder =>
    let (canKeepAlive, writeBuf) := encoder.encodeAndEnd chunk c.io.writeBuf
    let c := { c with io := { c.io with writeBuf } }.note fun x =>
      { x with sent := x.sent ++ LawfulBuf.bytes (lastBuf encoder chunk) }
    c.setWriting (if canKeepAlive then .keepAlive else .closed)
  -- `unreachable!("write_body invalid state")`
  | _ => c

def endBody (c : Conn) : Except Error Unit × Conn :=
  match c.state.writing with
  | .body encoder =>
    match encoder.end with
    | .ok buf =>
      let c := match buf with
        | some buf => c.buffer buf
        | none => c
      (.ok (), c.setWriting (endBodyWriting encoder))
    | .error notEof =>
      (.error (Error.newBodyWriteAborted.withCause ("early end, expected " ++ toString notEof.remaining ++ " more bytes")),
        c.setWriting .closed)
  | _ => (.ok (), c)

def pollFlush (c : Conn) : Poll (Except IoError Unit) × Conn :=
  match c.io.pollFlush with
  | (.ready (.ok ()), io) => (.ready (.ok ()), tryKeepAlive { c with io })
  | (res, io) => (res, { c with io })

def pollShutdown (c : Conn) : Poll (Except IoError Unit) × Conn :=
  let (res, io) := c.io.io.pollShutdown
  (res, { c with io := { c.io with io } })

def takeError (c : Conn) : Option Error × Conn := (c.state.error, { c with state := { c.state with error := none } })

def pendingUpgrade (c : Conn) : Bool × Conn := (c.state.upgrade, { c with state := { c.state with upgrade := false } })

def onUpgrade (c : Conn) : Conn := { c with state := { c.state with upgrade := true } }

end Conn

end Hwire.Http1
