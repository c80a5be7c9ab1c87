import Hwire.Error
import Hwire.Headers
import Hwire.Http1.Decode
import Hwire.Http1.Encode
import Hwire.Http1.Io

/-!
# The client's role

Parsing response heads and encoding request heads: `Client::parse`, `Client::decoder`, `Client::encode` and
`Client::set_length`.
-/

namespace Hwire.Http1
open Lib Headers

structure ParsedMessage where
  head : ResponseHead
  decode : DecodedLength
  expectContinue : Bool
  keepAlive : Bool
  wantsUpgrade : Bool

/-- What parsing reads of the connection. The callback for informational responses is kept as a flag. -/
structure ParseContext where
  cachedHeaders : Option HeaderMap := none
  reqMethod : Option Method := none
  h1ParserConfig : ParserConfig := {}
  h1MaxHeaders : Option Nat := none
  h09Responses : Bool := false
  onInformational : Bool := false

/-- What parsing leaves behind: the buffer, the cached map and the informational heads that were passed to the
callback. -/
structure ParseState where
  buf : Bytes
  cachedHeaders : Option HeaderMap
  informed : List ResponseHead := []

/-! ### The end of a head -/

/-- A fast scan for the end of a message. -/
def scanComplete : Bytes → Bool
  | [] => false
  | b :: rest =>
    if b = CR then
      if rest.take 3 = [LF, CR, LF] then true else scanComplete rest
    else if b = LF && rest.head? = some LF then true
    else scanComplete rest

def isCompleteFast (bytes : Bytes) (prevLen : Nat) : Bool := scanComplete (bytes.drop (prevLen - 3))

/-! ### Obsolete line folding -/

def isAsciiWhitespace (b : UInt8) : Bool := b == SP || b == HTAB || b == LF || b == 12 || b == CR

def trimStart (s : Bytes) : Bytes := s.dropWhile isAsciiWhitespace

def trimEnd (s : Bytes) : Bytes := s.rdropWhile isAsciiWhitespace

/-- The text of a folded value, its lines joined by single spaces. -/
def unfoldLines (value : Bytes) (firstNl : Nat) : Bytes :=
  trimEnd (value.take firstNl) ++
    ((value.drop (firstNl + 1)).splitOn LF).flatMap fun line => SP :: trimStart (trimEnd line)

def obsFoldLine (all : Bytes) (idx : HeaderIndices) : Bytes × HeaderIndices :=
  let value := (all.take idx.value.2).drop idx.value.1
  match value.findIdx? (· == LF) with
  | none => (all, idx)
  | some firstNl =>
    let unfolded := unfoldLines value firstNl
    (all.take idx.value.1 ++ unfolded ++ all.drop (idx.value.1 + unfolded.length),
      { idx with value := (idx.value.1, idx.value.1 + unfolded.length) })

def obsFoldAll (all : Bytes) : List HeaderIndices → Bytes × List HeaderIndices
  | [] => (all, [])
  | idx :: rest =>
    let (all, idx) := obsFoldLine all idx
    let (all, rest) := obsFoldAll all rest
    (all, idx :: rest)

namespace Client

/-! ### Response heads -/

/-- `Some` of the length and whether to upgrade, or `None` for a head to skip. -/
def decoder (inc : ResponseHead) (method : Option Method) : Except Parse (Option (DecodedLength × Bool)) :=
  let code := inc.subject
  if code = 101 then .ok (some (.ZERO, true))
  else if 100 ≤ code ∧ code ≤ 199 then .ok none
  else if code = 204 ∨ code = 304 then .ok (some (.ZERO, false))
  else if method = some .head then .ok (some (.ZERO, false))
  else if method = some .connect ∧ 200 ≤ code ∧ code ≤ 299 then .ok (some (.ZERO, true))
  else if inc.headers.contains .transferEncoding then
    if inc.version = .http10 then .error .transferEncodingUnexpected
    else if transferEncodingIsChunked inc.headers then .ok (some (.chunked, false))
    else .ok (some (.closeDelimited, false))
  else
    match contentLengthParseAll inc.headers with
    | some len => if len ≤ DecodedLength.MAX_LEN then .ok (some (.length len, false)) else .error .tooLarge
    | none =>
      if inc.headers.contains .contentLength then .error .contentLengthInvalid
      else .ok (some (.closeDelimited, false))

def slice (all : Bytes) (range : Nat × Nat) : Bytes := (all.take range.2).drop range.1

/-- One header of the parsed list: its effect on keep-alive and the map. -/
def addHeader (all : Bytes) (acc : Bool × HeaderMap) (idx : HeaderIndices) : Except Parse (Bool × HeaderMap) :=
  match HeaderName.fromBytes (slice all idx.name), HeaderValue.fromBytes (slice all idx.value) with
  | some name, some value =>
    let keepAlive :=
      if name = .connection then
        -- The flag starts at the default of the version.
        if acc.1 then !connectionClose value else connectionKeepAlive value
      else acc.1
    .ok (keepAlive, acc.2.append name value)
  -- The parser reports only valid names and values.
  | _, _ => .error .internal

variable [Httparse]

/-- The head that the parser found at the front of the buffer: its length, status, reason, version and headers. -/
def parseRaw (ctx : ParseContext) (buf : Bytes) : Except Parse (Option (Nat × Nat × Option Bytes × Version × List HeaderIndices)) :=
  match Httparse.parseResponse ctx.h1ParserConfig buf (ctx.h1MaxHeaders.getD DEFAULT_MAX_HEADERS) with
  | .ok (some raw) =>
    if 100 ≤ raw.code ∧ raw.code ≤ 999 then
      if raw.headers.any fun idx => idx.name.2 - idx.name.1 ≥ 2 ^ 16 then .error .tooLarge
      else
        let reason := if some raw.reason ≠ Httparse.canonicalReason raw.code then some raw.reason else none
        let version := if raw.version = 1 then .http11 else .http10
        .ok (some (raw.len, raw.code, reason, version, raw.headers))
    else .error .status
  | .ok none => .ok none
  | .error .version =>
    if ctx.h09Responses then .ok (some (0, 200, none, .http09, [])) else .error .version
  | .error e => .error (.ofHttparse e)

/-- A round of the loop of `parse`: a result, or a head that was skipped. -/
def parseRound (ctx : ParseContext) (s : ParseState) : Except Parse (Option ParsedMessage) × ParseState ⊕ ParseState :=
  match parseRaw ctx s.buf with
  | .error e => .inl (.error e, s)
  | .ok none => .inl (.ok none, s)
  | .ok (some (len, status, reason, version, indices)) =>
    let slice := s.buf.take len
    let s := { s with buf := s.buf.drop len }
    let (slice, indices) :=
      if ctx.h1ParserConfig.allowObsoleteMultilineHeadersInResponses then obsFoldAll slice indices
      else (slice, indices)
    let headers := s.cachedHeaders.getD .empty
    let s := { s with cachedHeaders := none }
    match indices.foldlM (addHeader slice) (decide (version = .http11), headers) with
    | .error e => .inl (.error e, s)
    | .ok (keepAlive, headers) =>
      let head : ResponseHead := { version, subject := status, headers, extensions := { reasonPhrase := reason } }
      match decoder head ctx.reqMethod with
      | .error e => .inl (.error e, s)
      | .ok (some (decode, isUpgrade)) =>
        .inl (.ok (some
          { head, decode, expectContinue := false, keepAlive := keepAlive && !isUpgrade, wantsUpgrade := isUpgrade }), s)
      | .ok none =>
        let informed := if ctx.onInformational then s.informed ++ [head] else s.informed
        let s := { s with informed }
        if s.buf = [] then .inl (.ok none, s) else .inr s

/-- The loop that skips informational heads. Every round consumes a head, so the length of the buffer is fuel enough. -/
def parseLoop (ctx : ParseContext) : Nat → ParseState → Except Parse (Option ParsedMessage) × ParseState
  | 0, s => (.ok none, s)
  | fuel + 1, s =>
    match parseRound ctx s with
    | .inl res => res
    | .inr s => parseLoop ctx fuel s

def parse (ctx : ParseContext) (buf : Bytes) : Except Parse (Option ParsedMessage) × ParseState :=
  parseLoop ctx (buf.length + 1) { buf, cachedHeaders := ctx.cachedHeaders }

end Client

def parseHeaders [Httparse] (bytes : Bytes) (prevLen : Option Nat) (ctx : ParseContext) :
    Except Parse (Option ParsedMessage) × ParseState :=
  if bytes = [] then (.ok none, { buf := bytes, cachedHeaders := ctx.cachedHeaders })
  else
    match prevLen with
    | some prevLen =>
      if !isCompleteFast bytes prevLen then (.ok none, { buf := bytes, cachedHeaders := ctx.cachedHeaders })
      else Client.parse ctx bytes
    | none => Client.parse ctx bytes

/-! ### Request heads -/

def setContentLength (headers : HeaderMap) (len : Nat) : HeaderMap × Encoder :=
  (headers.insert .contentLength (.ofNat len), .length len)

namespace Client

/-- The names in the `Trailer` fields, where they are names. -/
def allowedTrailerFields (headers : HeaderMap) : List HeaderName :=
  (headers.getAll .trailer).filterMap HeaderValue.toStr |>.flatMap splitComma
    |>.filterMap fun s => HeaderName.fromBytes (trim s)

def withTrailerFields (headers : HeaderMap) (enc : Encoder) : Encoder :=
  if enc.isChunked then
    let allowed := allowedTrailerFields headers
    if allowed ≠ [] then enc.intoChunkedWithTrailingFields allowed else enc
  else enc

/-- The encoder that the entry of `Transfer-Encoding` decides on, for HTTP/1.1. -/
def encoderByEntry (headers : HeaderMap) (method : Method) (body : BodyLength) (existingConLen : Option Nat) :
    HeaderMap × Option Encoder :=
  if headers.contains .transferEncoding then
    if isChunked (headers.getAll .transferEncoding) then (headers, some .chunked)
    -- There is a `Transfer-Encoding`, but it does not end in `chunked`. Repair this by adding it.
    else (addChunked headers .transferEncoding, some .chunked)
  else
    match existingConLen with
    | some len => (headers, some (.length len))
    | none =>
      match body with
      | .unknown =>
        -- GET, HEAD and CONNECT almost never have bodies, so assume none here.
        if method = .get ∨ method = .head ∨ method = .connect then (headers, some (.length 0))
        else (headers.insert .transferEncoding (.fromStatic "chunked" chunked_valid), some .chunked)
      | .known _ => (headers, none)

def setLength (head : RequestHead) (body : Option BodyLength) : HeaderMap × Encoder :=
  match body with
  | none => (head.headers.remove .transferEncoding, .length 0)
  | some body =>
    let canChunked := head.version = .http11
    let headers := head.headers
    let existingConLen := contentLengthParseAll headers
    if ¬ canChunked then
      -- Chunked isn't legal, so if it is set, we need to remove it.
      let headers := headers.remove .transferEncoding
      match existingConLen with
      | some len => (headers, .length len)
      | none =>
        match body with
        | .known len => setContentLength headers len
        | .unknown => (headers, .length 0)
    else
      let shouldRemoveConLen := headers.contains .transferEncoding
      match encoderByEntry headers head.subject.method body existingConLen with
      | (headers, some encoder) =>
        let encoder := withTrailerFields headers encoder
        (if shouldRemoveConLen && existingConLen.isSome then headers.remove .contentLength else headers, encoder)
      | (headers, none) =>
        match body with
        | .known len => setContentLength headers len
        -- `unreachable!("BodyLength::Unknown would set chunked")`
        | .unknown => (headers, .length 0)

/-- The version on the request line; the other versions panic. -/
def versionText : Version → Option Bytes
  | .http10 => some (ascii "HTTP/1.0")
  | .http11 => some (ascii "HTTP/1.1")
  | .http2 => some (ascii "HTTP/1.1")
  | _ => none

def preservedLine (field : Bytes × HeaderValue) : Bytes :=
  field.1 ++ (if field.2.bytes = [] then ascii ":\r\n" else ascii ": " ++ field.2.bytes ++ crlf)

def fieldLines (extensions : Extensions) (headers : HeaderMap) : Bytes :=
  match extensions.onPreserveHeader with
  | some visit => (visit headers).flatMap preservedLine
  | none => writeHeaders headers

/-- The bytes of the head and the encoder of the body. There is no result where the code panics. -/
def encode (head : RequestHead) (body : Option BodyLength) : Option (Bytes × Encoder) :=
  let (headers, encoder) := setLength head body
  (versionText head.version).map fun version =>
    (head.subject.method.asStr ++ ascii " " ++ head.subject.uri ++ ascii " " ++ version ++ crlf ++
      fieldLines head.extensions headers ++ crlf, encoder)

end Client

end Hwire.Http1
