import Hwire.Io

/-!
# Decoding bodies

The three body decoders. The chunked decoder is a machine that reads one byte at a time outside of the chunk
data and can be resumed after any byte.
-/

namespace Hwire.Http1
open Lib

def CHUNKED_EXTENSIONS_LIMIT : Nat := 1024 * 16
def TRAILER_LIMIT : Nat := 1024 * 16
def DEFAULT_MAX_HEADERS : Nat := 100

/-! ### Lengths -/

/-- The length of a response body, with the sentinels of the source as constructors. -/
inductive DecodedLength where
  | closeDelimited
  | chunked
  | length (n : Nat)
  deriving DecidableEq, Repr

namespace DecodedLength

def MAX_LEN : Nat := 2 ^ 64 - 3

def ZERO : DecodedLength := .length 0

end DecodedLength

inductive ChunkedState where
  | start | size | sizeLws | extension | sizeLf | body | bodyCr | bodyLf | trailer | trailerLf | endCr | endLf
  | «end»
  deriving DecidableEq, Repr

/-- The fields of `Kind::Chunked`. -/
structure Chunked where
  state : ChunkedState := .start
  chunkLen : Nat := 0
  extensionsCnt : Nat := 0
  trailersBuf : Option Bytes := none
  trailersCnt : Nat := 0
  h1MaxHeaders : Option Nat
  h1MaxHeaderSize : Option Nat
  deriving DecidableEq, Repr

inductive Decoder where
  | length (remaining : Nat)
  | chunked (c : Chunked)
  | eof (isEof : Bool)
  deriving DecidableEq, Repr

/-! ### One byte of the chunked coding

Each `read_*` method reads a byte with `byte!` and then decides; these are the decisions. A failing decision
leaves the decoder unusable, so its partial updates are dropped. -/

namespace Chunked

def maxHeaders (c : Chunked) : Nat := c.h1MaxHeaders.getD DEFAULT_MAX_HEADERS

def maxHeaderSize (c : Chunked) : Nat := c.h1MaxHeaderSize.getD TRAILER_LIMIT

def overflow : IoError := ⟨.invalidData, "invalid chunk size: overflow"⟩

def hexValue (b : UInt8) : Option Nat :=
  if isDigit b then some (b - 48).toNat
  else if 97 ≤ b && b ≤ 102 then some (b + 10 - 97).toNat
  else if 65 ≤ b && b ≤ 70 then some (b + 10 - 65).toNat
  else none

def pushSize (c : Chunked) (d : Nat) : Except IoError Chunked :=
  match pushDigit 16 (2 ^ 64) c.chunkLen d with
  | some size => .ok { c with state := .size, chunkLen := size }
  | none => .error overflow

def readStart (c : Chunked) (b : UInt8) : Except IoError Chunked :=
  match hexValue b with
  | some d => c.pushSize d
  | none => .error ⟨.invalidInput, "Invalid chunk size line: missing size digit"⟩

def readSize (c : Chunked) (b : UInt8) : Except IoError Chunked :=
  match hexValue b with
  | some d => c.pushSize d
  | none =>
    if b = HTAB ∨ b = SP then .ok { c with state := .sizeLws }
    else if b = 59 then .ok { c with state := .extension }
    else if b = CR then .ok { c with state := .sizeLf }
    else .error ⟨.invalidInput, "Invalid chunk size line: Invalid Size"⟩

/-- LWS can follow the chunk size, but no more digits can come. -/
def readSizeLws (c : Chunked) (b : UInt8) : Except IoError Chunked :=
  if b = HTAB ∨ b = SP then .ok { c with state := .sizeLws }
  else if b = 59 then .ok { c with state := .extension }
  else if b = CR then .ok { c with state := .sizeLf }
  else .error ⟨.invalidInput, "Invalid chunk size linear white space"⟩

def readExtension (c : Chunked) (b : UInt8) : Except IoError Chunked :=
  if b = CR then .ok { c with state := .sizeLf }
  else if b = LF then .error ⟨.invalidData, "invalid chunk extension contains newline"⟩
  else if c.extensionsCnt + 1 ≥ CHUNKED_EXTENSIONS_LIMIT then
    .error ⟨.invalidData, "chunk extensions over limit"⟩
  else .ok { c with state := .extension, extensionsCnt := c.extensionsCnt + 1 }

def readSizeLf (c : Chunked) (b : UInt8) : Except IoError Chunked :=
  if b = LF then
    if c.chunkLen = 0 then .ok { c with state := .endCr } else .ok { c with state := .body }
  else .error ⟨.invalidInput, "Invalid chunk size LF"⟩

def readBodyCr (c : Chunked) (b : UInt8) : Except IoError Chunked :=
  if b = CR then .ok { c with state := .bodyLf } else .error ⟨.invalidInput, "Invalid chunk body CR"⟩

def readBodyLf (c : Chunked) (b : UInt8) : Except IoError Chunked :=
  if b = LF then .ok { c with state := .start } else .error ⟨.invalidInput, "Invalid chunk body LF"⟩

def trailersOverLimit : IoError := ⟨.invalidData, "chunk trailers bytes over limit"⟩

def trailersCountOverflow : IoError := ⟨.invalidData, "chunk trailers count overflow"⟩

/-- `put_u8!` into a trailer buffer that is there. -/
def putU8 (c : Chunked) (buf : Bytes) (b : UInt8) : Except IoError Chunked :=
  let buf := buf ++ [b]
  if buf.length ≥ c.maxHeaderSize then .error trailersOverLimit else .ok { c with trailersBuf := some buf }

/-- `trailers_buf.as_mut().expect("trailers_buf is None")`; the trailer states are only entered with a buffer. -/
def expectTrailers (c : Chunked) : Bytes := c.trailersBuf.getD []

def readTrailer (c : Chunked) (b : UInt8) : Except IoError Chunked :=
  (c.putU8 c.expectTrailers b).map fun c => { c with state := if b = CR then .trailerLf else .trailer }

def readTrailerLf (c : Chunked) (b : UInt8) : Except IoError Chunked :=
  if b = LF then
    if c.trailersCnt ≥ c.maxHeaders then .error trailersCountOverflow
    else
      let c := { c with trailersCnt := c.trailersCnt + 1 }
      (c.putU8 c.expectTrailers b).map fun c => { c with state := .endCr }
  else .error ⟨.invalidInput, "Invalid trailer end LF"⟩

def readEndCr (c : Chunked) (b : UInt8) : Except IoError Chunked :=
  if b = CR then
    match c.trailersBuf with
    | some buf => (c.putU8 buf b).map fun c => { c with state := .endLf }
    | none => .ok { c with state := .endLf }
  else
    match c.trailersBuf with
    -- The first byte of the trailers goes in without a look at the limit.
    | none => .ok { c with state := .trailer, trailersBuf := some [b] }
    | some buf => (c.putU8 buf b).map fun c => { c with state := .trailer }

def readEndLf (c : Chunked) (b : UInt8) : Except IoError Chunked :=
  if b = LF then
    match c.trailersBuf with
    | some buf => (c.putU8 buf b).map fun c => { c with state := .end }
    | none => .ok { c with state := .end }
  else .error ⟨.invalidInput, "Invalid chunk end LF"⟩

/-- The decision of the state on the byte it has read; `body` and `end` read no single bytes. -/
def onByte (c : Chunked) (b : UInt8) : Except IoError Chunked :=
  match c.state with
  | .start => c.readStart b
  | .size => c.readSize b
  | .sizeLws => c.readSizeLws b
  | .extension => c.readExtension b
  | .sizeLf => c.readSizeLf b
  | .bodyCr => c.readBodyCr b
  | .bodyLf => c.readBodyLf b
  | .trailer => c.readTrailer b
  | .trailerLf => c.readTrailerLf b
  | .endCr => c.readEndCr b
  | .endLf => c.readEndLf b
  | .body | .end => .ok c

def incompleteBody : IoError := ⟨.unexpectedEof, "end of file before message length reached"⟩

def eofInSizeLine : IoError := ⟨.unexpectedEof, "unexpected EOF during chunk size line"⟩

variable {R : Type} [MemRead R]

def readBody (c : Chunked) (slice : Bytes) : Except IoError (Chunked × Option Bytes) :=
  if slice = [] then .error incompleteBody
  else
    let rem := c.chunkLen - slice.length
    .ok ({ c with chunkLen := rem, state := if rem > 0 then .body else .bodyCr }, some slice)

def stepByte (c : Chunked) (r : R) : Poll (Except IoError (Chunked × Option Bytes)) × R :=
  match MemRead.readMem r 1 with
  | (.pending, r) => (.pending, r)
  | (.ready (.error e), r) => (.ready (.error e), r)
  | (.ready (.ok []), r) => (.ready (.error eofInSizeLine), r)
  | (.ready (.ok (b :: _)), r) => (.ready ((c.onByte b).map fun c => (c, none)), r)

def stepBody (c : Chunked) (r : R) : Poll (Except IoError (Chunked × Option Bytes)) × R :=
  match MemRead.readMem r c.chunkLen with
  | (.pending, r) => (.pending, r)
  | (.ready (.error e), r) => (.ready (.error e), r)
  | (.ready (.ok slice), r) => (.ready (c.readBody slice), r)

/-- `ChunkedState::step`. The buffer is set when chunk data was read. -/
def step (c : Chunked) (r : R) : Poll (Except IoError (Chunked × Option Bytes)) × R :=
  match c.state with
  | .end => (.ready (.ok (c, none)), r)
  | .body => c.stepBody r
  | _ => c.stepByte r

variable [Httparse]

def trailerFields (headers : List (Bytes × Bytes)) : Except IoError HeaderMap :=
  headers.foldlM
    (fun trailers header =>
      match HeaderName.fromBytes header.1 with
      | none => .error ⟨.invalidInput, "Invalid header name"⟩
      | some name =>
        match HeaderValue.fromBytes header.2 with
        | none => .error ⟨.invalidInput, "Invalid header value"⟩
        | some value => .ok (trailers.insert name value))
    .empty

def decodeTrailers (buf : Bytes) (count : Nat) : Except IoError HeaderMap :=
  match Httparse.parseHeaders buf count with
  | .ok (some headers) => trailerFields headers
  | .ok none => .error ⟨.invalidInput, "Partial header"⟩
  | .error _ => .error ⟨.invalidInput, "httparse"⟩

/-- What `decode` returns once the machine is in its end state. -/
def finish (c : Chunked) : Except IoError Frame × Chunked :=
  match c.trailersBuf with
  | some buf =>
    if c.trailersCnt ≥ c.maxHeaders then (.error trailersCountOverflow, c)
    else ((decodeTrailers buf c.trailersCnt).map .trailers, { c with trailersBuf := none })
  | none => (.ok (.data []), c)

/-- The loop of `decode`. Out of `fuel` it stops where it is. -/
def decode : Nat → Chunked → R → Poll (Except IoError Frame) × Chunked × R
  | 0, c, r => (.pending, c, r)
  | fuel + 1, c, r =>
    match c.step r with
    | (.pending, r) => (.pending, c, r)
    | (.ready (.error e), r) => (.ready (.error e), c, r)
    | (.ready (.ok (c, buf)), r) =>
      if c.state = .end then (.ready c.finish.1, c.finish.2, r)
      else
        match buf with
        | some buf => (.ready (.ok (.data buf)), c, r)
        | none => decode fuel c r

end Chunked

namespace Decoder

def new (len : DecodedLength) (h1MaxHeaders h1MaxHeaderSize : Option Nat) : Decoder :=
  match len with
  | .chunked => .chunked { h1MaxHeaders, h1MaxHeaderSize }
  | .closeDelimited => .eof false
  | .length n => .length n

def isEof : Decoder → Bool
  | .length 0 => true
  | .chunked c => c.state = .end
  | .eof true => true
  | _ => false

variable {R : Type} [MemRead R] [Httparse]

def decode (d : Decoder) (body : R) : Poll (Except IoError Frame) × Decoder × R :=
  match d with
  | .length remaining =>
    if remaining = 0 then (.ready (.ok (.data [])), d, body)
    else
      match MemRead.readMem body remaining with
      | (.pending, body) => (.pending, d, body)
      | (.ready (.error e), body) => (.ready (.error e), d, body)
      | (.ready (.ok buf), body) =>
        if buf.length > remaining then (.ready (.ok (.data buf)), .length 0, body)
        else if buf.length = 0 then (.ready (.error Chunked.incompleteBody), d, body)
        else (.ready (.ok (.data buf)), .length (remaining - buf.length), body)
  | .chunked c =>
    let (res, c, body) := c.decode (MemRead.budget body + 2) body
    (res, .chunked c, body)
  | .eof isEof =>
    if isEof then (.ready (.ok (.data [])), d, body)
    else
      match MemRead.readMem body 8192 with
      | (.pending, body) => (.pending, d, body)
      | (.ready (.error e), body) => (.ready (.error e), d, body)
      | (.ready (.ok slice), body) => (.ready (.ok (.data slice)), .eof (slice = []), body)

end Decoder

end Hwire.Http1
