import Hwire.Http1.WriteBuf

/-!
# Encoding bodies

The encoders of the client: `Transfer-Encoding: chunked`, with or without trailer fields, and
`Content-Length`.
-/

namespace Hwire.Http1
open Lib LawfulBuf

/-! ### Chunk sizes -/

def hexDigit (d : Nat) : UInt8 := if d < 10 then 48 + d.toUInt8 else 55 + d.toUInt8

/-- `{:X}` -/
def hexUpper (n : Nat) : Bytes := (bigDigits 16 n).map hexDigit

/-- The part of the fixed array that `write!` has filled, and the read position in it. -/
structure ChunkSize where
  bytes : Bytes
  pos : Nat
  deriving DecidableEq, Repr

namespace ChunkSize

def new (len : Nat) : ChunkSize := ⟨hexUpper len ++ crlf, 0⟩

def remaining (c : ChunkSize) : Nat := c.bytes.length - c.pos

def chunk (c : ChunkSize) : Bytes := c.bytes.drop c.pos

def advance (c : ChunkSize) (cnt : Nat) : ChunkSize := { c with pos := c.pos + cnt }

instance : Buf ChunkSize := ⟨remaining, chunk, advance, fun c n => Buf.oneSlice c.remaining c.chunk n⟩

theorem remaining_eq_length_chunk (c : ChunkSize) : c.remaining = c.chunk.length := by simp [remaining, chunk]

instance : LawfulBuf ChunkSize where
  bytes := chunk
  remaining_eq := remaining_eq_length_chunk
  chunk_isPrefix c := List.prefix_refl _
  chunk_ne_nil c h := List.ne_nil_of_length_pos (remaining_eq_length_chunk c ▸ h)
  bytes_advance c n _ := by simp [Buf.advance, advance, chunk, Nat.add_comm]
  vectored_isPrefix c n := by
    show (Buf.oneSlice c.remaining c.chunk n).flatten <+: _
    rw [remaining_eq_length_chunk]; exact oneSlice_flatten_isPrefix _ n
  vectored_length_le c n := oneSlice_length_le _ _ n
  vectored_all c n h := by
    change (Buf.oneSlice c.remaining c.chunk n).length < n at h
    show (Buf.oneSlice c.remaining c.chunk n).flatten = _
    rw [remaining_eq_length_chunk] at h ⊢; exact oneSlice_flatten_all _ n h

end ChunkSize

def CHUNK_SIZE_MAX_BYTES : Nat := 8 * 2

/-- The size line of any `usize` fits in the fixed array. -/
theorem chunkSize_fits {len : Nat} (h : len < 2 ^ 64) : (ChunkSize.new len).bytes.length ≤ CHUNK_SIZE_MAX_BYTES + 2 := by
  have digits : (bigDigits 16 len).length ≤ 16 := bigDigits_length_le (by decide) (by decide) (by simpa using h)
  simp [ChunkSize.new, hexUpper, crlf, CHUNK_SIZE_MAX_BYTES]; omega

/-! ### Encoded buffers -/

/-- What the encoders put into the write buffer. -/
inductive EncodedBuf (B : Type) where
  | exact (b : B)
  | limited (b : Take B)
  | chunked (b : Chain (Chain ChunkSize B) Bytes)
  | chunkedEnd (b : Bytes)
  | trailers (b : Chain (Chain Bytes Bytes) Bytes)

namespace EncodedBuf

variable {B : Type} [Buf B]

def remaining : EncodedBuf B → Nat
  | exact b => Buf.remaining b
  | limited b => Buf.remaining b
  | chunked b => Buf.remaining b
  | chunkedEnd b => Buf.remaining b
  | trailers b => Buf.remaining b

def chunk : EncodedBuf B → Bytes
  | exact b => Buf.chunk b
  | limited b => Buf.chunk b
  | chunked b => Buf.chunk b
  | chunkedEnd b => Buf.chunk b
  | trailers b => Buf.chunk b

def advance : EncodedBuf B → Nat → EncodedBuf B
  | exact b, cnt => exact (Buf.advance b cnt)
  | limited b, cnt => limited (Buf.advance b cnt)
  | chunked b, cnt => chunked (Buf.advance b cnt)
  | chunkedEnd b, cnt => chunkedEnd (Buf.advance b cnt)
  | trailers b, cnt => trailers (Buf.advance b cnt)

def chunksVectored : EncodedBuf B → Nat → List Bytes
  | exact b, n => Buf.chunksVectored b n
  | limited b, n => Buf.chunksVectored b n
  | chunked b, n => Buf.chunksVectored b n
  | chunkedEnd b, n => Buf.chunksVectored b n
  | trailers b, n => Buf.chunksVectored b n

instance : Buf (EncodedBuf B) := ⟨remaining, chunk, advance, chunksVectored⟩

def contents : EncodedBuf Bytes → Bytes
  | exact b => bytes b
  | limited b => bytes b
  | chunked b => bytes b
  | chunkedEnd b => bytes b
  | trailers b => bytes b

instance : LawfulBuf (EncodedBuf Bytes) where
  bytes := contents
  remaining_eq b := by cases b <;> rename_i b <;> exact remaining_eq b
  chunk_isPrefix b := by cases b <;> rename_i b <;> exact chunk_isPrefix b
  chunk_ne_nil b h := by cases b <;> rename_i b <;> exact chunk_ne_nil b h
  bytes_advance b n h := by cases b <;> rename_i b <;> exact bytes_advance b n h
  vectored_isPrefix b n := by cases b <;> rename_i b <;> exact vectored_isPrefix b n
  vectored_length_le b n := by cases b <;> rename_i b <;> exact vectored_length_le b n
  vectored_all b n h := by cases b <;> rename_i b <;> exact vectored_all b n h

end EncodedBuf

/-! ### Encoders -/

def fieldLine (name : Bytes) (value : HeaderValue) : Bytes := name ++ ascii ": " ++ value.bytes ++ crlf

/-- `write_headers`: every field of the map, one line each. -/
def writeHeaders (headers : HeaderMap) : Bytes := headers.iter.flatMap fun f => fieldLine f.1.bytes f.2

namespace Encoder

inductive Kind where
  | chunked (trailers : Option (List HeaderName))
  | length (remaining : Nat)
  deriving DecidableEq

end Encoder

structure Encoder where
  kind : Encoder.Kind
  isLast : Bool := false
  deriving DecidableEq

structure NotEof where
  remaining : Nat
  deriving DecidableEq, Repr

def isValidTrailerField (name : HeaderName) : Bool :=
  !([.authorization, .cacheControl, .contentEncoding, .contentLength, .contentRange, .contentType, .host,
    .maxForwards, .setCookie, .trailer, .transferEncoding, .te].contains name)

namespace Encoder

variable {B : Type} [Buf B]

def chunked : Encoder := { kind := .chunked none }

def length (len : Nat) : Encoder := { kind := .length len }

def intoChunkedWithTrailingFields (e : Encoder) (trailers : List HeaderName) : Encoder :=
  match e.kind with
  | .chunked _ => { kind := .chunked (some trailers), isLast := e.isLast }
  | _ => e

def isEof (e : Encoder) : Bool :=
  match e.kind with
  | .length 0 => true
  | _ => false

def isCloseDelimited (_ : Encoder) : Bool := false

def isChunked (e : Encoder) : Bool :=
  match e.kind with
  | .chunked _ => true
  | .length _ => false

omit [Buf B] in
def «end» (e : Encoder) : Except NotEof (Option (EncodedBuf B)) :=
  match e.kind with
  | .length 0 => .ok none
  | .chunked _ => .ok (some (.chunkedEnd (ascii "0\r\n\r\n")))
  | .length n => .error ⟨n⟩

def encode (e : Encoder) (msg : B) : EncodedBuf B × Encoder :=
  let len := Buf.remaining msg
  match e.kind with
  | .chunked _ => (.chunked ⟨⟨ChunkSize.new len, msg⟩, crlf⟩, e)
  | .length remaining =>
    if len > remaining then (.limited ⟨msg, remaining⟩, { e with kind := .length 0 })
    else (.exact msg, { e with kind := .length (remaining - len) })

/-- The trailers that were declared and may be sent. -/
def allowedTrailers (allowed : List HeaderName) (trailers : HeaderMap) : HeaderMap :=
  trailers.iter.foldl
    (fun out field =>
      if allowed.contains field.1 then
        if isValidTrailerField field.1 then out.insert field.1 field.2 else out
      else out)
    .empty

omit [Buf B] in
def encodeTrailers (e : Encoder) (trailers : HeaderMap) : Option (EncodedBuf B) :=
  match e.kind with
  | .chunked (some allowed) =>
    let buf := writeHeaders (allowedTrailers allowed trailers)
    if buf = [] then none else some (.trailers ⟨⟨ascii "0\r\n", buf⟩, crlf⟩)
  | .chunked none => none
  | .length _ => none

/-- Encode the last chunk and end the body. The flag says whether the connection can be kept alive. -/
def encodeAndEnd (e : Encoder) (msg : B) (dst : WriteBuf (EncodedBuf B)) : Bool × WriteBuf (EncodedBuf B) :=
  let len := Buf.remaining msg
  match e.kind with
  | .chunked _ =>
    (!e.isLast, dst.buffer (.chunked ⟨⟨ChunkSize.new len, msg⟩, ascii "\r\n0\r\n\r\n"⟩))
  | .length remaining =>
    if len = remaining then (!e.isLast, dst.buffer (.exact msg))
    else if len > remaining then (!e.isLast, dst.buffer (.limited ⟨msg, remaining⟩))
    else (false, dst.buffer (.exact msg))

end Encoder

/-! ### The bytes of each piece -/

def chunkBytes (msg : Bytes) : Bytes := hexUpper msg.length ++ crlf ++ msg ++ crlf

def lastChunk : Bytes := ascii "0\r\n\r\n"

namespace Encoder

theorem bytes_encode_chunked {e : Encoder} {t : Option (List HeaderName)} (h : e.kind = .chunked t) (msg : Bytes) :
    bytes (e.encode msg).1 = chunkBytes msg ∧ (e.encode msg).2 = e := by
  simp only [encode, h]
  exact ⟨by simp [bytes, EncodedBuf.contents, ChunkSize.chunk, ChunkSize.new, chunkBytes], trivial⟩

theorem bytes_encode_length {e : Encoder} {n : Nat} (h : e.kind = .length n) (msg : Bytes) :
    bytes (e.encode msg).1 = msg.take n ∧ (e.encode msg).2 = { e with kind := .length (n - msg.length) } := by
  simp only [encode, h, remaining_list]
  split
  · next hl =>
    refine ⟨rfl, ?_⟩
    rw [show n - msg.length = 0 by omega]
  · next hl =>
    refine ⟨?_, rfl⟩
    show msg = _
    rw [List.take_of_length_le (by omega)]

end Encoder

end Hwire.Http1
