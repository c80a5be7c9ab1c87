import Hwire.Message

/-!
# Polling and reading

The results of polled operations, I/O errors, and the reader interface of the body decoders. `Httparse` is
the parser crate, which the development takes as a parameter.
-/

namespace Hwire
open Lib

inductive Poll (α : Type) where
  | ready (a : α)
  | pending
  deriving DecidableEq, Repr

def Poll.isReady {α : Type} : Poll α → Bool
  | .ready _ => true
  | .pending => false

inductive IoErrorKind where
  | unexpectedEof | invalidInput | invalidData | writeZero | brokenPipe | other
  deriving DecidableEq, Repr

structure IoError where
  kind : IoErrorKind
  text : String
  deriving DecidableEq, Repr

inductive Frame where
  | data (bytes : Bytes)
  | trailers (trailers : HeaderMap)
  deriving DecidableEq

/-- `MemRead`: up to `len` bytes, `[]` at the end of the stream. `budget` bounds how many bytes a reader can
still return before it blocks or ends; the decoders use it to bound their loops. -/
class MemRead (R : Type) where
  readMem : R → Nat → Poll (Except IoError Bytes) × R
  budget : R → Nat

/-- `Fed r bytes stalls`: the reader delivers `bytes` and then the end of the stream, in pieces of its own choice
and with at most `stalls` times `Pending` in between. -/
class LawfulRead (R : Type) [MemRead R] where
  Fed : R → Bytes → Nat → Prop
  readMem_fed : ∀ {r : R} {bytes : Bytes} {stalls len : Nat}, Fed r bytes stalls → 0 < len →
    (∃ r' stalls', MemRead.readMem r len = (.pending, r') ∧ stalls' < stalls ∧ Fed r' bytes stalls') ∨
    (∃ r', MemRead.readMem r len = (.ready (.ok []), r') ∧ bytes = []) ∨
    (∃ slice rest r', MemRead.readMem r len = (.ready (.ok slice), r') ∧ slice ≠ [] ∧ slice.length ≤ len ∧
      bytes = slice ++ rest ∧ Fed r' rest stalls)
  budget_fed : ∀ {r : R} {bytes : Bytes} {stalls : Nat}, Fed r bytes stalls → bytes.length ≤ MemRead.budget r

structure ParserConfig where
  ignoreInvalidHeadersInResponses : Bool := false
  allowSpacesAfterHeaderNameInResponses : Bool := false
  allowObsoleteMultilineHeadersInResponses : Bool := false
  deriving DecidableEq, Repr

inductive HttparseError where
  | headerName | headerValue | newLine | status | token | tooManyHeaders | version
  deriving DecidableEq, Repr

/-- The ranges of a header's name and value in the parsed bytes. -/
structure HeaderIndices where
  name : Nat × Nat
  value : Nat × Nat
  deriving DecidableEq, Repr

structure RawResponse where
  len : Nat
  version : Nat
  code : Nat
  reason : Bytes
  headers : List HeaderIndices
  deriving DecidableEq, Repr

/-- `none` is `Status::Partial`. The number is the length of the header array. The table of reason phrases is that of
the `http` crate. -/
class Httparse where
  parseResponse : ParserConfig → Bytes → Nat → Except HttparseError (Option RawResponse)
  parseHeaders : Bytes → Nat → Except HttparseError (Option (List (Bytes × Bytes)))
  canonicalReason : Nat → Option Bytes

end Hwire
