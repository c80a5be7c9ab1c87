import Hwire.Lib.Buf
import Hwire.Lib.Radix
import Hwire.Lib.MultiMap

/-!
# Messages

Methods, versions, header fields and message heads: the types of the `http` crate as far as the protocol
code uses them. Header names are kept in lower case and header values hold no control bytes, as that crate
guarantees.
-/

namespace Hwire
open Lib

def ascii (s : String) : Bytes := s.toList.map Char.toUInt8

def CR : UInt8 := 13
def LF : UInt8 := 10
def SP : UInt8 := 32
def HTAB : UInt8 := 9
def COMMA : UInt8 := 44

def crlf : Bytes := [CR, LF]

def isUpper (b : UInt8) : Bool := 65 ≤ b && b ≤ 90
def isLower (b : UInt8) : Bool := 97 ≤ b && b ≤ 122
def isDigit (b : UInt8) : Bool := 48 ≤ b && b ≤ 57

def toLower (b : UInt8) : UInt8 := if isUpper b then b + 32 else b

def eqIgnoreAsciiCase (a b : Bytes) : Bool := a.map toLower == b.map toLower

/-- The bytes that may stand in a header name once it is in lower case. -/
def isNameByte (b : UInt8) : Bool := isLower b || isDigit b || (ascii "!#$%&'*+-.^_`|~").contains b

/-- A header name is a token of at most 65535 bytes, in lower case. -/
structure HeaderName where
  bytes : Bytes
  valid : bytes ≠ [] ∧ bytes.length ≤ 65535 ∧ bytes.all isNameByte = true

instance : DecidableEq HeaderName := fun a b =>
  decidable_of_iff (a.bytes = b.bytes) (by cases a; cases b; simp)

def HeaderName.fromBytes (bs : Bytes) : Option HeaderName :=
  if h : bs.map toLower ≠ [] ∧ (bs.map toLower).length ≤ 65535 ∧ (bs.map toLower).all isNameByte = true then
    some ⟨bs.map toLower, h⟩
  else none

/-- A fact about bytes is checked byte by byte. -/
theorem byte_forall {P : UInt8 → Prop} (all : ∀ i : Fin 256, P (UInt8.ofNat i)) (b : UInt8) : P b := by
  have here := all ⟨b.toNat, b.toNat_lt⟩
  rwa [UInt8.ofNat_toNat] at here

theorem toLower_of_isNameByte {b : UInt8} : isNameByte b = true → toLower b = b :=
  byte_forall (P := fun b => isNameByte b = true → toLower b = b) (by decide +kernel) b

theorem HeaderName.toLower_bytes (name : HeaderName) : name.bytes.map toLower = name.bytes := by
  conv_rhs => rw [← List.map_id name.bytes]
  exact List.map_congr_left fun b member => toLower_of_isNameByte (List.all_eq_true.mp name.valid.2.2 b member)

theorem eqIgnoreAsciiCase_name {bs : Bytes} {name : HeaderName} :
    eqIgnoreAsciiCase bs name.bytes = true ↔ bs.map toLower = name.bytes := by
  rw [eqIgnoreAsciiCase, name.toLower_bytes, beq_iff_eq]

theorem eqIgnoreAsciiCase_names (a b : HeaderName) : eqIgnoreAsciiCase a.bytes b.bytes = true ↔ a = b := by
  rw [eqIgnoreAsciiCase_name, a.toLower_bytes]
  constructor
  · intro h
    cases a
    cases b
    simpa using h
  · rintro rfl
    rfl

/-- The names that are read from a text are those it spells without regard to case. -/
theorem HeaderName.fromBytes_eq_some {bs : Bytes} {name : HeaderName} :
    HeaderName.fromBytes bs = some name ↔ eqIgnoreAsciiCase bs name.bytes = true := by
  rw [eqIgnoreAsciiCase_name]
  unfold HeaderName.fromBytes
  constructor
  · intro found
    split at found
    · obtain rfl := Option.some.inj found
      rfl
    · cases found
  · intro spelled
    simp only [spelled]
    exact dif_pos name.valid

def isValueByte (b : UInt8) : Bool := (32 ≤ b && b != 127) || b == HTAB

structure HeaderValue where
  bytes : Bytes
  valid : bytes.all isValueByte = true

instance : DecidableEq HeaderValue := fun a b =>
  decidable_of_iff (a.bytes = b.bytes) (by cases a; cases b; simp)

def HeaderValue.fromBytes (bs : Bytes) : Option HeaderValue :=
  if h : bs.all isValueByte = true then some ⟨bs, h⟩ else none

def isVisibleAscii (b : UInt8) : Bool := (32 ≤ b && b < 127) || b == HTAB

/-- `HeaderValue::to_str`: only visible ASCII is a string. -/
def HeaderValue.toStr (v : HeaderValue) : Option Bytes := if v.bytes.all isVisibleAscii then some v.bytes else none

def decimalDigit (d : Nat) : UInt8 := 48 + d.toUInt8

/-- `u64` printed in decimal -/
def decimal (n : Nat) : Bytes := (bigDigits 10 n).map decimalDigit

theorem decimalDigit_isDigit {d : Nat} (h : d < 10) : isDigit (decimalDigit d) = true := by
  interval_cases d <;> decide

theorem isValueByte_of_isDigit {b : UInt8} (h : isDigit b = true) : isValueByte b = true := by
  grind [isDigit, isValueByte]

theorem decimal_isDigit {n : Nat} {b : UInt8} (h : b ∈ decimal n) : isDigit b = true := by
  obtain ⟨d, hd, rfl⟩ := List.mem_map.mp h
  exact decimalDigit_isDigit (bigDigits_lt (by decide) hd)

def HeaderValue.ofNat (n : Nat) : HeaderValue where
  bytes := decimal n
  valid := List.all_eq_true.mpr fun _ hb => isValueByte_of_isDigit (decimal_isDigit hb)

def headerName (s : String)
    (valid : ascii s ≠ [] ∧ (ascii s).length ≤ 65535 ∧ (ascii s).all isNameByte = true := by decide) :
    HeaderName := ⟨ascii s, valid⟩

namespace HeaderName
def authorization := headerName "authorization"
def cacheControl := headerName "cache-control"
def connection := headerName "connection"
def contentEncoding := headerName "content-encoding"
def contentLength := headerName "content-length"
def contentRange := headerName "content-range"
def contentType := headerName "content-type"
def host := headerName "host"
def maxForwards := headerName "max-forwards"
def setCookie := headerName "set-cookie"
def te := headerName "te"
def trailer := headerName "trailer"
def transferEncoding := headerName "transfer-encoding"
end HeaderName

def HeaderValue.fromStatic (s : String) (valid : (ascii s).all isValueByte = true := by decide) : HeaderValue :=
  ⟨ascii s, valid⟩

abbrev HeaderMap := MultiMap HeaderName HeaderValue

inductive Method where
  | options | get | post | put | delete | head | trace | connect | patch
  | extension (token : Bytes)
  deriving DecidableEq

def Method.asStr : Method → Bytes
  | .options => ascii "OPTIONS"
  | .get => ascii "GET"
  | .post => ascii "POST"
  | .put => ascii "PUT"
  | .delete => ascii "DELETE"
  | .head => ascii "HEAD"
  | .trace => ascii "TRACE"
  | .connect => ascii "CONNECT"
  | .patch => ascii "PATCH"
  | .extension token => token

inductive Version where
  | http09 | http10 | http11 | http2 | http3
  deriving DecidableEq, Repr

structure RequestLine where
  method : Method
  uri : Bytes
  deriving DecidableEq

/-- The extensions of a message that the connection looks at. An `OnPreserveHeader` callback is the sequence
of fields that it emits for a header map. -/
structure Extensions where
  onPreserveHeader : Option (HeaderMap → List (Bytes × HeaderValue)) := none
  onInformational : Bool := false
  reasonPhrase : Option Bytes := none
  onUpgrade : Bool := false

structure MessageHead (S : Type) where
  version : Version
  subject : S
  headers : HeaderMap
  extensions : Extensions := {}

abbrev RequestHead := MessageHead RequestLine

/-- A response head carries the status code as a number. -/
abbrev ResponseHead := MessageHead Nat

inductive BodyLength where
  | known (len : Nat)
  | unknown
  deriving DecidableEq, Repr

end Hwire
