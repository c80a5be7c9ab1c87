import Hwire.Http1.Declared
import Hwire.Lib.Cut

/-!
# Request heads on the wire

A recipient cuts a head at its first empty line, at the line ends and at the first colons, and finds what was encoded.
A head of version HTTP/2 goes out with the text of HTTP/1.1, but its length is set by the rules of HTTP/1.0.
-/

namespace Hwire.Http1
open Lib Headers

/-! ### The reader -/

def COLON : UInt8 := 58

def isTokenByte (b : UInt8) : Bool := isUpper b || isNameByte b

def IsToken (s : Bytes) : Prop := s ≠ [] ∧ s.all isTokenByte = true

instance (s : Bytes) : Decidable (IsToken s) := inferInstanceAs (Decidable (_ ∧ _))

/-- A head as its text says it. -/
structure HeadText where
  method : Bytes
  uri : Bytes
  version : Version
  fields : List (Bytes × Bytes)
  deriving DecidableEq

def readVersion (text : Bytes) : Option Version :=
  if text = ascii "HTTP/1.1" then some .http11 else if text = ascii "HTTP/1.0" then some .http10 else none

/-- A field without the white space in front of its value. -/
def readField (line : Bytes) : Option (Bytes × Bytes) :=
  (cut [COLON] line).map fun field => (field.1, field.2.dropWhile isOws)

def readRequestLine (line : Bytes) (fields : List (Bytes × Bytes)) : Option HeadText := do
  let (method, target) ← cut [SP] line
  let (uri, text) ← cut [SP] target
  let version ← readVersion text
  return { method, uri, version, fields }

/-- The head that a text starts with, and what follows its empty line. -/
def readHead (text : Bytes) : Option (HeadText × Bytes) :=
  match linesUntilEmpty crlf text.length text with
  | some (requestLine :: fieldLines, rest) => do
    let fields ← fieldLines.mapM readField
    let head ← readRequestLine requestLine fields
    return (head, rest)
  | _ => none

/-! ### Lines that are written -/

theorem not_mem_of_isToken {s : Bytes} (token : IsToken s) {b : UInt8} (other : isTokenByte b = false) : b ∉ s := by
  intro member
  have same := List.all_eq_true.mp token.2 b member
  rw [other] at same
  cases same

theorem isToken_name (name : HeaderName) : IsToken name.bytes := by
  refine ⟨name.valid.1, List.all_eq_true.mpr ?_⟩
  intro b member
  rw [isTokenByte, List.all_eq_true.mp name.valid.2.2 b member, Bool.or_true]

/-- The white space between the colon and the value of a field line. -/
def padding (preserved : Bool) (value : HeaderValue) : Bytes := if preserved ∧ value.bytes = [] then [] else [SP]

def emittedLine (preserved : Bool) (field : Bytes × HeaderValue) : Bytes :=
  field.1 ++ (COLON :: (padding preserved field.2 ++ field.2.bytes))

theorem preservedLine_eq (field : Bytes × HeaderValue) : Client.preservedLine field = emittedLine true field ++ crlf := by
  have colon : ascii ":\r\n" = COLON :: crlf := by decide
  have separator : ascii ": " = [COLON, SP] := by decide
  unfold Client.preservedLine emittedLine padding
  split
  · next empty => simp [empty, colon]
  · next full => simp [full, separator]

theorem writtenLine_eq (name : Bytes) (value : HeaderValue) :
    fieldLine name value = emittedLine false (name, value) ++ crlf := by
  have separator : ascii ": " = [COLON, SP] := by decide
  simp [fieldLine, emittedLine, padding, separator]

def preserves (head : RequestHead) : Bool := head.extensions.onPreserveHeader.isSome

theorem fieldLines_eq (head : RequestHead) (body : Option BodyLength) :
    Client.fieldLines head.extensions (Client.setLength head body).1 =
      ((emittedFields head body).map (emittedLine (preserves head))).flatMap (· ++ crlf) := by
  unfold Client.fieldLines emittedFields preserves
  cases head.extensions.onPreserveHeader with
  | some visit =>
    dsimp only
    rw [List.flatMap_map]
    exact List.flatMap_congr fun field _ => preservedLine_eq field
  | none =>
    dsimp only
    rw [List.map_map, List.flatMap_map, writeHeaders]
    exact List.flatMap_congr fun field _ => writtenLine_eq _ _

theorem readField_emittedLine {preserved : Bool} {field : Bytes × HeaderValue} (token : IsToken field.1) :
    readField (emittedLine preserved field) = some (field.1, field.2.bytes.dropWhile isOws) := by
  have fresh : COLON ∉ field.1 := not_mem_of_isToken token (by decide)
  have found : cut [COLON] (emittedLine preserved field) = some (field.1, padding preserved field.2 ++ field.2.bytes) :=
    cut_append fresh
  have trimmed : (padding preserved field.2 ++ field.2.bytes).dropWhile isOws = field.2.bytes.dropWhile isOws := by
    unfold padding
    split
    · rfl
    · rfl
  rw [readField, found, Option.map_some, trimmed]

theorem cr_not_mem_emittedLine {preserved : Bool} {field : Bytes × HeaderValue} (token : IsToken field.1) :
    emittedLine preserved field ≠ [] ∧ CR ∉ emittedLine preserved field := by
  have separator : CR ∉ COLON :: padding preserved field.2 := by
    unfold padding
    split
    · decide
    · decide
  refine ⟨by simp [emittedLine], ?_⟩
  unfold emittedLine
  rw [← List.cons_append, List.mem_append, List.mem_append]
  rintro (name | space | value)
  · exact not_mem_of_isToken token (by decide) name
  · exact separator space
  · exact cr_not_mem_value field.2 value

/-! ### Reading a head back -/

/-- What the types of the `http` crate guarantee, and names that the callback passes. -/
structure WellFormedHead (head : RequestHead) : Prop where
  method : IsToken head.subject.method.asStr
  uri : SP ∉ head.subject.uri ∧ CR ∉ head.subject.uri ∧ LF ∉ head.subject.uri
  names : ∀ visit, head.extensions.onPreserveHeader = some visit → ∀ headers, ∀ field ∈ visit headers, IsToken field.1

theorem WellFormedHead.emitted {head : RequestHead} (formed : WellFormedHead head) {body : Option BodyLength}
    {field : Bytes × HeaderValue} (member : field ∈ emittedFields head body) : IsToken field.1 := by
  unfold emittedFields at member
  cases visited : head.extensions.onPreserveHeader with
  | some visit =>
    rw [visited] at member
    exact formed.names visit visited _ field member
  | none =>
    rw [visited] at member
    obtain ⟨entry, -, rfl⟩ := List.mem_map.mp member
    exact isToken_name entry.1

/-- The head that was encoded, up to white space in front of its values. -/
def headText (head : RequestHead) (body : Option BodyLength) : HeadText where
  method := head.subject.method.asStr
  uri := head.subject.uri
  version := head.version
  fields := (emittedFields head body).map fun field => (field.1, field.2.bytes.dropWhile isOws)

def requestLine (head : RequestHead) (version : Bytes) : Bytes :=
  head.subject.method.asStr ++ (SP :: (head.subject.uri ++ (SP :: version)))

theorem readRequestLine_requestLine {head : RequestHead} (formed : WellFormedHead head) {version : Bytes}
    (known : readVersion version = some head.version) (body : Option BodyLength) :
    readRequestLine (requestLine head version) (headText head body).fields = some (headText head body) := by
  have method : cut [SP] (requestLine head version) = some (head.subject.method.asStr, head.subject.uri ++ (SP :: version)) :=
    cut_append (not_mem_of_isToken formed.method (by decide))
  have uri : cut [SP] (head.subject.uri ++ (SP :: version)) = some (head.subject.uri, version) := cut_append formed.uri.1
  simp only [readRequestLine, method, uri, known, Option.bind_eq_bind, Option.bind_some]
  rfl

theorem mapM_readField {preserved : Bool} {fields : List (Bytes × HeaderValue)}
    (tokens : ∀ field ∈ fields, IsToken field.1) :
    (fields.map (emittedLine preserved)).mapM readField =
      some (fields.map fun field => (field.1, field.2.bytes.dropWhile isOws)) := by
  induction fields with
  | nil => rfl
  | cons field fields ih =>
    obtain ⟨token, later⟩ := List.forall_mem_cons.mp tokens
    rw [List.map_cons, List.mapM_cons, readField_emittedLine token, ih later]
    rfl

/-- Every head of version HTTP/1.0 or HTTP/1.1 is read back as it was encoded, whatever follows it, and goes behind what
the buffer holds. -/
theorem encode_readHead {head : RequestHead} (version : head.version = .http10 ∨ head.version = .http11)
    (formed : WellFormedHead head) (body : Option BodyLength) :
    ∃ bytes encoder, Client.encode head body = some (bytes, encoder) ∧
      (∀ rest, readHead (bytes ++ rest) = some (headText head body, rest)) ∧
      ∀ dst : WriteBuf (EncodedBuf Bytes), (dst.extendHeaders bytes).headers.bytes = dst.headers.bytes ++ bytes := by
  obtain ⟨text, written, known, plain⟩ : ∃ text, Client.versionText head.version = some text ∧
      readVersion text = some head.version ∧ CR ∉ text := by
    rcases version with old | new
    · rw [old]
      exact ⟨_, rfl, by decide, by decide⟩
    · rw [new]
      exact ⟨_, rfl, by decide, by decide⟩
  let lines := requestLine head text :: (emittedFields head body).map (emittedLine (preserves head))
  have fresh : ∀ line ∈ lines, line ≠ [] ∧ CR ∉ line := by
    intro line member
    rcases List.mem_cons.mp member with rfl | member
    · have separator : CR ≠ SP := by decide
      refine ⟨by simp [requestLine], ?_⟩
      simp only [requestLine, List.mem_append, List.mem_cons, not_or]
      exact ⟨not_mem_of_isToken formed.method (by decide), separator, formed.uri.2.1, separator, plain⟩
    · obtain ⟨field, emitted, rfl⟩ := List.mem_map.mp member
      exact cr_not_mem_emittedLine (formed.emitted emitted)
  have whole : Client.encode head body =
      some (lines.flatMap (· ++ crlf) ++ crlf, (Client.setLength head body).2) := by
    have space : ascii " " = [SP] := by decide
    unfold Client.encode
    rw [written]
    simp [lines, requestLine, fieldLines_eq, space]
  refine ⟨_, _, whole, ?_, fun _ => rfl⟩
  intro rest
  have cutAll : linesUntilEmpty crlf (lines.flatMap (· ++ crlf) ++ (crlf ++ rest)).length
      (lines.flatMap (· ++ crlf) ++ (crlf ++ rest)) = some (lines, rest) := linesUntilEmpty_text fresh
  rw [List.append_assoc, readHead, cutAll]
  dsimp only [lines]
  rw [mapM_readField fun field member => formed.emitted member]
  simp only [Option.bind_eq_bind, Option.bind_some]
  rw [show ((emittedFields head body).map fun field => (field.1, field.2.bytes.dropWhile isOws)) =
    (headText head body).fields from rfl, readRequestLine_requestLine formed known body]
  rfl

/-- A request with a body in chunks. -/
def postHead : RequestHead where
  version := .http11
  subject := ⟨.post, ascii "/upload"⟩
  headers := MultiMap.empty.insert .host (.ofNat 7)

/-- The same request with a callback, which spells the name its own way and adds a field without a value. -/
def preservedHead : RequestHead :=
  { postHead with
    extensions := { onPreserveHeader := some fun headers =>
      (headers.getAll .host).map (ascii "HoSt", ·) ++ [(ascii "X-Empty", .fromStatic "")] } }

theorem postHead_readHead :
    (∃ bytes encoder, Client.encode postHead (some .unknown) = some (bytes, encoder) ∧
      (∀ rest, readHead (bytes ++ rest) = some (headText postHead (some .unknown), rest)) ∧
      ∀ dst : WriteBuf (EncodedBuf Bytes), (dst.extendHeaders bytes).headers.bytes = dst.headers.bytes ++ bytes) ∧
    ∃ bytes encoder, Client.encode preservedHead (some .unknown) = some (bytes, encoder) ∧
      (∀ rest, readHead (bytes ++ rest) = some (headText preservedHead (some .unknown), rest)) ∧
      ∀ dst : WriteBuf (EncodedBuf Bytes), (dst.extendHeaders bytes).headers.bytes = dst.headers.bytes ++ bytes := by
  have formed : WellFormedHead postHead := ⟨by decide, by decide, by intro visit absent; cases absent⟩
  have preserved : WellFormedHead preservedHead := by
    refine ⟨by decide, by decide, ?_⟩
    intro visit there headers field member
    obtain rfl := Option.some.inj there
    rcases List.mem_append.mp member with host | added
    · obtain ⟨value, -, rfl⟩ := List.mem_map.mp host
      exact (by decide : IsToken (ascii "HoSt"))
    · obtain rfl := List.mem_singleton.mp added
      decide
  exact ⟨encode_readHead (.inr rfl) formed _, encode_readHead (.inr rfl) preserved _⟩

/-! ### Heads of version HTTP/2 -/

/-- The body of this head goes out in chunks when the version of the head is HTTP/1.1. -/
def NeedsChunked (head : RequestHead) (body : Option BodyLength) : Prop :=
  body ≠ none ∧ (head.headers.contains .transferEncoding = true ∨
    body = some .unknown ∧ contentLengthParseAll head.headers = none ∧ ¬ NeverChunked head.subject.method)

theorem isChunked_of_chunkedEncoder {e : Encoder} (chunked : ChunkedEncoder e) : e.isChunked = true := by
  obtain ⟨trailers, kind, -⟩ := chunked
  simp [Encoder.isChunked, kind]

theorem setLength_isChunked (head : RequestHead) (body : Option BodyLength) :
    (Client.setLength head body).2.isChunked = true ↔ head.version = .http11 ∧ NeedsChunked head body := by
  have cases_ := setLength_cases head body
  unfold NeedsChunked
  rw [MultiMap.contains_iff]
  generalize (Client.setLength head body).1.getAll .transferEncoding = te at cases_
  generalize (Client.setLength head body).1.getAll .contentLength = cl at cases_
  generalize (Client.setLength head body).2 = encoder at cases_ ⊢
  cases cases_ with
  | noBody => simp [isChunked_length]
  | counted plain parsed => simp [isChunked_length, parsed]; tauto
  | repaired plain parsed => simp [isChunked_length]; tauto
  | dropped parsed cannot => simp [isChunked_length, parsed]; tauto
  | announced version absent parsed can last chunked =>
    simp [isChunked_of_chunkedEncoder chunked, version, parsed, can]
  | respected version present last chunked =>
    simp [isChunked_of_chunkedEncoder chunked, version, present]

theorem setLength_coerced {head : RequestHead} {body : Option BodyLength} (plain : ¬ NeedsChunked head body) :
    Client.setLength { head with version := .http2 } body = Client.setLength { head with version := .http11 } body := by
  cases body with
  | none => rfl
  | some body =>
    have absent : head.headers.contains .transferEncoding = false := by
      rw [← Bool.not_eq_true]
      intro present
      exact plain ⟨by simp, .inl present⟩
    have kept : head.headers.remove .transferEncoding = head.headers := MultiMap.remove_of_absent absent
    simp only [Client.setLength, Client.encoderByEntry, absent, kept]
    cases parsed : contentLengthParseAll head.headers with
    | some n => simp
    | none =>
      cases body with
      | known n => simp
      | unknown =>
        have never : NeverChunked head.subject.method := by
          by_contra can
          exact plain ⟨by simp, .inr ⟨rfl, parsed, can⟩⟩
        unfold NeverChunked at never
        simp [never]

/-- A head of version HTTP/2 goes out like one of HTTP/1.1, unless its body has to be sent in chunks. -/
theorem encode_coerced (head : RequestHead) (body : Option BodyLength) :
    Client.encode { head with version := .http2 } body = Client.encode { head with version := .http11 } body ↔
      ¬ NeedsChunked head body := by
  constructor
  · intro same needs
    have encoders := congrArg (Option.map Prod.snd) same
    simp only [Client.encode, Client.versionText, Option.map_some, Option.some.injEq] at encoders
    have chunked := (setLength_isChunked { head with version := .http11 } body).mpr ⟨rfl, needs⟩
    rw [← encoders] at chunked
    have version := ((setLength_isChunked { head with version := .http2 } body).mp chunked).1
    cases version
  · intro plain
    unfold Client.encode
    rw [setLength_coerced plain]
    rfl

theorem postHead_coerced : ¬ Client.encode { postHead with version := .http2 } (some .unknown) =
    Client.encode { postHead with version := .http11 } (some .unknown) := by
  decide +kernel

end Hwire.Http1
