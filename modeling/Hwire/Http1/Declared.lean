import Hwire.Http1.Lifecycle
import Hwire.Http1.RoundTrip

/-!
# Declared framing

How a recipient reads the framing of a request from the fields of its head, and when the body that is sent is exactly
what the head declares.
-/

namespace Hwire.Http1
open Lib Headers LawfulBuf

/-! ### The recipient -/

inductive BodyFraming where
  | chunked
  | length (n : Nat)
  deriving DecidableEq, Repr

/-- A number as a recipient reads it: digits, of any value. -/
def IsDecimal (s : Bytes) (n : Nat) : Prop :=
  s ≠ [] ∧ s.all isDigit = true ∧ readDigits 10 0 (s.map digitValue) = n

/-- The framing of a request body by its `Transfer-Encoding` and `Content-Length` values: a final coding `chunked`
decides, then lengths that all parse to one number; without either there is no body. -/
inductive DerivedFraming (te cl : List HeaderValue) : BodyFraming → Prop where
  | chunked : EndsInChunked te → DerivedFraming te cl .chunked
  | length {n : Nat} : ¬ EndsInChunked te → cl ≠ [] → (∀ v ∈ elements cl, IsDecimal (trim v) n) →
      DerivedFraming te cl (.length n)
  | none : te = [] → cl = [] → DerivedFraming te cl (.length 0)

/-- One complete body. -/
inductive OneBody : BodyFraming → Bytes → Prop where
  | chunked (body : ChunkedBody) : OneBody .chunked body.render
  | length (body : Bytes) : OneBody (.length body.length) body

/-- The fields of the encoded head, each on a line of its own. -/
def emittedFields (head : RequestHead) (body : Option BodyLength) : List (Bytes × HeaderValue) :=
  let headers := (Client.setLength head body).1
  match head.extensions.onPreserveHeader with
  | some visit => visit headers
  | none => headers.iter.map fun f => (f.1.bytes, f.2)

/-- The values of a field, whose name is read without regard to case. -/
def fieldValues (name : HeaderName) (fields : List (Bytes × HeaderValue)) : List HeaderValue :=
  fields.filterMap fun f => if eqIgnoreAsciiCase f.1 name.bytes then some f.2 else none

/-- What was sent after the head is one complete body under the framing that a recipient derives from the head. -/
def DeclaredBody (head : RequestHead) (body : Option BodyLength) (sent : Bytes) : Prop :=
  ∃ framing, DerivedFraming (fieldValues .transferEncoding (emittedFields head body))
    (fieldValues .contentLength (emittedFields head body)) framing ∧ OneBody framing sent

/-! ### The fields of the encoded head -/

theorem fieldValues_emitted {head : RequestHead} (plain : head.extensions.onPreserveHeader = none)
    (body : Option BodyLength) (name : HeaderName) :
    fieldValues name (emittedFields head body) = (Client.setLength head body).1.getAll name := by
  rw [← MultiMap.filterMap_iter, emittedFields, plain, fieldValues, List.filterMap_map]
  apply List.filterMap_congr
  intro f _
  by_cases same : f.1 = name
  · simp [same, (eqIgnoreAsciiCase_names name name).mpr rfl]
  · have other : eqIgnoreAsciiCase f.1.bytes name.bytes = false := by
      rw [← Bool.not_eq_true, eqIgnoreAsciiCase_names]
      exact same
    simp [same, other]

/-! ### Lengths -/

theorem isDecimal_of_fromDigits {s : Bytes} {n : Nat} (h : fromDigits s = some n) : IsDecimal s n := by
  obtain ⟨ne, digits, value, -⟩ := fromDigits_eq_some.mp h
  exact ⟨ne, digits, value⟩

theorem fromDigits_of_isDecimal {s : Bytes} {n : Nat} (h : IsDecimal s n) (small : n < 2 ^ 64) :
    fromDigits s = some n := fromDigits_eq_some.mpr ⟨h.1, h.2.1, h.2.2, small⟩

theorem derivedFraming_of_parsed {cl : List HeaderValue} {n : Nat} (h : contentLengthParseAllValues cl = some n) :
    DerivedFraming [] cl (.length n) := by
  obtain ⟨ne, -, all⟩ := contentLengthParseAllValues_eq_some.mp h
  exact .length (fun last => last.ne_nil rfl) ne fun v member => isDecimal_of_fromDigits (all v member)

theorem mem_splitComma {s : Bytes} {b : UInt8} (h : b ∈ s) : b = COMMA ∨ ∃ v ∈ splitComma s, b ∈ v := by
  have joined : b ∈ [COMMA].intercalate (splitComma s) := by
    rw [splitComma, List.intercalate_splitOn]
    exact h
  generalize splitComma s = parts at joined
  induction parts with
  | nil => simp at joined
  | cons v rest ih =>
    cases rest with
    | nil =>
      simp only [List.intercalate_singleton] at joined
      exact .inr ⟨v, by simp, joined⟩
    | cons w rest =>
      rw [List.intercalate_cons_cons] at joined
      simp only [List.mem_append, List.mem_singleton] at joined
      rcases joined with (inside | comma) | later
      · exact .inr ⟨v, by simp, inside⟩
      · exact .inl comma
      · rcases ih later with comma | ⟨v', member, inside⟩
        · exact .inl comma
        · exact .inr ⟨v', List.mem_cons_of_mem _ member, inside⟩

theorem mem_trim {v : Bytes} {b : UInt8} (h : b ∈ v) : isOws b = true ∨ b ∈ trim v := by
  rw [← List.takeWhile_append_dropWhile (p := isOws) (l := v)] at h
  rcases List.mem_append.mp h with front | rest
  · exact .inl (List.mem_takeWhile_imp front)
  · rw [← List.rdropWhile_append_rtakeWhile (p := isOws) (l := v.dropWhile isOws)] at rest
    rcases List.mem_append.mp rest with middle | back
    · exact .inr middle
    · exact .inl (List.mem_rtakeWhile_imp back)

theorem isVisibleAscii_of_elements {value : HeaderValue}
    (all : ∀ v ∈ splitComma value.bytes, (trim v).all isDigit = true) : value.bytes.all isVisibleAscii = true := by
  rw [List.all_eq_true]
  intro b member
  have comma : isVisibleAscii COMMA = true := by decide
  have ows : isOws b = true → isVisibleAscii b = true := by
    intro h
    simp only [isOws, Bool.or_eq_true, beq_iff_eq] at h
    rcases h with rfl | rfl
    · decide
    · decide
  have digit : isDigit b = true → isVisibleAscii b = true := by grind [isDigit, isVisibleAscii]
  rcases mem_splitComma member with rfl | ⟨v, part, inside⟩
  · exact comma
  · rcases mem_trim inside with white | kept
    · exact ows white
    · exact digit (List.all_eq_true.mp (all v part) b kept)

/-- A recipient that reads no bytes finds no length, or lengths that the code reads as zero. -/
theorem parsed_of_derivedFraming_zero {cl : List HeaderValue} (h : DerivedFraming [] cl (.length 0)) :
    cl = [] ∨ contentLengthParseAllValues cl = some 0 := by
  cases h with
  | length _ ne all =>
    refine .inr (contentLengthParseAllValues_eq_some.mpr ⟨ne, fun value member => ?_, fun v member => ?_⟩)
    · exact isVisibleAscii_of_elements fun v part => (all v (List.mem_flatMap.mpr ⟨value, member, part⟩)).2.1
    · exact fromDigits_of_isDecimal (all v member) (by decide)
  | none _ empty => exact .inl empty

theorem elements_ofNat (n : Nat) : elements [.ofNat n] = [decimal n] := by
  have noComma : COMMA ∉ decimal n := by
    intro member
    exact absurd (decimal_isDigit member) (by decide)
  simp [elements, splitComma, HeaderValue.ofNat, List.splitOn_eq_singleton noComma]

theorem trim_decimal (n : Nat) : trim (decimal n) = decimal n := by
  have digit {b : UInt8} (h : b ∈ decimal n) : isOws b = false := by
    have := decimal_isDigit h
    grind [isDigit, isOws, SP, HTAB]
  have front : (decimal n).dropWhile isOws = decimal n := by
    rw [List.dropWhile_eq_self_iff]
    intro pos
    simpa using digit (List.getElem_mem pos)
  rw [trim, front, List.rdropWhile_eq_self_iff]
  intro ne
  simpa using digit (List.getLast_mem ne)

theorem parsed_ofNat {n : Nat} (small : n < 2 ^ 64) : contentLengthParseAllValues [.ofNat n] = some n := by
  refine contentLengthParseAllValues_eq_some.mpr ⟨by simp, ?_, ?_⟩
  · intro value member
    obtain rfl := List.mem_singleton.mp member
    refine isVisibleAscii_of_elements fun v part => ?_
    have : v ∈ elements [.ofNat n] := List.mem_flatMap.mpr ⟨_, List.mem_singleton_self _, part⟩
    rw [elements_ofNat, List.mem_singleton] at this
    rw [this, trim_decimal]
    exact List.all_eq_true.mpr fun b hb => decimal_isDigit hb
  · rw [elements_ofNat]
    intro v member
    rw [List.mem_singleton.mp member, trim_decimal]
    exact fromDigits_decimal small

/-! ### Bodies -/

theorem cr_not_mem_name (name : HeaderName) : CR ∉ name.bytes := by
  intro member
  exact absurd (List.all_eq_true.mp name.valid.2.2 _ member) (by decide)

theorem cr_not_mem_value (value : HeaderValue) : CR ∉ value.bytes := by
  intro member
  exact absurd (List.all_eq_true.mp value.valid _ member) (by decide)

def trailerLine (field : HeaderName × HeaderValue) : TrailerLine where
  bytes := field.1.bytes ++ ascii ": " ++ field.2.bytes
  nonempty := by simp [field.1.valid.1]
  noCr := by
    have separator : CR ∉ ascii ": " := by decide
    simp only [List.mem_append, not_or]
    exact ⟨⟨cr_not_mem_name _, separator⟩, cr_not_mem_value _⟩

theorem writeHeaders_eq (fields : HeaderMap) :
    writeHeaders fields = (fields.iter.map trailerLine).flatMap TrailerLine.render := by
  rw [writeHeaders, List.flatMap_map]
  rfl

/-- What a chunked encoder has brought to its end is one chunked body. -/
theorem Encoded.oneBody_chunked {e : Encoder} {sent : Bytes} (encoded : Encoded e sent) (chunked : ChunkedEncoder e) :
    OneBody .chunked sent := by
  obtain ⟨t, kind, -⟩ := chunked
  cases encoded with
  | length => cases kind
  | @chunked _ chunks ok =>
    rw [← (plainBody_spec chunks ok).1]
    exact .chunked _
  | @trailers _ chunks fields ok =>
    have render := (plainBody_spec chunks ok).1
    have whole := OneBody.chunked { plainBody chunks ok with trailers := fields.iter.map trailerLine }
    have last : lastChunk = ascii "0\r\n" ++ crlf := by decide
    rw [ChunkedBody.render, ChunkedBody.trailerSection] at render whole
    rw [last, ← List.append_assoc, ← List.append_assoc, show (plainBody chunks ok).trailers = [] from rfl,
      List.flatMap_nil, List.append_nil, List.append_cancel_right_eq] at render
    rw [writeHeaders_eq, ← List.append_assoc, ← List.append_assoc, ← render, List.append_assoc]
    exact whole

theorem Encoded.oneBody_length {n : Nat} {sent : Bytes} (encoded : Encoded (.length n) sent) :
    OneBody (.length n) sent := by
  cases encoded with
  | length count => exact count ▸ .length sent

/-- After nothing was sent, only a framing of no bytes is met. -/
theorem OneBody.of_nil {framing : BodyFraming} (h : OneBody framing []) : framing = .length 0 := by
  generalize nil : ([] : Bytes) = sent at h
  cases h with
  | chunked body =>
    have : body.render ≠ [] := by simp [ChunkedBody.render, ChunkedBody.trailerSection, crlf]
    exact absurd nil.symm this
  | length => rw [← nil]; rfl

/-! ### When the head declares what is sent -/

/-- `Content-Length` is left in a head whose body is dropped: there is no body and the length is not zero, or the
length of the body is unknown, cannot be sent in chunks, and the field does not parse. -/
def StaleLength (head : RequestHead) (body : Option BodyLength) : Prop :=
  head.headers.contains .contentLength = true ∧
    (body = none ∧ contentLengthParseAll head.headers ≠ some 0 ∨
      body = some .unknown ∧ contentLengthParseAll head.headers = none ∧
        (head.version ≠ .http11 ∨
          head.headers.contains .transferEncoding = false ∧ NeverChunked head.subject.method))

theorem declared_dropped {cl : List HeaderValue} {sent : Bytes} (encoded : Encoded (.length 0) sent) :
    (∃ framing, DerivedFraming [] cl framing ∧ OneBody framing sent) ↔
      (cl ≠ [] → contentLengthParseAllValues cl = some 0) := by
  have empty : sent = [] := by
    cases encoded with
    | length count => exact List.length_eq_zero_iff.mp count
  subst empty
  constructor
  · rintro ⟨framing, derived, one⟩ present
    obtain rfl := one.of_nil
    exact (parsed_of_derivedFraming_zero derived).resolve_left present
  · intro zero
    by_cases absent : cl = []
    · exact ⟨.length 0, .none rfl absent, .length []⟩
    · exact ⟨.length 0, derivedFraming_of_parsed (zero absent), .length []⟩

/-- The body that a finished encoder has sent is the one that the head declares, exactly when no stale length is left. -/
theorem declaredBody_iff {head : RequestHead} {body : Option BodyLength} {sent : Bytes}
    (plain : head.extensions.onPreserveHeader = none) (small : ∀ n, body = some (.known n) → n < 2 ^ 64)
    (encoded : Encoded (Client.setLength head body).2 sent) :
    DeclaredBody head body sent ↔ ¬ StaleLength head body := by
  have cases_ := setLength_cases head body
  unfold DeclaredBody StaleLength
  rw [fieldValues_emitted plain, fieldValues_emitted plain]
  simp only [MultiMap.contains_iff, MultiMap.contains_eq_false, contentLengthParseAll] at cases_ ⊢
  generalize (Client.setLength head body).1.getAll .transferEncoding = te at cases_ ⊢
  generalize (Client.setLength head body).1.getAll .contentLength = cl at cases_ ⊢
  generalize (Client.setLength head body).2 = encoder at cases_ encoded
  cases cases_ with
  | noBody =>
    rw [declared_dropped encoded]
    simp
  | counted plain parsed =>
    have declared := derivedFraming_of_parsed parsed
    rw [contentLengthParseAll] at parsed
    exact iff_of_true ⟨_, declared, encoded.oneBody_length⟩ (by simp [parsed])
  | @repaired n plain parsed =>
    exact iff_of_true ⟨_, derivedFraming_of_parsed (parsed_ofNat (small n rfl)), encoded.oneBody_length⟩ (by simp)
  | dropped parsed cannot =>
    rw [contentLengthParseAll] at parsed
    rw [declared_dropped encoded]
    simp only [parsed]
    simp [cannot]
  | announced version absent parsed can last chunked =>
    exact iff_of_true ⟨_, .chunked last, encoded.oneBody_chunked chunked⟩ (by simp [version, can])
  | respected version present last chunked =>
    exact iff_of_true ⟨_, .chunked last, encoded.oneBody_chunked chunked⟩ (by simp [version, present])

/-! ### Runs -/

/-- The encoder is the one that `set_length` returned for the head and the length of its body. -/
structure Exchange.Framed (x : Exchange) : Prop where
  encoder : x.encoder = (Client.setLength x.head x.hint).2
  small : ∀ n, x.hint = some (.known n) → n < 2 ^ 64

theorem Exchange.Framed.sameHead {x y : Exchange} (framed : x.Framed) (same : x.SameHead y) : y.Framed :=
  ⟨by rw [same.encoder, same.head, same.hint]; exact framed.encoder, by rw [same.hint]; exact framed.small⟩

namespace Conn

variable [Httparse]

theorem Step.framed {c c' : Conn} (step : c.Step c') (inv : c.Inv) (framed : ∀ x ∈ c.log, x.Framed) :
    ∀ x ∈ c'.log, x.Framed := by
  obtain ⟨f, same, log⟩ | ⟨head, body, x, -, small, wrote⟩ := step.heads inv
  · rw [log]
    intro y member
    rcases mem_note member with old | ⟨x, last, rfl⟩
    · exact framed y (List.mem_of_mem_dropLast old)
    · exact (framed x (List.mem_of_getLast? last)).sameHead (same x)
  · rw [wrote.log]
    intro y member
    rcases List.mem_append.mp member with old | new
    · exact framed y old
    · obtain rfl := List.mem_singleton.mp new
      exact ⟨by rw [wrote.hint]; exact wrote.encoder, by rw [wrote.hint]; exact small⟩

theorem Steps.framed {c c' : Conn} (steps : c.Steps c') (inv : c.Inv) (framed : ∀ x ∈ c.log, x.Framed) :
    ∀ x ∈ c'.log, x.Framed := by
  induction steps with
  | refl => exact framed
  | tail earlier step ih => exact step.framed (Steps.inv earlier inv).1 ih

/-- Of every request that was written to its end on a connection. -/
theorem Steps.declared {c c' : Conn} (steps : c.Steps c') (inv : c.Inv) (framed : ∀ x ∈ c.log, x.Framed) {x : Exchange}
    (member : x ∈ c'.log) (finished : x.finished = true) (plain : x.head.extensions.onPreserveHeader = none) :
    DeclaredBody x.head x.hint x.sent ↔ ¬ StaleLength x.head x.hint := by
  obtain ⟨encoder, small⟩ := Steps.framed steps inv framed x member
  exact declaredBody_iff plain small (encoder ▸ (Steps.inv steps inv).1.finished x member finished)

end Conn

end Hwire.Http1
