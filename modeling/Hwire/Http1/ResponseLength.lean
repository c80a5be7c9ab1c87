import Hwire.Http1.Declared

/-!
# The length of a response body

`Client::decoder` as a function of the `Transfer-Encoding` and `Content-Length` values of a head, with lengths as the
words that the source keeps them in.
-/

namespace Hwire.Http1
open Lib Headers

namespace DecodedLength

def word : DecodedLength → Nat
  | .closeDelimited => 2 ^ 64 - 1
  | .chunked => 2 ^ 64 - 2
  | .length n => n

end DecodedLength

/-! ### Transfer codings -/

/-- The last value is visible ASCII, and its last coding is `chunked`, ignoring case and white space. -/
def LastCodingChunked (values : List HeaderValue) : Prop :=
  EndsInChunked values ∧ ∀ value, values.getLast? = some value → value.bytes.all isVisibleAscii = true

theorem isChunked_iff (values : List HeaderValue) : isChunked values = true ↔ LastCodingChunked values := by
  constructor
  · intro h
    refine ⟨endsInChunked_of_isChunked h, ?_⟩
    intro value last
    simp only [isChunked, last] at h
    split at h
    · next visible => exact (toStr_eq_some.mp visible).1
    · cases h
  · rintro ⟨⟨value, coding, last, split, same⟩, visible⟩
    have text : value.toStr = some value.bytes := toStr_eq_some.mpr ⟨visible value last, rfl⟩
    simp only [isChunked, last, text, split]
    exact same

/-! ### Lengths -/

instance (s : Bytes) (n : Nat) : Decidable (IsDecimal s n) := inferInstanceAs (Decidable (_ ∧ _))

/-- The code reads a list of lengths as one number exactly when every element is a digit string of that value. -/
theorem parsed_iff {cl : List HeaderValue} {n : Nat} :
    contentLengthParseAllValues cl = some n ↔ cl ≠ [] ∧ n < 2 ^ 64 ∧ ∀ v ∈ elements cl, IsDecimal (trim v) n := by
  rw [contentLengthParseAllValues_eq_some]
  constructor
  · rintro ⟨ne, -, all⟩
    have some_element : elements cl ≠ [] := fun empty => ne (elements_eq_nil.mp empty)
    obtain ⟨v, member⟩ := List.exists_mem_of_ne_nil _ some_element
    exact ⟨ne, (fromDigits_eq_some.mp (all v member)).2.2.2, fun v member => isDecimal_of_fromDigits (all v member)⟩
  · rintro ⟨ne, small, all⟩
    refine ⟨ne, ?_, fun v member => fromDigits_of_isDecimal (all v member) small⟩
    intro value member
    apply isVisibleAscii_of_elements
    intro v part
    exact (all v (List.mem_flatMap.mpr ⟨value, member, part⟩)).2.1

/-! ### The decision -/

namespace Client

/-- A response that may have a body: neither its status nor the method of the request rules one out. -/
structure MayHaveBody (inc : ResponseHead) (method : Option Method) : Prop where
  final : ¬ (100 ≤ inc.subject ∧ inc.subject ≤ 199)
  status : inc.subject ≠ 204 ∧ inc.subject ≠ 304
  notHead : method ≠ some .head
  notTunnel : ¬ (method = some .connect ∧ 200 ≤ inc.subject ∧ inc.subject ≤ 299)

/-- The result of `Client::decoder`, with the length as the source holds it. -/
def decoderWord (inc : ResponseHead) (method : Option Method) : Except Parse (Option (Nat × Bool)) :=
  (decoder inc method).map (Option.map fun res => (res.1.word, res.2))

/-- What is decided from the two fields and the version. -/
def lengthFrom (version : Version) (te cl : List HeaderValue) : Except Parse (Option (Nat × Bool)) :=
  if te ≠ [] then
    if version = .http10 then .error .transferEncodingUnexpected
    else .ok (some (if isChunked te then DecodedLength.chunked.word else DecodedLength.closeDelimited.word, false))
  else
    match contentLengthParseAllValues cl with
    | some len => if len ≤ DecodedLength.MAX_LEN then .ok (some (len, false)) else .error .tooLarge
    | none =>
      if cl ≠ [] then .error .contentLengthInvalid else .ok (some (DecodedLength.closeDelimited.word, false))

theorem decoderWord_eq {inc : ResponseHead} {method : Option Method} (h : MayHaveBody inc method) :
    decoderWord inc method =
      lengthFrom inc.version (inc.headers.getAll .transferEncoding) (inc.headers.getAll .contentLength) := by
  have notUpgrade : inc.subject ≠ 101 := by
    intro upgrade
    exact h.final (by omega)
  have some_status : ¬ (inc.subject = 204 ∨ inc.subject = 304) := by
    have := h.status
    omega
  unfold decoderWord decoder
  simp only [notUpgrade, h.final, some_status, h.notHead, h.notTunnel, if_false, MultiMap.contains_iff]
  unfold lengthFrom
  split
  · split
    · rfl
    · unfold transferEncodingIsChunked
      split
      · rfl
      · rfl
  · unfold contentLengthParseAll
    cases contentLengthParseAllValues (inc.headers.getAll .contentLength) with
    | some len =>
      dsimp only
      split
      · rfl
      · rfl
    | none =>
      dsimp only
      split
      · rfl
      · rfl

theorem lengthFrom_transferEncoding {version : Version} {te : List HeaderValue} (present : te ≠ [])
    (cl : List HeaderValue) :
    (version = .http10 → ∃ e, lengthFrom version te cl = .error e) ∧
    (version ≠ .http10 →
      (lengthFrom version te cl = .ok (some (DecodedLength.chunked.word, false)) ↔ LastCodingChunked te) ∧
      (¬ LastCodingChunked te → lengthFrom version te cl = .ok (some (DecodedLength.closeDelimited.word, false)))) := by
  unfold lengthFrom
  rw [if_pos present, ← isChunked_iff]
  constructor
  · intro old
    exact ⟨_, if_pos old⟩
  · intro new
    rw [if_neg new]
    cases isChunked te with
    | true => exact ⟨⟨fun _ => rfl, fun _ => rfl⟩, fun h => absurd rfl h⟩
    | false => exact ⟨⟨nofun, nofun⟩, fun _ => rfl⟩

theorem lengthFrom_contentLength (version : Version) {cl : List HeaderValue} (present : cl ≠ []) :
    (∀ n, lengthFrom version [] cl = .ok (some (n, false)) ↔
      n ≤ 2 ^ 64 - 3 ∧ ∀ v ∈ elements cl, IsDecimal (trim v) n) ∧
    ((¬ ∃ n ≤ 2 ^ 64 - 3, ∀ v ∈ elements cl, IsDecimal (trim v) n) → ∃ e, lengthFrom version [] cl = .error e) := by
  have parsed (n : Nat) : contentLengthParseAllValues cl = some n ↔
      n < 2 ^ 64 ∧ ∀ v ∈ elements cl, IsDecimal (trim v) n := by
    rw [parsed_iff]
    exact and_iff_right present
  unfold lengthFrom
  rw [if_neg (by simp)]
  cases read : contentLengthParseAllValues cl with
  | none =>
    have unread (n : Nat) : ¬ (n ≤ 2 ^ 64 - 3 ∧ ∀ v ∈ elements cl, IsDecimal (trim v) n) := by
      rintro ⟨small, all⟩
      have := (parsed n).mpr ⟨by omega, all⟩
      rw [read] at this
      cases this
    dsimp only
    rw [if_pos present]
    exact ⟨fun n => ⟨nofun, fun h => absurd h (unread n)⟩, fun _ => ⟨_, rfl⟩⟩
  | some len =>
    have all := ((parsed len).mp read).2
    -- Another length for the same elements would be read too.
    have only {n : Nat} (h : n ≤ 2 ^ 64 - 3 ∧ ∀ v ∈ elements cl, IsDecimal (trim v) n) : n = len := by
      have := (parsed n).mpr ⟨by omega, h.2⟩
      rw [read] at this
      exact (Option.some.inj this).symm
    dsimp only
    by_cases small : len ≤ DecodedLength.MAX_LEN
    · rw [if_pos small]
      refine ⟨fun n => ⟨?_, ?_⟩, fun none => absurd ⟨len, small, all⟩ none⟩
      · rintro ⟨⟩
        exact ⟨small, all⟩
      · intro h
        rw [only h]
    · rw [if_neg small]
      refine ⟨fun n => ⟨nofun, ?_⟩, fun _ => ⟨_, rfl⟩⟩
      intro h
      rw [only h] at h
      exact absurd h.1 small

/-- The length of a response body is decided by the last coding of `Transfer-Encoding`, else by lengths that all agree,
and by nothing else. -/
theorem decoder_decides {inc : ResponseHead} {method : Option Method} (h : MayHaveBody inc method) :
    (inc.headers.getAll .transferEncoding ≠ [] →
      (inc.version = .http10 → ∃ e, decoderWord inc method = .error e) ∧
      (inc.version ≠ .http10 →
        (decoderWord inc method = .ok (some (DecodedLength.chunked.word, false)) ↔
          LastCodingChunked (inc.headers.getAll .transferEncoding)) ∧
        (¬ LastCodingChunked (inc.headers.getAll .transferEncoding) →
          decoderWord inc method = .ok (some (DecodedLength.closeDelimited.word, false))))) ∧
    (inc.headers.getAll .transferEncoding = [] → inc.headers.getAll .contentLength ≠ [] →
      (∀ n, decoderWord inc method = .ok (some (n, false)) ↔
        n ≤ 2 ^ 64 - 3 ∧ ∀ v ∈ elements (inc.headers.getAll .contentLength), IsDecimal (trim v) n) ∧
      ((¬ ∃ n ≤ 2 ^ 64 - 3, ∀ v ∈ elements (inc.headers.getAll .contentLength), IsDecimal (trim v) n) →
        ∃ e, decoderWord inc method = .error e)) ∧
    (inc.headers.getAll .transferEncoding = [] → inc.headers.getAll .contentLength = [] →
      decoderWord inc method = .ok (some (DecodedLength.closeDelimited.word, false))) ∧
    ∀ inc' : ResponseHead, inc'.subject = inc.subject → inc'.version = inc.version →
      inc'.headers.getAll .transferEncoding = inc.headers.getAll .transferEncoding →
      inc.headers.getAll .transferEncoding ≠ [] ∨
        inc'.headers.getAll .contentLength = inc.headers.getAll .contentLength →
      decoderWord inc' method = decoderWord inc method := by
  rw [decoderWord_eq h]
  refine ⟨fun present => lengthFrom_transferEncoding present _, ?_, ?_, ?_⟩
  · intro absent present
    rw [absent]
    exact lengthFrom_contentLength _ present
  · intro absent none
    rw [absent, none]
    rfl
  · intro inc' subject version te cl
    have h' : MayHaveBody inc' method := by
      constructor
      · rw [subject]
        exact h.final
      · rw [subject]
        exact h.status
      · exact h.notHead
      · rw [subject]
        exact h.notTunnel
    rw [decoderWord_eq h', version, te]
    rcases cl with present | same
    · unfold lengthFrom
      rw [if_pos present, if_pos present]
    · rw [same]

/-- Two fields, of which one holds the length twice. -/
theorem decoder_decides_repeated :
    let inc : ResponseHead :=
      { version := .http11, subject := 200
        headers := (MultiMap.empty.append .contentLength (.fromStatic "3, 3")).append .contentLength (.fromStatic "3") }
    MayHaveBody inc (some .get) ∧ decoderWord inc (some .get) = .ok (some (3, false)) := by
  intro inc
  have may : MayHaveBody inc (some .get) := ⟨by decide, by decide, by decide, by decide⟩
  refine ⟨may, ?_⟩
  refine (((decoder_decides may).2.1 ?_ ?_).1 3).mpr ⟨by decide, ?_⟩
  · decide +kernel
  · decide +kernel
  · decide +kernel

end Client

end Hwire.Http1
