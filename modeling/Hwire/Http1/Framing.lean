import Hwire.Http1.ChunkedGrammar
import Hwire.Http1.Role

/-!
# Request framing

What `Client::set_length` makes of the framing fields of a request, and how a recipient reads them.
-/

namespace Hwire.Http1
open Lib Headers

/-! ### Transfer codings -/

/-- The last coding of the last value is `chunked`, ignoring case and white space. -/
def EndsInChunked (values : List HeaderValue) : Prop :=
  ∃ value coding, values.getLast? = some value ∧ (splitComma value.bytes).getLast? = some coding ∧
    eqIgnoreAsciiCase (trim coding) chunked = true

theorem endsInChunked_of_isChunked {values : List HeaderValue} (h : isChunked values = true) : EndsInChunked values := by
  unfold isChunked at h
  split at h
  · next line last =>
    split at h
    · next s visible =>
      obtain ⟨-, rfl⟩ := toStr_eq_some.mp visible
      split at h
      · next coding split => exact ⟨line, coding, last, split, h⟩
      · exact absurd h (by simp)
    · exact absurd h (by simp)
  · exact absurd h (by simp)

theorem splitComma_append_comma (s : Bytes) {t : Bytes} (noComma : COMMA ∉ t) :
    (splitComma (s ++ COMMA :: t)).getLast? = some t := by
  rw [splitComma, List.splitOn_append_cons_self, List.splitOn_eq_singleton noComma]
  simp

theorem endsInChunked_withChunked (values : List HeaderValue) (value : HeaderValue) :
    EndsInChunked (values ++ [withChunked value]) :=
  ⟨withChunked value, ascii " chunked", by simp, splitComma_append_comma value.bytes (by decide), by decide⟩

theorem getAll_addChunked {headers : HeaderMap} (present : headers.getAll .transferEncoding ≠ []) :
    EndsInChunked ((addChunked headers .transferEncoding).getAll .transferEncoding) ∧
      (addChunked headers .transferEncoding).getAll .contentLength = headers.getAll .contentLength := by
  obtain ⟨value, last⟩ := Option.isSome_iff_exists.mp (List.getLast?_isSome.mpr present)
  constructor
  · rw [addChunked, MultiMap.getAll_modifyLast, if_pos rfl, last]
    exact endsInChunked_withChunked _ value
  · rw [addChunked, MultiMap.getAll_modifyLast, if_neg (by decide)]

theorem EndsInChunked.ne_nil {values : List HeaderValue} (h : EndsInChunked values) : values ≠ [] := by
  obtain ⟨value, _, last, -⟩ := h
  rintro rfl
  cases last

/-! ### What `set_length` can do -/

/-- The methods whose bodies of unknown length are dropped. -/
def NeverChunked (method : Method) : Prop := method = .get ∨ method = .head ∨ method = .connect

instance (method : Method) : Decidable (NeverChunked method) := inferInstanceAs (Decidable (_ ∨ _))

def ChunkedEncoder (e : Encoder) : Prop := ∃ trailers, e.kind = .chunked trailers ∧ e.isLast = false

/-- The `Transfer-Encoding` and `Content-Length` values that `set_length` leaves, and its encoder. -/
inductive SetLength (head : RequestHead) : Option BodyLength → List HeaderValue → List HeaderValue → Encoder → Prop where
  | noBody : SetLength head none [] (head.headers.getAll .contentLength) (.length 0)
  | counted {body : BodyLength} {n : Nat} (plain : head.version ≠ .http11 ∨ head.headers.getAll .transferEncoding = [])
      (parsed : contentLengthParseAll head.headers = some n) :
      SetLength head (some body) [] (head.headers.getAll .contentLength) (.length n)
  | repaired {n : Nat} (plain : head.version ≠ .http11 ∨ head.headers.getAll .transferEncoding = [])
      (parsed : contentLengthParseAll head.headers = none) : SetLength head (some (.known n)) [] [.ofNat n] (.length n)
  | dropped (parsed : contentLengthParseAll head.headers = none)
      (cannot : head.version ≠ .http11 ∨
        head.headers.getAll .transferEncoding = [] ∧ NeverChunked head.subject.method) :
      SetLength head (some .unknown) [] (head.headers.getAll .contentLength) (.length 0)
  | announced {te : List HeaderValue} {e : Encoder} (version : head.version = .http11)
      (absent : head.headers.getAll .transferEncoding = []) (parsed : contentLengthParseAll head.headers = none)
      (can : ¬ NeverChunked head.subject.method) (last : EndsInChunked te) (chunked : ChunkedEncoder e) :
      SetLength head (some .unknown) te (head.headers.getAll .contentLength) e
  | respected {body : BodyLength} {te : List HeaderValue} {e : Encoder} (version : head.version = .http11)
      (present : head.headers.getAll .transferEncoding ≠ []) (last : EndsInChunked te) (chunked : ChunkedEncoder e) :
      SetLength head (some body) te
        (if (contentLengthParseAll head.headers).isSome then [] else head.headers.getAll .contentLength) e

theorem withTrailerFields_chunked (headers : HeaderMap) : ChunkedEncoder (Client.withTrailerFields headers .chunked) := by
  unfold Client.withTrailerFields
  split
  · dsimp only
    split
    · exact ⟨_, rfl, rfl⟩
    · exact ⟨_, rfl, rfl⟩
  · exact ⟨_, rfl, rfl⟩

@[simp] theorem withTrailerFields_length (headers : HeaderMap) (n : Nat) :
    Client.withTrailerFields headers (.length n) = .length n := rfl

theorem setLength_http11 (head : RequestHead) (body : BodyLength) (version : head.version = .http11) :
    SetLength head (some body) ((Client.setLength head (some body)).1.getAll .transferEncoding)
      ((Client.setLength head (some body)).1.getAll .contentLength) (Client.setLength head (some body)).2 := by
  have cl_te : (HeaderName.contentLength : HeaderName) ≠ .transferEncoding := by decide
  have te_cl : (HeaderName.transferEncoding : HeaderName) ≠ .contentLength := by decide
  simp only [Client.setLength, version, not_true_eq_false, if_false]
  by_cases present : head.headers.getAll .transferEncoding = []
  · have absent : head.headers.contains .transferEncoding = false := (MultiMap.contains_eq_false _ _).mpr present
    simp only [Client.encoderByEntry, absent, Bool.false_eq_true, if_false, Bool.false_and]
    cases parsed : contentLengthParseAll head.headers with
    | some n =>
      simp only [withTrailerFields_length, present]
      exact .counted (.inr present) parsed
    | none =>
      cases body with
      | known n =>
        simp only [setContentLength, MultiMap.getAll_insert, te_cl, if_false, if_true, present]
        exact .repaired (.inr present) parsed
      | unknown =>
        by_cases never : NeverChunked head.subject.method
        · simp only [show head.subject.method = .get ∨ head.subject.method = .head ∨ head.subject.method = .connect from never,
            if_true, withTrailerFields_length, present]
          exact .dropped parsed (.inr ⟨present, never⟩)
        · simp only [show ¬ (head.subject.method = .get ∨ head.subject.method = .head ∨ head.subject.method = .connect)
            from never, if_false, MultiMap.getAll_insert, cl_te, if_true]
          exact .announced version present parsed never ⟨_, _, rfl, rfl, by decide⟩ (withTrailerFields_chunked _)
  · have occupied : head.headers.contains .transferEncoding = true := (MultiMap.contains_iff _ _).mpr present
    simp only [Client.encoderByEntry, occupied, if_true, Bool.true_and]
    -- Either branch keeps the lengths and leaves codings that end in `chunked`.
    obtain ⟨headers, chosen, last, lengths⟩ : ∃ headers : HeaderMap,
        (if isChunked (head.headers.getAll .transferEncoding) then (head.headers, some Encoder.chunked)
          else (addChunked head.headers .transferEncoding, some Encoder.chunked)) = (headers, some .chunked) ∧
        EndsInChunked (headers.getAll .transferEncoding) ∧
        headers.getAll .contentLength = head.headers.getAll .contentLength := by
      split
      · next h => exact ⟨_, rfl, endsInChunked_of_isChunked h, rfl⟩
      · exact ⟨_, rfl, getAll_addChunked present⟩
    rw [chosen]
    dsimp only
    have respected := @SetLength.respected head body _ _ version present last (withTrailerFields_chunked headers)
    split
    · next some_len =>
      rw [if_pos some_len] at respected
      simpa [te_cl] using respected
    · next no_len =>
      rw [if_neg no_len, ← lengths] at respected
      exact respected

theorem setLength_cases (head : RequestHead) (body : Option BodyLength) :
    SetLength head body ((Client.setLength head body).1.getAll .transferEncoding)
      ((Client.setLength head body).1.getAll .contentLength) (Client.setLength head body).2 := by
  have cl_te : (HeaderName.contentLength : HeaderName) ≠ .transferEncoding := by decide
  have te_cl : (HeaderName.transferEncoding : HeaderName) ≠ .contentLength := by decide
  cases body with
  | none =>
    simp only [Client.setLength, MultiMap.getAll_remove, if_true, cl_te, if_false]
    exact .noBody
  | some body =>
    by_cases version : head.version = .http11
    · exact setLength_http11 head body version
    · simp only [Client.setLength, version, not_false_eq_true, if_true]
      cases parsed : contentLengthParseAll head.headers with
      | some n =>
        simp only [MultiMap.getAll_remove, if_true, cl_te, if_false]
        exact .counted (.inl version) parsed
      | none =>
        cases body with
        | known n =>
          simp only [setContentLength, MultiMap.getAll_insert, MultiMap.getAll_remove, te_cl, if_true, if_false]
          exact .repaired (.inl version) parsed
        | unknown =>
          simp only [MultiMap.getAll_remove, if_true, cl_te, if_false]
          exact .dropped parsed (.inl version)

/-! ### Conflicting fields -/

/-- The framing fields that are left do not contradict each other, and a chunked body is announced last. -/
def SafeHead (head : RequestHead) (body : Option BodyLength) : Prop :=
  ¬ ((Client.setLength head body).1.contains .transferEncoding = true ∧
      (Client.setLength head body).1.contains .contentLength = true) ∧
  ((Client.setLength head body).2.isChunked = true →
    EndsInChunked ((Client.setLength head body).1.getAll .transferEncoding))

/-- HTTP/1.1 with a body, a `Content-Length` that does not parse, and a `Transfer-Encoding` that is there or is
added. -/
def Conflicting (head : RequestHead) (body : Option BodyLength) : Prop :=
  head.version = .http11 ∧ body ≠ none ∧ head.headers.contains .contentLength = true ∧
  contentLengthParseAll head.headers = none ∧
  (head.headers.contains .transferEncoding = true ∨ body = some .unknown ∧ ¬ NeverChunked head.subject.method)

theorem isChunked_length (n : Nat) : (Encoder.length n).isChunked = false := rfl

/-- `Content-Length` is only removed next to `Transfer-Encoding` when it parses, so both stay exactly when it is there
and does not. -/
theorem safeHead_iff (head : RequestHead) (body : Option BodyLength) : SafeHead head body ↔ ¬ Conflicting head body := by
  have cases_ := setLength_cases head body
  unfold SafeHead Conflicting
  simp only [MultiMap.contains_iff]
  generalize (Client.setLength head body).1.getAll .transferEncoding = te at cases_ ⊢
  generalize (Client.setLength head body).1.getAll .contentLength = cl at cases_ ⊢
  generalize (Client.setLength head body).2 = encoder at cases_ ⊢
  cases cases_ with
  | noBody => simp [isChunked_length]
  | counted plain parsed => simp [isChunked_length, parsed]
  | repaired plain parsed => simp [isChunked_length]; tauto
  | dropped parsed cannot => simp [isChunked_length]; tauto
  | announced version absent parsed can last chunked =>
    have there := last.ne_nil
    simp [version, parsed, can, last, there]
  | respected version present last chunked =>
    have there := last.ne_nil
    cases parsed : contentLengthParseAll head.headers with
    | some n => simp [last]
    | none => simp [last, there, version, present]

/-- A valid coding next to a length that is not a number. -/
def conflictingHead : RequestHead where
  version := .http11
  subject := ⟨.post, ascii "/"⟩
  headers :=
    (MultiMap.empty.insert .transferEncoding (.fromStatic "chunked" Headers.chunked_valid)).insert .contentLength
      (.fromStatic "abc")

theorem conflictingHead_unsafe : ¬ SafeHead conflictingHead (some (.known 5)) :=
  fun safe => safe.1 ⟨by decide, by decide⟩

end Hwire.Http1
