import Hwire.Http1.RequestHead
import Hwire.Lib.Reader

/-!
# The recipient of requests

A recipient reads a request from the bytes alone: the head up to its empty line, the framing from the fields of the
head, and then a body of that framing. What a finished exchange has put on the wire is read as its request, whatever
follows it.
-/

namespace Hwire.Http1
open Lib Headers LawfulBuf

/-! ### The reader -/

/-- The elements of all fields of this name, whose name is read without regard to case. -/
def textElements (name : Bytes) (fields : List (Bytes × Bytes)) : List Bytes :=
  (fields.filter fun field => eqIgnoreAsciiCase field.1 name).flatMap fun field => (splitComma field.2).map trim

def readDecimal (s : Bytes) : Option Nat :=
  if s ≠ [] ∧ s.all isDigit = true then some (readDigits 10 0 (s.map digitValue)) else none

/-- A final coding `chunked` decides, then lengths that all are one number. -/
def readFraming (fields : List (Bytes × Bytes)) : Option BodyFraming :=
  let codings := textElements (ascii "transfer-encoding") fields
  if codings.getLast?.any fun coding => eqIgnoreAsciiCase coding chunked then some .chunked
  else
    match textElements (ascii "content-length") fields with
    | [] => if codings = [] then some (.length 0) else none
    | length :: lengths =>
      (readDecimal length).bind fun n => if lengths.all fun other => readDecimal other = some n then some (.length n) else none

/-- The size of a chunk. An extension is skipped. -/
def readSizeLine (line : Bytes) : Option Nat :=
  let tail := (line.dropWhile isHex).dropWhile isOws
  if line.takeWhile isHex ≠ [] ∧ (tail = [] ∨ tail.head? = some 59) then some (hexRead 0 (line.takeWhile isHex)) else none

def readLines : Reader UInt8 (List Bytes) := fun text => linesUntilEmpty crlf text.length text

/-- The data and the trailer fields of a body. -/
structure BodyText where
  data : Bytes
  trailers : List (Bytes × Bytes) := []
  deriving DecidableEq

def readTrailers : Reader UInt8 BodyText :=
  (readLines.accept fun lines => lines.mapM readField).map fun trailers => { data := [], trailers }

def readChunk (size : Nat) : Reader UInt8 Bytes :=
  (Reader.take size).andThen fun data => (Reader.expect crlf).map fun _ => data

def readChunks : Nat → Reader UInt8 BodyText
  | 0 => fun _ => none
  | fuel + 1 =>
    (Reader.accept readSizeLine (cut crlf)).andThen fun size =>
      if size = 0 then readTrailers
      else (readChunk size).andThen fun data => (readChunks fuel).map fun later => { later with data := data ++ later.data }

def readBody : BodyFraming → Reader UInt8 BodyText
  | .length n => (Reader.take n).map fun data => { data }
  | .chunked => fun text => readChunks text.length text

structure RequestText where
  head : HeadText
  body : BodyText
  deriving DecidableEq

def readRequest : Reader UInt8 RequestText :=
  Reader.andThen readHead fun head =>
    match readFraming head.fields with
    | some framing => (readBody framing).map fun body => { head, body }
    | none => fun _ => none

/-! ### Framing -/

theorem trim_cons {b : UInt8} (white : isOws b = true) (s : Bytes) : trim (b :: s) = trim s := by
  rw [trim, List.dropWhile_cons, if_pos white, trim]

/-- White space in front of a value is in front of its first element. -/
theorem map_trim_splitComma (s : Bytes) : (splitComma (s.dropWhile isOws)).map trim = (splitComma s).map trim := by
  induction s with
  | nil => rfl
  | cons b s ih =>
    rw [List.dropWhile_cons]
    split
    · next white =>
      have other : (b == COMMA) = false := by
        rw [← Bool.not_eq_true, beq_iff_eq]
        rintro rfl
        exact absurd white (by decide)
      obtain ⟨first, later, parts⟩ := List.exists_cons_of_ne_nil (splitComma_ne_nil s)
      have split : splitComma (b :: s) = (b :: first) :: later := by
        rw [splitComma, List.splitOn_cons_eq_if_modifyHead, if_neg (by simp [other]), ← splitComma, parts]
        rfl
      rw [ih, parts, split, List.map_cons, List.map_cons, trim_cons white]
    · rfl

theorem textElements_headText (head : RequestHead) (body : Option BodyLength) (name : HeaderName) :
    textElements name.bytes (headText head body).fields =
      (elements (fieldValues name (emittedFields head body))).map trim := by
  rw [textElements, headText, List.filter_map, List.flatMap_map, elements, List.map_flatMap, fieldValues]
  generalize emittedFields head body = fields
  induction fields with
  | nil => rfl
  | cons field fields ih =>
    rw [List.filter_cons, List.filterMap_cons]
    by_cases same : eqIgnoreAsciiCase field.1 name.bytes = true
    · simp only [Function.comp, same, if_true, List.flatMap_cons, map_trim_splitComma] at ih ⊢
      exact congrArg _ ih
    · simp only [Function.comp, same]
      exact ih

theorem readDecimal_eq_some {s : Bytes} {n : Nat} : readDecimal s = some n ↔ IsDecimal s n := by
  unfold readDecimal IsDecimal
  split
  · next digits => simp [digits.1, digits.2]
  · next other =>
    simp only [reduceCtorEq, false_iff]
    intro decimal
    exact other ⟨decimal.1, decimal.2.1⟩

theorem getLast?_elements (values : List HeaderValue) :
    (elements values).getLast? = values.getLast?.bind fun value => (splitComma value.bytes).getLast? := by
  rcases List.eq_nil_or_concat values with rfl | ⟨earlier, value, rfl⟩
  · rfl
  · have last := List.getLast?_isSome.mpr (splitComma_ne_nil value.bytes)
    rw [List.concat_eq_append, List.getLast?_concat, elements, List.flatMap_append, List.flatMap_singleton,
      List.getLast?_append, Option.bind_some, Option.or_of_isSome last]

theorem endsInChunked_iff (values : List HeaderValue) :
    ((elements values).map trim).getLast?.any (fun coding => eqIgnoreAsciiCase coding chunked) = true ↔
      EndsInChunked values := by
  rw [List.getLast?_map, getLast?_elements]
  constructor
  · intro found
    obtain ⟨coding, last, same⟩ := (Option.any_eq_true _ _).mp found
    obtain ⟨raw, rawLast, rfl⟩ := Option.map_eq_some_iff.mp last
    obtain ⟨value, valueLast, codingLast⟩ := Option.bind_eq_some_iff.mp rawLast
    exact ⟨value, raw, valueLast, codingLast, same⟩
  · rintro ⟨value, coding, valueLast, codingLast, same⟩
    rw [valueLast, Option.bind_some, codingLast]
    exact same

/-- The framing that a recipient finds in the text is the one that the fields of the head declare. -/
theorem readFraming_headText {head : RequestHead} {body : Option BodyLength} {framing : BodyFraming}
    (derived : DerivedFraming (fieldValues .transferEncoding (emittedFields head body))
      (fieldValues .contentLength (emittedFields head body)) framing) :
    readFraming (headText head body).fields = some framing := by
  have codings := textElements_headText head body .transferEncoding
  have lengths := textElements_headText head body .contentLength
  unfold readFraming
  rw [show ascii "transfer-encoding" = HeaderName.transferEncoding.bytes from rfl,
    show ascii "content-length" = HeaderName.contentLength.bytes from rfl, codings, lengths]
  generalize fieldValues .transferEncoding (emittedFields head body) = te at derived
  generalize fieldValues .contentLength (emittedFields head body) = cl at derived
  have final := endsInChunked_iff te
  dsimp only
  cases derived with
  | chunked ends => rw [if_pos (final.mpr ends)]
  | @length n other ne all =>
    rw [if_neg (mt final.mp other)]
    have decimals : ∀ s ∈ (elements cl).map trim, readDecimal s = some n := by
      intro s member
      obtain ⟨v, inside, rfl⟩ := List.mem_map.mp member
      exact readDecimal_eq_some.mpr (all v inside)
    obtain ⟨first, later, parts⟩ := List.exists_cons_of_ne_nil (mt elements_eq_nil.mp ne)
    rw [parts] at decimals ⊢
    obtain ⟨head, others⟩ := List.forall_mem_cons.mp decimals
    rw [List.map_cons]
    dsimp only
    rw [head, Option.bind_some, if_pos]
    exact List.all_eq_true.mpr fun s member => decide_eq_true (others s member)
  | none noTe noCl =>
    subst noTe noCl
    rfl

/-! ### Chunked bodies -/

theorem reads_line {line : Bytes} (free : CR ∉ line) : Reads (cut crlf) (line ++ crlf) line := by
  intro rest
  rw [List.append_assoc]
  exact cut_append free

theorem reads_lines {lines : List Bytes} (fresh : ∀ line ∈ lines, line ≠ [] ∧ CR ∉ line) :
    Reads readLines (lines.flatMap (· ++ crlf) ++ crlf) lines := by
  intro rest
  rw [List.append_assoc]
  exact linesUntilEmpty_text fresh

/-- What follows the white space behind the digits, without the line end. -/
def LineTail.extText (t : LineTail) : Bytes := t.ext.elim [] (59 :: ·)

namespace SizeLine

/-- A size line without its end. -/
def text (l : SizeLine) : Bytes := l.digits ++ (l.tail.lws ++ l.tail.extText)

theorem render_eq (l : SizeLine) : l.render = l.text ++ crlf := by
  unfold render LineTail.render text LineTail.extText
  cases l.tail.ext with
  | none => simp
  | some ext => simp

theorem cr_not_mem_text (l : SizeLine) : CR ∉ l.text := by
  have notHex : isHex CR = false := by decide
  have notLws : ¬ (CR = HTAB ∨ CR = SP) := by decide
  have notMark : CR ≠ 59 := by decide
  rw [text, List.mem_append, List.mem_append]
  rintro (digit | lws | ext)
  · exact absurd (l.digits_hex _ digit) (by simp [notHex])
  · exact notLws (l.tail.lws_ok _ lws)
  · cases there : l.tail.ext with
    | none => simp [LineTail.extText, there] at ext
    | some bytes =>
      have inside : CR ∈ bytes := by simpa [LineTail.extText, there, notMark] using ext
      exact (l.tail.ext_ok CR (by rw [there]; exact inside)).1 rfl

/-- The size is read off the digits, whatever follows them on the line. -/
theorem readSizeLine_text (l : SizeLine) : readSizeLine l.text = some l.value := by
  have ends : l.tail.extText = [] ∨ l.tail.extText.head? = some 59 := by
    unfold LineTail.extText
    cases l.tail.ext with
    | none => exact .inl rfl
    | some ext => exact .inr rfl
  have kept : l.tail.extText.dropWhile isOws = l.tail.extText := by
    unfold LineTail.extText
    cases l.tail.ext with
    | none => rfl
    | some ext => rfl
  have stops : (l.tail.lws ++ l.tail.extText).takeWhile isHex = [] := by
    cases white : l.tail.lws with
    | nil =>
      unfold LineTail.extText
      cases l.tail.ext with
      | none => rfl
      | some ext => rfl
    | cons b rest =>
      rcases l.tail.lws_ok b (by simp [white]) with rfl | rfl
      · rfl
      · rfl
  have digits : l.text.takeWhile isHex = l.digits := by
    rw [text, List.takeWhile_append_of_pos l.digits_hex, stops, List.append_nil]
  have rest : l.text.dropWhile isHex = l.tail.lws ++ l.tail.extText := by
    have whole := List.takeWhile_append_dropWhile (p := isHex) (l := l.text)
    rw [digits] at whole
    exact List.append_cancel_left whole
  have white : ∀ b ∈ l.tail.lws, isOws b = true := by
    intro b member
    rcases l.tail.lws_ok b member with rfl | rfl
    · decide
    · decide
  have skipped : (l.tail.lws ++ l.tail.extText).dropWhile isOws = l.tail.extText := by
    rw [List.dropWhile_append_of_pos white, kept]
  rw [readSizeLine, digits, rest, skipped, if_pos ⟨l.digits_ne, ends⟩]
  rfl

theorem reads_render (l : SizeLine) : Reads (Reader.accept readSizeLine (cut crlf)) l.render l.value := by
  rw [render_eq]
  exact (reads_line l.cr_not_mem_text).accept l.readSizeLine_text

end SizeLine

theorem reads_chunk (c : Chunk) : Reads (readChunk c.line.value) (c.data ++ crlf) c.data := by
  rw [← c.length]
  refine (Reads.take c.data).andThen ?_
  exact (Reads.expect crlf).map fun _ => c.data

/-- Every chunked body of the grammar is read as its data, where its trailer lines are fields. -/
theorem reads_chunks {b : ChunkedBody} {fields : List (Bytes × Bytes)} {fuel : Nat}
    (trailers : (b.trailers.map TrailerLine.bytes).mapM readField = some fields) (enough : b.chunks.length < fuel) :
    Reads (readChunks fuel) b.render { data := b.data, trailers := fields } := by
  obtain ⟨chunks, last, last_zero, lines⟩ := b
  induction chunks generalizing fuel with
  | nil =>
    obtain ⟨fuel, rfl⟩ := Nat.exists_eq_add_of_lt enough
    have fresh : ∀ line ∈ lines.map TrailerLine.bytes, line ≠ [] ∧ CR ∉ line := by
      intro line member
      obtain ⟨trailer, -, rfl⟩ := List.mem_map.mp member
      exact ⟨trailer.nonempty, trailer.noCr⟩
    have behind := ((reads_lines fresh).accept trailers).map fun trailers => ({ data := [], trailers } : BodyText)
    rw [List.flatMap_map] at behind
    refine last.reads_render.andThen ?_
    rw [if_pos last_zero]
    exact behind
  | cons chunk chunks ih =>
    obtain ⟨fuel, rfl⟩ : ∃ n, fuel = n + 1 := Nat.exists_eq_succ_of_ne_zero (by omega)
    have shorter : chunks.length < fuel := by simpa using enough
    have later := @ih fuel trailers shorter
    rw [show (⟨chunk :: chunks, last, last_zero, lines⟩ : ChunkedBody) =
      ChunkedBody.consChunk ⟨chunks, last, last_zero, lines⟩ chunk from rfl, ChunkedBody.render_consChunk]
    refine chunk.line.reads_render.andThen ?_
    rw [if_neg (Nat.pos_iff_ne_zero.mp chunk.positive)]
    refine (reads_chunk chunk).andThen ?_
    exact later.map fun later => { later with data := chunk.data ++ later.data }

/-! ### What a finished body carries -/

/-- The bytes of a body that an encoder has brought to its end, with the data and the trailer fields in them. -/
inductive EncodedAs : Encoder → Bytes → Bytes → HeaderMap → Prop where
  | length (data : Bytes) : EncodedAs (.length data.length) data data .empty
  | chunked {trailers : Option (List HeaderName)} {chunks : List Bytes} : ChunksOk chunks →
      EncodedAs { kind := .chunked trailers } (chunks.flatMap chunkBytes ++ lastChunk) chunks.flatten .empty
  | trailers {allowed : List HeaderName} {chunks : List Bytes} (fields : HeaderMap) : ChunksOk chunks →
      EncodedAs { kind := .chunked (some allowed) }
        (chunks.flatMap chunkBytes ++ (ascii "0\r\n" ++ writeHeaders fields ++ crlf)) chunks.flatten fields

def Encoder.framing (e : Encoder) : BodyFraming :=
  match e.kind with
  | .chunked _ => .chunked
  | .length n => .length n

def bodyText (data : Bytes) (fields : HeaderMap) : BodyText where
  data := data
  trailers := fields.iter.map fun field => (field.1.bytes, field.2.bytes.dropWhile isOws)

theorem trailerLine_bytes (field : HeaderName × HeaderValue) :
    (trailerLine field).bytes = emittedLine false (field.1.bytes, field.2) := by
  have separator : ascii ": " = [COLON, SP] := by decide
  simp [trailerLine, emittedLine, padding, separator]

theorem readField_trailers (fields : HeaderMap) :
    ((fields.iter.map trailerLine).map TrailerLine.bytes).mapM readField = some (bodyText [] fields).trailers := by
  have lines : (fields.iter.map trailerLine).map TrailerLine.bytes =
      (fields.iter.map fun field => (field.1.bytes, field.2)).map (emittedLine false) := by
    rw [List.map_map, List.map_map]
    exact List.map_congr_left fun field _ => trailerLine_bytes field
  have tokens : ∀ field ∈ fields.iter.map fun field => (field.1.bytes, field.2), IsToken field.1 := by
    intro field member
    obtain ⟨entry, -, rfl⟩ := List.mem_map.mp member
    exact isToken_name entry.1
  rw [lines, mapM_readField tokens, List.map_map]
  rfl

/-- A chunked body is read whatever its length is, since the text is fuel enough for it. -/
theorem reads_chunkedBody {b : ChunkedBody} {fields : List (Bytes × Bytes)}
    (trailers : (b.trailers.map TrailerLine.bytes).mapM readField = some fields) :
    Reads (readBody .chunked) b.render { data := b.data, trailers := fields } := by
  intro rest
  have each (chunks : List Chunk) : chunks.length ≤ (chunks.flatMap Chunk.render).length := by
    induction chunks with
    | nil => exact Nat.le_refl 0
    | cons chunk chunks ih =>
      have pos : 0 < chunk.render.length := by simp [Chunk.render, crlf]
      rw [List.length_cons, List.flatMap_cons, List.length_append]
      omega
  refine reads_chunks trailers ?_ rest
  have ends : 0 < b.trailerSection.length := by simp [ChunkedBody.trailerSection, crlf]
  have chunks := each b.chunks
  simp only [ChunkedBody.render, List.length_append]
  omega

/-- The trailer section of a body without trailers is an empty one. -/
theorem plainBody_withTrailers {chunks : List Bytes} (ok : ∀ c ∈ chunks, c ≠ [] ∧ c.length < 2 ^ 64) (fields : HeaderMap) :
    ({ plainBody chunks ok with trailers := fields.iter.map trailerLine } : ChunkedBody).render =
      chunks.flatMap chunkBytes ++ (ascii "0\r\n" ++ writeHeaders fields ++ crlf) := by
  have render := (plainBody_spec chunks ok).1
  have last : lastChunk = ascii "0\r\n" ++ crlf := by decide
  rw [ChunkedBody.render, ChunkedBody.trailerSection, last, ← List.append_assoc, ← List.append_assoc,
    show (plainBody chunks ok).trailers = [] from rfl, List.flatMap_nil, List.append_nil,
    List.append_cancel_right_eq] at render
  show (plainBody chunks ok).chunks.flatMap Chunk.render ++ (plainBody chunks ok).last.render ++
    ((fields.iter.map trailerLine).flatMap TrailerLine.render ++ crlf) = _
  rw [render, writeHeaders_eq]
  simp only [List.append_assoc]

theorem EncodedAs.reads {e : Encoder} {sent data : Bytes} {fields : HeaderMap} (encodedAs : EncodedAs e sent data fields) :
    Reads (readBody e.framing) sent (bodyText data fields) := by
  cases encodedAs with
  | length => exact (Reads.take _).map fun data => ({ data } : BodyText)
  | @chunked trailers chunks ok =>
    obtain ⟨render, data, -⟩ := plainBody_spec chunks ok
    have reads := @reads_chunkedBody (plainBody chunks ok) [] rfl
    rw [render, data] at reads
    exact reads
  | @trailers allowed chunks fields ok =>
    have reads := @reads_chunkedBody { plainBody chunks ok with trailers := fields.iter.map trailerLine } _
      (readField_trailers fields)
    rw [plainBody_withTrailers ok, show ({ plainBody chunks ok with trailers := fields.iter.map trailerLine } :
      ChunkedBody).data = chunks.flatten from (plainBody_spec chunks ok).2.1] at reads
    exact reads

/-! ### Reading a request back -/

/-- The fields of the encoded head declare the framing of its encoder, unless a stale length is left. -/
theorem derivedFraming_encoder {head : RequestHead} {body : Option BodyLength}
    (plain : head.extensions.onPreserveHeader = none) (small : ∀ n, body = some (.known n) → n < 2 ^ 64)
    (fresh : ¬ StaleLength head body) :
    DerivedFraming (fieldValues .transferEncoding (emittedFields head body))
      (fieldValues .contentLength (emittedFields head body)) (Client.setLength head body).2.framing := by
  have cases_ := setLength_cases head body
  unfold StaleLength at fresh
  rw [fieldValues_emitted plain, fieldValues_emitted plain]
  simp only [MultiMap.contains_iff, MultiMap.contains_eq_false, contentLengthParseAll] at cases_ fresh ⊢
  generalize (Client.setLength head body).1.getAll .transferEncoding = te at cases_ ⊢
  generalize (Client.setLength head body).1.getAll .contentLength = cl at cases_ ⊢
  generalize (Client.setLength head body).2 = encoder at cases_ ⊢
  have dropped (zero : head.headers.getAll .contentLength ≠ [] →
      contentLengthParseAllValues (head.headers.getAll .contentLength) = some 0) :
      DerivedFraming [] (head.headers.getAll .contentLength) (.length 0) := by
    by_cases absent : head.headers.getAll .contentLength = []
    · exact .none rfl absent
    · exact derivedFraming_of_parsed (zero absent)
  have chunkedFraming {e : Encoder} (chunked : ChunkedEncoder e) : e.framing = .chunked := by
    obtain ⟨trailers, kind, -⟩ := chunked
    rw [Encoder.framing, kind]
  cases cases_ with
  | noBody =>
    apply dropped
    intro there
    by_contra other
    exact fresh ⟨there, .inl ⟨rfl, other⟩⟩
  | counted plain parsed => exact derivedFraming_of_parsed parsed
  | @repaired n plain parsed => exact derivedFraming_of_parsed (parsed_ofNat (small n rfl))
  | dropped parsed cannot =>
    rw [contentLengthParseAll] at parsed
    apply dropped
    intro there
    exact absurd ⟨there, .inr ⟨rfl, parsed, cannot⟩⟩ fresh
  | announced version absent parsed can last chunked =>
    rw [chunkedFraming chunked]
    exact .chunked last
  | respected version present last chunked =>
    rw [chunkedFraming chunked]
    exact .chunked last

/-- A request that a recipient can read back: a head of a known version that is well formed, with fields of its own. -/
structure Readable (head : RequestHead) (body : Option BodyLength) : Prop where
  version : head.version = .http10 ∨ head.version = .http11
  formed : WellFormedHead head
  plain : head.extensions.onPreserveHeader = none
  fresh : ¬ StaleLength head body

/-- What is sent for a request that is finished is read as its head and as what its body carries. -/
theorem reads_request {head : RequestHead} {body : Option BodyLength} {sent data : Bytes} {fields : HeaderMap}
    (readable : Readable head body) (small : ∀ n, body = some (.known n) → n < 2 ^ 64)
    (encodedAs : EncodedAs (Client.setLength head body).2 sent data fields) :
    ∃ bytes, Client.encode head body = some (bytes, (Client.setLength head body).2) ∧
      Reads readRequest (bytes ++ sent) { head := headText head body, body := bodyText data fields } := by
  obtain ⟨bytes, encoder, encoded, readsHead, -⟩ := encode_readHead readable.version readable.formed body
  obtain rfl : encoder = (Client.setLength head body).2 := by
    obtain ⟨text, -, eq⟩ := Option.map_eq_some_iff.mp encoded
    exact (Prod.mk.inj eq).2.symm
  refine ⟨bytes, encoded, ?_⟩
  have framing := readFraming_headText (derivedFraming_encoder readable.plain small readable.fresh)
  refine Reads.andThen readsHead ?_
  rw [framing]
  exact encodedAs.reads.map fun body => ({ head := headText head _, body } : RequestText)

end Hwire.Http1
