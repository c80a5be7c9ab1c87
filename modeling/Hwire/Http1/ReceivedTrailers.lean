import Hwire.Http1.RequestHead

/-!
# Received trailers

The trailer section of a chunked body as a list of field lines, and what the trailers frame holds of them. The fields go
into the map one after the other, where a later one replaces those of its name.
-/

namespace Hwire.Http1
open Lib Headers LawfulRead

/-! ### Field lines -/

/-- A field line as its parts, with the name as it is spelled and white space around the value. -/
structure FieldLine where
  name : Bytes
  before : Bytes
  value : HeaderValue
  after : Bytes
  token : IsToken name
  blank : before.all isOws = true ∧ after.all isOws = true
  trimmed : trim value.bytes = value.bytes

namespace FieldLine

def bytes (line : FieldLine) : Bytes := line.name ++ (COLON :: (line.before ++ line.value.bytes ++ line.after))

def field (line : FieldLine) : Bytes × HeaderValue := (line.name, line.value)

theorem cr_not_mem (line : FieldLine) : CR ∉ line.bytes := by
  have ows {s : Bytes} (blank : s.all isOws = true) : CR ∉ s := by
    intro member
    exact absurd (List.all_eq_true.mp blank _ member) (by decide)
  have separator : CR ≠ COLON := by decide
  simp only [bytes, List.mem_append, List.mem_cons, not_or]
  exact ⟨not_mem_of_isToken line.token (by decide), separator, ⟨ows line.blank.1, cr_not_mem_value _⟩, ows line.blank.2⟩

def trailerLine (line : FieldLine) : TrailerLine := ⟨line.bytes, by simp [bytes], line.cr_not_mem⟩

end FieldLine

/-- What the parser reports of a section of field lines: one name and one value for each, in their order. -/
def OneFieldPerLine [Httparse] : Prop := ∀ lines : List FieldLine,
  Httparse.parseHeaders ((lines.map FieldLine.trailerLine).flatMap TrailerLine.render ++ crlf) lines.length =
    .ok (some (lines.map fun line => (line.name, line.value.bytes)))

/-! ### The map of the trailers -/

theorem toLower_isNameByte {b : UInt8} : isTokenByte b = true → isNameByte (toLower b) = true :=
  byte_forall (P := fun b => isTokenByte b = true → isNameByte (toLower b) = true) (by decide +kernel) b

/-- A token is a header name as long as it is not too long for one. -/
theorem fromBytes_token {s : Bytes} (token : IsToken s) :
    (∃ name, HeaderName.fromBytes s = some name) ↔ s.length ≤ 65535 := by
  have names : (s.map toLower).all isNameByte = true := by
    rw [List.all_map, List.all_eq_true]
    intro b member
    exact toLower_isNameByte (List.all_eq_true.mp token.2 b member)
  unfold HeaderName.fromBytes
  simp only [names, List.length_map, List.map_eq_nil_iff, ne_eq, token.1, not_false_eq_true, true_and, and_true]
  split
  · next short => simp [short]
  · next long => simp [long]

theorem fromBytes_value (value : HeaderValue) : HeaderValue.fromBytes value.bytes = some value := by
  unfold HeaderValue.fromBytes
  exact dif_pos value.valid

/-- The values in the order of their lines. -/
def valuesIn (name : HeaderName) (lines : List FieldLine) : List HeaderValue := fieldValues name (lines.map FieldLine.field)

theorem valuesIn_cons (name : HeaderName) (line : FieldLine) (lines : List FieldLine) :
    valuesIn name (line :: lines) =
      if line.name.map toLower = name.bytes then line.value :: valuesIn name lines else valuesIn name lines := by
  have spelled : eqIgnoreAsciiCase line.field.1 name.bytes = true ↔ line.name.map toLower = name.bytes :=
    eqIgnoreAsciiCase_name
  unfold valuesIn fieldValues
  rw [List.map_cons, List.filterMap_cons]
  by_cases same : line.name.map toLower = name.bytes
  · rw [if_pos (spelled.mpr same), if_pos same]
    rfl
  · rw [if_neg (mt spelled.mp same), if_neg same]

def distinctNames (lines : List FieldLine) : Prop := (lines.map fun line => line.name.map toLower).Nodup

def ShortNames (lines : List FieldLine) : Prop := ∀ line ∈ lines, line.name.length ≤ 65535

theorem valuesIn_eq_nil {name : HeaderName} {lines : List FieldLine} :
    valuesIn name lines = [] ↔ name.bytes ∉ lines.map fun line => line.name.map toLower := by
  induction lines with
  | nil => simp [valuesIn, fieldValues]
  | cons line lines ih =>
    rw [valuesIn_cons, List.map_cons, List.mem_cons, not_or, ← ih]
    split
    · next same => simp [same]
    · next other => simp [Ne.symm other]

theorem distinctNames_iff {lines : List FieldLine} (short : ShortNames lines) :
    distinctNames lines ↔ ∀ name, (valuesIn name lines).length ≤ 1 := by
  induction lines with
  | nil => simp [distinctNames, valuesIn, fieldValues]
  | cons line lines ih =>
    obtain ⟨fits, later⟩ := List.forall_mem_cons.mp short
    unfold distinctNames at ih ⊢
    rw [List.map_cons, List.nodup_cons, ih later]
    obtain ⟨own, found⟩ := (fromBytes_token line.token).mpr fits
    have spelled : line.name.map toLower = own.bytes := eqIgnoreAsciiCase_name.mp (HeaderName.fromBytes_eq_some.mp found)
    rw [spelled, ← valuesIn_eq_nil]
    constructor
    · rintro ⟨alone, others⟩ name
      rw [valuesIn_cons]
      split
      · next same =>
        have names : own = name := (eqIgnoreAsciiCase_names own name).mp (by rw [eqIgnoreAsciiCase_name, own.toLower_bytes, ← spelled, same])
        rw [← names, alone]
        exact Nat.le_refl 1
      · exact others name
    · intro few
      refine ⟨?_, ?_⟩
      · have single := few own
        rw [valuesIn_cons, if_pos spelled, List.length_cons] at single
        exact List.eq_nil_of_length_eq_zero (by omega)
      · intro name
        have whole := few name
        rw [valuesIn_cons] at whole
        split at whole
        · rw [List.length_cons] at whole
          omega
        · exact whole

namespace Chunked

/-- The step of the loop in `decode_trailers`. -/
def insertField (trailers : HeaderMap) (header : Bytes × Bytes) : Except IoError HeaderMap :=
  match HeaderName.fromBytes header.1 with
  | none => .error ⟨.invalidInput, "Invalid header name"⟩
  | some name =>
    match HeaderValue.fromBytes header.2 with
    | none => .error ⟨.invalidInput, "Invalid header value"⟩
    | some value => .ok (trailers.insert name value)

theorem trailerFields_eq (headers : List (Bytes × Bytes)) :
    trailerFields headers = headers.foldlM insertField .empty := rfl

theorem insertField_line {acc : HeaderMap} {line : FieldLine} {name : HeaderName}
    (found : HeaderName.fromBytes line.name = some name) :
    insertField acc (line.name, line.value.bytes) = .ok (acc.insert name line.value) := by
  simp only [insertField, found, fromBytes_value]

/-- Of every name the last value is left. -/
theorem foldlM_insertField {lines : List FieldLine} (short : ShortNames lines) (acc : HeaderMap) :
    ∃ trailers, (lines.map fun line => (line.name, line.value.bytes)).foldlM insertField acc = .ok trailers ∧
      ∀ name, trailers.getAll name = ((valuesIn name lines).getLast?.map fun value => [value]).getD (acc.getAll name) := by
  induction lines generalizing acc with
  | nil => exact ⟨acc, rfl, fun _ => rfl⟩
  | cons line lines ih =>
    obtain ⟨fits, later⟩ := List.forall_mem_cons.mp short
    obtain ⟨own, found⟩ := (fromBytes_token line.token).mpr fits
    have spelled : line.name.map toLower = own.bytes := eqIgnoreAsciiCase_name.mp (HeaderName.fromBytes_eq_some.mp found)
    obtain ⟨trailers, run, values⟩ := ih later (acc.insert own line.value)
    refine ⟨trailers, ?_, ?_⟩
    · rw [List.map_cons, List.foldlM_cons, insertField_line found]
      exact run
    · intro name
      rw [values, valuesIn_cons, MultiMap.getAll_insert, spelled]
      by_cases same : name = own
      · subst same
        rw [if_pos rfl, if_pos rfl, List.getLast?_cons]
        cases (valuesIn name lines).getLast? with
        | none => rfl
        | some last => rfl
      · have other : own.bytes ≠ name.bytes := by
          intro bytes
          exact same ((eqIgnoreAsciiCase_names name own).mp (by rw [eqIgnoreAsciiCase_name, name.toLower_bytes, bytes]))
        rw [if_neg same, if_neg other]

theorem shortNames_of_ok {lines : List FieldLine} {acc trailers : HeaderMap}
    (run : (lines.map fun line => (line.name, line.value.bytes)).foldlM insertField acc = .ok trailers) :
    ShortNames lines := by
  induction lines generalizing acc with
  | nil => exact fun _ member => absurd member List.not_mem_nil
  | cons line lines ih =>
    rw [List.map_cons, List.foldlM_cons] at run
    cases found : HeaderName.fromBytes line.name with
    | none =>
      simp [insertField, found, bind, Except.bind] at run
    | some name =>
      rw [insertField_line found] at run
      exact List.forall_mem_cons.mpr ⟨(fromBytes_token line.token).mp ⟨name, found⟩, ih run⟩

theorem decodeTrailers_lines [Httparse] (onePerLine : OneFieldPerLine) (lines : List FieldLine) :
    decodeTrailers ((lines.map FieldLine.trailerLine).flatMap TrailerLine.render ++ crlf) lines.length =
      (lines.map fun line => (line.name, line.value.bytes)).foldlM insertField .empty := by
  rw [decodeTrailers, onePerLine lines]
  exact trailerFields_eq _

end Chunked

/-! ### Whole bodies -/

/-- The trailers frame holds the values of all lines, if there are lines. -/
def AllReceived (lines : List FieldLine) (frames : List Frame) : Prop :=
  lines = [] ∧ framesTrailers frames = [] ∨
    ∃ trailers, framesTrailers frames = [trailers] ∧ ∀ name, trailers.getAll name = valuesIn name lines

theorem getLast?_eq_self {α : Type} {l : List α} : (l.getLast?.map fun value => [value]).getD [] = l ↔ l.length ≤ 1 := by
  cases l with
  | nil => simp
  | cons x l =>
    cases l with
    | nil => simp
    | cons y l =>
      constructor
      · intro same
        have lengths := congrArg List.length same
        simp [List.getLast?_cons] at lengths
      · intro short
        simp at short

/-- What `decode_trailers` makes of the lines holds all of them exactly when no name is used twice. -/
theorem decodedTrailers_iff [Httparse] (onePerLine : OneFieldPerLine) (lines : List FieldLine) :
    (∃ trailers, Chunked.decodeTrailers ((lines.map FieldLine.trailerLine).flatMap TrailerLine.render ++ crlf)
        lines.length = .ok trailers ∧ ∀ name, trailers.getAll name = valuesIn name lines) ↔
      distinctNames lines ∧ ShortNames lines := by
  rw [Chunked.decodeTrailers_lines onePerLine]
  constructor
  · rintro ⟨trailers, run, all⟩
    have short := Chunked.shortNames_of_ok run
    obtain ⟨same, run', last⟩ := Chunked.foldlM_insertField short .empty
    obtain rfl : trailers = same := Except.ok.inj (run.symm.trans run')
    refine ⟨(distinctNames_iff short).mpr ?_, short⟩
    intro name
    apply getLast?_eq_self.mp
    exact (last name).symm.trans (all name)
  · rintro ⟨distinct, short⟩
    obtain ⟨trailers, run, last⟩ := Chunked.foldlM_insertField short .empty
    refine ⟨trailers, run, ?_⟩
    intro name
    exact (last name).trans (getLast?_eq_self.mpr ((distinctNames_iff short).mp distinct name))

/-- A chunked body whose trailers are field lines, within the limits and cut into reads in any way. Every value of every
line is in the trailers frame exactly when no name is used twice and none is too long for a header name. -/
theorem collect_trailers_iff [Httparse] {B : Type} (onePerLine : OneFieldPerLine) (body : ChunkedBody)
    (lines : List FieldLine) (buffered rest : Bytes) (cuts : List (Option Bytes))
    (h1MaxHeaders h1MaxHeaderSize : Option Nat) (fuel : Nat) (written : body.trailers = lines.map FieldLine.trailerLine)
    (stream : buffered ++ Buffered.cutBytes cuts = body.render ++ rest) (nonempty : ∀ piece ∈ cuts, piece ≠ some [])
    (extensions : body.extLen < CHUNKED_EXTENSIONS_LIMIT) (few : lines.length < h1MaxHeaders.getD DEFAULT_MAX_HEADERS)
    (small : body.trailerSection.length < h1MaxHeaderSize.getD TRAILER_LIMIT)
    (enough : (buffered ++ Buffered.cutBytes cuts).length + cuts.length < fuel) :
    ∃ out decoder reader,
      Decoder.collect fuel (.new .chunked h1MaxHeaders h1MaxHeaderSize) (Buffered.ofCuts buffered cuts : Buffered B) =
        some (out, decoder, reader) ∧
      ((∃ frames, out = .ok frames ∧ AllReceived lines frames) ↔ distinctNames lines ∧ ShortNames lines) := by
  have fed : Fed (Buffered.ofCuts buffered cuts : Buffered B) (body.render ++ rest) (cuts.count none) :=
    stream ▸ Buffered.ofCuts_fed nonempty
  have stalls : cuts.count none ≤ cuts.length := List.count_le_length
  have within : (body.render ++ rest).length + cuts.count none < fuel := by
    rw [← stream]
    omega
  have count : body.trailers.length = lines.length := by rw [written, List.length_map]
  have section_ : body.trailerSection = (lines.map FieldLine.trailerLine).flatMap TrailerLine.render ++ crlf := by
    rw [ChunkedBody.trailerSection, written]
  have fits : (Chunked.fresh h1MaxHeaders h1MaxHeaderSize).Fits body := by
    refine ⟨?_, fun _ => ⟨?_, small⟩⟩
    · show 0 + body.extLen < _
      omega
    · rw [count]
      exact Nat.le_of_lt few
  have decoded := decodedTrailers_iff onePerLine lines
  rw [← section_, ← count] at decoded
  rcases collect_fits fits fed within with ⟨accepted, frames, decoder, reader, _, run, -, trailers, -⟩ |
      ⟨refused, e, decoder, reader, run⟩
  · refine ⟨_, decoder, reader, run, ?_⟩
    unfold AllReceived
    cases lines with
    | nil =>
      have none : framesTrailers frames = [] := by
        rw [trailers, ChunkedBody.decodedTrailers, written]
        rfl
      exact iff_of_true ⟨frames, rfl, .inl ⟨rfl, none⟩⟩ ⟨List.nodup_nil, fun _ member => absurd member List.not_mem_nil⟩
    | cons line lines =>
      have present : body.trailers ≠ [] := by simp [written]
      obtain ⟨-, -, parsed, ok⟩ := accepted.2 present
      have frame : framesTrailers frames = [parsed] := by
        rw [trailers, ChunkedBody.decodedTrailers, ok]
        split
        · next absent => exact absurd absent present
        · rfl
      rw [← decoded, ok]
      constructor
      · rintro ⟨_, same, ⟨absent, -⟩ | ⟨received, found, all⟩⟩
        · cases absent
        · obtain rfl := Except.ok.inj same
          rw [frame] at found
          obtain rfl := List.cons.inj found |>.1
          exact ⟨parsed, rfl, all⟩
      · rintro ⟨received, same, all⟩
        obtain rfl := Except.ok.inj same
        exact ⟨frames, rfl, .inr ⟨parsed, frame, all⟩⟩
  · refine ⟨_, decoder, reader, run, iff_of_false ?_ ?_⟩
    · rintro ⟨frames, same, -⟩
      cases same
    · intro good
      obtain ⟨parsed, ok, -⟩ := decoded.mpr good
      apply refused
      exact ⟨extensions, fun _ => ⟨small, count ▸ few, parsed, ok⟩⟩

/-! ### A section with one name twice -/

def readTrimmed (line : Bytes) : Option (Bytes × Bytes) :=
  (cut [COLON] line).map fun field => (field.1, trim field.2)

/-- A parser that reads line by line and trims the values. -/
@[reducible] def lineParser : Httparse where
  parseResponse _ _ _ := .ok none
  parseHeaders text _ :=
    match linesUntilEmpty crlf text.length text with
    | some (lines, _) => .ok (lines.mapM readTrimmed)
    | none => .ok none
  canonicalReason _ := none

theorem dropWhile_blank {p : UInt8 → Bool} {blank rest : Bytes} (all : blank.all p = true) :
    (blank ++ rest).dropWhile p = rest.dropWhile p := by
  rw [List.dropWhile_append, List.dropWhile_eq_nil_iff.mpr (List.all_eq_true.mp all)]
  rfl

theorem trim_eq_self {value : Bytes} (trimmed : trim value = value) :
    value.dropWhile isOws = value ∧ value.rdropWhile isOws = value := by
  have back := (List.rdropWhile_prefix isOws (value.dropWhile isOws)).length_le
  have front : (value.dropWhile isOws).length ≤ value.length := (List.dropWhile_suffix isOws).length_le
  have whole : ((value.dropWhile isOws).rdropWhile isOws).length = value.length := congrArg List.length trimmed
  have same : value.dropWhile isOws = value := (List.dropWhile_suffix isOws).eq_of_length (by omega)
  refine ⟨same, ?_⟩
  rw [trim, same] at trimmed
  exact trimmed

theorem trim_blank {before value after : Bytes} (front : before.all isOws = true) (back : after.all isOws = true)
    (trimmed : trim value = value) : trim (before ++ value ++ after) = value := by
  obtain ⟨starts, ends⟩ := trim_eq_self trimmed
  have rest : (value ++ after).dropWhile isOws = if value = [] then [] else value ++ after := by
    rw [List.dropWhile_append, starts]
    cases value with
    | nil => simpa using List.all_eq_true.mp back
    | cons b value => rfl
  have cutBack : (value ++ after).rdropWhile isOws = value := by
    have blank : after.reverse.all isOws = true := by rw [List.all_reverse, back]
    rw [List.rdropWhile, List.reverse_append, dropWhile_blank blank]
    exact ends
  rw [trim, List.append_assoc, dropWhile_blank front, rest]
  split
  · next empty => rw [empty, List.rdropWhile_nil]
  · exact cutBack

theorem lineParser_onePerLine : letI := lineParser; OneFieldPerLine := by
  intro lines
  have fresh : ∀ text ∈ lines.map FieldLine.bytes, text ≠ [] ∧ CR ∉ text := by
    intro text member
    obtain ⟨line, -, rfl⟩ := List.mem_map.mp member
    exact ⟨by simp [FieldLine.bytes], line.cr_not_mem⟩
  have text : (lines.map FieldLine.trailerLine).flatMap TrailerLine.render ++ crlf =
      (lines.map FieldLine.bytes).flatMap (· ++ crlf) ++ (crlf ++ []) := by
    rw [List.append_nil, List.flatMap_map, List.flatMap_map]
    rfl
  have cutAll : linesUntilEmpty crlf ((lines.map FieldLine.bytes).flatMap (· ++ crlf) ++ (crlf ++ [])).length
      ((lines.map FieldLine.bytes).flatMap (· ++ crlf) ++ (crlf ++ [])) = some (lines.map FieldLine.bytes, []) :=
    linesUntilEmpty_text fresh
  have fields : (lines.map FieldLine.bytes).mapM readTrimmed =
      some (lines.map fun line => (line.name, line.value.bytes)) := by
    clear text cutAll fresh
    induction lines with
    | nil => rfl
    | cons line lines ih =>
      have found : cut [COLON] line.bytes = some (line.name, line.before ++ line.value.bytes ++ line.after) :=
        cut_append (not_mem_of_isToken line.token (by decide))
      rw [List.map_cons, List.mapM_cons, ih, readTrimmed, found, Option.map_some, trim_blank line.blank.1 line.blank.2 line.trimmed]
      rfl
  show (match linesUntilEmpty crlf _ _ with
    | some (lines, _) => Except.ok (lines.mapM readTrimmed)
    | none => .ok none) = _
  rw [text, cutAll]
  exact congrArg Except.ok fields

def sampleLine (name value : String) (token : IsToken (ascii name))
    (valid : (ascii value).all isValueByte = true) (trimmed : trim (ascii value) = ascii value) : FieldLine where
  name := ascii name
  before := [SP]
  value := ⟨ascii value, valid⟩
  after := []
  token
  blank := ⟨rfl, rfl⟩
  trimmed

/-- One name, in two spellings. -/
def twiceNamed : List FieldLine :=
  [sampleLine "Via" "a" (by decide) (by decide) (by decide), sampleLine "via" "b" (by decide) (by decide) (by decide)]

def twiceNamedBody : ChunkedBody := { sampleBody with trailers := twiceNamed.map FieldLine.trailerLine }

theorem collect_trailers_iff_twiceNamed : letI := lineParser
    ∃ out decoder reader, Decoder.collect 100 (.new .chunked none none)
        (Buffered.ofCuts (ascii "3;") [none, some (ascii "x\r\nabc\r\n0 \r\nVia: a\r\nvi"), some (ascii "a: b\r\n\r\nrest")] :
          Buffered Bytes) = some (out, decoder, reader) ∧
      ¬ ∃ frames, out = .ok frames ∧ AllReceived twiceNamed frames := by
  let _ := lineParser
  obtain ⟨out, decoder, reader, run, exact_⟩ := collect_trailers_iff (B := Bytes) lineParser_onePerLine twiceNamedBody
    twiceNamed (ascii "3;") (ascii "rest")
    [none, some (ascii "x\r\nabc\r\n0 \r\nVia: a\r\nvi"), some (ascii "a: b\r\n\r\nrest")] none none 100 rfl (by decide)
    (by decide) (by decide) (by decide) (by decide) (by decide)
  refine ⟨out, decoder, reader, run, ?_⟩
  rw [exact_]
  rintro ⟨distinct, -⟩
  have twice : ¬ distinctNames twiceNamed := by
    unfold distinctNames
    decide
  exact twice distinct

def via : HeaderName := headerName "via"

/-- The decoder reports success, and the first of the two values is gone. -/
theorem twiceNamed_lost : letI := lineParser
    OneFieldPerLine ∧ twiceNamedBody.trailers = twiceNamed.map FieldLine.trailerLine ∧
    ∃ frames decoder reader, Decoder.collect 100 (.new .chunked none none)
        (Buffered.ofCuts [] [some (twiceNamedBody.render)] : Buffered Bytes) = some (.ok frames, decoder, reader) ∧
      ¬ AllReceived twiceNamed frames := by
  let _ := lineParser
  refine ⟨lineParser_onePerLine, rfl, ?_⟩
  have kept : (Decoder.collect 100 (.new .chunked none none)
      (Buffered.ofCuts [] [some (twiceNamedBody.render)] : Buffered Bytes)).map
        (fun run => run.1.toOption.map fun frames => (framesTrailers frames).map fun trailers => trailers.getAll via) =
      some (some [[.fromStatic "b"]]) := by decide +kernel
  obtain ⟨⟨out, decoder, reader⟩, run, seen⟩ := Option.map_eq_some_iff.mp kept
  obtain ⟨frames, ok, values⟩ := Option.map_eq_some_iff.mp seen
  have success : out = .ok frames := by
    cases out with
    | error e => cases ok
    | ok frames' => exact congrArg Except.ok (Option.some.inj ok)
  refine ⟨frames, decoder, reader, success ▸ run, ?_⟩
  rintro (⟨absent, -⟩ | ⟨trailers, frame, all⟩)
  · cases absent
  · rw [frame] at values
    have last : trailers.getAll via = [.fromStatic "b"] := (List.cons.inj values).1
    have both : valuesIn via twiceNamed ≠ [.fromStatic "b"] := by decide +kernel
    exact both ((all via).symm.trans last)

end Hwire.Http1
