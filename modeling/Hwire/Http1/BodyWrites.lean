import Hwire.Http1.Lifecycle

/-!
# Writing a body

The calls that write a body, from the head on until the writing state is `KeepAlive` or `Closed`. Two of them end a body
with a chunk in hand; the others end it when there is nothing left.
-/

namespace Hwire.Http1
open Lib LawfulBuf

namespace Conn

/-- `write_body` and, if still in `Writing::Body`, `end_body` -/
def writeBodyThenEnd (c : Conn) (chunk : Bytes) : Except Error Unit × Conn :=
  let c := c.writeBody chunk
  if c.canWriteBody then c.endBody else (.ok (), c)

/-- `write_body_and_end` has no error to return. -/
def writeLast (c : Conn) (chunk : Bytes) : Except Error Unit × Conn := (.ok (), c.writeBodyAndEnd chunk)

def pending (c : Conn) : Bytes := c.io.writeBuf.contents

/-! ### What each call appends -/

/-- A call that appends `more` and goes to the writing state `next`. -/
structure Appends (c c' : Conn) (more : Bytes) (next : Writing) : Prop where
  ok : c'.io.writeBuf.Ok
  pending : c'.pending = c.pending ++ more
  writing : c'.state.writing = next

theorem Appends.trans {c₁ c₂ c₃ : Conn} {more rest : Bytes} {next last : Writing} (first : Appends c₁ c₂ more next)
    (second : Appends c₂ c₃ rest last) : Appends c₁ c₃ (more ++ rest) last := by
  refine ⟨second.ok, ?_, second.writing⟩
  rw [second.pending, first.pending, List.append_assoc]

theorem sendMore_appends {c : Conn} (ok : c.io.writeBuf.Ok) {buf : EncodedBuf Bytes} (nonempty : bytes buf ≠ [])
    (more : Bytes) (next : Writing) : Appends c (c.sendMore (c.io.writeBuf.buffer buf) more next) (bytes buf) next := by
  have remaining : 0 < Buf.remaining buf := by
    rw [remaining_eq]
    exact List.length_pos_iff.mpr nonempty
  exact ⟨ok.buffer remaining, WriteBuf.contents_buffer ok buf, rfl⟩

theorem chunkBytes_ne_nil (chunk : Bytes) : chunkBytes chunk ≠ [] := by simp [chunkBytes, crlf]

theorem lastChunk_ne_nil : lastChunk ≠ [] := by decide

section Chunked
variable {c : Conn} {e : Encoder} {trailers : Option (List HeaderName)}

theorem writeBody_chunked (ok : c.io.writeBuf.Ok) (writing : c.state.writing = .body e) (kind : e.kind = .chunked trailers)
    (chunk : Bytes) : Appends c (c.writeBody chunk) (chunkBytes chunk) (.body e) := by
  obtain ⟨made, same⟩ := Encoder.bytes_encode_chunked kind chunk
  have more : e.isEof = false := by simp [Encoder.isEof, kind]
  rw [writeBody_eq writing, same, more, ← made]
  apply sendMore_appends ok
  rw [made]
  exact chunkBytes_ne_nil chunk

theorem endBody_chunked (ok : c.io.writeBuf.Ok) (writing : c.state.writing = .body e) (kind : e.kind = .chunked trailers) :
    c.endBody.1 = .ok () ∧ Appends c c.endBody.2 lastChunk (endWriting e) := by
  have ends : e.end = .ok (some (.chunkedEnd (B := Bytes) lastChunk)) := by
    unfold Encoder.end
    rw [kind]
    rfl
  obtain ⟨buf, ended, done, eq⟩ | ⟨err, eq⟩ := endBody_eq writing
  · obtain rfl := Except.ok.inj (ends.symm.trans ended)
    refine ⟨done, ?_⟩
    rw [eq]
    have nonempty : bytes (EncodedBuf.chunkedEnd lastChunk : EncodedBuf Bytes) ≠ [] := lastChunk_ne_nil
    exact sendMore_appends ok nonempty _ _
  · unfold endBody at eq
    simp [writing, ends] at eq

theorem writeBodyAndEnd_chunked (ok : c.io.writeBuf.Ok) (writing : c.state.writing = .body e)
    (kind : e.kind = .chunked trailers) (chunk : Bytes) :
    Appends c (c.writeBodyAndEnd chunk) (chunkBytes chunk ++ lastChunk) (endWriting e) := by
  have made := bytes_lastBuf_chunked kind chunk
  have ends : e.encodeAndEnd chunk c.io.writeBuf = (!e.isLast, c.io.writeBuf.buffer (lastBuf e chunk)) := by
    simp [Encoder.encodeAndEnd, lastBuf, kind]
  have next : (if !e.isLast then Writing.keepAlive else .closed) = endWriting e := by
    unfold endWriting
    cases e.isLast with
    | true => rfl
    | false => rfl
  rw [writeBodyAndEnd_eq writing, ends, next, ← made]
  apply sendMore_appends ok
  rw [made]
  exact List.append_ne_nil_of_left_ne_nil (chunkBytes_ne_nil chunk) _

end Chunked

section Length
variable {c : Conn} {e : Encoder} {n : Nat} {chunk : Bytes}

theorem isEof_length (kind : e.kind = .length n) : e.isEof = decide (n = 0) := by
  unfold Encoder.isEof
  rw [kind]
  cases n with
  | zero => rfl
  | succ n => rfl

theorem take_ne_nil (pos : 0 < n) (ne : chunk ≠ []) : chunk.take n ≠ [] := by
  intro empty
  rcases List.take_eq_nil_iff.mp empty with zero | nil
  · omega
  · exact ne nil

/-- The state after a chunk for a counted body: done, or waiting for the rest. -/
def afterChunk (e : Encoder) (rest : Nat) : Writing :=
  if rest = 0 then endWriting e else .body { e with kind := .length rest }

theorem writeBody_length (ok : c.io.writeBuf.Ok) (writing : c.state.writing = .body e) (kind : e.kind = .length n)
    (pos : 0 < n) (ne : chunk ≠ []) :
    Appends c (c.writeBody chunk) (chunk.take n) (afterChunk e (n - chunk.length)) := by
  obtain ⟨made, same⟩ := Encoder.bytes_encode_length kind chunk
  have next : (if !(e.encode chunk).2.isEof then Writing.body (e.encode chunk).2 else endWriting (e.encode chunk).2) =
      afterChunk e (n - chunk.length) := by
    rw [same, isEof_length rfl, afterChunk]
    by_cases zero : n - chunk.length = 0
    · simp [zero, endWriting]
    · simp [zero]
  rw [writeBody_eq writing, next, ← made]
  apply sendMore_appends ok
  rw [made]
  exact take_ne_nil pos ne

theorem endBody_length (writing : c.state.writing = .body e) (kind : e.kind = .length n) (pos : 0 < n) :
    c.endBody.1 = .error (Error.newBodyWriteAborted.withCause ("early end, expected " ++ toString n ++ " more bytes")) ∧
      c.endBody.2.io = c.io ∧ c.endBody.2.state.writing = .closed := by
  obtain ⟨k, rfl⟩ : ∃ k, n = k + 1 := ⟨n - 1, by omega⟩
  have ends : e.end = (.error ⟨k + 1⟩ : Except NotEof (Option (EncodedBuf Bytes))) := by
    unfold Encoder.end
    rw [kind]
    rfl
  unfold endBody
  simp only [writing, ends]
  exact ⟨trivial, rfl, rfl⟩

theorem writeBodyAndEnd_length (ok : c.io.writeBuf.Ok) (writing : c.state.writing = .body e) (kind : e.kind = .length n)
    (pos : 0 < n) (ne : chunk ≠ []) :
    Appends c (c.writeBodyAndEnd chunk) (chunk.take n) (if n ≤ chunk.length then endWriting e else .closed) := by
  have made : bytes (lastBuf e chunk) = chunk.take n := by
    simp only [lastBuf, kind]
    split
    · rfl
    · next fits =>
      show chunk = _
      rw [List.take_of_length_le (by omega)]
  have ends : e.encodeAndEnd chunk c.io.writeBuf =
      (decide (n ≤ chunk.length) && !e.isLast, c.io.writeBuf.buffer (lastBuf e chunk)) := by
    simp only [Encoder.encodeAndEnd, lastBuf, kind, remaining_list]
    split
    · next same => simp [same]
    split
    · next longer =>
      have le : n ≤ chunk.length := Nat.le_of_lt longer
      simp [le]
    · have gt : ¬ n ≤ chunk.length := by omega
      simp [gt]
  have next : (if decide (n ≤ chunk.length) && !e.isLast then Writing.keepAlive else .closed) =
      if n ≤ chunk.length then endWriting e else .closed := by
    unfold endWriting
    by_cases le : n ≤ chunk.length
    · simp only [le, decide_true, Bool.true_and, if_true]
      cases e.isLast with
      | true => rfl
      | false => rfl
    · simp [le]
  rw [writeBodyAndEnd_eq writing, ends, next, ← made]
  apply sendMore_appends ok
  rw [made]
  exact take_ne_nil pos ne

end Length

/-! ### Ending with a chunk in hand -/

/-- Two ways to end a body that neither the bytes, the writing state nor the error tell apart. -/
structure EndsAlike (a b : Except Error Unit × Conn) : Prop where
  pending : a.2.pending = b.2.pending
  writing : a.2.state.writing = b.2.state.writing
  outcome : a.1 = b.1

theorem canWriteBody_eq_false {c : Conn} {next : Writing} (writing : c.state.writing = next) (done : ∀ e, next ≠ .body e) :
    c.canWriteBody = false := by
  rw [← Bool.not_eq_true, canWriteBody_iff]
  rintro ⟨e, body⟩
  exact done e (writing.symm.trans body)

theorem endWriting_ne_body (e e' : Encoder) : endWriting e ≠ .body e' := by
  unfold endWriting
  split
  · exact nofun
  · exact nofun

section ThenEnd
variable {c : Conn} {e : Encoder} {chunk : Bytes}

theorem writeBodyThenEnd_chunked {trailers : Option (List HeaderName)} (ok : c.io.writeBuf.Ok)
    (writing : c.state.writing = .body e) (kind : e.kind = .chunked trailers) :
    (c.writeBodyThenEnd chunk).1 = .ok () ∧
      Appends c (c.writeBodyThenEnd chunk).2 (chunkBytes chunk ++ lastChunk) (endWriting e) := by
  have first := writeBody_chunked ok writing kind chunk
  have can : (c.writeBody chunk).canWriteBody = true := canWriteBody_iff.mpr ⟨e, first.writing⟩
  obtain ⟨done, second⟩ := endBody_chunked first.ok first.writing kind
  unfold writeBodyThenEnd
  simp only [can, if_true]
  exact ⟨done, first.trans second⟩

theorem writeBodyThenEnd_full {n : Nat} (ok : c.io.writeBuf.Ok) (writing : c.state.writing = .body e)
    (kind : e.kind = .length n) (pos : 0 < n) (ne : chunk ≠ []) (full : n ≤ chunk.length) :
    (c.writeBodyThenEnd chunk).1 = .ok () ∧ Appends c (c.writeBodyThenEnd chunk).2 (chunk.take n) (endWriting e) := by
  have first := writeBody_length ok writing kind pos ne
  have none : n - chunk.length = 0 := by omega
  rw [none, afterChunk, if_pos rfl] at first
  have cannot := canWriteBody_eq_false first.writing (endWriting_ne_body e)
  unfold writeBodyThenEnd
  simp only [cannot, Bool.false_eq_true, if_false]
  exact ⟨trivial, first⟩

theorem writeBodyThenEnd_short {n : Nat} (ok : c.io.writeBuf.Ok) (writing : c.state.writing = .body e)
    (kind : e.kind = .length n) (ne : chunk ≠ []) (short : chunk.length < n) :
    (∃ cause, (c.writeBodyThenEnd chunk).1 = .error (Error.newBodyWriteAborted.withCause cause)) ∧
      Appends c (c.writeBodyThenEnd chunk).2 (chunk.take n) .closed := by
  have first := writeBody_length ok writing kind (by omega) ne
  have some : n - chunk.length ≠ 0 := by omega
  rw [afterChunk, if_neg some] at first
  have can : (c.writeBody chunk).canWriteBody = true := canWriteBody_iff.mpr ⟨_, first.writing⟩
  obtain ⟨aborted, same, closed⟩ := endBody_length first.writing rfl (by omega)
  unfold writeBodyThenEnd
  simp only [can, if_true]
  refine ⟨⟨_, aborted⟩, ?_, ?_, closed⟩
  · rw [same]
    exact first.ok
  · rw [pending, same]
    exact first.pending

/-- Both ways append the same bytes and lead to the same state. -/
theorem writeLast_same (ok : c.io.writeBuf.Ok) (writing : c.state.writing = .body e) (live : e.isEof = false)
    (ne : chunk ≠ []) :
    (c.writeLast chunk).2.pending = (c.writeBodyThenEnd chunk).2.pending ∧
      (c.writeLast chunk).2.state.writing = (c.writeBodyThenEnd chunk).2.state.writing := by
  cases kind : e.kind with
  | chunked trailers =>
    have fast := writeBodyAndEnd_chunked ok writing kind chunk
    obtain ⟨-, plain⟩ := @writeBodyThenEnd_chunked c e chunk trailers ok writing kind
    exact ⟨fast.pending.trans plain.pending.symm, fast.writing.trans plain.writing.symm⟩
  | length n =>
    have pos : 0 < n := by
      rw [isEof_length kind, decide_eq_false_iff_not] at live
      omega
    have fast := writeBodyAndEnd_length ok writing kind pos ne
    by_cases full : n ≤ chunk.length
    · have plain := (writeBodyThenEnd_full ok writing kind pos ne full).2
      rw [if_pos full] at fast
      exact ⟨fast.pending.trans plain.pending.symm, fast.writing.trans plain.writing.symm⟩
    · have plain := (writeBodyThenEnd_short ok writing kind ne (by omega)).2
      rw [if_neg full] at fast
      exact ⟨fast.pending.trans plain.pending.symm, fast.writing.trans plain.writing.symm⟩

/-- The two ways agree except on a body that ends short of its length, where only `end_body` has an error to return. -/
theorem writeLast_endsAlike_iff (ok : c.io.writeBuf.Ok) (writing : c.state.writing = .body e) (live : e.isEof = false)
    (ne : chunk ≠ []) :
    EndsAlike (c.writeLast chunk) (c.writeBodyThenEnd chunk) ↔ ∀ n, e.kind = .length n → n ≤ chunk.length := by
  obtain ⟨pending, next⟩ := writeLast_same ok writing live ne
  constructor
  · intro alike n kind
    by_contra short
    obtain ⟨⟨cause, aborted⟩, -⟩ := writeBodyThenEnd_short ok writing kind ne (by omega)
    exact absurd (alike.outcome.trans aborted) nofun
  · intro long
    refine ⟨pending, next, ?_⟩
    show Except.ok () = _
    cases kind : e.kind with
    | chunked trailers => exact (writeBodyThenEnd_chunked ok writing kind).1.symm
    | length n =>
      have pos : 0 < n := by
        rw [isEof_length kind, decide_eq_false_iff_not] at live
        omega
      exact (writeBodyThenEnd_full ok writing kind pos ne (long n kind)).1.symm

end ThenEnd

def afterPost : Option Conn :=
  (handshake {} {}).writeHead { version := .http11, subject := ⟨.post, ascii "/"⟩, headers := .empty } (some (.known 5))

theorem afterPost_writing : ∃ c, afterPost = some c ∧ c.io.writeBuf.Ok ∧ c.state.writing = .body (.length 5) := by
  have fresh : (handshake {} {}).io.writeBuf.Ok := WriteBuf.Ok.new _
  exact ⟨_, rfl, fresh.extendHeaders _, rfl⟩

theorem writeLast_endsAlike_hello :
    ∃ c, afterPost = some c ∧ EndsAlike (c.writeLast (ascii "hello")) (c.writeBodyThenEnd (ascii "hello")) := by
  obtain ⟨c, made, ok, writing⟩ := afterPost_writing
  refine ⟨c, made, (writeLast_endsAlike_iff ok writing rfl (by decide)).mpr ?_⟩
  rintro n kind
  obtain rfl : 5 = n := Encoder.Kind.length.inj kind
  decide

/-- Two of five bytes: `write_body_and_end` closes the write side and says nothing. -/
theorem writeLast_short :
    ∃ c, afterPost = some c ∧ c.state.writing = .body (.length 5) ∧
      (c.writeLast (ascii "he")).1 = .ok () ∧ (c.writeLast (ascii "he")).2.state.writing = .closed ∧
      (c.writeBodyThenEnd (ascii "he")).1 =
        .error (Error.newBodyWriteAborted.withCause "early end, expected 3 more bytes") ∧
      ¬ EndsAlike (c.writeLast (ascii "he")) (c.writeBodyThenEnd (ascii "he")) := by
  refine ⟨_, rfl, rfl, rfl, rfl, rfl, ?_⟩
  intro alike
  exact absurd alike.outcome nofun

/-! ### Whole bodies -/

/-- How a body ends: with a chunk in hand, with nothing left, or with trailers. -/
inductive BodyEnd where
  | last (chunk : Bytes)
  | stop
  | trailers (fields : HeaderMap)

def BodyEnd.chunks : BodyEnd → List Bytes
  | .last chunk => [chunk]
  | .stop | .trailers _ => []

def whileWriting (c : Conn) (call : Conn → Conn) : Conn := if c.canWriteBody then call c else c

def writeChunks (c : Conn) (chunks : List Bytes) : Conn :=
  chunks.foldl (fun c chunk => c.whileWriting fun c => c.writeBody chunk) c

def endWith (c : Conn) : BodyEnd → Conn
  | .last chunk => c.writeBodyAndEnd chunk
  | .stop => c.endBody.2
  -- The trailers may come to nothing, and then the body is still to be ended.
  | .trailers fields => (c.writeTrailers fields).whileWriting fun c => c.endBody.2

def sendBody (c : Conn) (chunks : List Bytes) (ending : BodyEnd) : Conn :=
  (c.writeChunks chunks).whileWriting fun c => c.endWith ending

/-- The section that ends a chunked body: plain, or with the trailer fields that are left after filtering. -/
def lastSection (declared : Option (List HeaderName)) : BodyEnd → Bytes
  | .last _ | .stop => lastChunk
  | .trailers fields =>
    match declared with
    | some allowed =>
      let lines := writeHeaders (Encoder.allowedTrailers allowed fields)
      if lines = [] then lastChunk else ascii "0\r\n" ++ lines ++ crlf
    | none => lastChunk

theorem whileWriting_done {c : Conn} (done : c.canWriteBody = false) (call : Conn → Conn) : c.whileWriting call = c := by
  simp [whileWriting, done]

theorem whileWriting_body {c : Conn} {e : Encoder} (writing : c.state.writing = .body e) (call : Conn → Conn) :
    c.whileWriting call = call c := by
  have can : c.canWriteBody = true := canWriteBody_iff.mpr ⟨e, writing⟩
  simp [whileWriting, can]

theorem writeChunks_done {c : Conn} (done : c.canWriteBody = false) (chunks : List Bytes) : c.writeChunks chunks = c := by
  induction chunks with
  | nil => rfl
  | cons chunk rest ih =>
    unfold writeChunks at ih ⊢
    rw [List.foldl_cons, whileWriting_done done, ih]

theorem sendBody_done {c : Conn} (done : c.canWriteBody = false) (chunks : List Bytes) (ending : BodyEnd) :
    c.sendBody chunks ending = c := by
  unfold sendBody
  rw [writeChunks_done done, whileWriting_done done]

theorem writeChunks_cons {c : Conn} {e : Encoder} (writing : c.state.writing = .body e) (chunk : Bytes)
    (rest : List Bytes) : c.writeChunks (chunk :: rest) = (c.writeBody chunk).writeChunks rest := by
  unfold writeChunks
  rw [List.foldl_cons, whileWriting_body writing]

section Bodies
variable {c : Conn} {e : Encoder}

theorem appends_nil (ok : c.io.writeBuf.Ok) (writing : c.state.writing = .body e) : Appends c c [] (.body e) :=
  ⟨ok, (List.append_nil _).symm, writing⟩

theorem writeChunks_chunked {declared : Option (List HeaderName)} (ok : c.io.writeBuf.Ok)
    (writing : c.state.writing = .body e) (kind : e.kind = .chunked declared) (chunks : List Bytes) :
    Appends c (c.writeChunks chunks) (chunks.flatMap chunkBytes) (.body e) := by
  induction chunks generalizing c with
  | nil => exact appends_nil ok writing
  | cons chunk rest ih =>
    have first := writeBody_chunked ok writing kind chunk
    rw [writeChunks_cons writing, List.flatMap_cons]
    exact first.trans (ih first.ok first.writing)

/-- Either the length is reached within some chunk, and the chunks after it are not written, or the rest is counted. -/
theorem writeChunks_length {n : Nat} (ok : c.io.writeBuf.Ok) (writing : c.state.writing = .body e)
    (kind : e.kind = .length n) (pos : 0 < n) {chunks : List Bytes} (nonempty : ∀ chunk ∈ chunks, chunk ≠ []) :
    Appends c (c.writeChunks chunks) (chunks.flatten.take n) (afterChunk e (n - chunks.flatten.length)) := by
  induction chunks generalizing c e n with
  | nil =>
    have more : n ≠ 0 := by omega
    have same : { e with kind := .length n } = e := by rw [← kind]
    rw [List.flatten_nil, List.take_nil, List.length_nil, Nat.sub_zero, afterChunk, if_neg more, same]
    exact appends_nil ok writing
  | cons chunk rest ih =>
    have first := writeBody_length ok writing kind pos (nonempty chunk List.mem_cons_self)
    rw [writeChunks_cons writing, List.flatten_cons, List.take_append, List.length_append, Nat.sub_add_eq]
    by_cases reached : n ≤ chunk.length
    · have none : n - chunk.length = 0 := by omega
      rw [none, Nat.zero_sub, List.take_zero, List.append_nil]
      rw [none] at first
      have over_ : afterChunk e 0 = endWriting e := if_pos rfl
      rw [writeChunks_done (canWriteBody_eq_false (first.writing.trans over_) (endWriting_ne_body e))]
      exact first
    · have more : n - chunk.length ≠ 0 := by omega
      have next : afterChunk e (n - chunk.length) = .body { e with kind := .length (n - chunk.length) } := if_neg more
      rw [next] at first
      have later := ih first.ok first.writing rfl (by omega) fun chunk member => nonempty chunk (List.mem_cons_of_mem _ member)
      exact first.trans later

theorem writeTrailers_cases {declared : Option (List HeaderName)} (ok : c.io.writeBuf.Ok)
    (writing : c.state.writing = .body e) (kind : e.kind = .chunked declared) (fields : HeaderMap) :
    lastSection declared (.trailers fields) = lastChunk ∧ c.writeTrailers fields = c ∨
      Appends c (c.writeTrailers fields) (lastSection declared (.trailers fields)) (endWriting e) := by
  obtain ⟨buf, made, eq⟩ | ⟨dropped, eq⟩ := writeTrailers_eq writing fields
  · right
    rw [eq]
    unfold Encoder.encodeTrailers at made
    rw [kind] at made
    cases declared with
    | none => cases made
    | some allowed =>
      obtain ⟨lines, same⟩ := Option.ite_none_left_eq_some.mp made
      obtain rfl := Option.some.inj same
      rw [lastSection, if_neg lines]
      exact sendMore_appends ok (List.append_ne_nil_of_right_ne_nil _ (show crlf ≠ [] by decide)) _ _
  · left
    unfold Encoder.encodeTrailers at dropped
    rw [kind] at dropped
    refine ⟨?_, eq⟩
    cases declared with
    | none => rfl
    | some allowed =>
      dsimp only at dropped
      split at dropped
      · next none => rw [lastSection, if_pos none]
      · cases dropped

theorem endWith_chunked {declared : Option (List HeaderName)} (ok : c.io.writeBuf.Ok)
    (writing : c.state.writing = .body e) (kind : e.kind = .chunked declared) (ending : BodyEnd) :
    Appends c (c.endWith ending) (ending.chunks.flatMap chunkBytes ++ lastSection declared ending) (endWriting e) := by
  cases ending with
  | last chunk =>
    rw [BodyEnd.chunks, List.flatMap_singleton]
    exact writeBodyAndEnd_chunked ok writing kind chunk
  | stop => exact (endBody_chunked ok writing kind).2
  | trailers fields =>
    show Appends c ((c.writeTrailers fields).whileWriting fun c => c.endBody.2) _ _
    rcases writeTrailers_cases ok writing kind fields with ⟨plain, same⟩ | wrote
    · rw [same, plain, whileWriting_body writing]
      exact (endBody_chunked ok writing kind).2
    · rw [whileWriting_done (canWriteBody_eq_false wrote.writing (endWriting_ne_body e))]
      exact wrote

theorem endBody_appends {n : Nat} (ok : c.io.writeBuf.Ok) (writing : c.state.writing = .body e)
    (kind : e.kind = .length n) (pos : 0 < n) : Appends c c.endBody.2 [] .closed := by
  obtain ⟨-, same, closed⟩ := endBody_length writing kind pos
  refine ⟨same ▸ ok, ?_, closed⟩
  rw [pending, same, List.append_nil]
  rfl

theorem endWith_length {n : Nat} (ok : c.io.writeBuf.Ok) (writing : c.state.writing = .body e) (kind : e.kind = .length n)
    (pos : 0 < n) {ending : BodyEnd} (nonempty : ∀ chunk ∈ ending.chunks, chunk ≠ []) :
    Appends c (c.endWith ending) (ending.chunks.flatten.take n)
      (if n ≤ ending.chunks.flatten.length then endWriting e else .closed) := by
  have short : ¬ n ≤ ([] : Bytes).length := by
    rw [List.length_nil]
    omega
  cases ending with
  | last chunk =>
    rw [BodyEnd.chunks, List.flatten_singleton]
    exact writeBodyAndEnd_length ok writing kind pos (nonempty chunk List.mem_cons_self)
  | stop =>
    rw [BodyEnd.chunks, List.flatten_nil, List.take_nil, if_neg short]
    exact endBody_appends ok writing kind pos
  | trailers fields =>
    have same : c.writeTrailers fields = c := by
      have dropped : e.encodeTrailers fields = (none : Option (EncodedBuf Bytes)) := by rw [Encoder.encodeTrailers, kind]
      obtain ⟨buf, made, -⟩ | ⟨-, eq⟩ := writeTrailers_eq writing fields
      · rw [dropped] at made
        cases made
      · exact eq
    rw [BodyEnd.chunks, List.flatten_nil, List.take_nil, if_neg short]
    show Appends c ((c.writeTrailers fields).whileWriting fun c => c.endBody.2) _ _
    rw [same, whileWriting_body writing]
    exact endBody_appends ok writing kind pos

/-- What a body has come to when it is over: its bytes, the writing state, and that nothing follows. -/
structure SentBody (e : Encoder) (c c' : Conn) (chunks : List Bytes) (ending : BodyEnd) : Prop where
  chunked : ∀ declared, e.kind = .chunked declared →
    c'.pending = c.pending ++ ((chunks ++ ending.chunks).flatMap chunkBytes ++ lastSection declared ending) ∧
      c'.state.writing = .keepAlive
  length : ∀ n, e.kind = .length n →
    c'.pending = c.pending ++ (chunks ++ ending.chunks).flatten.take n ∧
      c'.state.writing = if n ≤ (chunks ++ ending.chunks).flatten.length then .keepAlive else .closed
  nothingAfter : ∀ chunks ending, c'.sendBody chunks ending = c'

theorem sendBody_chunked {declared : Option (List HeaderName)} (ok : c.io.writeBuf.Ok)
    (writing : c.state.writing = .body e) (kind : e.kind = .chunked declared) (chunks : List Bytes) (ending : BodyEnd) :
    Appends c (c.sendBody chunks ending)
      ((chunks ++ ending.chunks).flatMap chunkBytes ++ lastSection declared ending) (endWriting e) := by
  have first := writeChunks_chunked ok writing kind chunks
  have second := endWith_chunked first.ok first.writing kind ending
  unfold sendBody
  rw [whileWriting_body first.writing, List.flatMap_append, List.append_assoc]
  exact first.trans second

theorem sendBody_length {n : Nat} (ok : c.io.writeBuf.Ok) (writing : c.state.writing = .body e)
    (kind : e.kind = .length n) (pos : 0 < n) {chunks : List Bytes} {ending : BodyEnd}
    (nonempty : ∀ chunk ∈ chunks ++ ending.chunks, chunk ≠ []) :
    Appends c (c.sendBody chunks ending) ((chunks ++ ending.chunks).flatten.take n)
      (if n ≤ (chunks ++ ending.chunks).flatten.length then endWriting e else .closed) := by
  have first := writeChunks_length ok writing kind pos fun chunk member => nonempty chunk (List.mem_append_left _ member)
  unfold sendBody
  rw [List.flatten_append, List.take_append, List.length_append]
  by_cases reached : n ≤ chunks.flatten.length
  · have none : n - chunks.flatten.length = 0 := by omega
    have full : n ≤ chunks.flatten.length + ending.chunks.flatten.length := by omega
    rw [none] at first
    have over_ : afterChunk e 0 = endWriting e := if_pos rfl
    rw [none, List.take_zero, List.append_nil, if_pos full, ← over_,
      whileWriting_done (canWriteBody_eq_false (first.writing.trans over_) (endWriting_ne_body e))]
    exact first
  · have more : n - chunks.flatten.length ≠ 0 := by omega
    have next : afterChunk e (n - chunks.flatten.length) = .body { e with kind := .length (n - chunks.flatten.length) } :=
      if_neg more
    rw [next] at first
    have second := endWith_length first.ok first.writing rfl (by omega)
      fun chunk member => nonempty chunk (List.mem_append_right _ member)
    have same : n - chunks.flatten.length ≤ ending.chunks.flatten.length ↔
        n ≤ chunks.flatten.length + ending.chunks.flatten.length := by omega
    rw [whileWriting_body first.writing]
    simp only [same] at second
    exact first.trans second

end Bodies

/-- A body that a head has announced is written in full, or the write side is closed. -/
theorem sendBody_sentBody {c c' : Conn} {head : RequestHead} {body : Option BodyLength} {e : Encoder}
    (ok : c.io.writeBuf.Ok) (wrote : c.writeHead head body = some c') (writing : c'.state.writing = .body e)
    {chunks : List Bytes} {ending : BodyEnd} (nonempty : ∀ chunk ∈ chunks ++ ending.chunks, chunk ≠ []) :
    SentBody e c' (c'.sendBody chunks ending) chunks ending := by
  have ok' : c'.io.writeBuf.Ok := by
    obtain ⟨made, -, rfl⟩ := Option.map_eq_some_iff.mp wrote
    exact ok.extendHeaders _
  obtain ⟨x, spec⟩ := writeHead_spec wrote
  have entered := spec.writing.symm.trans writing
  obtain ⟨live, rfl⟩ : x.encoder.isEof = false ∧ x.encoder = e := by
    split at entered
    · cases entered
    · next live => exact ⟨by simpa using live, Writing.body.inj entered⟩
  have ends : endWriting x.encoder = .keepAlive := by
    rw [spec.encoder]
    exact endWriting_of_encoding (setLength_encoding _ _)
  have done {next : Writing} (over_ : (c'.sendBody chunks ending).state.writing = next) (stopped : ∀ e, next ≠ .body e)
      (more : List Bytes) (again : BodyEnd) : (c'.sendBody chunks ending).sendBody more again = c'.sendBody chunks ending :=
    sendBody_done (canWriteBody_eq_false over_ stopped) more again
  cases kind : x.encoder.kind with
  | chunked declared =>
    have sent := sendBody_chunked ok' writing kind chunks ending
    rw [ends] at sent
    refine ⟨?_, ?_, done sent.writing nofun⟩
    · intro other same
      obtain rfl := Encoder.Kind.chunked.inj (kind.symm.trans same)
      exact ⟨sent.pending, sent.writing⟩
    · intro n other
      exact absurd (kind.symm.trans other) nofun
  | length n =>
    have pos : 0 < n := by
      rw [isEof_length kind, decide_eq_false_iff_not] at live
      omega
    have sent := sendBody_length ok' writing kind pos nonempty
    rw [ends] at sent
    refine ⟨?_, ?_, done sent.writing ?_⟩
    · intro declared other
      exact absurd (kind.symm.trans other) nofun
    · intro m same
      obtain rfl := Encoder.Kind.length.inj (kind.symm.trans same)
      exact ⟨sent.pending, sent.writing⟩
    · intro e
      split
      · exact nofun
      · exact nofun

theorem sendBody_sentBody_hello :
    ∃ c, afterPost = some c ∧
      SentBody (.length 5) c (c.sendBody [ascii "he"] (.last (ascii "llo!"))) [ascii "he"] (.last (ascii "llo!")) := by
  obtain ⟨c, made, -, writing⟩ := afterPost_writing
  have fresh : (handshake {} {}).io.writeBuf.Ok := WriteBuf.Ok.new _
  refine ⟨c, made, sendBody_sentBody fresh made writing ?_⟩
  decide

end Conn

end Hwire.Http1
