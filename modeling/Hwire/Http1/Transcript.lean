import Hwire.Http1.Hearing

/-!
# The transcript of a connection

The bytes of a transport as responses, one behind the other: informational heads, a head, a body of its framing. The
history of a connection is such a reading of what it has taken, request by request, and the rest is still unread.
-/

namespace Hwire.Http1
open Lib

variable [Httparse]

/-! ### Responses in a text -/

/-- A response as the bytes of a connection have it, with the method of its request. -/
structure Reply where
  method : Method
  msg : ParsedMessage
  frames : List Frame

def ParsedMessage.answer (msg : ParsedMessage) : Answer := ⟨msg.keepAlive, msg.wantsUpgrade, msg.decode⟩

/-- What the parser is told for the response to a request, under the options of the connection. -/
structure AsksFor (opts : Http1Options) (method : Method) (ctx : ParseContext) : Prop where
  method : ctx.reqMethod = some method
  config : ctx.h1ParserConfig = opts.h1ParserConfig
  maxHeaders : ctx.h1MaxHeaders = opts.h1MaxHeaders

/-- A text begins with a response, and `rest` follows it. -/
structure Reply.Spans (opts : Http1Options) (r : Reply) (text rest : Bytes) : Prop where
  found : ∃ ctx body, AsksFor opts r.method ctx ∧ HeadSaid ctx text r.msg (body ++ rest) ∧
    WholeBody opts.h1MaxHeaders r.msg.decode r.frames body

/-- A text begins with some responses, one behind the other, and the rest follows. -/
inductive Replies (opts : Http1Options) : List Reply → Bytes → Bytes → Prop where
  | none (text : Bytes) : Replies opts [] text text
  | next {replies : List Reply} {r : Reply} {text between rest : Bytes} (earlier : Replies opts replies text between)
      (reply : r.Spans opts between rest) : Replies opts (replies ++ [r]) text rest

/-- What was read for a request. -/
structure Reply.Answers (r : Reply) (x : Exchange) : Prop where
  method : x.head.subject.method = r.method
  answer : x.answer = some r.msg.answer
  decoded : x.decoded = r.frames

omit [Httparse] in
theorem Reply.Answers.same {r : Reply} {x x' : Exchange} (h : r.Answers x)
    (same : x'.head = x.head ∧ x'.answer = x.answer ∧ x'.decoded = x.decoded ∧ x'.decoderEof = x.decoderEof) :
    r.Answers x' := by
  obtain ⟨head, answer, decoded, -⟩ := same
  exact ⟨head ▸ h.method, answer.trans h.answer, decoded.trans h.decoded⟩

/-- The part of a body that was read: what the bytes so far carry, with the decoder that they have led to. -/
structure PartBody (opts : Http1Options) (decode : DecodedLength) (x : Exchange) (d : Decoder) (bytes : Bytes) : Prop where
  emits : Emits Decoder.onByte (.new decode opts.h1MaxHeaders none) bytes d (framesData x.decoded)
  going : d.isEof = false
  nonzero : decode ≠ .ZERO
  plain : framesTrailers x.decoded = []
  unended : x.decoderEof = false

omit [Httparse] in
/-- More bytes of a body, with what they carry. -/
theorem PartBody.more {opts : Http1Options} {decode : DecodedLength} {x x' : Exchange} {d d' : Decoder} {bytes later data : Bytes}
    (part : PartBody opts decode x d bytes) (emits : Emits Decoder.onByte d later d' data) (going : d'.isEof = false)
    (carried : framesData x'.decoded = framesData x.decoded ++ data) (plain : framesTrailers x'.decoded = [])
    (unended : x'.decoderEof = false) : PartBody opts decode x' d' (bytes ++ later) :=
  ⟨carried ▸ part.emits.append emits, going, part.nonzero, plain, unended⟩

namespace Conn

/-- What was read of the response to the last request, where that is not all of it. -/
inductive Latest (opts : Http1Options) (c : Conn) (left : Bytes) : List Exchange → List ParsedMessage → Prop where
  | idle (unread : c.unread = left) (body : ∀ d, c.state.reading ≠ .body d) : Latest opts c left [] []
  | waits {x : Exchange} (answer : x.answer = none) (decoded : x.decoded = []) (unended : x.decoderEof = false)
      (unread : c.unread <:+ left)
      (skips : c.canReadHead = true →
        Skips (parseContext c.state) left c.unread ∧ c.state.method = some x.head.subject.method) : Latest opts c left [x] []
  | reads {x : Exchange} {ctx : ParseContext} {msg : ParsedMessage} {d : Decoder} {bytes behind : Bytes}
      (asks : AsksFor opts x.head.subject.method ctx) (said : HeadSaid ctx left msg (bytes ++ behind))
      (answer : x.answer = some msg.answer) (part : PartBody opts msg.decode x d bytes) (unread : c.unread <:+ behind)
      (body : ∀ d', c.state.reading = .body d' → d' = d ∧ c.unread = behind) : Latest opts c left [x] [msg]

/-- The history of a connection tells the responses at the front of a text, with the messages of their heads. The last one
may be there in part. -/
def Tells (opts : Http1Options) (text : Bytes) (c : Conn) (msgs : List ParsedMessage) : Prop :=
  ∃ replies left earlier latest part, Replies opts replies text left ∧ c.log = earlier ++ latest ∧
    List.Forall₂ Reply.Answers replies earlier ∧ c.Latest opts left latest part ∧ msgs = replies.map Reply.msg ++ part

/-- The connection has the options of its handshake. -/
structure Has (opts : Http1Options) (c : Conn) : Prop where
  config : c.state.h1ParserConfig = opts.h1ParserConfig
  maxHeaders : c.state.h1MaxHeaders = opts.h1MaxHeaders
  empty : Client.CacheEmpty c.state.cachedHeaders

omit [Httparse] in
theorem Has.settled {opts : Http1Options} {c c' : Conn} (has : c.Has opts) (settled : c.Settled c') : c'.Has opts :=
  ⟨settled.config.trans has.config, settled.maxHeaders.trans has.maxHeaders, settled.empty has.empty⟩

/-! ### Where the next head can be read -/

omit [Httparse] in
theorem Fresh.waiting {c : Conn} (fresh : c.Fresh) (can : c.canReadHead = true) {earlier : List Exchange} {x : Exchange}
    (log : c.log = earlier ++ [x]) : x.answer = none := by
  refine (fresh.last can (i := earlier.length) ?_ ?_).1
  · rw [log, List.getElem?_concat_length]
  · rw [log, List.length_append, List.length_singleton]

omit [Httparse] in
theorem answered_of_mem {replies : List Reply} {xs : List Exchange} {x : Exchange}
    (answers : List.Forall₂ Reply.Answers replies xs) (member : x ∈ xs) : ∃ r : Reply, r.Answers x := by
  induction answers with
  | nil => cases member
  | @cons r y rs ys answer _ ih =>
    rcases List.mem_cons.mp member with rfl | later
    · exact ⟨r, answer⟩
    · exact ih later

/-- Only a request of which nothing was read waits for a head. -/
theorem Latest.waiting {opts : Http1Options} {c : Conn} {left : Bytes} {earlier latest : List Exchange}
    {part : List ParsedMessage} {replies : List Reply} (h : c.Latest opts left latest part) (inv : c.Inv) (fresh : c.Fresh)
    (can : c.canReadHead = true) (log : c.log = earlier ++ latest) (answers : List.Forall₂ Reply.Answers replies earlier) :
    ∃ x, latest = [x] ∧ part = [] ∧ x.answer = none ∧ x.decoded = [] ∧ x.decoderEof = false ∧
      Skips (parseContext c.state) left c.unread ∧ c.state.method = some x.head.subject.method := by
  cases h with
  | idle =>
    rw [List.append_nil] at log
    rcases List.eq_nil_or_concat earlier with empty | ⟨before, x, eq⟩
    · exact absurd (log.trans empty) (inv.ne_nil_of_canReadHead can)
    · rw [List.concat_eq_append] at eq
      have none := fresh.waiting can (log.trans eq)
      rw [eq] at answers
      obtain ⟨r, answer⟩ := answered_of_mem answers (List.mem_append_right before (.head []))
      exact absurd (none.symm.trans answer.answer) nofun
  | waits answer decoded unended _ skips => exact ⟨_, rfl, rfl, answer, decoded, unended, skips can⟩
  | reads _ _ answer => exact absurd ((fresh.waiting can log).symm.trans answer) nofun

/-- A body that is being read is that of the last request, and what is unread is still the rest of it. -/
theorem Latest.reading {opts : Http1Options} {c : Conn} {left : Bytes} {earlier latest : List Exchange}
    {part : List ParsedMessage} {d : Decoder} (h : c.Latest opts left latest part) (inv : c.Inv)
    (body : c.state.reading = .body d) (log : c.log = earlier ++ latest) :
    ∃ x ctx msg bytes, latest = [x] ∧ part = [msg] ∧ AsksFor opts x.head.subject.method ctx ∧
      HeadSaid ctx left msg (bytes ++ c.unread) ∧ x.answer = some msg.answer ∧ PartBody opts msg.decode x d bytes := by
  cases h with
  | idle _ none => exact absurd body (none d)
  | @waits x answer =>
    obtain ⟨y, last, r, answered, -⟩ := inv.body d body
    rw [log, List.getLast?_concat] at last
    cases last
    exact absurd (answer.symm.trans answered) nofun
  | @reads x ctx msg d₀ bytes behind asks said answer part _ there =>
    obtain ⟨rfl, rfl⟩ := there d body
    exact ⟨x, ctx, msg, bytes, rfl, rfl, asks, said, answer, part⟩

/-- The body of the latest response is not known to have ended. -/
theorem Latest.unended {opts : Http1Options} {c : Conn} {left : Bytes} {latest : List Exchange} {part : List ParsedMessage}
    (h : c.Latest opts left latest part) {x : Exchange} (member : x ∈ latest) : x.decoderEof = false := by
  cases h with
  | idle => cases member
  | waits _ _ unended =>
    rw [List.mem_singleton.mp member]
    exact unended
  | reads _ _ _ part =>
    rw [List.mem_singleton.mp member]
    exact part.unended

/-! ### Steps -/

variable {opts : Http1Options} {text : Bytes} {c c' : Conn} {msgs : List ParsedMessage}

theorem Tells.aside (tells : c.Tells opts text msgs) {f : Exchange → Exchange} (log : c'.log = (c.note f).log)
    (same : ∀ x, (f x).head = x.head ∧ (f x).answer = x.answer ∧ (f x).decoded = x.decoded ∧ (f x).decoderEof = x.decoderEof)
    (unread : c'.unread = c.unread) (asks : c.Asks c') (head : c'.canReadHead = true → c.canReadHead = true)
    (body : ∀ d, c'.state.reading = .body d → c.state.reading = .body d) : c'.Tells opts text msgs := by
  obtain ⟨replies, left, earlier, latest, part, told, before, answers, reading, rfl⟩ := tells
  rw [note, before] at log
  cases reading with
  | idle rest none =>
    rw [List.append_nil] at log
    refine ⟨replies, left, earlier.modifyLast f, [], [], told, ?_, ?_, ?_, rfl⟩
    · rw [log, List.append_nil]
    · exact forall₂_modifyLast answers fun r x _ _ answered => answered.same (same x)
    · exact .idle (unread.trans rest) fun d reading => none d (body d reading)
  | @waits x answer decoded unended rest skips =>
    rw [List.modifyLast_concat] at log
    obtain ⟨sameHead, sameAnswer, sameDecoded, sameEof⟩ := same x
    refine ⟨replies, left, earlier, [f x], [], told, log, answers, ?_, rfl⟩
    refine .waits (sameAnswer.trans answer) (sameDecoded.trans decoded) (sameEof.trans unended) (unread ▸ rest) ?_
    intro can
    rcases asks with asked | ⟨none, -⟩
    · obtain ⟨skipped, method⟩ := skips (head can)
      rw [asked, unread, sameHead]
      exact ⟨skipped, (congrArg ParseContext.reqMethod asked).trans method⟩
    · exact absurd (none.symm.trans can) Bool.false_ne_true
  | @reads x ctx msg d bytes behind asked said answer part rest going =>
    rw [List.modifyLast_concat] at log
    obtain ⟨sameHead, sameAnswer, sameDecoded, sameEof⟩ := same x
    refine ⟨replies, left, earlier, [f x], [msg], told, log, answers, ?_, rfl⟩
    refine .reads (d := d) (sameHead ▸ asked) said (sameAnswer.trans answer) ?_ (unread ▸ rest) ?_
    · exact ⟨sameDecoded ▸ part.emits, part.going, part.nonzero, sameDecoded ▸ part.plain, sameEof.trans part.unended⟩
    · intro d' reading
      rw [unread]
      exact going d' (body d' reading)

/-- A request is written only when the response before it has been read to its end. -/
theorem Tells.request (tells : c.Tells opts text msgs) (inv : c.Inv) {x : Exchange} (log : c'.log = c.log ++ [x])
    (fresh : x.answer = none ∧ x.decoded = [] ∧ x.decoderEof = false) (unread : c'.unread = c.unread)
    (method : c'.state.method = some x.head.subject.method) (can : c.canWriteHead = true) : c'.Tells opts text msgs := by
  obtain ⟨replies, left, earlier, latest, part, told, before, answers, reading, rfl⟩ := tells
  have done : ∀ y ∈ c.log, y.Done := (inv.idle (canWriteHead_iff.mp can).2.1).1
  cases reading with
  | idle rest none =>
    obtain ⟨answer, decoded, unended⟩ := fresh
    rw [List.append_nil] at before
    refine ⟨replies, left, earlier, [x], [], told, before ▸ log, answers, ?_, rfl⟩
    rw [rest] at unread
    refine .waits answer decoded unended (unread ▸ List.suffix_rfl) fun _ => ⟨?_, method⟩
    rw [unread]
    exact .none left
  | @waits y answer =>
    obtain ⟨r, answered, -⟩ := (done y (before ▸ List.mem_append_right _ (.head _))).answered
    exact absurd (answer.symm.trans answered) nofun
  | @reads y ctx msg d bytes behind _ _ answer part =>
    obtain ⟨r, answered, -, -, complete⟩ := (done y (before ▸ List.mem_append_right _ (.head _))).answered
    obtain rfl := Option.some.inj (answer.symm.trans answered)
    rcases complete with zero | ended
    · exact absurd zero part.nonzero
    · exact absurd (part.unended.symm.trans ended) nofun

theorem Tells.waits (tells : c.Tells opts text msgs) (inv : c.Inv) (fresh : c.Fresh) {cachedHeaders : Option HeaderMap}
    (can : c.canReadHead = true) (log : c'.log = c.log) (skips : Skips (parseContext c.state) c.unread c'.unread)
    (context : parseContext c'.state = { parseContext c.state with cachedHeaders }) : c'.Tells opts text msgs := by
  obtain ⟨replies, left, earlier, latest, part, told, before, answers, reading, rfl⟩ := tells
  obtain ⟨x, rfl, rfl, answer, decoded, unended, skipped, method⟩ := reading.waiting inv fresh can before answers
  refine ⟨replies, left, earlier, [x], [], told, log.trans before, answers, ?_, rfl⟩
  have whole := skipped.trans skips
  refine .waits answer decoded unended whole.suffix fun _ => ⟨?_, ?_⟩
  · rw [context]
    exact @Skips.recached _ _ c.state.cachedHeaders _ _ whole
  · exact (congrArg ParseContext.reqMethod context).trans method

theorem Tells.fails (tells : c.Tells opts text msgs) (inv : c.Inv) (fresh : c.Fresh) (can : c.canReadHead = true)
    (log : c'.log = c.log) (unread : c'.unread <:+ c.unread) (closed : c'.state.reading = .closed) :
    c'.Tells opts text msgs := by
  obtain ⟨replies, left, earlier, latest, part, told, before, answers, reading, rfl⟩ := tells
  obtain ⟨x, rfl, rfl, answer, decoded, unended, skipped, -⟩ := reading.waiting inv fresh can before answers
  refine ⟨replies, left, earlier, [x], [], told, log.trans before, answers, ?_, rfl⟩
  refine .waits answer decoded unended (unread.trans skipped.suffix) ?_
  intro can
  exact absurd ((canReadHead_iff.mp can).1.symm.trans closed) nofun

omit [Httparse] in
theorem new_isEof (decode : DecodedLength) (h1MaxHeaders h1MaxHeaderSize : Option Nat) :
    (Decoder.new decode h1MaxHeaders h1MaxHeaderSize).isEof = decide (decode = .ZERO) := by
  cases decode with
  | length n =>
    cases n with
    | zero => rfl
    | succ => rfl
  | chunked => rfl
  | closeDelimited => rfl

/-- A head without a body is a whole response. Behind another one the body is still to be read. -/
theorem Tells.head (tells : c.Tells opts text msgs) (inv : c.Inv) (fresh : c.Fresh) (has : c.Has opts)
    (can : c.canReadHead = true) {msg : ParsedMessage} (hears : c.HearsHead c' msg) : c'.Tells opts text (msgs ++ [msg]) := by
  obtain ⟨replies, left, earlier, latest, part, told, before, answers, reading, rfl⟩ := tells
  obtain ⟨x, rfl, rfl, answer, decoded, unended, skipped, method⟩ := reading.waiting inv fresh can before answers
  have log := hears.log
  rw [note, before, List.modifyLast_concat] at log
  have said := hears.said.skip skipped
  have asks : AsksFor opts x.head.subject.method (parseContext c.state) := ⟨method, has.config, has.maxHeaders⟩
  by_cases zero : msg.decode = .ZERO
  · have reply : Reply.Spans opts ⟨x.head.subject.method, msg, []⟩ left c'.unread :=
      ⟨parseContext c.state, [], asks, said, zero ▸ .empty opts.h1MaxHeaders⟩
    refine ⟨replies ++ [⟨x.head.subject.method, msg, []⟩], c'.unread, earlier ++ [{ x with answer := some msg.answer }], [],
      [], .next told reply, ?_, ?_, ?_, ?_⟩
    · rw [List.append_nil]
      exact log
    · exact List.rel_append answers (.cons ⟨rfl, rfl, decoded⟩ .nil)
    · exact .idle rfl fun d body => absurd zero (hears.body d body).1
    · simp
  · refine ⟨replies, left, earlier, _, [msg], told, log, answers, ?_, ?_⟩
    · refine @Latest.reads _ _ _ _ _ _ _ (.new msg.decode opts.h1MaxHeaders none) [] c'.unread asks said rfl ?_
        List.suffix_rfl ?_
      · refine ⟨?_, ?_, zero, ?_, unended⟩
        · show Emits _ _ [] _ (framesData x.decoded)
          rw [decoded]
          exact .nil _
        · rw [new_isEof, decide_eq_false_iff_not]
          exact zero
        · show framesTrailers x.decoded = []
          rw [decoded]
          rfl
      · intro d' body
        rw [← has.maxHeaders]
        exact ⟨(hears.body d' body).2, rfl⟩
    · simp

/-- A part of a body goes on, or ends with the response. -/
theorem Tells.body (tells : c.Tells opts text msgs) (inv : c.Inv) (reads : c.ReadsBody c') : c'.Tells opts text msgs := by
  obtain ⟨replies, left, earlier, latest, part, told, before, answers, reading, rfl⟩ := tells
  cases reads with
  | @frame d d' io frame body out log unread after =>
    obtain ⟨x, ctx, msg, bytes, rfl, rfl, asks, said, answer, part⟩ := reading.reading inv body before
    rw [note, before, List.modifyLast_concat] at log
    have decodes := d.decode_decodes part.going c.io
    rw [out] at decodes
    cases decodes with
    | @data data _ _ later split emits going =>
      have more : bytes ++ c.unread = (bytes ++ later) ++ io.unread := by
        rw [List.append_assoc, ← split]
        rfl
      refine ⟨replies, left, earlier, _, [msg], told, log, answers, ?_, rfl⟩
      refine .reads asks (more ▸ said) answer (part.more emits going ?_ ?_ going) (unread ▸ List.suffix_rfl) ?_
      · rw [framesData_append]
        simp [framesData]
      · rw [framesTrailers_append, part.plain]
        rfl
      · intro d₁ there
        exact ⟨(after d₁ there).1, unread⟩
    | @ended _ d₁ _ _ later split emits ends =>
      have more : bytes ++ c.unread = (bytes ++ later) ++ io.unread := by
        rw [List.append_assoc, ← split]
        rfl
      have whole : Emits Decoder.onByte (.new msg.decode opts.h1MaxHeaders none) (bytes ++ later) d₁
          (framesData (x.decoded ++ [frame])) := by
        rw [framesData_append]
        exact part.emits.append emits
      have reply : Reply.Spans opts ⟨x.head.subject.method, msg, x.decoded ++ [frame]⟩ left io.unread :=
        ⟨ctx, bytes ++ later, asks, more ▸ said, .of_ends part.plain whole ends⟩
      refine ⟨_, io.unread, earlier ++ [{ x with decoded := x.decoded ++ [frame], decoderEof := d'.isEof }], [], [],
        .next told reply, ?_, ?_, ?_, ?_⟩
      · rw [List.append_nil]
        exact log
      · exact List.rel_append answers (.cons ⟨rfl, answer, rfl⟩ .nil)
      · exact .idle unread fun d₂ there => absurd ((after d₂ there).2.symm.trans ends.isEof) Bool.false_ne_true
      · simp
  | @stalled d d' io res body out other log unread after =>
    obtain ⟨x, ctx, msg, bytes, rfl, rfl, asks, said, answer, part⟩ := reading.reading inv body before
    have decodes := d.decode_decodes part.going c.io
    rw [out] at decodes
    refine ⟨replies, left, earlier, [x], [msg], told, log.trans before, answers, ?_, rfl⟩
    cases decodes with
    | @pending _ _ later split emits going =>
      have more : bytes ++ c.unread = (bytes ++ later) ++ io.unread := by
        rw [List.append_assoc, ← split]
        rfl
      refine .reads asks (more ▸ said) answer (part.more emits going ?_ part.plain part.unended) (unread ▸ List.suffix_rfl) ?_
      · rw [List.append_nil]
      · intro d₁ there
        exact ⟨(after d₁ there).1, unread⟩
    | failed suffix =>
      refine .reads asks said answer part (unread ▸ suffix) ?_
      intro d₁ there
      cases (after d₁ there).2
    | data => exact absurd rfl (other _)
    | ended => exact absurd rfl (other _)

/-- A step that finds no head and writes none. -/
theorem Tells.mutters (tells : c.Tells opts text msgs) (inv : c.Inv) (fresh : c.Fresh) (hears : c.Hears c') :
    c'.Tells opts text msgs := by
  cases hears with
  | aside log same unread asks head body => exact tells.aside log same unread asks head body
  | waits can log skips context => exact tells.waits inv fresh can log skips context
  | fails can log unread closed => exact tells.fails inv fresh can log unread closed
  | body reads => exact tells.body inv reads

/-- Where a head can be read, one request has no response yet. -/
theorem Tells.waiting (tells : c.Tells opts text msgs) (inv : c.Inv) (fresh : c.Fresh) (can : c.canReadHead = true) :
    msgs.length + 1 = c.log.length := by
  obtain ⟨replies, left, earlier, latest, part, told, before, answers, reading, rfl⟩ := tells
  obtain ⟨x, rfl, rfl, -⟩ := reading.waiting inv fresh can before answers
  rw [before, List.length_append, List.length_append, List.length_map, answers.length_eq]
  rfl

omit [Httparse] in
theorem handshake_has (opts : Http1Options) (io : Transport) : (handshake opts io).Has opts := ⟨rfl, rfl, rfl⟩

theorem handshake_tells (opts : Http1Options) (io : Transport) :
    (handshake opts io).Tells opts (io.reads.flatMap ReadEvent.bytes) [] := by
  refine ⟨[], _, [], [], [], .none _, rfl, .nil, .idle (handshake_unread opts io) nofun, rfl⟩

/-! ### Runs -/

theorem Hears.length (hears : c.Hears c') : c'.log.length = c.log.length := by
  cases hears with
  | @aside f log =>
    rw [log]
    exact length_modifyLast f c.log
  | waits _ log => rw [log]
  | fails _ log => rw [log]
  | body reads =>
    cases reads with
    | frame _ _ log =>
      rw [log]
      exact length_modifyLast _ c.log
    | stalled _ _ _ log => rw [log]

/-- A call that finds no head. -/
def Murmurs (c c' : Conn) : Prop := c.Call c' ∧ (c.Inv → Client.CacheEmpty c.state.cachedHeaders → c.Mutters c')

/-- The history of a connection tells responses, with what that rests on. -/
structure Heard (opts : Http1Options) (text : Bytes) (c : Conn) (msgs : List ParsedMessage) : Prop where
  inv : c.Inv
  fresh : c.Fresh
  has : c.Has opts
  tells : c.Tells opts text msgs

theorem handshake_heard (opts : Http1Options) (io : Transport) :
    (handshake opts io).Heard opts (io.reads.flatMap ReadEvent.bytes) [] :=
  ⟨handshake_inv opts io, handshake_fresh opts io, handshake_has opts io, handshake_tells opts io⟩

theorem Heard.murmurs (heard : c.Heard opts text msgs) (murmurs : c.Murmurs c') : c'.Heard opts text msgs := by
  obtain ⟨call, mutters⟩ := murmurs
  obtain ⟨hears, settled⟩ := mutters heard.inv heard.has.empty
  refine ⟨(call.inv heard.inv).1, call.fresh heard.inv heard.fresh, heard.has.settled settled, ?_⟩
  exact heard.tells.mutters heard.inv heard.fresh hears

theorem Heard.calls (heard : c.Heard opts text msgs) (calls : Relation.ReflTransGen Murmurs c c') :
    c'.Heard opts text msgs ∧ c'.log.length = c.log.length := by
  induction calls with
  | refl => exact ⟨heard, rfl⟩
  | tail _ murmurs ih =>
    obtain ⟨before, length⟩ := ih
    obtain ⟨hears, -⟩ := murmurs.2 before.inv before.has.empty
    exact ⟨before.murmurs murmurs, hears.length.trans length⟩

/-- The head that is found is that of the response to the last request. -/
theorem Heard.head (heard : c.Heard opts text msgs) (can : c.canReadHead = true) {msg : ParsedMessage}
    (found : c.pollReadHead.1 = .ready (some (.ok msg))) :
    c.pollReadHead.2.Heard opts text (msgs ++ [msg]) ∧ c.pollReadHead.2.log.length = c.log.length ∧
      msgs.length + 1 = c.log.length := by
  obtain ⟨msg', found', hears, settled⟩ | ⟨none, -⟩ := pollReadHead_hears can heard.has.empty
  · cases found.symm.trans found'
    refine ⟨⟨(Call.inv (.readHead can) heard.inv).1, Call.fresh (.readHead can) heard.inv heard.fresh,
      heard.has.settled settled, heard.tells.head heard.inv heard.fresh heard.has can hears⟩, ?_, ?_⟩
    · rw [hears.log]
      exact length_modifyLast _ c.log
    · exact heard.tells.waiting heard.inv heard.fresh can
  · exact absurd found (none msg)

theorem Heard.writeHead (heard : c.Heard opts text msgs) {head : RequestHead} {body : Option BodyLength}
    (can : c.canWriteHead = true) (small : ∀ n, body = some (.known n) → n < 2 ^ 64)
    (wrote : c.writeHead head body = some c') : c'.Heard opts text msgs ∧ c'.log.length = c.log.length + 1 := by
  obtain ⟨x, spec⟩ := writeHead_spec wrote
  have unread : c'.unread = c.unread := by
    show c'.io.unread = c.io.unread
    rw [spec.reads]
    rfl
  refine ⟨⟨(Step.inv (.writeHead can small wrote) heard.inv).1, writeHead_fresh heard.inv can spec,
    heard.has.settled (writeHead_settled wrote), ?_⟩, ?_⟩
  · exact heard.tells.request heard.inv spec.log ⟨spec.answer, spec.decoded, spec.decoderEof⟩ unread
      (writeHead_method wrote spec.log) can
  · rw [spec.log, List.length_append, List.length_singleton]

end Conn

end Hwire.Http1
