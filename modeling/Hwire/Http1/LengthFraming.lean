import Hwire.Http1.Truncation
import Hwire.Http1.Unread

/-!
# Bodies of a known length

What a connection has read of a response whose head declares the length of its body: the bytes behind the head, in order,
and never one of them beyond the length. What follows stays unread as long as no other request is written.
-/

namespace Hwire.Http1
open Lib Body

/-- What the decoder has returned of a body of `n` bytes, out of the bytes behind the head. -/
structure Exchange.Pieces (x : Exchange) (n : Nat) (after : Bytes) : Prop where
  data : framesData x.decoded <+: after
  bounded : (framesData x.decoded).length ≤ n
  whole : x.decoderEof = true → (framesData x.decoded).length = n

/-- An answer stays what it is, and more is read of its body. -/
structure Exchange.Grows (x x' : Exchange) : Prop where
  answer : ∀ r, x.answer = some r → x'.answer = some r
  decoded : x.decoded <+: x'.decoded

theorem Exchange.Grows.refl (x : Exchange) : x.Grows x := ⟨fun _ => id, List.prefix_rfl⟩

theorem Exchange.Grows.trans {x₁ x₂ x₃ : Exchange} (h : x₁.Grows x₂) (h' : x₂.Grows x₃) : x₁.Grows x₃ :=
  ⟨fun r answer => h'.answer r (h.answer r answer), h.decoded.trans h'.decoded⟩

theorem Buffered.readMem_take {B : Type} (b : Buffered B) (len : Nat) :
    (∃ slice b', b.readMem len = (.ready (.ok slice), b') ∧ slice.length ≤ len ∧ b.unread = slice ++ b'.unread) ∨
      (∀ slice, (b.readMem len).1 ≠ .ready (.ok slice)) ∧ (b.readMem len).2.unread = b.unread := by
  have taken (b : Buffered B) (n : Nat) :
      b.unread = b.readBuf.take n ++ Buffered.unread { b with readBuf := b.readBuf.drop n } := by
    rw [unread, unread, ← List.append_assoc, List.take_append_drop]
  unfold readMem
  split
  · refine .inl ⟨_, _, rfl, ?_, taken b _⟩
    rw [List.length_take]
    omega
  · have read := b.pollReadFromIo_unread
    split
    · next h =>
      rw [h] at read
      exact .inr ⟨fun _ same => (by cases same), read⟩
    · next h =>
      rw [h] at read
      exact .inr ⟨fun _ same => (by cases same), read⟩
    · next n b' h =>
      rw [h] at read
      refine .inl ⟨_, _, rfl, ?_, read.symm.trans (taken b' _)⟩
      rw [List.length_take]
      omega

/-- What a decoder for a known length does: it takes a part of what is missing, or nothing. -/
theorem Decoder.decode_length [Httparse] {B : Type} (remaining : Nat) (b : Buffered B) :
    (∃ slice b', (Decoder.length remaining).decode b =
        (.ready (.ok (.data slice)), .length (remaining - slice.length), b') ∧ slice.length ≤ remaining ∧
        b.unread = slice ++ b'.unread) ∨
      (∃ b', (Decoder.length remaining).decode b = (.pending, .length remaining, b') ∧ b'.unread = b.unread) ∨
      ∃ e b', (Decoder.length remaining).decode b = (.ready (.error e), .length remaining, b') ∧ b'.unread = b.unread := by
  unfold Decoder.decode
  by_cases none : remaining = 0
  · subst none
    exact .inl ⟨[], b, rfl, Nat.le_refl 0, rfl⟩
  · simp only [none, if_false]
    obtain ⟨slice, b', eq, fits, split⟩ | ⟨other, same⟩ := b.readMem_take remaining
    · rw [show MemRead.readMem b remaining = b.readMem remaining from rfl, eq]
      simp only [Nat.not_lt.mpr fits, if_false]
      by_cases empty : slice.length = 0
      · simp only [empty, if_true]
        rw [List.length_eq_zero_iff.mp empty] at split
        exact .inr (.inr ⟨_, b', rfl, split.symm⟩)
      · simp only [empty, if_false]
        exact .inl ⟨slice, b', rfl, fits, split⟩
    · rw [show MemRead.readMem b remaining = b.readMem remaining from rfl]
      cases eq : b.readMem remaining with
      | mk res b' =>
        rw [eq] at other same
        cases res with
        | pending => exact .inr (.inl ⟨b', rfl, same⟩)
        | ready res =>
          cases res with
          | error e => exact .inr (.inr ⟨e, b', rfl, same⟩)
          | ok slice => exact absurd rfl (other slice)

/-- At the end of the transport a decoder that misses bytes fails. -/
theorem Decoder.decode_length_eof [Httparse] {B : Type} {remaining : Nat} (missing : remaining ≠ 0) {b : Buffered B}
    (empty : b.readBuf = []) (eof : b.pollReadFromIo.1 = .ready (.ok 0)) :
    ((Decoder.length remaining).decode b).1 = .ready (.error Chunked.incompleteBody) := by
  have read : (b.readMem remaining).1 = .ready (.ok []) := by
    cases polled : b.pollReadFromIo with
    | mk res b' =>
      rw [polled] at eof
      obtain rfl : res = .ready (.ok 0) := eof
      simp [Buffered.readMem, empty, polled]
  cases out : b.readMem remaining with
  | mk res b' =>
    rw [out] at read
    obtain rfl : res = .ready (.ok []) := read
    simp [Decoder.decode, missing, show MemRead.readMem b remaining = b.readMem remaining from rfl, out]

theorem Decoder.isEof_length {remaining : Nat} : (Decoder.length remaining).isEof = true ↔ remaining = 0 := by
  cases remaining with
  | zero => exact ⟨fun _ => rfl, fun _ => rfl⟩
  | succ => exact ⟨nofun, nofun⟩

namespace Conn

variable [Httparse]

omit [Httparse] in
theorem note_cases {c : Conn} {f : Exchange → Exchange} {i : Nat} {x' : Exchange} (there : (c.note f).log[i]? = some x') :
    ∃ x, c.log[i]? = some x ∧ (i + 1 = c.log.length ∧ x' = f x ∨ i + 1 ≠ c.log.length ∧ x' = x) := by
  rw [note, getElem?_modifyLast] at there
  split at there
  · next last =>
    obtain ⟨x, before, rfl⟩ := Option.map_eq_some_iff.mp there
    exact ⟨x, before, .inl ⟨last, rfl⟩⟩
  · next earlier => exact ⟨x', there, .inr ⟨earlier, rfl⟩⟩

omit [Httparse] in
theorem body_of_closes {c c' : Conn} (closes : c.state.Closes c'.state) (d : Decoder) (body : c'.state.reading = .body d) :
    c.state.reading = .body d := by
  rcases closes.reading with same | closed
  · exact same.symm.trans body
  · exact absurd (closed.symm.trans body) nofun

omit [Httparse] in
theorem body_of_tryKeepAlive (c : Conn) (d : Decoder) (body : c.tryKeepAlive.state.reading = .body d) :
    c.state.reading = .body d := by
  have body := body_of_closes (maybeNotify_closes { c with state := c.state.tryKeepAlive }).state d body
  obtain ⟨-, -, -, eq⟩ | closes := c.state.tryKeepAlive_cases
  · rw [eq] at body
    cases body
  · rcases closes.reading with same | closed
    · exact same.symm.trans body
    · exact absurd (closed.symm.trans body) nofun

/-! ### What a step takes out of the stream -/

/-- What a step does to the history of what was read, to what is unread and to the decoder. -/
inductive Takes (c c' : Conn) : Prop where
  | nothing {f : Exchange → Exchange} (log : c'.log = (c.note f).log)
      (same : ∀ x, (f x).answer = x.answer ∧ (f x).decoded = x.decoded ∧ (f x).decoderEof = x.decoderEof)
      (unread : c'.unread = c.unread) (body : ∀ d, c'.state.reading = .body d → c.state.reading = .body d)
  /-- A request is written, so what is unread belongs to its response. -/
  | request {x : Exchange} (log : c'.log = c.log ++ [x]) (fresh : x.answer = none)
  /-- Heads of status 1xx, or a head that cannot be read. -/
  | skipped (can : c.canReadHead = true) (log : c'.log = c.log)
  | head {msg : ParsedMessage} (can : c.canReadHead = true) (eq : c' = c.pollReadHead.2)
      (found : c.pollReadHead.1 = .ready (some (.ok msg)))
      (body : ∀ d, c'.state.reading = .body d → msg.decode ≠ .ZERO ∧ ∃ maxHeaders, d = .new msg.decode maxHeaders none)
  | frame {d d' : Decoder} {io : Buffered (EncodedBuf Bytes)} {frame : Frame} (reading : c.state.reading = .body d)
      (out : d.decode c.io = (.ready (.ok frame), d', io))
      (log : c'.log = (c.note fun x => { x with decoded := x.decoded ++ [frame], decoderEof := d'.isEof }).log)
      (unread : c'.unread = io.unread) (body : ∀ d, c'.state.reading = .body d → d = d' ∧ d'.isEof = false)
  | stalled {d d' : Decoder} {io : Buffered (EncodedBuf Bytes)} {res : Poll (Except IoError Frame)}
      (reading : c.state.reading = .body d) (out : d.decode c.io = (res, d', io)) (other : ∀ frame, res ≠ .ready (.ok frame))
      (log : c'.log = c.log) (unread : c'.unread = io.unread) (body : ∀ d, c'.state.reading = .body d → d = d')

theorem Takes.same {c c' : Conn} (log : c'.log = c.log) (unread : c'.unread = c.unread)
    (body : ∀ d, c'.state.reading = .body d → c.state.reading = .body d) : c.Takes c' :=
  .nothing (f := fun x => x) (log.trans (by rw [note_id])) (fun _ => ⟨rfl, rfl, rfl⟩) unread body

theorem Takes.sent (c : Conn) (writeBuf : WriteBuf (EncodedBuf Bytes)) (more : Bytes) (next : Writing) :
    c.Takes (c.sendMore writeBuf more next) :=
  .nothing (sendMore_log c writeBuf more next) (fun _ => ⟨rfl, rfl, rfl⟩) rfl fun _ => id

/-- Reading may be closed after it. -/
theorem Takes.close {c c' : Conn} (h : c.Takes c') (can : c.canReadBody = true) : c.Takes c'.closeRead := by
  cases h with
  | nothing log same unread => exact .nothing log same unread nofun
  | request log fresh => exact .request log fresh
  | skipped can log => exact .skipped can log
  | head head => exact absurd ((not_canReadBody_of_canReadHead head).symm.trans can) nofun
  | frame reading out log unread => exact .frame reading out log unread nofun
  | stalled reading out other log unread => exact .stalled reading out other log unread nofun

theorem pollReadHead_takes {c : Conn} (can : c.canReadHead = true) : c.Takes c.pollReadHead.2 := by
  obtain ⟨-, eq⟩ | ⟨e, -, eq⟩ | ⟨msg, trailers, found, -, res, eq⟩ := c.pollReadHead_cases
  · exact .skipped can (by rw [eq]; rfl)
  · exact .skipped can (by rw [eq]; exact (c.withParse.onReadHeadError_closes e).1.log)
  · refine .head can rfl res ?_
    rw [eq]
    intro d reading
    have headed : (c.withParse.withHead msg).state.reading = .body d := by
      dsimp only at reading
      split at reading
      · exact body_of_tryKeepAlive _ d reading
      · exact reading
    obtain ⟨-, kept⟩ | ⟨nonzero, body⟩ := readingAfterHead_plain (s := _) found.plain
    · exact absurd (kept.symm.trans headed) nofun
    · exact ⟨nonzero, _, Reading.body.inj (headed.symm.trans body)⟩

theorem pollReadBodyWith_takes {c : Conn} {d : Decoder} (reading : c.state.reading = .body d) :
    c.Takes (c.pollReadBodyWith d).2 := by
  obtain ⟨d', io, out, eq⟩ | ⟨e, d', io, out, eq⟩ | ⟨frame, d', io, out, -, eq⟩ | ⟨data, d', io, out, -, more, eq⟩ :=
    c.pollReadBodyWith_cases d
  · rw [eq]
    exact .stalled reading out nofun rfl rfl fun d'' body => (Reading.body.inj body).symm
  · rw [eq]
    refine .stalled reading out nofun (tryKeepAlive_log _) (tryKeepAlive_unread _) ?_
    intro d'' body
    cases body_of_tryKeepAlive _ d'' body
  · rw [eq]
    refine .frame reading out (tryKeepAlive_log _) (tryKeepAlive_unread _) ?_
    intro d'' body
    cases body_of_tryKeepAlive _ d'' body
  · rw [eq]
    exact .frame reading out rfl rfl fun d'' body => ⟨(Reading.body.inj body).symm, more⟩

theorem Call.takes {c c' : Conn} (call : c.Call c') (inv : c.Inv) : c.Takes c' := by
  have read (can : c.canReadBody = true) : c.Takes c.pollReadBody.2 := by
    obtain ⟨d, reading⟩ := inv.reading_of_canReadBody can
    rw [pollReadBody_of_reading reading]
    exact pollReadBodyWith_takes reading
  have sent {c' : Conn} (sends : c.Sends c') : c.Takes c' := by
    obtain rfl | ⟨writeBuf, more, next, -, rfl⟩ := sends
    · exact .same rfl rfl fun _ => id
    · exact .sent _ _ _ _
  cases call with
  | readHead can => exact pollReadHead_takes can
  | readBody can => exact read can
  | drain can =>
    obtain ⟨d, reading⟩ := inv.reading_of_canReadBody can
    rcases pollDrainOrCloseRead_eq reading with eq | eq
    · rw [eq]
      exact read can
    · rw [eq]
      exact (read can).close can
  | readKeepAlive =>
    exact .same c.pollReadKeepAlive_closes.log c.pollReadKeepAlive_unread (body_of_closes c.pollReadKeepAlive_closes.state)
  | flush =>
    refine .same ?_ c.pollFlush_unread ?_
    · obtain ⟨-, eq⟩ | ⟨-, eq⟩ := c.pollFlush_eq
      · rw [eq]
        exact tryKeepAlive_log _
      · rw [eq]
    · obtain ⟨-, eq⟩ | ⟨-, eq⟩ := c.pollFlush_eq
      · rw [eq]
        exact body_of_tryKeepAlive { c with io := c.io.pollFlush.2 }
      · rw [eq]
        exact fun _ => id
  | shutdown => exact .same rfl c.pollShutdown_unread fun _ => id
  | writeBody can => exact sent (writeBody_sends can _)
  | writeTrailers can => exact sent (writeTrailers_sends can _)
  | writeBodyAndEnd can => exact sent (writeBodyAndEnd_sends can _)
  | endBody can => exact sent (endBody_sends can)
  | closeRead | close => exact .same rfl rfl nofun
  | readAgain | takeError | pendingUpgrade | onUpgrade => exact .same rfl rfl fun _ => id

theorem Step.takes {c c' : Conn} (step : c.Step c') (inv : c.Inv) : c.Takes c' := by
  cases step with
  | call call => exact call.takes inv
  | writeHead _ _ wrote =>
    obtain ⟨x, spec⟩ := writeHead_spec wrote
    exact .request spec.log spec.answer

omit [Httparse] in
/-- The request whose response is waited for has no answer yet. -/
theorem Fresh.last {c : Conn} (fresh : c.Fresh) (can : c.canReadHead = true) {i : Nat} {x : Exchange}
    (there : c.log[i]? = some x) (last : i + 1 = c.log.length) :
    x.answer = none ∧ x.decoded = [] ∧ x.decoderEof = false := by
  have waiting := fresh.head can
  rw [received, List.getLast?_map, List.getLast?_eq_getElem?, ← last, Nat.add_sub_cancel, there] at waiting
  simp only [Option.map_some, Option.some.injEq, Exchange.received, Received.mk.injEq] at waiting
  exact ⟨by simpa using waiting.1, waiting.2⟩

/-! ### The history grows -/

/-- Answers stay what they are, and more is read of their bodies. -/
def Grows (c c' : Conn) : Prop := ∀ (i : Nat) (x : Exchange), c.log[i]? = some x → ∃ x', c'.log[i]? = some x' ∧ x.Grows x'

omit [Httparse] in
theorem Grows.note {c c' : Conn} {f : Exchange → Exchange} (log : c'.log = (c.note f).log)
    (grows : ∀ i x, c.log[i]? = some x → i + 1 = c.log.length → x.Grows (f x)) : c.Grows c' := by
  intro i x there
  rw [log, Conn.note, getElem?_modifyLast, there]
  split
  · next last => exact ⟨f x, rfl, grows i x there last⟩
  · exact ⟨x, rfl, .refl x⟩

theorem Takes.grows {c c' : Conn} (takes : c.Takes c') (fresh : c.Fresh) : c.Grows c' := by
  cases takes with
  | nothing log same =>
    refine .note log fun i x _ _ => ⟨?_, ?_⟩
    · rw [(same x).1]
      exact fun _ => id
    · rw [(same x).2.1]
  | request log =>
    intro i x there
    rw [log, List.getElem?_append_left (List.getElem?_eq_some_iff.mp there).1]
    exact ⟨x, there, .refl x⟩
  | skipped _ log | stalled _ _ _ log =>
    intro i x there
    rw [log]
    exact ⟨x, there, .refl x⟩
  | head can eq found =>
    subst eq
    refine .note (pollReadHead_ends found).2 fun i x there last => ⟨?_, List.prefix_rfl⟩
    intro r answer
    exact absurd ((fresh.last can there last).1.symm.trans answer) nofun
  | frame reading out log => exact .note log fun i x _ _ => ⟨fun _ => id, List.prefix_append _ _⟩

theorem Steps.grows {c c' : Conn} (steps : c.Steps c') (inv : c.Inv) (fresh : c.Fresh) : c.Grows c' := by
  induction steps with
  | refl => exact fun i x there => ⟨x, there, .refl x⟩
  | tail earlier step ih =>
    intro i x there
    obtain ⟨x₁, there₁, grows⟩ := ih i x there
    obtain ⟨x₂, there₂, more⟩ := (step.takes (Steps.inv earlier inv).1).grows (Steps.fresh earlier inv fresh) i x₁ there₁
    exact ⟨x₂, there₂, grows.trans more⟩

/-! ### Bodies of a known length -/

/-- On the way from one connection to another the head of the response number `i` was read. What is unread after it is
`after`. -/
structure HeadRead (start : Conn) (i : Nat) (msg : ParsedMessage) (after : Bytes) (c : Conn) : Prop where
  between : ∃ c₀ : Conn, start.Steps c₀ ∧ c₀.canReadHead = true ∧ c₀.pollReadHead.1 = .ready (some (.ok msg)) ∧
    c₀.pollReadHead.2.Steps c ∧ c₀.log.length = i + 1 ∧ EndsHead (parseContext c₀.state) c₀.unread msg after ∧
    c₀.pollReadHead.2.unread = after

theorem HeadRead.step {start c c' : Conn} {i : Nat} {msg : ParsedMessage} {after : Bytes}
    (h : HeadRead start i msg after c) (step : c.Step c') : HeadRead start i msg after c' := by
  obtain ⟨c₀, before, can, found, later, index, ends⟩ := h.between
  exact ⟨c₀, before, can, found, later.tail step, index, ends⟩

/-- A response whose body has `n` bytes: where its head ended, what was read of its body, and what is left of that where it
is the last response. -/
def FramedAt (start c : Conn) (i : Nat) (x : Exchange) (n : Nat) : Prop :=
  ∃ msg after, HeadRead start i msg after c ∧ msg.decode = .length n ∧ x.Pieces n after ∧
    (i + 1 = c.log.length → c.unread = after.drop (framesData x.decoded).length ∧
      ∀ d, c.state.reading = .body d →
        (framesData x.decoded).length < n ∧ d = .length (n - (framesData x.decoded).length))

def Framed (start c : Conn) : Prop :=
  ∀ (i : Nat) (x : Exchange) (r : Answer) (n : Nat), c.log[i]? = some x → x.answer = some r → r.decode = .length n →
    FramedAt start c i x n

theorem FramedAt.earlier {start c c' : Conn} {i : Nat} {x : Exchange} {n : Nat} (h : FramedAt start c i x n)
    (step : c.Step c') (earlier : i + 1 ≠ c'.log.length) : FramedAt start c' i x n := by
  obtain ⟨msg, after, read, declared, pieces, -⟩ := h
  exact ⟨msg, after, read.step step, declared, pieces, fun last => absurd last earlier⟩

theorem FramedAt.same {start c c' : Conn} {i : Nat} {x x' : Exchange} {n : Nat} (h : FramedAt start c i x n)
    (step : c.Step c') (length : c'.log.length = c.log.length) (unread : c'.unread = c.unread)
    (body : ∀ d, c'.state.reading = .body d → c.state.reading = .body d) (decoded : x'.decoded = x.decoded)
    (ended : x'.decoderEof = x.decoderEof) : FramedAt start c' i x' n := by
  obtain ⟨msg, after, read, declared, pieces, last⟩ := h
  refine ⟨msg, after, read.step step, declared, ⟨?_, ?_, ?_⟩, ?_⟩
  · rw [decoded]
    exact pieces.data
  · rw [decoded]
    exact pieces.bounded
  · rw [decoded, ended]
    exact pieces.whole
  · intro at_end
    obtain ⟨rest, going⟩ := last (at_end.trans length)
    rw [unread, decoded]
    exact ⟨rest, fun d reading => going d (body d reading)⟩

/-- A head was found. Nothing of the body has been read. -/
theorem FramedAt.head {start c : Conn} (steps : start.Steps c) (can : c.canReadHead = true) {msg : ParsedMessage}
    (found : c.pollReadHead.1 = .ready (some (.ok msg))) {i : Nat} {x : Exchange} {n : Nat} (last : i + 1 = c.log.length)
    (body : ∀ d, c.pollReadHead.2.state.reading = .body d →
      msg.decode ≠ .ZERO ∧ ∃ maxHeaders, d = .new msg.decode maxHeaders none)
    (declared : msg.decode = .length n) (decoded : x.decoded = []) (unfinished : x.decoderEof = false) :
    FramedAt start c.pollReadHead.2 i x n := by
  refine ⟨msg, _, ⟨c, steps, can, found, .refl, last.symm, (pollReadHead_ends found).1, rfl⟩, declared, ⟨?_, ?_, ?_⟩, ?_⟩
  · rw [decoded]
    exact List.nil_prefix
  · rw [decoded]
    exact Nat.zero_le n
  · intro ended
    exact absurd (unfinished.symm.trans ended) nofun
  · intro _
    rw [decoded]
    refine ⟨rfl, ?_⟩
    intro d reading
    obtain ⟨nonzero, _, rfl⟩ := body d reading
    rw [declared] at nonzero ⊢
    refine ⟨Nat.pos_of_ne_zero ?_, rfl⟩
    rintro rfl
    exact nonzero rfl

/-- A part of the body is read. -/
theorem FramedAt.frame {start c c' : Conn} {i : Nat} {x : Exchange} {n : Nat} (h : FramedAt start c i x n)
    (step : c.Step c') (last : i + 1 = c.log.length) {d d' : Decoder} {io : Buffered (EncodedBuf Bytes)} {frame : Frame}
    (reading : c.state.reading = .body d) (out : d.decode c.io = (.ready (.ok frame), d', io))
    (unread : c'.unread = io.unread) (body : ∀ d, c'.state.reading = .body d → d = d' ∧ d'.isEof = false) :
    FramedAt start c' i { x with decoded := x.decoded ++ [frame], decoderEof := d'.isEof } n := by
  obtain ⟨msg, after, read, declared, pieces, rest⟩ := h
  obtain ⟨left, going⟩ := rest last
  obtain ⟨missing, rfl⟩ := going d reading
  obtain ⟨slice, io', eq, fits, split⟩ | ⟨io', eq, -⟩ | ⟨e, io', eq, -⟩ :=
    Decoder.decode_length (n - (framesData x.decoded).length) c.io
  · obtain ⟨rfl, rfl, rfl⟩ : .data slice = frame ∧
        Decoder.length (n - (framesData x.decoded).length - slice.length) = d' ∧ io' = io := by
      rw [eq] at out
      cases out
      exact ⟨rfl, rfl, rfl⟩
    have more : framesData (x.decoded ++ [.data slice]) = framesData x.decoded ++ slice := by
      rw [framesData_append]
      simp [framesData]
    have whole : after = framesData x.decoded ++ (slice ++ io'.unread) := by
      obtain ⟨tail, rfl⟩ := pieces.data
      rw [List.drop_left] at left
      rw [← split]
      exact congrArg _ left.symm
    have bounded := pieces.bounded
    refine ⟨msg, after, read.step step, declared, ⟨?_, ?_, ?_⟩, ?_⟩
    · rw [more, whole, ← List.append_assoc]
      exact List.prefix_append _ _
    · rw [more, List.length_append]
      omega
    · intro ended
      have none_left := Decoder.isEof_length.mp ended
      rw [more, List.length_append]
      omega
    · intro _
      rw [more, unread]
      refine ⟨?_, ?_⟩
      · rw [whole, ← List.append_assoc, List.drop_left]
      · intro d reading'
        obtain ⟨rfl, unended⟩ := body d reading'
        have some_left : n - (framesData x.decoded).length - slice.length ≠ 0 := by
          intro none_left
          rw [Decoder.isEof_length.mpr none_left] at unended
          cases unended
        rw [List.length_append, ← Nat.sub_sub]
        refine ⟨?_, rfl⟩
        omega
  · rw [eq] at out
    cases out
  · rw [eq] at out
    cases out

/-- Nothing was there to be read. -/
theorem FramedAt.stalled {start c c' : Conn} {i : Nat} {x : Exchange} {n : Nat} (h : FramedAt start c i x n)
    (step : c.Step c') {d d' : Decoder} {io : Buffered (EncodedBuf Bytes)}
    {res : Poll (Except IoError Frame)} (reading : c.state.reading = .body d) (out : d.decode c.io = (res, d', io))
    (other : ∀ frame, res ≠ .ready (.ok frame)) (log : c'.log = c.log) (unread : c'.unread = io.unread)
    (body : ∀ d, c'.state.reading = .body d → d = d') : FramedAt start c' i x n := by
  obtain ⟨msg, after, read, declared, pieces, rest⟩ := h
  refine ⟨msg, after, read.step step, declared, pieces, ?_⟩
  intro last
  rw [log] at last
  obtain ⟨left, going⟩ := rest last
  obtain ⟨missing, rfl⟩ := going d reading
  have kept : d' = .length (n - (framesData x.decoded).length) ∧ io.unread = c.unread := by
    obtain ⟨slice, io', eq, -⟩ | ⟨io', eq, same⟩ | ⟨e, io', eq, same⟩ :=
      Decoder.decode_length (n - (framesData x.decoded).length) c.io
    · rw [eq] at out
      cases out
      exact absurd rfl (other _)
    · rw [eq] at out
      cases out
      exact ⟨rfl, same⟩
    · rw [eq] at out
      cases out
      exact ⟨rfl, same⟩
  refine ⟨unread.trans (kept.2.trans left), ?_⟩
  intro d reading'
  exact ⟨missing, (body d reading').trans kept.1⟩

theorem Framed.step {start c c' : Conn} (h : Framed start c) (steps : start.Steps c) (fresh : c.Fresh) (step : c.Step c')
    (takes : c.Takes c') : Framed start c' := by
  intro i x' r n there answer decode
  cases takes with
  | nothing log same unread body =>
    have length : c'.log.length = c.log.length := by rw [log, length_note]
    rw [log] at there
    obtain ⟨x, before, ⟨-, rfl⟩ | ⟨-, rfl⟩⟩ := note_cases there
    · obtain ⟨answered, decoded, ended⟩ := same x
      exact (h i x r n before (answered ▸ answer) decode).same step length unread body decoded ended
    · exact (h i x' r n before answer decode).same step length unread body rfl rfl
  | request log unanswered =>
    rw [log] at there
    rcases Nat.lt_trichotomy i c.log.length with earlier | rfl | later
    · rw [List.getElem?_append_left earlier] at there
      refine (h i x' r n there answer decode).earlier step ?_
      rw [log, List.length_append, List.length_singleton]
      omega
    · rw [List.getElem?_concat_length] at there
      cases there
      exact absurd (unanswered.symm.trans answer) nofun
    · rw [List.getElem?_eq_none (by simp; omega)] at there
      cases there
  | skipped can log =>
    rw [log] at there
    refine (h i x' r n there answer decode).earlier step ?_
    intro last
    rw [log] at last
    exact absurd (answer.symm.trans (fresh.last can there last).1) nofun
  | head can eq found body =>
    subst eq
    have log := (pollReadHead_ends found).2
    rw [log] at there
    obtain ⟨x, before, ⟨last, rfl⟩ | ⟨earlier, rfl⟩⟩ := note_cases there
    · obtain ⟨-, decoded, unfinished⟩ := fresh.last can before last
      obtain rfl := Option.some.inj answer
      exact .head steps can found last body decode decoded unfinished
    · refine (h i x' r n before answer decode).earlier step ?_
      rw [log, length_note]
      exact earlier
  | frame reading out log unread body =>
    rw [log] at there
    obtain ⟨x, before, ⟨last, rfl⟩ | ⟨earlier, rfl⟩⟩ := note_cases there
    · exact (h i x r n before answer decode).frame step last reading out unread body
    · refine (h i x' r n before answer decode).earlier step ?_
      rw [log, length_note]
      exact earlier
  | stalled reading out other log unread body =>
    rw [log] at there
    exact (h i x' r n there answer decode).stalled step reading out other log unread body

/-- In every series of steps, the responses of a known length are read as they are framed. -/
theorem Steps.lengthFramed {start c : Conn} (steps : start.Steps c) (inv : start.Inv) (fresh : start.Fresh) (empty : start.log = []) :
    Framed start c := by
  induction steps with
  | refl =>
    intro i x r n there
    rw [empty] at there
    cases there
  | tail earlier step ih =>
    exact ih.step earlier (Steps.fresh earlier inv fresh) step (step.takes (Steps.inv earlier inv).1)

end Conn

end Hwire.Http1
