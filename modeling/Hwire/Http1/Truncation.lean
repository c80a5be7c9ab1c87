import Hwire.Body.Delivery
import Hwire.Http1.Runs

/-!
# Bodies that end

When the user of a response body sees its end: only after everything that the decoder returned, up to its end. The sender
of a body is in its guard, in the hands of the read loop, or gone, and each way of dropping it has to tell the user.
-/

namespace Hwire.Http1
open Lib Body

/-! ### What was read -/

def Exchange.received (x : Exchange) : Received := ⟨x.answer.isSome, x.decoded, x.decoderEof⟩

namespace Conn

def received (c : Conn) : List Received := c.log.map Exchange.received

theorem received_note {c : Conn} {f : Exchange → Exchange} {g : Received → Received}
    (same : ∀ x : Exchange, (f x).received = g x.received) : (c.note f).received = c.received.modifyLast g := by
  unfold received note
  rcases List.eq_nil_or_concat c.log with empty | ⟨pre, x, eq⟩
  · simp [empty, List.modifyLast, List.modifyLast.go]
  · simp [eq, List.modifyLast_concat, same]

theorem received_note_same {c : Conn} {f : Exchange → Exchange} (same : ∀ x : Exchange, (f x).received = x.received) :
    (c.note f).received = c.received :=
  (received_note (g := fun r => r) same).trans (modifyLast_eq_self fun _ => rfl)

theorem received_of_log {c c' : Conn} (log : c'.log = c.log) : c'.received = c.received := by
  unfold received
  rw [log]

theorem canReadBody_of_reading {c c' : Conn} (same : c'.state.reading = c.state.reading) :
    c'.canReadBody = c.canReadBody := by
  unfold canReadBody
  rw [same]

theorem not_canReadBody_of_closed {c : Conn} (closed : c.state.reading = .closed) : c.canReadBody = false := by
  simp [canReadBody, closed]

theorem not_canReadBody_of_canReadHead {c : Conn} (can : c.canReadHead = true) : c.canReadBody = false := by
  simp [canReadBody, (canReadHead_iff.mp can).1]

/-- Calls that neither read a part of a message nor end the reading of a body. -/
structure Aside (c c' : Conn) : Prop where
  received : c'.received = c.received
  body : c'.canReadBody = c.canReadBody
  head : c'.canReadHead = true → c.canReadHead = true

theorem Aside.refl (c : Conn) : c.Aside c := ⟨rfl, rfl, id⟩

theorem Aside.trans {c₁ c₂ c₃ : Conn} (h : c₁.Aside c₂) (h' : c₂.Aside c₃) : c₁.Aside c₃ :=
  ⟨h'.received.trans h.received, h'.body.trans h.body, fun can => h.head (h'.head can)⟩

theorem Aside.of_same {c c' : Conn} (log : c'.log = c.log) (reading : c'.state.reading = c.state.reading)
    (writing : c'.state.writing = c.state.writing) : c.Aside c' := by
  refine ⟨received_of_log log, canReadBody_of_reading reading, ?_⟩
  intro can
  rw [canReadHead_iff] at can ⊢
  rwa [← reading, ← writing]

theorem canReadHead_of_closes {c c' : Conn} (closes : c.state.Closes c'.state) (can : c'.canReadHead = true) :
    c.canReadHead = true := by
  obtain ⟨reading, writing⟩ := canReadHead_iff.mp can
  rw [canReadHead_iff]
  constructor
  · rcases closes.reading with same | closed
    · exact same.symm.trans reading
    · exact absurd (reading.symm.trans closed) nofun
  · rcases closes.writing with same | ⟨-, closed⟩
    · exact same ▸ writing
    · exact absurd (reading.symm.trans closed) nofun

theorem canReadBody_of_closes {c c' : Conn} (closes : c.state.Closes c'.state) (can : c'.canReadBody = true) :
    c'.state.reading = c.state.reading := by
  rcases closes.reading with same | closed
  · exact same
  · exact absurd ((not_canReadBody_of_closed closed).symm.trans can) nofun

theorem Aside.of_closes {c c' : Conn} (log : c'.log = c.log) (closes : c.state.Closes c'.state)
    (still : c.canReadBody = false) : c.Aside c' := by
  refine ⟨received_of_log log, ?_, canReadHead_of_closes closes⟩
  rw [still]
  by_contra can
  have can : c'.canReadBody = true := by simpa using can
  exact absurd (still.symm.trans ((canReadBody_of_reading (canReadBody_of_closes closes can)).symm.trans can)) nofun

theorem tryKeepAlive_of_canReadBody {c : Conn} (can : c.canReadBody = true) : c.tryKeepAlive = c := by
  unfold canReadBody at can
  unfold tryKeepAlive maybeNotify
  split at can
  · next d reading => simp [State.tryKeepAlive, mayNotify, reading]
  · next d reading => simp [State.tryKeepAlive, mayNotify, reading]
  · cases can

theorem tryKeepAlive_aside (c : Conn) : c.Aside c.tryKeepAlive := by
  by_cases can : c.canReadBody = true
  · rw [tryKeepAlive_of_canReadBody can]
    exact .refl c
  · have still : c.canReadBody = false := by simpa using can
    have tried : c.Aside { c with state := c.state.tryKeepAlive } := by
      obtain ⟨-, -, -, eq⟩ | closes := c.state.tryKeepAlive_cases
      · rw [eq]
        exact ⟨rfl, still.symm, nofun⟩
      · exact .of_closes rfl closes still
    obtain ⟨log, closes, -, -⟩ := maybeNotify_closes { c with state := c.state.tryKeepAlive }
    exact tried.trans (.of_closes log closes (tried.body.trans still))

theorem sendMore_aside {c : Conn} (can : c.canWriteBody = true) (writeBuf : WriteBuf (EncodedBuf Bytes)) (more : Bytes)
    (next : Writing) : c.Aside (c.sendMore writeBuf more next) := by
  obtain ⟨e, writing⟩ := canWriteBody_iff.mp can
  refine ⟨?_, rfl, ?_⟩
  · rw [received_of_log (sendMore_log c writeBuf more next)]
    exact received_note_same fun _ => rfl
  · intro head
    exact canReadHead_iff.mpr ⟨(canReadHead_iff.mp head).1, by simp [writing]⟩

/-! ### The calls of the write loop -/

theorem Sends.aside {c c' : Conn} (sends : c.Sends c') (can : c.canWriteBody = true) : c.Aside c' := by
  obtain rfl | ⟨writeBuf, more, next, -, rfl⟩ := sends
  · exact .refl c'
  · exact sendMore_aside can writeBuf more next

theorem pollFlush_aside (c : Conn) : c.Aside c.pollFlush.2 := by
  have flushed : c.Aside { c with io := c.io.pollFlush.2 } := .of_same rfl rfl rfl
  obtain ⟨-, eq⟩ | ⟨-, eq⟩ := c.pollFlush_eq
  · rw [eq]
    exact flushed.trans (tryKeepAlive_aside _)
  · rw [eq]
    exact flushed

/-! ### The calls of the read loop -/

/-- The decoder of the last response is at its end, and there is no head to read. -/
def Over (c : Conn) : Prop := c.canReadHead = false ∧ ∃ r, c.received.getLast? = some r ∧ r.eof = true

/-- Nothing has been read for a request whose response is waited for, and a body that is being read is not at its end. -/
structure Fresh (c : Conn) : Prop where
  head : c.canReadHead = true → c.received.getLast? = some ⟨false, [], false⟩
  body : c.canReadBody = true → ∃ r, c.received.getLast? = some r ∧ r.eof = false

theorem handshake_fresh (opts : Http1Options) (io : Transport) : (handshake opts io).Fresh := ⟨nofun, nofun⟩

theorem Fresh.aside {c c' : Conn} (fresh : c.Fresh) (aside : c.Aside c') : c'.Fresh := by
  refine ⟨?_, ?_⟩
  · intro can
    rw [aside.received]
    exact fresh.head (aside.head can)
  · intro can
    rw [aside.received]
    exact fresh.body (aside.body ▸ can)

theorem fresh_of_closed {c : Conn} (closed : c.state.reading = .closed) : c.Fresh := by
  refine ⟨?_, ?_⟩
  · intro can
    exact absurd ((canReadHead_iff.mp can).1.symm.trans closed) nofun
  · intro can
    exact absurd ((not_canReadBody_of_closed closed).symm.trans can) nofun

theorem Fresh.closes {c c' : Conn} (fresh : c.Fresh) (log : c'.log = c.log) (closes : c.state.Closes c'.state) :
    c'.Fresh := by
  refine ⟨?_, ?_⟩
  · intro can
    rw [received_of_log log]
    exact fresh.head (canReadHead_of_closes closes can)
  · intro can
    rw [received_of_log log]
    exact fresh.body ((canReadBody_of_reading (canReadBody_of_closes closes can)).symm.trans can)

/-- No body is being read where a head can be written. -/
theorem Inv.not_canReadBody {c : Conn} (inv : c.Inv) (can : c.canWriteHead = true) : c.canReadBody = false := by
  obtain ⟨opened, init, -⟩ := canWriteHead_iff.mp can
  simp [canReadBody, (inv.idle init).2.resolve_right opened]

theorem writeHead_fresh {c c' : Conn} {head : RequestHead} {body : Option BodyLength} {x : Exchange} (inv : c.Inv)
    (can : c.canWriteHead = true) (wrote : WroteHead c head body c' x) : c'.Fresh := by
  refine ⟨?_, ?_⟩
  · intro _
    simp [received, wrote.log, Exchange.received, wrote.answer, wrote.decoded, wrote.decoderEof]
  · intro body
    rw [canReadBody_of_reading wrote.reading, inv.not_canReadBody can] at body
    cases body

theorem withHead_reading (c : Conn) {msg : ParsedMessage} (plain : msg.Plain) :
    msg.decode = .ZERO ∧ (c.withHead msg).state.reading = .keepAlive ∨
      msg.decode ≠ .ZERO ∧ ∃ d, (c.withHead msg).state.reading = .body d :=
  (readingAfterHead_plain plain).imp_right fun ⟨nonzero, reading⟩ => ⟨nonzero, _, reading⟩

/-- What `poll_read_body` returns of a frame. -/
theorem onFrame_shown (d : Decoder) (frame : Frame) : (onFrame d frame).2 = (shown [frame]).head? := by
  cases frame with
  | trailers t => rfl
  | data slice =>
    unfold onFrame
    by_cases empty : slice = []
    · subst empty
      dsimp only
      split
      · rfl
      · rfl
    · simp only [empty, if_false, ne_eq, not_false_eq_true, if_true, shown]
      split
      · simp [empty]
      · simp [empty]

variable [Httparse]

theorem pollReadHead_received {c : Conn} (can : c.canReadHead = true) :
    (c.Aside c.pollReadHead.2 ∧ ∀ msg, c.pollReadHead.1 ≠ .ready (some (.ok msg))) ∨
    ∃ msg, c.pollReadHead.1 = .ready (some (.ok msg)) ∧ c.pollReadHead.2.canReadHead = false ∧
      c.pollReadHead.2.received = c.received.modifyLast ({ · with answered := true }) ∧
      (c.pollReadHead.2.canReadBody = true ↔ msg.decode ≠ .ZERO) := by
  have still := not_canReadBody_of_canReadHead can
  obtain ⟨-, eq⟩ | ⟨e, -, eq⟩ | ⟨msg, trailers, found, -, res, eq⟩ := c.pollReadHead_cases
  · rw [eq]
    refine .inl ⟨.of_same rfl rfl rfl, ?_⟩
    intro msg h
    cases h
  · rw [eq]
    obtain ⟨⟨log, closes, -, -⟩, -⟩ := c.withParse.onReadHeadError_closes e
    refine .inl ⟨?_, ?_⟩
    · have parsed : c.Aside c.withParse := .of_same rfl rfl rfl
      exact parsed.trans (.of_closes log closes still)
    · intro msg h
      generalize (c.withParse.onReadHeadError e).1 = err at h
      cases err with
      | none => cases h
      | some err => cases h
  · refine .inr ⟨msg, res, ?_⟩
    rw [eq]
    have noted : (c.withParse.withHead msg).received = c.received.modifyLast ({ · with answered := true }) :=
      received_note fun _ => rfl
    obtain ⟨zero, reading⟩ | ⟨nonzero, d, reading⟩ := c.withParse.withHead_reading found.plain
    · have kept := tryKeepAlive_aside (c.withParse.withHead msg)
      have again : (c.withParse.withHead msg).canReadHead = false := by simp [canReadHead, reading]
      have none : (c.withParse.withHead msg).canReadBody = false := by simp [canReadBody, reading]
      simp only [zero, if_true, ne_eq, not_true_eq_false, iff_false]
      refine ⟨?_, kept.received.trans noted, ?_⟩
      · rw [← Bool.not_eq_true]
        intro can
        cases again.symm.trans (kept.head can)
      · rw [Bool.not_eq_true]
        exact kept.body.trans none
    · simp only [nonzero, if_false, ne_eq, not_false_eq_true, iff_true]
      exact ⟨by simp [canReadHead, reading], noted, by simp [canReadBody, reading]⟩

theorem pollReadBody_received {c : Conn} (inv : c.Inv) (can : c.canReadBody = true) :
    (c.pollReadBody.1 = .pending ∧ c.Aside c.pollReadBody.2) ∨
    (∃ e, c.pollReadBody.1 = .ready (some (.error e)) ∧ c.pollReadBody.2.received = c.received ∧
      c.pollReadBody.2.canReadBody = false ∧ c.pollReadBody.2.canReadHead = false) ∨
    ∃ frame eof, c.pollReadBody.1 = .ready ((shown [frame]).head?.map .ok) ∧
      (eof = true ∨ ∃ data, frame = .data data ∧ data ≠ []) ∧
      c.pollReadBody.2.received = c.received.modifyLast (fun r => { r with frames := r.frames ++ [frame], eof }) ∧
      c.pollReadBody.2.canReadHead = false ∧ (c.pollReadBody.2.canReadBody = true ↔ eof = false) := by
  obtain ⟨d, reading⟩ := inv.reading_of_canReadBody can
  rw [pollReadBody_of_reading reading]
  obtain ⟨d', io, -, eq⟩ | ⟨e, d', io, -, eq⟩ | ⟨frame, d', io, -, ended, eq⟩ | ⟨data, d', io, -, ne, more, eq⟩ :=
    c.pollReadBodyWith_cases d
  · rw [eq]
    refine .inl ⟨rfl, rfl, ?_, nofun⟩
    exact can.symm
  · rw [eq]
    have kept := tryKeepAlive_aside { c with io, state := { c.state with reading := .closed } }
    refine .inr (.inl ⟨e, rfl, kept.received, kept.body, ?_⟩)
    rw [← Bool.not_eq_true]
    intro head
    exact absurd (kept.head head) nofun
  · rw [eq]
    have kept := tryKeepAlive_aside (c.withFrame io d' frame .keepAlive)
    refine .inr (.inr ⟨frame, true, ?_, .inl rfl, kept.received.trans ?_, ?_, ?_⟩)
    · rw [onFrame_shown]
    · exact received_note fun _ => by simp [Exchange.received, ended]
    · rw [← Bool.not_eq_true]
      intro head
      exact absurd (kept.head head) nofun
    · rw [kept.body]
      exact ⟨nofun, nofun⟩
  · rw [eq]
    have whole : shown [.data data] = [.data data] := by simp [shown, ne]
    refine .inr (.inr ⟨.data data, false, by simp [whole], .inr ⟨data, rfl, ne⟩, ?_, rfl, ?_⟩)
    · exact received_note fun _ => by simp [Exchange.received, more]
    · exact ⟨fun _ => rfl, fun _ => rfl⟩

/-- What is read for nobody is added to the last response, and no more is read after it. -/
theorem pollDrainOrCloseRead_received {c : Conn} (inv : c.Inv) (can : c.canReadBody = true) :
    c.pollDrainOrCloseRead.canReadBody = false ∧ c.pollDrainOrCloseRead.canReadHead = false ∧
      ∃ g : Received → Received, (∀ r, (g r).answered = r.answered) ∧
        c.pollDrainOrCloseRead.received = c.received.modifyLast g := by
  have read : c.pollReadBody.2.canReadHead = false ∧ ∃ g : Received → Received, (∀ r, (g r).answered = r.answered) ∧
      c.pollReadBody.2.received = c.received.modifyLast g := by
    obtain ⟨-, aside⟩ | ⟨e, -, received, -, head⟩ | ⟨frame, eof, -, -, received, head, -⟩ := pollReadBody_received inv can
    · refine ⟨?_, fun r => r, fun _ => rfl, aside.received.trans (modifyLast_eq_self fun _ => rfl).symm⟩
      rw [← Bool.not_eq_true]
      intro head
      exact absurd ((not_canReadBody_of_canReadHead (aside.head head)).symm.trans can) nofun
    · exact ⟨head, fun r => r, fun _ => rfl, received.trans (modifyLast_eq_self fun _ => rfl).symm⟩
    · refine ⟨head, _, ?_, received⟩
      exact fun _ => rfl
  obtain ⟨d, reading⟩ := inv.reading_of_canReadBody can
  unfold pollDrainOrCloseRead
  simp only [reading]
  split
  · next ended => exact ⟨by simp [canReadBody, ended], read⟩
  · next ended => exact ⟨by simp [canReadBody, ended], read⟩
  · exact ⟨rfl, rfl, read.2⟩

theorem Call.fresh {c c' : Conn} (call : c.Call c') (inv : c.Inv) (fresh : c.Fresh) : c'.Fresh := by
  cases call with
  | readHead can =>
    obtain ⟨aside, -⟩ | ⟨msg, -, head, received, -⟩ := pollReadHead_received can
    · exact fresh.aside aside
    · refine ⟨fun can => absurd (head.symm.trans can) nofun, fun _ => ⟨⟨true, [], false⟩, ?_, rfl⟩⟩
      rw [received, getLast?_modifyLast, fresh.head can]
      rfl
  | readBody can =>
    obtain ⟨-, aside⟩ | ⟨e, -, -, body, head⟩ | ⟨frame, eof, -, -, received, head, going⟩ := pollReadBody_received inv can
    · exact fresh.aside aside
    · exact ⟨fun can => absurd (head.symm.trans can) nofun, fun can => absurd (body.symm.trans can) nofun⟩
    · refine ⟨fun can => absurd (head.symm.trans can) nofun, ?_⟩
      intro more
      obtain ⟨r, last, -⟩ := fresh.body can
      refine ⟨{ r with frames := r.frames ++ [frame], eof }, ?_, going.mp more⟩
      rw [received, getLast?_modifyLast, last]
      rfl
  | drain can =>
    obtain ⟨body, head, -⟩ := pollDrainOrCloseRead_received inv can
    exact ⟨fun can => absurd (head.symm.trans can) nofun, fun can => absurd (body.symm.trans can) nofun⟩
  | readKeepAlive => exact fresh.closes c.pollReadKeepAlive_closes.log c.pollReadKeepAlive_closes.state
  | closeRead | close => exact fresh_of_closed rfl
  | writeBody can => exact fresh.aside ((writeBody_sends can _).aside can)
  | writeTrailers can => exact fresh.aside ((writeTrailers_sends can _).aside can)
  | writeBodyAndEnd can => exact fresh.aside ((writeBodyAndEnd_sends can _).aside can)
  | endBody can => exact fresh.aside ((endBody_sends can).aside can)
  | flush => exact fresh.aside c.pollFlush_aside
  | readAgain | shutdown | takeError | pendingUpgrade | onUpgrade => exact fresh.aside (.of_same rfl rfl rfl)

theorem Steps.fresh {c c' : Conn} (steps : c.Steps c') (inv : c.Inv) (fresh : c.Fresh) : c'.Fresh := by
  induction steps with
  | refl => exact fresh
  | tail earlier step ih =>
    have inv := (Steps.inv earlier inv).1
    cases step with
    | call call => exact call.fresh inv ih
    | writeHead can _ wrote =>
      obtain ⟨x, spec⟩ := writeHead_spec wrote
      exact writeHead_fresh inv can spec

end Conn

/-! ### The bodies of a dispatcher -/

/-- What a body channel holds next to what was read of its response: the task has its sender and these frames for it,
or the sender is gone. -/
def Serves (b : Incoming) (r : Received) : Option (List Frame) → Prop
  | some inflight => b.Open r inflight
  | none => b.Closed r

def heldBy (held : Option (Nat × List Frame)) (j : Nat) : Option (List Frame) :=
  held.bind fun h => if h.1 = j then some h.2 else none

theorem heldBy_self (j : Nat) (held : Option (List Frame)) : heldBy (held.map (j, ·)) j = held := by
  cases held with
  | none => rfl
  | some inflight => simp [heldBy]

theorem heldBy_other {j j' : Nat} (other : j ≠ j') (held : Option (List Frame)) :
    heldBy (held.map (j, ·)) j' = none := by
  cases held with
  | none => rfl
  | some inflight => simp [heldBy, other]

namespace World

/-- All bodies, where the task has the sender of one of them or of none. That one belongs to the last response. -/
structure Streams (w : World) (held : Option (Nat × List Frame)) : Prop where
  lengths : w.bodyOf.length = w.bodies.length
  own : w.bodyOf.Nodup
  there : ∀ h ∈ held, w.bodyOf[h.1]? = some (w.conn.received.length - 1)
  each : ∀ j b i, w.bodies[j]? = some b → w.bodyOf[j]? = some i →
    ∃ r, w.conn.received[i]? = some r ∧ r.answered = true ∧ Serves b r (heldBy held j)

theorem Streams.keep {w w' : World} {held : Option (Nat × List Frame)} (h : w.Streams held) (bodies : w'.bodies = w.bodies)
    (bodyOf : w'.bodyOf = w.bodyOf) (length : held ≠ none → w'.conn.received.length = w.conn.received.length)
    (received : ∀ (i : Nat) (r : Received), w.conn.received[i]? = some r → r.answered = true →
      w'.conn.received[i]? = some r) : w'.Streams held := by
  refine ⟨by rw [bodyOf, bodies]; exact h.lengths, bodyOf ▸ h.own, ?_, ?_⟩
  · intro sender holds
    rw [bodyOf, length (by rintro rfl; cases holds)]
    exact h.there sender holds
  · intro j b i body exchange
    rw [bodies] at body
    rw [bodyOf] at exchange
    obtain ⟨r, there, answered, serves⟩ := h.each j b i body exchange
    exact ⟨r, received i r there answered, answered, serves⟩

theorem Streams.same {w w' : World} {held : Option (Nat × List Frame)} (h : w.Streams held) (bodies : w'.bodies = w.bodies)
    (bodyOf : w'.bodyOf = w.bodyOf) (received : w'.conn.received = w.conn.received) : w'.Streams held :=
  h.keep bodies bodyOf (fun _ => by rw [received]) fun i r there _ => by rw [received]; exact there

/-- The task does something with the sender it has, after a call that may have read something for it. -/
theorem Streams.hand {w w' : World} {j : Nat} {inflight : List Frame} (h : w.Streams (some (j, inflight)))
    (held : Option (List Frame)) {f : Incoming → Incoming} {g : Received → Received}
    (bodies : w'.bodies = w.bodies.modify j f) (bodyOf : w'.bodyOf = w.bodyOf)
    (received : w'.conn.received = w.conn.received.modifyLast g) (answered : ∀ r, (g r).answered = r.answered)
    (serves : ∀ b r, w.bodies[j]? = some b → w.conn.received.getLast? = some r → b.Open r inflight → Serves (f b) (g r) held) :
    w'.Streams (held.map (j, ·)) := by
  have mine : w.bodyOf[j]? = some (w.conn.received.length - 1) := h.there _ rfl
  refine ⟨by rw [bodyOf, bodies, List.length_modify]; exact h.lengths, bodyOf ▸ h.own, fun sender holds => ?_,
    fun j' b i body exchange => ?_⟩
  · obtain ⟨frames, -, rfl⟩ := Option.mem_map.mp holds
    rw [bodyOf, received, length_modifyLast]
    exact mine
  · rw [bodies, List.getElem?_modify] at body
    rw [bodyOf] at exchange
    by_cases this : j = j'
    · subst this
      simp only [if_true] at body
      obtain ⟨b₀, body₀, rfl⟩ := Option.map_eq_some_iff.mp body
      obtain rfl := Option.some.inj (mine.symm.trans exchange)
      obtain ⟨r, there, was, opened⟩ := h.each _ _ _ body₀ exchange
      have last : w.conn.received.getLast? = some r := List.getLast?_eq_getElem?.trans there
      have bound := (List.getElem?_eq_some_iff.mp there).1
      refine ⟨g r, ?_, (answered r).trans was, ?_⟩
      · rw [received, getElem?_modifyLast, if_pos (by omega), there]
        rfl
      · rw [show heldBy (some (j, inflight)) j = some inflight from heldBy_self j (some inflight)] at opened
        rw [heldBy_self]
        exact serves b₀ r body₀ last opened
    · simp only [this, if_false] at body
      obtain ⟨r, there, was, closed⟩ := h.each j' b i (by simpa using body) exchange
      have bound := (List.getElem?_eq_some_iff.mp there).1
      have earlier : i + 1 ≠ w.conn.received.length := by
        intro last
        have twice : w.bodyOf[j]? = w.bodyOf[j']? := by rw [mine, exchange, ← last]; rfl
        exact this ((List.getElem?_inj (List.getElem?_eq_some_iff.mp mine).1 h.own).mp twice)
      refine ⟨r, ?_, was, ?_⟩
      · rw [received, getElem?_modifyLast, if_neg earlier]
        exact there
      · rw [heldBy_other this]
        exact (heldBy_other this (some inflight)) ▸ closed

theorem Streams.user {w : World} {held : Option (Nat × List Frame)} (h : w.Streams held) (j : Nat)
    {f : Incoming → Incoming} (serves : ∀ b r inflight, Serves b r inflight → Serves (f b) r inflight) :
    (w.onBody j f).Streams held := by
  refine ⟨by rw [onBody, List.length_modify]; exact h.lengths, h.own, h.there, ?_⟩
  intro j' b i body exchange
  rw [onBody, List.getElem?_modify] at body
  obtain ⟨b₀, body₀, rfl⟩ := Option.map_eq_some_iff.mp body
  obtain ⟨r, there, was, served⟩ := h.each j' b₀ i body₀ exchange
  refine ⟨r, there, was, ?_⟩
  split
  · exact serves _ _ _ served
  · exact served

theorem serves_pollFrame (b : Incoming) (r : Received) (inflight : Option (List Frame)) (h : Serves b r inflight) :
    Serves b.pollFrame r inflight := by
  cases inflight with
  | some => exact Incoming.Open.pollFrame h
  | none => exact Incoming.Closed.pollFrame h

theorem serves_dropReceiver (b : Incoming) (r : Received) (inflight : Option (List Frame)) (h : Serves b r inflight) :
    Serves b.dropReceiver r inflight := by
  cases inflight with
  | some => exact Incoming.Open.dropReceiver h
  | none => exact Incoming.Closed.dropReceiver h

/-- The bodies so far belong to responses before the one that is waited for. -/
theorem Streams.behind {w : World} {held : Option (Nat × List Frame)} (h : w.Streams held) {r : Received}
    (last : w.conn.received.getLast? = some r) (waiting : r.answered = false) :
    ∀ i ∈ w.bodyOf, i + 1 < w.conn.received.length := by
  intro i member
  obtain ⟨j, exchange⟩ := List.mem_iff_getElem?.mp member
  have bound := (List.getElem?_eq_some_iff.mp exchange).1
  rw [h.lengths] at bound
  obtain ⟨r', there, answered, -⟩ := h.each j _ i (List.getElem?_eq_getElem bound) exchange
  have inside := (List.getElem?_eq_some_iff.mp there).1
  by_contra late
  have same : w.conn.received.length - 1 = i := by omega
  rw [List.getLast?_eq_getElem?, same, there] at last
  cases last
  exact absurd (waiting.symm.trans answered) nofun

theorem openBody_streams {w : World} (h : w.Streams none) (free : w.bodyTx = none)
    (last : w.conn.received.getLast? = some ⟨true, [], false⟩) (behind : ∀ i ∈ w.bodyOf, i + 1 < w.conn.received.length)
    {msg : ParsedMessage} (nonzero : msg.decode ≠ .ZERO) :
    (w.openBody msg).Streams (some (w.bodies.length, [])) ∧ (w.openBody msg).bodyTx = some w.bodies.length := by
  have log : w.conn.log.length = w.conn.received.length := (List.length_map _).symm
  have eq : w.openBody msg = { w with
      bodies := w.bodies ++ [.h1 msg.decode msg.wantsExpect]
      bodyOf := w.bodyOf ++ [w.conn.received.length - 1]
      bodyTx := some w.bodies.length } := by
    simp [openBody, setBodyTx, nonzero, free, log]
  rw [eq]
  refine ⟨⟨by simp [h.lengths], ?_, ?_, ?_⟩, rfl⟩
  · refine List.nodup_append.mpr ⟨h.own, List.nodup_singleton _, fun i member k new => ?_⟩
    have := behind i member
    rw [List.mem_singleton] at new
    omega
  · rintro _ ⟨⟩
    simp [← h.lengths]
  · intro j b i body exchange
    rcases Nat.lt_trichotomy j w.bodies.length with earlier | rfl | later
    · rw [List.getElem?_append_left earlier] at body
      rw [List.getElem?_append_left (h.lengths ▸ earlier)] at exchange
      rw [show heldBy (some (w.bodies.length, [])) j = none from heldBy_other (by omega) (some [])]
      exact h.each j b i body exchange
    · rw [List.getElem?_concat_length] at body
      rw [← h.lengths, List.getElem?_concat_length] at exchange
      cases body
      cases exchange
      rw [show heldBy (some (w.bodies.length, [])) w.bodies.length = some [] from heldBy_self _ (some [])]
      exact ⟨_, List.getLast?_eq_getElem?.symm.trans last, rfl, Incoming.h1_open _ _ _⟩
    · rw [List.getElem?_eq_none (by simp; omega)] at body
      cases body

/-! ### The invariant -/

/-- In the read loop: a sender in the guard belongs to a body that is being read, or has just been read to its end, and
a body that is being read has its sender in the guard. -/
structure Reads (w : World) : Prop where
  streams : w.Streams (w.bodyTx.map (·, []))
  held : w.bodyTx ≠ none → w.isClosing = false ∧ (w.conn.canReadBody = true ∨ w.conn.Over)
  body : w.conn.canReadBody = true → w.bodyTx ≠ none

/-- Outside of the read loop, a sender in the guard belongs to a body that is being read. -/
structure Rests (w : World) : Prop extends Reads w where
  going : w.bodyTx ≠ none → w.conn.canReadBody = true

def Delivers (w : World) : Prop :=
  match w.phase with
  | .sending _ j frame =>
    w.Streams (some (j, [frame])) ∧ w.bodyTx = none ∧ w.isClosing = false ∧ (w.conn.canReadBody = true ∨ w.conn.Over) ∧
      ∀ b, w.bodies[j]? = some b → b.parked = false
  | .reading _ => w.Reads
  | .finished _ | .gone => w.Streams none ∧ w.bodyTx = none
  | .parked | .writing _ _ | .wanting _ _ | .flushing _ _ | .inner => w.Rests

/-- Nothing is done to a body, and the connection makes calls that do not read. -/
structure Aside (w w' : World) : Prop where
  bodyTx : w'.bodyTx = w.bodyTx
  bodies : w'.bodies = w.bodies
  bodyOf : w'.bodyOf = w.bodyOf
  isClosing : w'.isClosing = w.isClosing ∨ w.conn.canReadBody = false
  conn : w.conn.Aside w'.conn

theorem Rests.aside {w w' : World} (h : w.Rests) (aside : w.Aside w') : w'.Rests := by
  obtain ⟨bodyTx, bodies, bodyOf, isClosing, conn⟩ := aside
  refine ⟨⟨?_, ?_, ?_⟩, ?_⟩
  · rw [bodyTx]
    exact h.streams.same bodies bodyOf conn.received
  · intro held
    rw [bodyTx] at held
    have going := h.going held
    have open_ := isClosing.resolve_right fun still => absurd (still.symm.trans going) nofun
    exact ⟨open_.trans (h.held held).1, .inl (conn.body.trans going)⟩
  · intro can
    rw [bodyTx]
    exact h.body (conn.body.symm.trans can)
  · intro held
    rw [bodyTx] at held
    exact conn.body.trans (h.going held)

theorem Rests.conn {w : World} (h : w.Rests) {conn : Conn} (aside : w.conn.Aside conn) : Rests { w with conn } :=
  h.aside ⟨rfl, rfl, rfl, .inl rfl, aside⟩

theorem Rests.close {w : World} (h : w.Rests) (still : w.conn.canReadBody = false) : w.close.Rests :=
  h.aside ⟨rfl, rfl, rfl, .inr still, .of_closes rfl ⟨.inr rfl, .inr ⟨rfl, rfl⟩, .inr rfl⟩ still⟩

/-- Where a head can be read there is no sender in the guard. -/
theorem Reads.rests {w : World} (h : w.Reads) (apart : w.isClosing = true ∨ w.conn.canReadHead = true) : w.Rests := by
  refine ⟨h, ?_⟩
  intro held
  obtain ⟨notClosing, going | over_⟩ := h.held held
  · exact going
  · rcases apart with closing | can
    · exact absurd (notClosing.symm.trans closing) nofun
    · exact absurd (over_.1.symm.trans can) nofun

theorem rests_of_free {w : World} (h : w.Streams none) (free : w.bodyTx = none) (still : w.conn.canReadBody = false) :
    w.Rests := by
  refine ⟨⟨by rw [free]; exact h, fun held => absurd free held, ?_⟩, fun held => absurd free held⟩
  intro can
  exact absurd (still.symm.trans can) nofun

theorem Rests.free {w : World} (h : w.Rests) (still : w.conn.canReadBody = false) : w.bodyTx = none ∧ w.Streams none := by
  have free : w.bodyTx = none := by
    by_contra held
    exact absurd (still.symm.trans (h.going held)) nofun
  exact ⟨free, by simpa [free] using h.streams⟩

/-! ### What a failure does -/

theorem abortBody_streams {w : World} (h : w.Streams (w.bodyTx.map (·, []))) (err : Error) :
    (w.abortBody err).Streams none := by
  unfold abortBody
  split
  · next j sender =>
    rw [sender] at h
    exact h.hand none rfl rfl (modifyLast_eq_self fun _ => rfl).symm (fun _ => rfl) fun b r _ _ opened => opened.abort err
  · next none =>
    rw [none] at h
    exact h

theorem recvErr_streams {w : World} {held : Option (Nat × List Frame)} (h : w.Streams held) (e : Error) :
    (w.recvErr e).2.Streams held := by
  obtain ⟨_, _, eq⟩ := w.recvErr_eq e
  rw [eq]
  exact h.same rfl rfl rfl

theorem fail_delivers {w : World} (h : w.Streams (w.bodyTx.map (·, []))) (e : Error) : (w.fail e).Delivers := by
  have raised : Streams { w with raised := w.raised ++ [e] } (w.bodyTx.map (·, [])) := h.same rfl rfl rfl
  have told := recvErr_streams (abortBody_streams raised (.newBody "connection error")) e
  obtain ⟨_, free⟩ := abortBody_eq { w with raised := w.raised ++ [e] } (.newBody "connection error")
  obtain ⟨_, _, same⟩ := recvErr_eq (World.abortBody { w with raised := w.raised ++ [e] } (.newBody "connection error")) e
  unfold fail
  split
  · next w' failed =>
    rw [failed] at told same
    have none : w'.bodyTx = none := by rw [show w' = _ from same, free]
    exact ⟨told.same rfl rfl rfl, none⟩
  · next w' failed =>
    rw [failed] at told same
    have none : w'.bodyTx = none := by rw [show w' = _ from same, free]
    exact ⟨told.same rfl rfl rfl, none⟩

theorem drop_delivers {w : World} (h : w.Streams (w.bodyTx.map (·, []))) (panicking : Bool) :
    (w.drop panicking).Delivers := by
  have dropped {v : World} (h : v.Streams (v.bodyTx.map (·, []))) : Delivers { World.abortBody
      { v with chan := v.chan.dropReceiver } .newIncomplete with bodyRx := none, phase := .gone } := by
    have closed : Streams { v with chan := v.chan.dropReceiver } (v.bodyTx.map (·, [])) := h.same rfl rfl rfl
    obtain ⟨_, free⟩ := abortBody_eq { v with chan := v.chan.dropReceiver } .newIncomplete
    exact ⟨(abortBody_streams closed .newIncomplete).same rfl rfl rfl, by rw [free]⟩
  unfold drop
  split
  · exact dropped (h.same rfl rfl rfl)
  · exact dropped h

/-! ### The write loop -/

theorem nextRound_delivers {w : World} (h : w.Rests) {left : Nat} (phase : w.phase = nextRound left) : w.Delivers := by
  unfold Delivers
  rw [phase]
  cases left with
  | zero => exact h
  | succ left => exact h.toReads

theorem endWrite_delivers {w : World} (h : w.Rests) (left : Nat) (again ready : Bool) :
    (w.endWrite left again ready).Delivers := by
  unfold endWrite
  split
  · split
    · exact nextRound_delivers (h.aside ⟨rfl, rfl, rfl, .inl rfl, .refl _⟩) rfl
    · exact h.aside ⟨rfl, rfl, rfl, .inl rfl, .refl _⟩
  · exact h.aside ⟨rfl, rfl, rfl, .inl rfl, .refl _⟩

theorem orFail_delivers {w : World} (h : w.Rests) (left : Nat) (again : Bool) (res : Except Error Unit) :
    (w.orFail left again res).Delivers := by
  cases res with
  | ok => exact h.aside ⟨rfl, rfl, rfl, .inl rfl, .refl _⟩
  | error e => exact fail_delivers h.streams e

theorem endBody_delivers {w : World} (h : w.Rests) (can : w.conn.canWriteBody = true) (left : Nat) (again : Bool) :
    (w.endBody left again).Delivers :=
  orFail_delivers (h.conn ((Conn.endBody_sends can).aside can)) left again _

theorem writeChunk_delivers {w : World} (h : w.Rests) (can : w.conn.canWriteBody = true) (left : Nat) (again : Bool)
    (chunk : Bytes) (eos : Bool) : (w.writeChunk left again chunk eos).Delivers := by
  unfold writeChunk
  split
  · have taken : Rests { w with bodyRx := none } := h.aside ⟨rfl, rfl, rfl, .inl rfl, .refl _⟩
    dsimp only
    split
    · exact endBody_delivers taken can left again
    · exact h.aside ⟨rfl, rfl, rfl, .inl rfl, (Conn.writeBodyAndEnd_sends can chunk).aside can⟩
  split
  · exact h.aside ⟨rfl, rfl, rfl, .inl rfl, .refl _⟩
  · exact h.aside ⟨rfl, rfl, rfl, .inl rfl, (Conn.writeBody_sends can chunk).aside can⟩

theorem writeUserBody_delivers {w : World} (h : w.Rests) (left : Nat) (again : Bool) (body : UserBody) :
    (w.writeUserBody left again body).Delivers := by
  have taken (bodyRx : Option UserBody) : Rests { w with bodyRx } := h.aside ⟨rfl, rfl, rfl, .inl rfl, .refl _⟩
  unfold writeUserBody
  split
  · exact h.aside ⟨rfl, rfl, rfl, .inl rfl, .refl _⟩
  · next can =>
    have can : w.conn.canWriteBody = true := by simpa using can
    dsimp only
    split
    · exact endWrite_delivers (taken _) _ _ _
    · exact fail_delivers (taken none).streams _
    · exact endBody_delivers (taken none) can _ _
    · refine writeChunk_delivers (taken _) ?_ _ _ _ _
      exact can
    · exact h.aside ⟨rfl, rfl, rfl, .inl rfl, (Conn.writeTrailers_sends can _).aside can⟩

theorem writeRequest_delivers {w : World} (h : w.Rests) (still : w.conn.canReadBody = false) (left : Nat) (again : Bool)
    (id : Nat) (req : Request) : (w.writeRequest left again id req).Delivers := by
  unfold writeRequest
  dsimp only
  split
  · next conn wrote =>
    obtain ⟨x, spec⟩ := Conn.writeHead_spec wrote
    obtain ⟨free, streams⟩ := h.free still
    have received : conn.received = w.conn.received ++ [x.received] := by simp [Conn.received, spec.log]
    refine rests_of_free (streams.keep rfl rfl (fun held => absurd rfl held) fun i r there _ => ?_) free ?_
    · show conn.received[i]? = some r
      rw [received, List.getElem?_append_left (List.getElem?_eq_some_iff.mp there).1]
      exact there
    · exact (Conn.canReadBody_of_reading spec.reading).trans still
  · apply drop_delivers
    exact h.streams.same rfl rfl rfl

theorem PolledMsg.delivers {w v : World} {left : Nat} {again : Bool} (polled : w.PolledMsg left again v) (h : w.Rests)
    (still : w.conn.canReadBody = false) : v.Delivers := by
  have taken (chan : Dispatch.Channel Request Response) : Rests { w with chan } :=
    h.aside ⟨rfl, rfl, rfl, .inl rfl, .refl _⟩
  cases polled with
  | canceled =>
    refine endWrite_delivers (Rests.close (taken _) ?_) _ _ _
    exact still
  | taken =>
    refine writeRequest_delivers (taken _) ?_ _ _ _ _
    exact still
  | ended =>
    refine endWrite_delivers (Rests.close ?_ ?_) _ _ _
    · exact h.aside ⟨rfl, rfl, rfl, .inl rfl, .refl _⟩
    · exact still
  | waits => exact h.aside ⟨rfl, rfl, rfl, .inl rfl, .refl _⟩

theorem stepWriting_delivers {w : World} (inv : w.conn.Inv) (h : w.Rests) (left : Nat) (again : Bool) :
    (w.stepWriting left again).Delivers := by
  have flushed := h.conn w.conn.pollFlush_aside
  generalize w.stepWriting left again = v, w.stepWriting_round left again = round
  cases round with
  | closing => exact endWrite_delivers h _ _ _
  | polled _ _ can _ polled => exact polled.delivers h (inv.not_canReadBody can)
  | blocked => exact endWrite_delivers flushed _ _ _
  | flushed => exact orFail_delivers flushed _ _ _
  | userBody => exact writeUserBody_delivers h _ _ _
  | bodyDone _ can => exact endBody_delivers h can left again
  | nothing => exact endWrite_delivers h _ _ _

theorem stepFlushing_delivers {w : World} (h : w.Rests) (left : Nat) (writeReady : Bool) :
    (w.stepFlushing left writeReady).Delivers := by
  have flushed := w.conn.pollFlush_aside
  have again : w.conn.Aside w.conn.pollFlush.2.wantsReadAgain.2 := flushed.trans (.of_same rfl rfl rfl)
  unfold stepFlushing
  dsimp only
  split
  · exact fail_delivers (h.conn flushed).streams _
  split
  · exact h.aside ⟨rfl, rfl, rfl, .inl rfl, again⟩
  split
  · exact h.aside ⟨rfl, rfl, rfl, .inl rfl, again⟩
  · exact nextRound_delivers (h.aside ⟨rfl, rfl, rfl, .inl rfl, again⟩) rfl

/-! ### The end of a poll -/

theorem complete_delivers {w : World} (h : w.Streams none) (free : w.bodyTx = none) (res : Dispatched) :
    (w.complete res).Delivers := by
  have taken : Streams { w with conn := w.conn.takeError.2 } none := h.same rfl rfl rfl
  unfold complete
  dsimp only
  split
  · exact fail_delivers (by simpa [free] using taken) _
  · exact ⟨taken.same rfl rfl rfl, free⟩

/-- A task that is done has no sender left. -/
theorem Rests.done {w : World} (h : w.Rests) (done : w.isDone = true) : w.bodyTx = none ∧ w.Streams none := by
  have free : w.bodyTx = none := by
    by_contra held
    obtain ⟨notClosing, -⟩ := h.held held
    have going := h.going held
    simp only [isDone, notClosing, Bool.false_or, Conn.isReadClosed, State.isReadClosed, beq_iff_eq] at done
    exact absurd ((Conn.not_canReadBody_of_closed done).symm.trans going) nofun
  exact ⟨free, by simpa [free] using h.streams⟩

theorem stepInner_delivers {w : World} (h : w.Rests) : w.stepInner.Delivers := by
  unfold stepInner
  split
  · next done =>
    obtain ⟨free, streams⟩ := h.done done
    have upgrade : Streams { w with conn := w.conn.pendingUpgrade.2 } none := streams.same rfl rfl rfl
    have shut : Streams { w with conn := w.conn.pendingUpgrade.2.pollShutdown.2 } none := streams.same rfl rfl rfl
    dsimp only
    split
    · exact complete_delivers upgrade free _
    split
    · split
      · exact h.aside ⟨rfl, rfl, rfl, .inl rfl, .of_same rfl rfl rfl⟩
      · exact fail_delivers (by simpa [free] using shut) _
      · exact complete_delivers shut free _
    · exact complete_delivers upgrade free _
  · exact h.aside ⟨rfl, rfl, rfl, .inl rfl, .refl _⟩

/-! ### The read loop -/

theorem Rests.readOn {w w' : World} (h : w.Rests) (aside : w.Aside w') {left : Nat} (phase : w'.phase = .reading left) :
    w'.Delivers := by
  unfold Delivers
  rw [phase]
  exact (h.aside aside).toReads

theorem openBody_rests {w : World} (h : w.Streams none) (free : w.bodyTx = none) (notClosing : w.isClosing = false)
    (last : w.conn.received.getLast? = some ⟨true, [], false⟩) (behind : ∀ i ∈ w.bodyOf, i + 1 < w.conn.received.length)
    {msg : ParsedMessage} (going : w.conn.canReadBody = true ↔ msg.decode ≠ .ZERO) : (w.openBody msg).Rests := by
  by_cases zero : msg.decode = .ZERO
  · have same : w.openBody msg = w := if_pos zero
    rw [same]
    exact rests_of_free h free (by simpa [zero] using going)
  · obtain ⟨streams, sender⟩ := openBody_streams h free last behind zero
    obtain ⟨_, _, _, eq⟩ := w.openBody_eq msg
    have conn : (w.openBody msg).conn = w.conn := by rw [eq]
    have closing : (w.openBody msg).isClosing = false := by rw [eq]; exact notClosing
    have reading : (w.openBody msg).conn.canReadBody = true := by rw [conn]; exact going.mpr zero
    exact ⟨⟨by rw [sender]; exact streams, fun _ => ⟨closing, .inl reading⟩, fun _ => by simp [sender]⟩, fun _ => reading⟩

theorem recvHead_delivers {w : World} {left : Nat} {msg : ParsedMessage} (h : (w.openBody msg).Rests) :
    (w.recvHead left msg).Delivers := by
  have upgraded : (w.openBody msg).conn.Aside
      (if msg.wantsUpgrade then (w.openBody msg).conn.onUpgrade else (w.openBody msg).conn) := by
    split
    · exact .of_same rfl rfl rfl
    · exact .refl _
  unfold recvHead
  dsimp only
  split
  · exact h.readOn ⟨rfl, rfl, rfl, .inl rfl, upgraded⟩ rfl
  · have streams := (h.conn upgraded).streams
    split
    · exact fail_delivers streams _
    · apply fail_delivers
      exact streams.user _ serves_dropReceiver

theorem sendFrame_serves {b : Incoming} {r : Received} {frame : Frame} (h : b.Open r [frame]) (slot : b.parked = false) :
    (sendFrame b frame).1 = true ∧ (sendFrame b frame).2.Open r [] ∨
      (sendFrame b frame).1 = false ∧ (sendFrame b frame).2.dropSender.Closed r := by
  cases frame with
  | data chunk => exact h.sendData slot
  | trailers t => exact h.sendTrailers

/-- The sender goes back into the guard, or nobody is there to receive. -/
theorem stepSending_delivers {w : World} {left j : Nat} {frame : Frame} (h : w.Streams (some (j, [frame])))
    (notClosing : w.isClosing = false) (place : w.conn.canReadBody = true ∨ w.conn.Over)
    (free : w.bodyTx = none) (slot : ∀ b, w.bodies[j]? = some b → b.parked = false) :
    (w.stepSending left j frame).Delivers := by
  have same : w.conn.received = w.conn.received.modifyLast (fun r => r) := (modifyLast_eq_self fun _ => rfl).symm
  unfold stepSending
  dsimp only
  split
  · next sent =>
    have back : Streams { w with bodies := w.bodies.modify j fun b => (sendFrame b frame).2 } (some (j, [])) := by
      refine h.hand (some []) rfl rfl same (fun _ => rfl) fun b r body _ opened => ?_
      rw [body] at sent
      obtain ⟨-, still⟩ | ⟨failed, -⟩ := sendFrame_serves opened (slot b body)
      · exact still
      · exact absurd (failed.symm.trans sent) nofun
    exact ⟨back.same rfl rfl rfl, fun _ => ⟨notClosing, place⟩, fun _ => nofun⟩
  · next failed =>
    have closed : Streams { w with bodies := (w.bodies.modify j fun b => (sendFrame b frame).2).modify j .dropSender } none := by
      refine h.hand none (List.modify_modify_eq ..) rfl same (fun _ => rfl) fun b r body _ opened => ?_
      rw [body] at failed
      obtain ⟨sent, -⟩ | ⟨-, gone⟩ := sendFrame_serves opened (slot b body)
      · exact absurd sent failed
      · exact gone
    split
    · refine (rests_of_free ?_ ?_ ?_).toReads
      · exact closed.same rfl rfl rfl
      · exact free
      · rfl
    · next still =>
      refine (rests_of_free ?_ ?_ ?_).toReads
      · exact closed.same rfl rfl rfl
      · exact free
      · exact Bool.not_eq_true _ ▸ still

theorem Delivers.others {w w' : World} (h : w.Delivers) (phase : w'.phase = w.phase) (bodyTx : w'.bodyTx = w.bodyTx)
    (isClosing : w'.isClosing = w.isClosing) (conn : w'.conn = w.conn)
    (streams : ∀ held, w.Streams held → w'.Streams held)
    (slot : ∀ (j : Nat), (∀ b : Incoming, w.bodies[j]? = some b → b.parked = false) →
      ∀ b : Incoming, w'.bodies[j]? = some b → b.parked = false) :
    w'.Delivers := by
  have reads (h : w.Reads) : w'.Reads := by
    refine ⟨?_, ?_, ?_⟩
    · rw [bodyTx]
      exact streams _ h.streams
    · rw [bodyTx, isClosing, conn]
      exact h.held
    · rw [bodyTx, conn]
      exact h.body
  have rests (h : w.Rests) : w'.Rests := by
    refine ⟨reads h.toReads, ?_⟩
    rw [bodyTx, conn]
    exact h.going
  unfold Delivers at h ⊢
  rw [phase]
  cases at_phase : w.phase with
  | sending left j frame =>
    rw [at_phase] at h
    obtain ⟨all, free, notClosing, place, ready⟩ := h
    exact ⟨streams _ all, bodyTx.trans free, isClosing.trans notClosing, conn ▸ place, slot j ready⟩
  | reading left =>
    rw [at_phase] at h
    exact reads h
  | finished res =>
    rw [at_phase] at h
    exact ⟨streams _ h.1, bodyTx.trans h.2⟩
  | gone =>
    rw [at_phase] at h
    exact ⟨streams _ h.1, bodyTx.trans h.2⟩
  | parked | writing | wanting | flushing | inner =>
    rw [at_phase] at h
    exact rests h

theorem Delivers.chan {w : World} (h : w.Delivers) (chan : Dispatch.Channel Request Response) : Delivers { w with chan } :=
  h.others rfl rfl rfl rfl (fun _ streams => streams.same rfl rfl rfl) fun _ slot => slot

theorem Delivers.onBody {w : World} (h : w.Delivers) (j : Nat) {f : Incoming → Incoming}
    (serves : ∀ b r inflight, Serves b r inflight → Serves (f b) r inflight)
    (slot : ∀ b : Incoming, b.parked = false → (f b).parked = false) : (w.onBody j f).Delivers := by
  refine h.others rfl rfl rfl rfl (fun _ streams => streams.user j serves) fun i ready b body => ?_
  rw [World.onBody, List.getElem?_modify] at body
  obtain ⟨b₀, body₀, rfl⟩ := Option.map_eq_some_iff.mp body
  split
  · exact slot b₀ (ready b₀ body₀)
  · exact ready b₀ body₀

variable [Httparse]

theorem pollReadHead_delivers {w : World} (fresh : w.conn.Fresh) (h : w.Rests) (notClosing : w.isClosing = false)
    (can : w.conn.canReadHead = true) (left : Nat) : (w.pollReadHead left).Delivers := by
  have still := Conn.not_canReadBody_of_canReadHead can
  have closed : Delivers { w.close with phase := .reading left } :=
    (h.close still).readOn ⟨rfl, rfl, rfl, .inl rfl, .refl _⟩ rfl
  unfold pollReadHead
  split
  · exact closed
  split
  · exact closed
  · obtain ⟨aside, other⟩ | ⟨msg, res, -, received, going⟩ := Conn.pollReadHead_received can
    · have read := h.conn aside
      have still := aside.body.trans still
      dsimp only
      split
      · exact read.aside ⟨rfl, rfl, rfl, .inl rfl, .refl _⟩
      · next msg res => exact absurd res (other msg)
      · next e _ =>
        obtain ⟨_, _, eq⟩ := recvErr_eq { w with conn := w.conn.pollReadHead.2 } e
        have told : Rests (recvErr { w with conn := w.conn.pollReadHead.2 } e).2 := by
          rw [eq]
          exact read.aside ⟨rfl, rfl, rfl, .inl rfl, .refl _⟩
        have quiet : (recvErr { w with conn := w.conn.pollReadHead.2 } e).2.conn.canReadBody = false := by
          rw [eq]
          exact still
        split
        · next w' failed =>
          rw [failed] at told quiet
          exact (told.close quiet).readOn ⟨rfl, rfl, rfl, .inl rfl, .refl _⟩ rfl
        · next w' failed =>
          rw [failed] at told
          exact fail_delivers told.streams e
      · split
        · exact (read.close still).readOn ⟨rfl, rfl, rfl, .inl rfl, .refl _⟩ rfl
        · exact read.readOn ⟨rfl, rfl, rfl, .inl rfl, .refl _⟩ rfl
    · obtain ⟨free, streams⟩ := h.free still
      have waiting := fresh.head can
      have behind := streams.behind waiting rfl
      have last : w.conn.pollReadHead.2.received.getLast? = some ⟨true, [], false⟩ := by
        rw [received, getLast?_modifyLast, waiting]
        rfl
      have length : w.conn.pollReadHead.2.received.length = w.conn.received.length := by rw [received, length_modifyLast]
      dsimp only
      rw [res]
      refine recvHead_delivers (openBody_rests ?_ ?_ ?_ ?_ ?_ ?_)
      · refine streams.keep rfl rfl (fun held => absurd rfl held) fun i r there answered => ?_
        show w.conn.pollReadHead.2.received[i]? = some r
        rw [received, getElem?_modifyLast, if_neg fun at_end => ?_]
        · exact there
        · rw [List.getLast?_eq_getElem?, ← at_end, Nat.add_sub_cancel, there] at waiting
          cases waiting
          cases answered
      · exact free
      · exact notClosing
      · exact last
      · intro i member
        show i + 1 < w.conn.pollReadHead.2.received.length
        rw [length]
        exact behind i member
      · exact going

theorem pollReadStream_delivers {w : World} (inv : w.conn.Inv) (fresh : w.conn.Fresh) (h : w.Reads) {j : Nat}
    (sender : w.bodyTx = some j) (left : Nat) : (pollReadStream { w with bodyTx := none } left j).Delivers := by
  obtain ⟨notClosing, place⟩ := h.held (by simp [sender])
  have streams : w.Streams (some (j, [])) := by simpa [sender] using h.streams
  have same : w.conn.received = w.conn.received.modifyLast (fun r => r) := (modifyLast_eq_self fun _ => rfl).symm
  unfold pollReadStream
  split
  · next can =>
    have rests : w.Rests := ⟨h, fun _ => can⟩
    split
    · exact rests.aside ⟨sender.symm, rfl, rfl, .inl rfl, .refl _⟩
    · next e ready =>
      obtain ⟨still, -, g, answered, received⟩ := Conn.pollDrainOrCloseRead_received inv can
      refine (rests_of_free ?_ ?_ ?_).toReads
      · refine streams.hand none rfl rfl received answered fun b r body _ opened => ?_
        rw [show w.bodies[j]? = some b from body] at ready
        exact opened.unread (Incoming.pollReady_error ready) (g r)
      · rfl
      · exact still
    · next ready =>
      have slot (b : Incoming) (body : w.bodies[j]? = some b) : b.parked = false := by
        rw [show w.bodies[j]? = some b from body] at ready
        exact Incoming.pollReady_ok ready
      obtain ⟨r₀, last₀, going⟩ := fresh.body can
      dsimp only
      obtain ⟨res, aside⟩ | ⟨e, res, received, still, -⟩ | ⟨frame, eof, res, whole, received, head, more⟩ :=
        Conn.pollReadBody_received inv can
      · rw [res]
        exact rests.aside ⟨sender.symm, rfl, rfl, .inl rfl, aside⟩
      · rw [res]
        refine (rests_of_free ?_ ?_ ?_).toReads
        · exact streams.hand none rfl rfl (received.trans same) (fun _ => rfl) fun b r _ _ opened => opened.abort _
        · rfl
        · exact still
      · have last (t : HeaderMap) (trailers : frame = .trailers t) : eof = true := by
          refine whole.resolve_right ?_
          rintro ⟨data, rfl, -⟩
          cases trailers
        have opens (b : Incoming) (r : Received) (at_end : w.conn.received.getLast? = some r) (opened : b.Open r []) :
            b.Open { r with frames := r.frames ++ [frame], eof } (shown [frame]) := by
          obtain rfl := Option.some.inj (last₀.symm.trans at_end)
          exact opened.read going last
        by_cases empty : frame = .data []
        · subst empty
          have ended : eof = true := whole.resolve_right fun ⟨data, eq, ne⟩ => ne (by cases eq; rfl)
          rw [show w.conn.pollReadBody.1 = .ready none from res]
          refine (rests_of_free ?_ ?_ ?_).toReads
          · refine streams.hand none rfl rfl received (fun _ => rfl) fun b r _ at_end opened => ?_
            exact (opens b r at_end opened).finish ended
          · rfl
          · have still : w.conn.pollReadBody.2.canReadBody = false := by simpa [ended] using more
            exact still
        · have shows : shown [frame] = [frame] := by simp [shown, empty]
          rw [shows] at res opens
          rw [show w.conn.pollReadBody.1 = .ready (some (.ok frame)) from res]
          refine ⟨?_, rfl, notClosing, ?_, slot⟩
          · refine streams.hand (some [frame]) (List.modify_id ..).symm rfl received (fun _ => rfl) ?_
            intro b r _ at_end opened
            exact opens b r at_end opened
          · cases eof with
            | false => exact .inl (more.mpr rfl)
            | true =>
              refine .inr ⟨head, { r₀ with frames := r₀.frames ++ [frame], eof := true }, ?_, rfl⟩
              show w.conn.pollReadBody.2.received.getLast? = _
              rw [received, getLast?_modifyLast, last₀]
              rfl
  · next cannot =>
    obtain ⟨-, r, last, eof⟩ := place.resolve_left cannot
    refine (rests_of_free ?_ ?_ ?_).toReads
    · refine streams.hand none rfl rfl same (fun _ => rfl) fun b r' _ at_end opened => ?_
      obtain rfl := Option.some.inj (last.symm.trans at_end)
      exact opened.finish eof
    · rfl
    · exact Bool.not_eq_true _ ▸ cannot

theorem stepReading_delivers {w : World} (inv : w.conn.Inv) (fresh : w.conn.Fresh) (h : w.Reads) (left : Nat) :
    (w.stepReading left).Delivers := by
  unfold stepReading
  split
  · next closing => exact (h.rests (.inl closing)).aside ⟨rfl, rfl, rfl, .inl rfl, .refl _⟩
  · next notClosing =>
    split
    · next can => exact pollReadHead_delivers fresh (h.rests (.inr can)) (by simpa using notClosing) can left
    split
    · next j sender => exact pollReadStream_delivers inv fresh h sender left
    · next free =>
      have still : w.conn.canReadBody = false := by
        rw [← Bool.not_eq_true]
        intro can
        exact h.body can free
      have rests : w.Rests := rests_of_free (by simpa [free] using h.streams) free still
      obtain ⟨log, closes, -, -⟩ := w.conn.pollReadKeepAlive_closes
      have read := rests.conn (.of_closes log closes still)
      dsimp only
      split
      · exact fail_delivers read.streams _
      · exact read.aside ⟨rfl, rfl, rfl, .inl rfl, .refl _⟩

theorem step_delivers {w : World} (inv : w.conn.Inv) (fresh : w.conn.Fresh) (h : w.Delivers) : w.step.Delivers := by
  have h' := h
  unfold Delivers at h'
  unfold step
  split
  · next left phase =>
    rw [phase] at h'
    exact stepReading_delivers inv fresh h' left
  · next left j frame phase =>
    rw [phase] at h'
    obtain ⟨streams, free, notClosing, place, slot⟩ := h'
    exact stepSending_delivers streams notClosing place free slot
  · next left again phase =>
    rw [phase] at h'
    exact stepWriting_delivers inv h' left again
  · next left again phase =>
    rw [phase] at h'
    refine endWrite_delivers ?_ left again false
    exact Rests.aside h' ⟨rfl, rfl, rfl, .inl rfl, .refl _⟩
  · next left writeReady phase =>
    rw [phase] at h'
    exact stepFlushing_delivers h' left writeReady
  · next phase =>
    rw [phase] at h'
    exact stepInner_delivers h'
  · exact h
  · exact h
  · exact h

theorem act_delivers {w : World} (inv : w.conn.Inv) (fresh : w.conn.Fresh) (h : w.Delivers) (a : Action) :
    (w.act a).Delivers := by
  cases a with
  | poll shouldShutdown =>
    rw [act]
    split
    · next parked =>
      unfold Delivers at h
      rw [parked] at h
      exact Rests.readOn h ⟨rfl, rfl, rfl, .inl rfl, .refl _⟩ rfl
    · exact h
  | step => exact step_delivers inv fresh h
  | drop =>
    have h' := h
    unfold Delivers at h'
    rw [act]
    split
    · next parked =>
      rw [parked] at h'
      exact drop_delivers h'.streams false
    · next res finished =>
      rw [finished] at h'
      exact drop_delivers (by rw [h'.2]; exact h'.1) false
    · exact h
  | give | push | dropSender | cancel => exact h.chan _
  | pollFrame j => exact h.onBody j serves_pollFrame fun b => b.pollFrame_same.2.2.2
  | dropBody j => exact h.onBody j serves_dropReceiver fun _ => id

theorem run_delivers {w : World} (inv : w.conn.Inv) (fresh : w.conn.Fresh) (h : w.Delivers) (actions : List Action) :
    (w.run actions).Delivers := by
  induction actions generalizing w with
  | nil => exact h
  | cons a rest ih =>
    have steps := w.act_steps a
    exact ih (Conn.Steps.inv steps inv).1 (Conn.Steps.fresh steps inv fresh) (act_delivers inv fresh h a)

omit [Httparse] in
theorem new_delivers (opts : Http1Options) (io : Transport) : (new opts io).Delivers :=
  rests_of_free ⟨rfl, List.nodup_nil, nofun, nofun⟩ rfl rfl

omit [Httparse] in
theorem Delivers.streams {w : World} (h : w.Delivers) :
    ∃ held, w.Streams held ∧ (w.phase = .gone ∨ (∃ res, w.phase = .finished res) → held = none) := by
  unfold Delivers at h
  cases phase : w.phase with
  | sending left j frame =>
    rw [phase] at h
    exact ⟨_, h.1, by simp⟩
  | finished | gone =>
    rw [phase] at h
    exact ⟨none, h.1, fun _ => rfl⟩
  | reading | parked | writing | wanting | flushing | inner =>
    rw [phase] at h
    exact ⟨_, h.streams, by simp⟩

omit [Httparse] in
/-- A body belongs to a response, and tells what was read of it. -/
theorem Delivers.body {w : World} (h : w.Delivers) {j : Nat} {b : Incoming} (body : w.bodies[j]? = some b) :
    ∃ i x, w.bodyOf[j]? = some i ∧ w.conn.log[i]? = some x ∧
      ((∃ inflight, b.Open x.received inflight) ∨ b.Closed x.received) ∧
      (w.phase = .gone ∨ (∃ res, w.phase = .finished res) → b.Closed x.received) := by
  obtain ⟨held, streams, over_⟩ := h.streams
  have bound := (List.getElem?_eq_some_iff.mp body).1
  rw [← streams.lengths] at bound
  obtain ⟨r, there, -, serves⟩ := streams.each j b _ body (List.getElem?_eq_getElem bound)
  obtain ⟨x, at_log, rfl⟩ := Option.map_eq_some_iff.mp ((List.getElem?_map ..).symm.trans there)
  refine ⟨_, x, List.getElem?_eq_getElem bound, at_log, ?_, fun finished => ?_⟩
  · cases taken : heldBy held j with
    | none =>
      rw [taken] at serves
      exact .inr serves
    | some inflight =>
      rw [taken] at serves
      exact .inl ⟨inflight, serves⟩
  · rw [over_ finished] at serves
    exact serves

/-! ### What the user sees -/

theorem run_body (opts : Http1Options) (io : Transport) (actions : List Action) {j : Nat} {b : Incoming}
    (body : ((new opts io).run actions).bodies[j]? = some b) :
    ∃ i x, ((new opts io).run actions).bodyOf[j]? = some i ∧ ((new opts io).run actions).conn.log[i]? = some x ∧
      ((∃ inflight, b.Open x.received inflight) ∨ b.Closed x.received) ∧
      (((new opts io).run actions).phase = .gone ∨ (∃ res, ((new opts io).run actions).phase = .finished res) →
        b.Closed x.received) :=
  (run_delivers (Conn.handshake_inv opts io) (Conn.handshake_fresh opts io) (new_delivers opts io) actions).body body

/-- No response body is cut off in silence. In every run, a user who sees the end of a body without an error before it has
been given, in order, everything that the decoder of that response returned, trailers included, and the decoder has come
to its end. Once the sender of a body is gone, as it is when the dispatcher has finished or is gone, a user who is still
there and polls on sees such an end or an error. -/
theorem run_noTruncation (opts : Http1Options) (io : Transport) (actions : List Action) {j : Nat} {b : Incoming}
    (body : ((new opts io).run actions).bodies[j]? = some b) :
    ∃ i x, ((new opts io).run actions).bodyOf[j]? = some i ∧ ((new opts io).run actions).conn.log[i]? = some x ∧
      (Incoming.endsCleanly b.observed = true →
        x.decoderEof = true ∧ Incoming.framesSeen b.observed = shown x.decoded) ∧
      (b.rxAlive = true → b.txAlive = false →
        (Incoming.endsCleanly b.drained.observed = true ∧ x.decoderEof = true ∧
          Incoming.framesSeen b.drained.observed = shown x.decoded) ∨
        (Incoming.endsCleanly b.drained.observed = false ∧ Incoming.sawError b.drained.observed = true)) ∧
      (((new opts io).run actions).phase = .gone ∨ (∃ res, ((new opts io).run actions).phase = .finished res) →
        b.txAlive = false) := by
  obtain ⟨i, x, exchange, at_log, serves, finished⟩ := run_body opts io actions body
  refine ⟨i, x, exchange, at_log, ?_, ?_, fun over_ => (finished over_).tx⟩
  · intro clean
    have ended := Incoming.ended_of_endsCleanly clean
    rcases serves with ⟨_, opened⟩ | closed
    · exact absurd ended (opened.ends.unended opened.tx)
    · obtain ⟨eof, -, frames⟩ | ⟨dirty, -⟩ := closed.observed ended
      · exact ⟨eof, frames⟩
      · exact absurd (dirty.symm.trans clean) nofun
  · intro alive gone
    rcases serves with ⟨_, opened⟩ | closed
    · exact absurd (opened.tx.symm.trans gone) nofun
    · have drained : b.drained.Closed x.received :=
        Function.Iterate.rec (fun b : Incoming => b.Closed x.received) closed (fun _ h => h.pollFrame) _
      have ended := Incoming.drained_end alive closed.tx closed.trailersTx
      obtain ⟨eof, clean, frames⟩ | dirty := drained.observed ended
      · exact .inl ⟨clean, eof, frames⟩
      · exact .inr dirty

def fiveBytes : Bytes := ascii "HTTP/1.1 200 OK\r\ncontent-length: 5\r\n\r\n"

@[reducible] def onlyFiveBytes : Httparse where
  parseResponse _ bytes _ :=
    if fiveBytes.isPrefixOf bytes then
      .ok (some { len := 38, version := 1, code := 200, reason := ascii "OK", headers := [⟨(17, 31), (33, 34)⟩] })
    else .ok none
  parseHeaders _ _ := .ok none
  canonicalReason _ := some (ascii "OK")

def cutOff : World := new {} (sampleTransport [.pending, .data (fiveBytes ++ ascii "he"), .data []])

/-- The user polls once, and the task reads on to the end of file. -/
def cutOffRun : List Action :=
  writesGet .empty ++ ([.step, .step, .step, .poll true] : List Action) ++ List.replicate 4 Action.step ++
    [Action.pollFrame 0] ++ List.replicate 4 Action.step ++ [Action.poll true] ++ List.replicate 4 Action.step

omit [Httparse] in
theorem run_noTruncation_cutOff : ∃ b, (@run onlyFiveBytes cutOff cutOffRun).bodies[0]? = some b ∧ b.rxAlive = true ∧
    b.txAlive = false ∧ Incoming.sawError b.drained.observed = true := by
  have there : ((@run onlyFiveBytes cutOff cutOffRun).bodies[0]?.any fun b => b.rxAlive && !b.txAlive) = true := by
    decide +kernel
  have unfinished : ∀ x ∈ (@run onlyFiveBytes cutOff cutOffRun).conn.log, x.decoderEof = false := by decide +kernel
  obtain ⟨b, body, ends⟩ := (Option.any_eq_true ..).mp there
  obtain ⟨alive, gone⟩ : b.rxAlive = true ∧ b.txAlive = false := by simpa using ends
  refine ⟨b, body, alive, gone, ?_⟩
  obtain ⟨i, x, -, at_log, -, told, -⟩ := @run_noTruncation onlyFiveBytes {} _ cutOffRun 0 b body
  obtain ⟨-, eof, -⟩ | ⟨-, error⟩ := told alive gone
  · exact absurd ((unfinished x (List.mem_of_getElem? at_log)).symm.trans eof) nofun
  · exact error

end World

end Hwire.Http1
