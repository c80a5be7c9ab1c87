import Hwire.Http1.BodyPolls
import Hwire.Http1.Handover

/-!
# From the caller to the history

The requests that callers give to a connection, next to the exchanges that the connection has written for them. In every
run they are taken in the order in which they were given, each at most once, and an exchange that is finished has sent
what the body of its request has yielded.
-/

namespace Hwire.Http1
open Lib LawfulBuf

/-! ### Calls that send nothing -/

/-- Nothing has happened to what is sent for a request. -/
structure Exchange.Untouched (x y : Exchange) : Prop where
  head : y.head = x.head
  hint : y.hint = x.hint
  encoder : y.encoder = x.encoder
  sent : y.sent = x.sent
  finished : y.finished = x.finished

namespace Conn

/-- The write side rests, or is closed. -/
structure Rests (c c' : Conn) : Prop where
  log : ∃ f : Exchange → Exchange, (∀ x : Exchange, x.Untouched (f x)) ∧ c'.log = (c.note f).log
  writing : ∀ e, c'.state.writing = .body e → c.state.writing = .body e

theorem Rests.of_note {c c' : Conn} {f : Exchange → Exchange} (log : c'.log = (c.note f).log)
    (same : ∀ x : Exchange, x.Untouched (f x)) (writing : ∀ e, c'.state.writing = .body e → c.state.writing = .body e) :
    c.Rests c' := ⟨⟨f, same, log⟩, writing⟩

theorem Rests.of_log {c c' : Conn} (log : c'.log = c.log)
    (writing : ∀ e, c'.state.writing = .body e → c.state.writing = .body e) : c.Rests c' :=
  ⟨⟨fun x => x, fun _ => ⟨rfl, rfl, rfl, rfl, rfl⟩, by rw [log, note_id]⟩, writing⟩

theorem Rests.refl (c : Conn) : c.Rests c := .of_log rfl fun _ => id

theorem Rests.trans {c₁ c₂ c₃ : Conn} (h : c₁.Rests c₂) (h' : c₂.Rests c₃) : c₁.Rests c₃ := by
  obtain ⟨f, same, log⟩ := h.log
  obtain ⟨g, same', log'⟩ := h'.log
  refine ⟨⟨g ∘ f, ?_, ?_⟩, fun e body => h.writing e (h'.writing e body)⟩
  · intro x
    obtain ⟨head, hint, encoder, sent, finished⟩ := same x
    obtain ⟨head', hint', encoder', sent', finished'⟩ := same' (f x)
    exact ⟨head'.trans head, hint'.trans hint, encoder'.trans encoder, sent'.trans sent, finished'.trans finished⟩
  · rw [log', note, log, note, note]
    rcases List.eq_nil_or_concat c₁.log with empty | ⟨earlier, x, eq⟩
    · rw [empty]
      rfl
    · simp only [eq, List.concat_eq_append, List.modifyLast_concat, Function.comp]

theorem Rests.of_closes {c c' : Conn} (closes : c.Closes c') : c.Rests c' := by
  refine .of_log closes.log ?_
  intro e body
  rcases closes.state.writing with same | ⟨closed, -⟩
  · rw [← same]
    exact body
  · rw [closed] at body
    cases body

theorem tryKeepAlive_rests (c : Conn) : c.Rests c.tryKeepAlive := by
  have tried : c.Rests { c with state := c.state.tryKeepAlive } := by
    refine .of_log rfl ?_
    intro e body
    obtain ⟨-, -, -, eq⟩ | closes := c.state.tryKeepAlive_cases
    · rw [eq] at body
      cases body
    · rcases closes.writing with same | ⟨closed, -⟩
      · rw [← same]
        exact body
      · rw [closed] at body
        cases body
  exact tried.trans (.of_closes (maybeNotify_closes _))

theorem Rests.state {c c' : Conn} (log : c'.log = c.log) (writing : c'.state.writing = c.state.writing) : c.Rests c' :=
  .of_log log fun e body => by rw [← writing]; exact body

theorem pollFlush_rests (c : Conn) : c.Rests c.pollFlush.2 := by
  have flushed : c.Rests { c with io := c.io.pollFlush.2 } := .state rfl rfl
  obtain ⟨-, eq⟩ | ⟨-, eq⟩ := c.pollFlush_eq
  · rw [eq]
    exact flushed.trans (tryKeepAlive_rests _)
  · rw [eq]
    exact flushed

variable [Httparse]

theorem pollReadHead_rests (c : Conn) : c.Rests c.pollReadHead.2 := by
  have parsed : c.Rests c.withParse := .state rfl rfl
  obtain ⟨-, eq⟩ | ⟨e, -, eq⟩ | ⟨msg, trailers, -, -, -, eq⟩ := c.pollReadHead_cases
  · rw [eq]
    exact parsed
  · rw [eq]
    exact parsed.trans (.of_closes (c.withParse.onReadHeadError_closes e).1)
  · rw [eq]
    have headed : c.Rests (c.withParse.withHead msg) := by
      have writing : (c.withParse.withHead msg).state.writing = c.state.writing :=
        (State.andKeepAlive_writing _ _).trans (State.busy_writing _)
      refine parsed.trans (.of_note rfl (fun _ => ⟨rfl, rfl, rfl, rfl, rfl⟩) ?_)
      intro e body
      rw [writing] at body
      exact body
    dsimp only
    split
    · exact (headed.trans (tryKeepAlive_rests _)).trans (.state rfl rfl)
    · exact headed.trans (.state rfl rfl)

theorem pollReadBody_rests {c : Conn} (inv : c.Inv) (can : c.canReadBody = true) : c.Rests c.pollReadBody.2 := by
  obtain ⟨d, reading⟩ := inv.reading_of_canReadBody can
  rw [pollReadBody_of_reading reading]
  have framed (io : Buffered (EncodedBuf Bytes)) (d' : Decoder) (frame : Frame) (next : Reading) :
      c.Rests (c.withFrame io d' frame next) := .of_note rfl (fun _ => ⟨rfl, rfl, rfl, rfl, rfl⟩) fun _ => id
  obtain ⟨d', io, -, eq⟩ | ⟨e, d', io, -, eq⟩ | ⟨frame, d', io, -, -, eq⟩ | ⟨data, d', io, -, -, -, eq⟩ :=
    c.pollReadBodyWith_cases d
  · rw [eq]
    exact .state rfl rfl
  · rw [eq]
    have failed : c.Rests { c with io, state := { c.state with reading := .closed } } := .state rfl rfl
    exact failed.trans (tryKeepAlive_rests _)
  · rw [eq]
    exact (framed io d' frame .keepAlive).trans (tryKeepAlive_rests _)
  · rw [eq]
    exact framed io d' (.data data) (.body d')

theorem pollDrainOrCloseRead_rests {c : Conn} (inv : c.Inv) (can : c.canReadBody = true) :
    c.Rests c.pollDrainOrCloseRead := by
  obtain ⟨d, reading⟩ := inv.reading_of_canReadBody can
  have read := pollReadBody_rests inv can
  rcases pollDrainOrCloseRead_eq reading with eq | eq
  · rw [eq]
    exact read
  · rw [eq]
    exact read.trans (.of_closes (closeRead_closes _))

end Conn

/-! ### The requests of a run -/

/-- The requests that the receiver has not taken yet, in their order. -/
def waiting (chan : Dispatch.Channel Request Response) : List Request := chan.queue.map Prod.snd ++ chan.pushing.toList

/-- The requests that callers have given, in their order. -/
def given (actions : List World.Action) : List Request :=
  actions.filterMap fun
    | .give req => some req
    | _ => none

/-- A request and what has become of it: the head is the one that `enforce_version` has made of it, and a body that was
sent to its end is the whole body. -/
structure Sends (r : Request) (x : Exchange) : Prop where
  head : ∃ s, x.head = (Conn.enforceVersion s r.head).2
  hint : x.hint = r.body.bodyType
  encoder : x.encoder = (Client.setLength x.head x.hint).2
  body : x.finished = true → SentWhole x.encoder x.sent (untilEnd r.body.polls)

theorem Sends.untouched {r : Request} {x y : Exchange} (sends : Sends r x) (same : x.Untouched y) : Sends r y := by
  obtain ⟨head, hint, encoder, sent, finished⟩ := same
  refine ⟨?_, hint.trans sends.hint, ?_, ?_⟩
  · rw [head]
    exact sends.head
  · rw [encoder, head, hint]
    exact sends.encoder
  · rw [encoder, sent, finished]
    exact sends.body

namespace World

/-- How much of its body a request has yielded for its encoder, where the body is in these hands. -/
def Yielded (bodyRx : Option UserBody) (r : Request) (e : Encoder) (polls : List BodyPoll) : Prop :=
  match bodyRx with
  | some b => r.body.polls = polls ++ b.polls ∧ ∀ poll ∈ polls, BodyPoll.ends poll = false
  | none => untilEnd r.body.polls = polls ∧ e.sentTrailers polls = .empty

/-- The body of the last request is on its way. -/
def Uploads (bodyRx : Option UserBody) (reqs : List Request) (log : List Exchange) (e : Encoder) : Prop :=
  ∃ r x polls, reqs.getLast? = some r ∧ log.getLast? = some x ∧ x.finished = false ∧
    Uploading x.encoder e x.sent (chunksOf polls) ∧ Yielded bodyRx r x.encoder polls

/-- The history logs for these requests. -/
structure Logs (w : World) (reqs : List Request) : Prop where
  sends : List.Forall₂ Sends reqs w.conn.log
  uploads : w.phase.live = true → ∀ e, w.conn.state.writing = .body e → Uploads w.bodyRx reqs w.conn.log e

/-! ### Steps that send nothing -/

/-- A part of a step that sends nothing. -/
structure SendsNothing (w v : World) : Prop where
  conn : w.conn.Rests v.conn
  chan : (waiting v.chan).Sublist (waiting w.chan)
  bodyRx : v.bodyRx = w.bodyRx

theorem SendsNothing.refl (w : World) : w.SendsNothing w := ⟨.refl _, .refl _, rfl⟩

theorem SendsNothing.trans {w₁ w₂ w₃ : World} (h : w₁.SendsNothing w₂) (h' : w₂.SendsNothing w₃) : w₁.SendsNothing w₃ :=
  ⟨h.conn.trans h'.conn, h'.chan.trans h.chan, h'.bodyRx.trans h.bodyRx⟩

theorem SendsNothing.of_conn {w v : World} (conn : w.conn.Rests v.conn) (chan : v.chan = w.chan) (bodyRx : v.bodyRx = w.bodyRx) :
    w.SendsNothing v := ⟨conn, chan ▸ .refl _, bodyRx⟩

theorem SendsNothing.of_same {w v : World} (conn : v.conn = w.conn) (chan : v.chan = w.chan) (bodyRx : v.bodyRx = w.bodyRx) :
    w.SendsNothing v := .of_conn (conn ▸ .refl _) chan bodyRx

/-- An action that sends nothing, with what may happen to a task that ends. -/
structure Quiet (w v : World) : Prop where
  conn : w.conn.Rests v.conn
  chan : (waiting v.chan).Sublist (waiting w.chan)
  live : v.phase.live = true → v.bodyRx = w.bodyRx ∧ w.phase.live = true

theorem SendsNothing.quiet {w v : World} (h : w.SendsNothing v) (live : w.phase.live = true) : w.Quiet v :=
  ⟨h.conn, h.chan, fun _ => ⟨h.bodyRx, live⟩⟩

theorem Quiet.logs {w v : World} (h : w.Quiet v) {reqs : List Request} (logs : w.Logs reqs) :
    v.Logs reqs := by
  obtain ⟨f, same, log⟩ := h.conn.log
  refine ⟨?_, ?_⟩
  · rw [log]
    exact forall₂_modifyLast logs.sends fun r x _ _ sends => sends.untouched (same x)
  · intro live e body
    obtain ⟨rx, wasLive⟩ := h.live live
    obtain ⟨r, x, polls, lastReq, last, unfinished, uploading, yielded⟩ := logs.uploads wasLive e (h.conn.writing e body)
    obtain ⟨head, hint, encoder, sent, finished⟩ := same x
    refine ⟨r, f x, polls, lastReq, ?_, finished.trans unfinished, ?_, ?_⟩
    · rw [log, Conn.getLast?_note, last]
      rfl
    · rw [encoder, sent]
      exact uploading
    · rw [rx, encoder]
      exact yielded

theorem recvErr_sendsNothing (w : World) (e : Error) : w.SendsNothing (w.recvErr e).2 := by
  unfold recvErr
  split
  · exact ⟨.refl _, .refl _, rfl⟩
  split
  · unfold Dispatch.Channel.tryRecv
    dsimp only
    split
    · next id req chan took =>
      split at took
      · next rest front =>
        cases took
        refine ⟨.refl _, ?_, rfl⟩
        have front : w.chan.queue = (id, req) :: rest := front
        show (rest.map Prod.snd ++ w.chan.pushing.toList).Sublist _
        rw [waiting, front]
        exact List.sublist_cons_self _ _
      · cases took
    · next chan took =>
      split at took
      · cases took
      · cases took
        exact ⟨.refl _, .refl _, rfl⟩
  · exact .refl w

theorem fail_sendsNothing (w : World) (e : Error) : w.SendsNothing (w.fail e) := by
  obtain ⟨bodies, aborted⟩ := abortBody_eq { w with raised := w.raised ++ [e] } (.newBody "connection error")
  have told := recvErr_sendsNothing { w with raised := w.raised ++ [e], bodyTx := none, bodies } e
  unfold fail
  rw [aborted]
  split
  · next h =>
    rw [h] at told
    exact ⟨told.conn, told.chan, told.bodyRx⟩
  · next h =>
    rw [h] at told
    exact ⟨told.conn, told.chan, told.bodyRx⟩

theorem fail_dead (w : World) (e : Error) : (w.fail e).phase.live = false := by
  obtain ⟨_, _, _, _, eq⟩ := w.fail_eq e
  rw [eq]
  rfl

theorem drop_quiet {w v : World} (h : w.SendsNothing v) (panicking : Bool) : w.Quiet (v.drop panicking) := by
  have dropped (u : World) : (waiting u.chan.dropReceiver).Sublist (waiting u.chan) := List.sublist_append_right _ _
  obtain ⟨chan, bodies, eq⟩ := v.drop_eq panicking
  refine ⟨?_, ?_, ?_⟩
  · rw [eq]
    exact h.conn
  · refine List.Sublist.trans ?_ h.chan
    unfold drop
    split
    · next id _ =>
      obtain ⟨bodies, aborted⟩ :=
        abortBody_eq { v with callback := none, chan := (v.chan.dropCallback id panicking).dropReceiver } .newIncomplete
      dsimp only
      rw [aborted]
      exact dropped { v with chan := v.chan.dropCallback id panicking }
    · obtain ⟨bodies, aborted⟩ := abortBody_eq { v with chan := v.chan.dropReceiver } .newIncomplete
      dsimp only
      rw [aborted]
      exact dropped v
  · intro live
    rw [eq] at live
    cases live

theorem close_sendsNothing (w : World) : w.SendsNothing w.close :=
  .of_conn (.of_closes ⟨rfl, ⟨.inr rfl, .inr ⟨rfl, rfl⟩, .inr rfl⟩, rfl, rfl⟩) rfl rfl

theorem endWrite_sendsNothing (w : World) (left : Nat) (again ready : Bool) : w.SendsNothing (w.endWrite left again ready) := by
  obtain ⟨phase, eq⟩ := w.endWrite_eq left again ready
  rw [eq]
  exact .of_same rfl rfl rfl

theorem orFail_sendsNothing (w : World) (left : Nat) (again : Bool) (res : Except Error Unit) :
    w.SendsNothing (w.orFail left again res) := by
  cases res with
  | ok => exact .of_same rfl rfl rfl
  | error e => exact w.fail_sendsNothing e

theorem recvHead_sendsNothing (w : World) (left : Nat) (msg : ParsedMessage) : w.SendsNothing (w.recvHead left msg) := by
  obtain ⟨bodyTx, bodies, bodyOf, eq⟩ := w.openBody_eq msg
  have upgraded : w.conn.Rests (if msg.wantsUpgrade then w.conn.onUpgrade else w.conn) := by
    split
    · exact .state rfl rfl
    · exact .refl _
  unfold recvHead
  rw [eq]
  dsimp only
  split
  · exact ⟨upgraded, .refl _, rfl⟩
  · refine SendsNothing.trans ?_ (fail_sendsNothing _ _)
    split
    · exact .of_conn upgraded rfl rfl
    · exact .of_conn upgraded rfl rfl

variable [Httparse]

theorem pollReadHead_sendsNothing (w : World) (left : Nat) : w.SendsNothing (w.pollReadHead left) := by
  have closed (v : World) : v.SendsNothing { v.close with phase := .reading left } :=
    v.close_sendsNothing.trans (.of_same rfl rfl rfl)
  have read : w.SendsNothing { w with conn := w.conn.pollReadHead.2 } := .of_conn w.conn.pollReadHead_rests rfl rfl
  unfold pollReadHead
  split
  · exact closed w
  split
  · exact closed w
  · dsimp only
    split
    · exact read.trans (.of_same rfl rfl rfl)
    · exact read.trans (recvHead_sendsNothing _ left _)
    · next e _ =>
      have told := read.trans (recvErr_sendsNothing { w with conn := w.conn.pollReadHead.2 } e)
      split
      · next v h =>
        rw [h] at told
        exact told.trans (closed v)
      · next v h =>
        rw [h] at told
        exact told.trans (v.fail_sendsNothing e)
    · split
      · exact read.trans (closed { w with conn := w.conn.pollReadHead.2 })
      · exact read.trans (.of_same rfl rfl rfl)

theorem pollReadStream_sendsNothing {w : World} (inv : w.conn.Inv) (left j : Nat) :
    w.SendsNothing (w.pollReadStream left j) := by
  unfold pollReadStream
  split
  · next can =>
    split
    · exact .of_same rfl rfl rfl
    · exact .of_conn (Conn.pollDrainOrCloseRead_rests inv can) rfl rfl
    · have read := Conn.pollReadBody_rests inv can
      dsimp only
      split
      · exact .of_conn read rfl rfl
      · exact .of_conn read rfl rfl
      · exact .of_conn read rfl rfl
      · exact .of_conn read rfl rfl
  · exact .of_same rfl rfl rfl

theorem stepReading_sendsNothing {w : World} (inv : w.conn.Inv) (left : Nat) : w.SendsNothing (w.stepReading left) := by
  unfold stepReading
  split
  · exact .of_same rfl rfl rfl
  split
  · exact w.pollReadHead_sendsNothing left
  split
  · next j _ =>
    have inv : ({ w with bodyTx := none } : World).conn.Inv := inv
    obtain ⟨conn, chan, bodyRx⟩ := pollReadStream_sendsNothing inv left j
    exact ⟨conn, chan, bodyRx⟩
  · have looked : w.SendsNothing { w with conn := w.conn.pollReadKeepAlive.2 } :=
      .of_conn (.of_closes w.conn.pollReadKeepAlive_closes) rfl rfl
    dsimp only
    split
    · exact looked.trans (fail_sendsNothing _ _)
    · exact looked.trans (.of_same rfl rfl rfl)

omit [Httparse] in
theorem stepSending_sendsNothing (w : World) (left j : Nat) (frame : Frame) :
    w.SendsNothing (w.stepSending left j frame) := by
  unfold stepSending
  dsimp only
  split
  · exact .of_same rfl rfl rfl
  split
  · exact .of_conn (.of_closes (Conn.closeRead_closes _)) rfl rfl
  · exact .of_same rfl rfl rfl

omit [Httparse] in
theorem stepFlushing_sendsNothing (w : World) (left : Nat) (writeReady : Bool) :
    w.SendsNothing (w.stepFlushing left writeReady) := by
  have flushed : w.SendsNothing { w with conn := w.conn.pollFlush.2 } := .of_conn w.conn.pollFlush_rests rfl rfl
  have again : w.SendsNothing { w with conn := w.conn.pollFlush.2.wantsReadAgain.2 } :=
    flushed.trans (.of_conn (.state rfl rfl) rfl rfl)
  unfold stepFlushing
  dsimp only
  split
  · exact flushed.trans (fail_sendsNothing _ _)
  split
  · exact again.trans (.of_same rfl rfl rfl)
  split
  · exact again.trans (.of_same rfl rfl rfl)
  · exact again.trans (.of_same rfl rfl rfl)

omit [Httparse] in
theorem complete_sendsNothing (w : World) (res : Dispatched) : w.SendsNothing (w.complete res) := by
  have taken : w.SendsNothing { w with conn := w.conn.takeError.2 } := .of_conn (.state rfl rfl) rfl rfl
  unfold complete
  dsimp only
  split
  · exact taken.trans (fail_sendsNothing _ _)
  · exact taken.trans (.of_same rfl rfl rfl)

omit [Httparse] in
theorem stepInner_sendsNothing (w : World) : w.SendsNothing w.stepInner := by
  have upgrade : w.SendsNothing { w with conn := w.conn.pendingUpgrade.2 } := .of_conn (.state rfl rfl) rfl rfl
  have shut : w.SendsNothing { w with conn := w.conn.pendingUpgrade.2.pollShutdown.2 } :=
    upgrade.trans (.of_conn (.state rfl rfl) rfl rfl)
  unfold stepInner
  split
  · dsimp only
    split
    · exact upgrade.trans (complete_sendsNothing _ _)
    split
    · split
      · exact shut.trans (.of_same rfl rfl rfl)
      · exact shut.trans (fail_sendsNothing _ _)
      · exact shut.trans (complete_sendsNothing _ _)
    · exact upgrade.trans (complete_sendsNothing _ _)
  · exact .of_same rfl rfl rfl

/-! ### Steps that send -/

section Sending
variable {w v : World} {reqs : List Request} {e : Encoder}

omit [Httparse] in
/-- More of the body of the last request was sent: on with the body, to its end, or not to its end. -/
theorem Logs.sendMore (logs : w.Logs reqs) (live : w.phase.live = true) (writing : w.conn.state.writing = .body e)
    {writeBuf : WriteBuf (EncodedBuf Bytes)} {more : Bytes} {next : Writing}
    (conn : v.conn = w.conn.sendMore writeBuf more next)
    (goes : ∀ (r : Request) (x : Exchange) (polls : List BodyPoll), Uploading x.encoder e x.sent (chunksOf polls) →
      Yielded w.bodyRx r x.encoder polls →
      (∃ e' polls', next = .body e' ∧ Uploading x.encoder e' (x.sent ++ more) (chunksOf polls') ∧
        Yielded v.bodyRx r x.encoder polls') ∨
      next = .keepAlive ∧ SentWhole x.encoder (x.sent ++ more) (untilEnd r.body.polls) ∨ next = .closed) :
    v.Logs reqs := by
  obtain ⟨r, x, polls, lastReq, last, unfinished, uploading, yielded⟩ := logs.uploads live e writing
  have goes := goes r x polls uploading yielded
  have log : v.conn.log = (w.conn.note fun x =>
      { x with sent := x.sent ++ more, finished := x.finished || decide (next = .keepAlive) }).log := by
    rw [conn, Conn.sendMore_log]
  refine ⟨?_, ?_⟩
  · rw [log]
    refine forall₂_modifyLast logs.sends fun r' x' lastReq' last' sends => ?_
    obtain rfl := Option.some.inj (lastReq.symm.trans lastReq')
    obtain rfl := Option.some.inj (last.symm.trans last')
    refine ⟨sends.head, sends.hint, sends.encoder, ?_⟩
    intro finished
    have ended : next = .keepAlive := by simpa [unfinished] using finished
    rcases goes with ⟨e', _, same, -⟩ | ⟨-, whole⟩ | closed
    · rw [ended] at same
      cases same
    · exact whole
    · rw [ended] at closed
      cases closed
  · intro _ e' body
    have next_ : next = .body e' := by rw [conn] at body; exact body
    rcases goes with ⟨e'', polls', same, uploading', yielded'⟩ | ⟨same, -⟩ | same
    · obtain rfl := Writing.body.inj (same.symm.trans next_)
      have last' : v.conn.log.getLast? =
          some { x with sent := x.sent ++ more, finished := x.finished || decide (next = .keepAlive) } := by
        rw [log, Conn.getLast?_note, last]
        rfl
      refine ⟨r, _, polls', lastReq, last', ?_, uploading', yielded'⟩
      simp [unfinished, same]
    · rw [next_] at same
      cases same
    · rw [next_] at same
      cases same

omit [Httparse] in
/-- The body has yielded something that is not sent. -/
theorem Logs.yield (logs : w.Logs reqs) (live : w.phase.live = true) (conn : v.conn = w.conn)
    (goes : ∀ (r : Request) (x : Exchange) (e : Encoder) (polls : List BodyPoll), w.conn.state.writing = .body e →
      Uploading x.encoder e x.sent (chunksOf polls) → Yielded w.bodyRx r x.encoder polls →
      ∃ polls', chunksOf polls' = chunksOf polls ∧ Yielded v.bodyRx r x.encoder polls') : v.Logs reqs := by
  refine ⟨by rw [conn]; exact logs.sends, ?_⟩
  intro _ e writing
  rw [conn] at writing ⊢
  obtain ⟨r, x, polls, lastReq, last, unfinished, uploading, yielded⟩ := logs.uploads live e writing
  obtain ⟨polls', same, yielded'⟩ := goes r x e polls writing uploading yielded
  exact ⟨r, x, polls', lastReq, last, unfinished, same ▸ uploading, yielded'⟩

omit [Httparse] in
/-- A task that has ended, or that does not write a body, has none on its way. -/
theorem Logs.idle (logs : w.Logs reqs) (conn : v.conn = w.conn)
    (none : v.phase.live = false ∨ v.conn.canWriteBody = false) : v.Logs reqs := by
  refine ⟨by rw [conn]; exact logs.sends, ?_⟩
  intro live e writing
  rcases none with dead | cannot
  · rw [dead] at live
    cases live
  · rw [Conn.canWriteBody_iff.mpr ⟨e, writing⟩] at cannot
    cases cannot

omit [Httparse] in
theorem Logs.of_sendsNothing (logs : w.Logs reqs) (live : w.phase.live = true) (h : w.SendsNothing v) : v.Logs reqs :=
  (h.quiet live).logs logs

omit [Httparse] in
theorem endBody_logs (sound : w.conn.Sound) (logs : w.Logs reqs) (live : w.phase.live = true) (none : w.bodyRx = none)
    (can : w.conn.canWriteBody = true) (left : Nat) (again : Bool) : (w.endBody left again).Logs reqs := by
  obtain ⟨e, writing⟩ := Conn.canWriteBody_iff.mp can
  have ended : Logs { w with conn := w.conn.endBody.2 } reqs := by
    obtain ⟨buf, ends, -, eq⟩ | ⟨err, eq⟩ := Conn.endBody_eq writing
    · refine logs.sendMore live writing eq ?_
      intro r x polls uploading yielded
      rw [none] at yielded
      obtain ⟨whole, plain⟩ := yielded
      refine .inr (.inl ⟨by simp [Conn.endWriting, uploading.isLast], ?_⟩)
      rw [whole]
      exact uploading.end (sound.live e writing) plain ends
    · exact logs.sendMore live writing (congrArg Prod.snd eq) fun _ _ _ _ _ => .inr (.inr rfl)
  exact Logs.of_sendsNothing ended live (orFail_sendsNothing _ left again _)

omit [Httparse] in
/-- A poll of the body that ends it, where nothing is sent for the poll itself. -/
theorem Yielded.ends {body : UserBody} {r : Request} {e : Encoder} {polls rest : List BodyPoll} {poll : BodyPoll}
    (yielded : Yielded (some body) r e polls) (left : body.polls = poll :: rest) (ends : BodyPoll.ends poll = true) :
    untilEnd r.body.polls = polls ++ [poll] := by
  obtain ⟨whole, going⟩ := yielded
  rw [whole, left, untilEnd_append going, untilEnd_cons_of_ends ends]

omit [Httparse] in
theorem Yielded.goes {body body' : UserBody} {r : Request} {e : Encoder} {polls : List BodyPoll} {poll : BodyPoll}
    (yielded : Yielded (some body) r e polls) (left : body.polls = poll :: body'.polls) (goes : BodyPoll.ends poll = false) :
    Yielded (some body') r e (polls ++ [poll]) ∧
      untilEnd r.body.polls = polls ++ poll :: untilEnd body'.polls := by
  obtain ⟨whole, going⟩ := yielded
  refine ⟨⟨?_, ?_⟩, ?_⟩
  · rw [whole, left, List.append_assoc]
    rfl
  · intro p member
    rcases List.mem_append.mp member with old | new
    · exact going p old
    · rw [List.mem_singleton.mp new]
      exact goes
  · rw [whole, left, untilEnd_append going, untilEnd, if_neg (by simp [goes])]

omit [Httparse] in
theorem writeChunk_logs {body body' : UserBody} {chunk : Bytes} {eos : Bool} (sound : w.conn.Sound) (logs : w.Logs reqs)
    (live : w.phase.live = true) (bodyRx : w.bodyRx = some body) (can : w.conn.canWriteBody = true)
    (small : chunk.length < 2 ^ 64) (left_ : body.polls = (.frame (.data chunk), eos) :: body'.polls) (left : Nat)
    (again : Bool) : (({ w with bodyRx := some body' } : World).writeChunk left again chunk eos).Logs reqs := by
  obtain ⟨e, writing⟩ := Conn.canWriteBody_iff.mp can
  unfold writeChunk
  cases eos with
  | true =>
    rw [if_pos rfl]
    dsimp only
    split
    · next empty =>
      -- The frame says only that the body is over.
      have taken : Logs { w with bodyRx := none } reqs := by
        refine logs.yield live rfl fun r x e polls _ uploading yielded => ?_
        rw [bodyRx] at yielded
        refine ⟨polls ++ [(.frame (.data chunk), true)], ?_, yielded.ends left_ rfl, ?_⟩
        · simp [chunksOf, BodyPoll.chunks, empty]
        · exact uploading.sentTrailers_of_plain rfl
      exact endBody_logs (w := { w with bodyRx := none }) sound taken live rfl can left again
    · next ne =>
      refine Logs.of_sendsNothing (w := { w with bodyRx := none, conn := w.conn.writeBodyAndEnd chunk }) ?_ live
        (.of_same rfl rfl rfl)
      refine logs.sendMore live writing (Conn.writeBodyAndEnd_eq writing chunk) ?_
      intro r x polls uploading yielded
      rw [bodyRx] at yielded
      cases keeps : (e.encodeAndEnd chunk w.conn.io.writeBuf).1 with
      | false => exact .inr (.inr rfl)
      | true =>
        refine .inr (.inl ⟨rfl, ?_⟩)
        rw [yielded.ends left_ rfl]
        exact uploading.encodeAndEnd ne small (by simp [BodyPoll.chunks, ne]) rfl keeps
  | false =>
    rw [if_neg (by decide)]
    split
    · next empty =>
      refine logs.yield live rfl fun r x e polls _ _ yielded => ?_
      rw [bodyRx] at yielded
      refine ⟨polls ++ [(.frame (.data chunk), false)], ?_, (yielded.goes left_ rfl).1⟩
      simp [chunksOf, BodyPoll.chunks, empty]
    · next ne =>
      have yields : BodyPoll.chunks (.frame (.data chunk), false) = [chunk] := by simp [BodyPoll.chunks, ne]
      refine logs.sendMore live writing (Conn.writeBody_eq writing chunk) ?_
      intro r x polls uploading yielded
      rw [bodyRx] at yielded
      obtain ⟨yielded', whole⟩ := yielded.goes left_ rfl
      cases eof : (e.encode chunk).2.isEof with
      | false =>
        refine .inl ⟨(e.encode chunk).2, polls ++ [(.frame (.data chunk), false)], by simp, ?_, yielded'⟩
        have added : chunksOf (polls ++ [(.frame (.data chunk), false)]) = chunksOf polls ++ [chunk] := by
          rw [chunksOf_append, chunksOf, chunksOf, List.flatMap_singleton, yields]
        rw [added]
        exact uploading.encode ne small eof
      | true =>
        have last := (uploading.encode_isLast chunk)
        refine .inr (.inl ⟨by simp [Conn.endWriting, last], ?_⟩)
        rw [whole]
        exact uploading.encode_last yields eof

omit [Httparse] in
theorem pollFrame_cases (body : UserBody) :
    body.polls = [] ∧ body.pollFrame = (.pending, body.isEndStream, body) ∨
      ∃ poll body', body.polls = poll :: body'.polls ∧ body.pollFrame = (poll.1, poll.2, body') := by
  unfold UserBody.pollFrame
  split
  · next empty => exact .inl ⟨empty, rfl⟩
  · next poll rest front => exact .inr ⟨poll, { body with
      polls := rest, isEndStream := poll.2, small := fun p member => body.small p (front ▸ .tail _ member) }, front, rfl⟩

omit [Httparse] in
theorem writeUserBody_logs {body : UserBody} (sound : w.conn.Sound) (logs : w.Logs reqs) (live : w.phase.live = true)
    (bodyRx : w.bodyRx = some body) (left : Nat) (again : Bool) : (w.writeUserBody left again body).Logs reqs := by
  unfold writeUserBody
  split
  · next cannot => exact logs.idle rfl (.inr (by simpa using cannot))
  next can =>
  have can : w.conn.canWriteBody = true := by simpa using can
  obtain ⟨-, eq⟩ | ⟨⟨res, eos⟩, body', front, eq⟩ := pollFrame_cases body
  · rw [eq]
    refine Logs.of_sendsNothing (w := { w with bodyRx := some body }) ?_ live (endWrite_sendsNothing _ _ _ _)
    exact logs.yield live rfl fun r x e polls _ _ yielded => ⟨polls, rfl, bodyRx ▸ yielded⟩
  rw [eq]
  dsimp only
  split
  · refine Logs.of_sendsNothing (w := { w with bodyRx := some body' }) ?_ live (endWrite_sendsNothing _ _ _ _)
    refine logs.yield live rfl fun r x e polls _ _ yielded => ?_
    rw [bodyRx] at yielded
    refine ⟨polls ++ [(.pending, eos)], ?_, (yielded.goes front rfl).1⟩
    simp [chunksOf, BodyPoll.chunks]
  · exact logs.idle (fail_conn _ _) (.inl (fail_dead _ _))
  · refine endBody_logs (w := { w with bodyRx := none }) sound ?_ live rfl can left again
    refine logs.yield live rfl fun r x e polls _ uploading yielded => ?_
    rw [bodyRx] at yielded
    refine ⟨polls ++ [(.none, eos)], ?_, yielded.ends front rfl, uploading.sentTrailers_of_plain rfl⟩
    simp [chunksOf, BodyPoll.chunks]
  · next chunk =>
    have small : chunk.length < 2 ^ 64 := body.small (.frame (.data chunk), eos) (by rw [front]; exact .head _)
    exact writeChunk_logs sound logs live bodyRx can small front left again
  · next t =>
    obtain ⟨e, writing⟩ := Conn.canWriteBody_iff.mp can
    have ends (poll : BodyPoll) (same : poll = (.frame (.trailers t), eos)) : chunksOf [poll] = [] := by
      rw [same]
      rfl
    obtain ⟨buf, made, sends⟩ | ⟨dropped, sends⟩ := Conn.writeTrailers_eq writing t
    · refine logs.sendMore live writing sends ?_
      intro r x polls uploading yielded
      rw [bodyRx] at yielded
      refine .inr (.inl ⟨by simp [Conn.endWriting, uploading.isLast], ?_⟩)
      rw [yielded.ends front rfl]
      exact uploading.encodeTrailers rfl rfl made
    · rw [sends]
      refine logs.yield live rfl fun r x e' polls writing' uploading yielded => ?_
      rw [bodyRx] at yielded
      obtain rfl := Writing.body.inj (writing.symm.trans writing')
      refine ⟨polls ++ [(.frame (.trailers t), eos)], ?_, yielded.ends front rfl,
        uploading.sentTrailers_of_dropped rfl dropped⟩
      rw [chunksOf_append, ends _ rfl, List.append_nil]

omit [Httparse] in
/-- The encoder of a head that was just written has sent nothing yet. -/
theorem uploading_new {c c' : Conn} {head : RequestHead} {body : Option BodyLength} {x : Exchange}
    (wrote : Conn.WroteHead c head body c' x) : Uploading x.encoder x.encoder x.sent [] := by
  rw [wrote.sent, wrote.encoder]
  exact .start (Conn.setLength_encoding _ _)

omit [Httparse] in
/-- A request that is taken is one more in the history. -/
theorem writeHead_logs (logs : w.Logs reqs) {req : Request} {conn : Conn} (wrote : w.conn.writeHead req.head req.body.bodyType = some conn)
    (same : v.conn = conn) (rx : v.bodyRx = if req.body.bodyType.isNone then none else some req.body) :
    v.Logs (reqs ++ [req]) := by
  obtain ⟨x, spec⟩ := Conn.writeHead_spec wrote
  have log : v.conn.log = w.conn.log ++ [x] := by rw [same, spec.log]
  have new := uploading_new spec
  have framed : x.encoder = (Client.setLength x.head x.hint).2 := by rw [spec.hint]; exact spec.encoder
  have sends : Sends req x := by
    refine ⟨⟨_, spec.head⟩, spec.hint, framed, ?_⟩
    intro finished
    rw [spec.finished] at finished
    rw [spec.sent] at new ⊢
    exact new.nothing finished
  refine ⟨?_, ?_⟩
  · rw [log]
    exact List.rel_append logs.sends (.cons sends .nil)
  · intro _ e writing
    rw [same, spec.writing] at writing
    split at writing
    · cases writing
    next more =>
    obtain rfl := Writing.body.inj writing
    refine ⟨req, x, [], List.getLast?_concat, by rw [log, List.getLast?_concat], ?_, new, ?_⟩
    · rw [spec.finished]
      simpa using more
    · cases hint : req.body.bodyType with
      | none =>
        -- Without a body, nothing is left to be sent.
        rw [framed, spec.hint, hint] at more
        exact absurd rfl more
      | some _ =>
        rw [rx, hint]
        exact ⟨rfl, by simp⟩

/-! ### The requests that wait -/

omit [Httparse] in
theorem endBody_waiting (w : World) (left : Nat) (again : Bool) :
    (waiting (w.endBody left again).chan).Sublist (waiting w.chan) :=
  (orFail_sendsNothing { w with conn := w.conn.endBody.2 } left again w.conn.endBody.1).chan

omit [Httparse] in
theorem writeUserBody_waiting (w : World) (body : UserBody) (left : Nat) (again : Bool) :
    (waiting (w.writeUserBody left again body).chan).Sublist (waiting w.chan) := by
  unfold writeUserBody
  split
  · exact .refl _
  dsimp only
  split
  · exact (endWrite_sendsNothing { w with bodyRx := _ } left again false).chan
  · exact (fail_sendsNothing { w with bodyRx := _ } _).chan
  · exact endBody_waiting { w with bodyRx := _ } left again
  · unfold writeChunk
    split
    · dsimp only
      split
      · exact endBody_waiting { w with bodyRx := _ } left again
      · exact .refl _
    split
    · exact .refl _
    · exact .refl _
  · exact .refl _

end Sending

/-! ### Runs -/

/-- A step takes requests in the order in which they wait, and accounts for those that it writes. -/
def Takes (w v : World) (reqs : List Request) : Prop :=
  ∃ more, v.Logs (reqs ++ more) ∧ (more ++ waiting v.chan).Sublist (waiting w.chan)

omit [Httparse] in
theorem Takes.nothing {w v : World} {reqs : List Request} (logs : v.Logs reqs)
    (chan : (waiting v.chan).Sublist (waiting w.chan)) : w.Takes v reqs :=
  ⟨[], by rw [List.append_nil]; exact logs, chan⟩

omit [Httparse] in
theorem writeRequest_takes {w : World} {reqs : List Request} (logs : w.Logs reqs)
    {id : Nat} {req : Request} {rest : List (Nat × Request)} (front : w.chan.queue = (id, req) :: rest) (left : Nat)
    (again : Bool) :
    w.Takes (writeRequest { w with chan := { w.chan with queue := rest } } left again id req) reqs := by
  have waits : waiting w.chan = req :: waiting { w.chan with queue := rest } := by
    rw [waiting, front]
    rfl
  unfold writeRequest
  dsimp only
  split
  · next conn wrote =>
    refine ⟨[req], writeHead_logs logs wrote rfl rfl, ?_⟩
    rw [waits]
    exact .refl _
  · -- Encoding the head panics, and nothing of the request is sent.
    generalize taken : World.mk .. = u
    have conn : u.conn = w.conn := by rw [← taken]
    have chan : u.chan = { w.chan with queue := rest } := by rw [← taken]
    have dropped := drop_quiet (.refl u) true
    have dead : (u.drop true).phase.live = false := by
      obtain ⟨_, _, eq⟩ := u.drop_eq true
      rw [eq]
      rfl
    have same : (u.drop true).conn = w.conn := by
      obtain ⟨_, _, eq⟩ := u.drop_eq true
      rw [eq]
      exact conn
    refine .nothing (logs.idle same (.inl dead)) ?_
    rw [waits]
    exact (chan ▸ dropped.chan).trans (List.sublist_cons_self _ _)

omit [Httparse] in
theorem PolledMsg.takes {w v : World} {left : Nat} {again : Bool} (polled : w.PolledMsg left again v) {reqs : List Request}
    (logs : w.Logs reqs) (live : w.phase.live = true) : w.Takes v reqs := by
  have nothing {v : World} (h : w.SendsNothing v) : w.Takes v reqs :=
    .nothing (logs.of_sendsNothing live h) h.chan
  have closed {v : World} (h : w.SendsNothing v) : w.Takes (v.close.endWrite left again true) reqs :=
    nothing ((h.trans v.close_sendsNothing).trans (endWrite_sendsNothing _ _ _ _))
  cases polled with
  | @canceled id req rest front =>
    refine closed ⟨.refl _, ?_, rfl⟩
    show (rest.map Prod.snd ++ w.chan.pushing.toList).Sublist _
    rw [waiting, front]
    exact List.sublist_cons_self _ _
  | taken front => exact writeRequest_takes logs front left again
  | ended =>
    apply closed
    exact .of_same rfl rfl rfl
  | waits => exact nothing (.of_same rfl rfl rfl)

omit [Httparse] in
theorem stepWriting_takes {w : World} {reqs : List Request} (sound : w.conn.Sound) (logs : w.Logs reqs)
    (live : w.phase.live = true) (left : Nat) (again : Bool) : w.Takes (w.stepWriting left again) reqs := by
  have nothing {v : World} (h : w.SendsNothing v) : w.Takes v reqs :=
    .nothing (logs.of_sendsNothing live h) h.chan
  have flushed : w.SendsNothing { w with conn := w.conn.pollFlush.2 } := .of_conn w.conn.pollFlush_rests rfl rfl
  generalize w.stepWriting left again = v, w.stepWriting_round left again = round
  cases round with
  | closing => exact nothing (endWrite_sendsNothing _ _ _ _)
  | polled _ _ _ _ polled => exact polled.takes logs live
  | blocked => exact nothing (flushed.trans (endWrite_sendsNothing _ _ _ _))
  | flushed => exact nothing (flushed.trans (orFail_sendsNothing _ _ _ _))
  | userBody bodyRx => exact .nothing (writeUserBody_logs sound logs live bodyRx left again) (w.writeUserBody_waiting _ _ _)
  | bodyDone none can => exact .nothing (endBody_logs sound logs live none can left again) (w.endBody_waiting _ _)
  | nothing => exact nothing (endWrite_sendsNothing _ _ _ _)

theorem step_takes {w : World} {reqs : List Request} (inv : w.conn.Inv) (sound : w.conn.Sound) (logs : w.Logs reqs) :
    w.Takes w.step reqs := by
  have nothing {v : World} (live : w.phase.live = true) (h : w.SendsNothing v) : w.Takes v reqs :=
    .nothing (logs.of_sendsNothing live h) h.chan
  have still : w.Takes w reqs := .nothing logs (.refl _)
  unfold step
  split
  · next phase => exact nothing (by rw [phase]; rfl) (stepReading_sendsNothing inv _)
  · next phase => exact nothing (by rw [phase]; rfl) (w.stepSending_sendsNothing _ _ _)
  · next phase => exact stepWriting_takes sound logs (by rw [phase]; rfl) _ _
  · next phase =>
    have wants : w.SendsNothing { w with chan := w.chan.want } := ⟨.refl _, .refl _, rfl⟩
    exact nothing (by rw [phase]; rfl) (wants.trans (endWrite_sendsNothing _ _ _ _))
  · next phase => exact nothing (by rw [phase]; rfl) (w.stepFlushing_sendsNothing _ _)
  · next phase => exact nothing (by rw [phase]; rfl) w.stepInner_sendsNothing
  · exact still
  · exact still
  · exact still

/-- An action adds at most the request that it gives. -/
theorem act_takes {w : World} {reqs : List Request} (inv : w.conn.Inv) (sound : w.conn.Sound) (logs : w.Logs reqs)
    (a : Action) : ∃ more, (w.act a).Logs (reqs ++ more) ∧
      (more ++ waiting (w.act a).chan).Sublist (waiting w.chan ++ given [a]) := by
  have quiet {v : World} (h : w.Quiet v) : ∃ more, v.Logs (reqs ++ more) ∧
      (more ++ waiting v.chan).Sublist (waiting w.chan ++ given [a]) :=
    ⟨[], by rw [List.append_nil]; exact h.logs logs, h.chan.trans (List.sublist_append_left _ _)⟩
  have chanOnly {chan : Dispatch.Channel Request Response} (shrinks : (waiting chan).Sublist (waiting w.chan)) :
      w.Quiet { w with chan } := ⟨.refl _, shrinks, fun live => ⟨rfl, live⟩⟩
  cases a with
  | poll =>
    rw [act]
    split
    · next parked => exact quiet ⟨.refl _, .refl _, fun _ => ⟨rfl, by rw [parked]; rfl⟩⟩
    · exact quiet ⟨.refl _, .refl _, fun live => ⟨rfl, live⟩⟩
  | step =>
    obtain ⟨more, logs', chan⟩ := step_takes inv sound logs
    exact ⟨more, logs', chan.trans (List.sublist_append_left _ _)⟩
  | drop =>
    rw [act]
    split
    · exact quiet (drop_quiet (.refl w) false)
    · exact quiet (drop_quiet (.refl w) false)
    · exact quiet ⟨.refl _, .refl _, fun live => ⟨rfl, live⟩⟩
  | give req =>
    refine ⟨[], by rw [List.append_nil]; exact ⟨logs.sends, logs.uploads⟩, ?_⟩
    show (waiting (w.chan.give req)).Sublist (waiting w.chan ++ [req])
    unfold Dispatch.Channel.give
    split
    · exact List.sublist_append_left _ _
    next free =>
    split
    · have none : w.chan.pushing = none := by
        simp only [Bool.or_eq_true, not_or, Option.not_isSome_iff_eq_none] at free
        exact free.1
      rw [waiting, waiting, none, Option.toList_none, List.append_nil]
      exact .refl _
    · exact List.sublist_append_left _ _
  | push =>
    refine quiet (chanOnly ?_)
    unfold Dispatch.Channel.push
    split
    · next val pushing =>
      rw [waiting, waiting, pushing]
      unfold Dispatch.Channel.send
      split
      · exact (List.append_nil _).symm ▸ List.sublist_append_left _ _
      · simp
    · exact .refl _
  | dropSender =>
    refine quiet (chanOnly ?_)
    unfold Dispatch.Channel.dropSender
    split
    · exact .refl _
    · exact .refl _
  | cancel | pollFrame | dropBody => exact quiet ⟨.refl _, .refl _, fun live => ⟨rfl, live⟩⟩

/-- In every run, the history accounts for requests that were given, in their order. -/
theorem run_logs (opts : Http1Options) (io : Transport) (actions : List Action) :
    ∃ reqs, ((new opts io).run actions).Logs reqs ∧
      (reqs ++ waiting ((new opts io).run actions).chan).Sublist (given actions) := by
  induction actions using List.reverseRecOn with
  | nil => exact ⟨[], ⟨.nil, fun _ _ writing => by cases writing⟩, .refl _⟩
  | append_singleton actions a ih =>
    obtain ⟨reqs, logs, order⟩ := ih
    have last : (new opts io).run (actions ++ [a]) = ((new opts io).run actions).act a := run_append _ _ _
    have sound := Conn.Steps.sound (run_steps (new opts io) actions) (Conn.handshake_inv opts io) (Conn.handshake_sound opts io)
    obtain ⟨more, logs', chan⟩ := act_takes (run_inv opts io actions) sound logs a
    have split : given (actions ++ [a]) = given actions ++ given [a] := List.filterMap_append
    refine ⟨reqs ++ more, last ▸ logs', ?_⟩
    rw [last, split, List.append_assoc]
    have taken := chan.append_left reqs
    rw [← List.append_assoc reqs (waiting ((new opts io).run actions).chan)] at taken
    exact taken.trans (order.append_right (given [a]))

end World

end Hwire.Http1
