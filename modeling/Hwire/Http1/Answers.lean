import Hwire.Http1.Transcript

/-!
# From the transport to the callers

Who gets the responses that the bytes of a transport are. The task hands a head out only with the callback of the request
that was written last, so that the responses go to the callers in the order of their requests, and each has the bytes
behind those of the one before.
-/

namespace Hwire.Dispatch.Channel
open Lib

variable {T U : Type}

/-- The results that are not errors, in the order in which they were sent. -/
def successes (ch : Channel T U) : List (Nat × U) := ch.results.filterMap fun sent => sent.2.toOption.map (sent.1, ·)

theorem successes_tryRecv (ch : Channel T U) : ch.tryRecv.2.successes = ch.successes := by
  unfold tryRecv
  split
  · rfl
  · rfl

@[simp] theorem successes_answer_error (ch : Channel T U) (id : Nat) (e : TrySendError T) :
    (ch.answer id (.error e)).successes = ch.successes := by
  simp [successes, answer, Except.toOption]

@[simp] theorem successes_answer_ok (ch : Channel T U) (id : Nat) (res : U) :
    (ch.answer id (.ok res)).successes = ch.successes ++ [(id, res)] := by
  simp [successes, answer, Except.toOption]

@[simp] theorem successes_dropReceiver (ch : Channel T U) : ch.dropReceiver.successes = ch.successes := by
  simp [successes, dropReceiver, close, envelopeDropped, Except.toOption, Function.comp_def]

end Hwire.Dispatch.Channel

namespace Hwire.Http1
open Lib Body Dispatch.Channel

namespace World

variable [Httparse]

/-! ### Steps that hand no response out -/

/-- A part of a step that finds no head and takes no request. -/
structure Silent (w v : World) : Prop where
  conn : Relation.ReflTransGen Conn.Murmurs w.conn v.conn
  successes : v.chan.successes = w.chan.successes
  written : v.written = w.written
  bodyOf : v.bodyOf = w.bodyOf
  callback : v.callback = w.callback ∨ v.callback = none

theorem Silent.refl (w : World) : w.Silent w := ⟨.refl, rfl, rfl, rfl, .inl rfl⟩

theorem Silent.trans {w₁ w₂ w₃ : World} (h : w₁.Silent w₂) (h' : w₂.Silent w₃) : w₁.Silent w₃ := by
  refine ⟨.trans h.conn h'.conn, h'.successes.trans h.successes, h'.written.trans h.written, h'.bodyOf.trans h.bodyOf, ?_⟩
  rcases h'.callback with same | none
  · rw [same]
    exact h.callback
  · exact .inr none

/-- Parts of a step that only call the connection. -/
theorem Silent.of_murmurs {w v : World} (murmurs : w.conn.Murmurs v.conn) (chan : v.chan = w.chan)
    (written : v.written = w.written) (bodyOf : v.bodyOf = w.bodyOf) (callback : v.callback = w.callback) : w.Silent v :=
  ⟨.single murmurs, by rw [chan], written, bodyOf, .inl callback⟩

theorem Silent.of_same {w v : World} (conn : v.conn = w.conn) (chan : v.chan = w.chan) (written : v.written = w.written)
    (bodyOf : v.bodyOf = w.bodyOf) (callback : v.callback = w.callback) : w.Silent v :=
  ⟨conn ▸ .refl, by rw [chan], written, bodyOf, .inl callback⟩

theorem recvErr_silent (w : World) (e : Error) : w.Silent (w.recvErr e).2 := by
  unfold recvErr
  split
  · exact ⟨.refl, successes_answer_error _ _ _, rfl, rfl, .inr rfl⟩
  split
  · have closed : w.chan.close.tryRecv.2.successes = w.chan.successes := successes_tryRecv w.chan.close
    dsimp only
    split
    · next took =>
      rw [took] at closed
      exact ⟨.refl, (successes_answer_error _ _ _).trans closed, rfl, rfl, .inl rfl⟩
    · next took =>
      rw [took] at closed
      exact ⟨.refl, closed, rfl, rfl, .inl rfl⟩
  · exact .refl w

theorem fail_silent (w : World) (e : Error) : w.Silent (w.fail e) := by
  obtain ⟨bodies, aborted⟩ := abortBody_eq { w with raised := w.raised ++ [e] } (.newBody "connection error")
  have start : w.Silent (World.abortBody { w with raised := w.raised ++ [e] } (.newBody "connection error")) := by
    rw [aborted]
    exact .of_same rfl rfl rfl rfl rfl
  have told := start.trans (recvErr_silent _ e)
  unfold fail
  split
  · next h =>
    rw [h] at told
    exact told.trans (.of_same rfl rfl rfl rfl rfl)
  · next h =>
    rw [h] at told
    exact told.trans (.of_same rfl rfl rfl rfl rfl)

theorem drop_silent (w : World) (panicking : Bool) : w.Silent (w.drop panicking) := by
  have dropped (v : World) : v.Silent { World.abortBody { v with chan := v.chan.dropReceiver } .newIncomplete with
      bodyRx := none, phase := .gone } := by
    obtain ⟨bodies, eq⟩ := abortBody_eq { v with chan := v.chan.dropReceiver } .newIncomplete
    rw [eq]
    exact ⟨.refl, successes_dropReceiver _, rfl, rfl, .inl rfl⟩
  unfold drop
  split
  · next id _ =>
    have told : w.Silent { w with callback := none, chan := w.chan.dropCallback id panicking } :=
      ⟨.refl, successes_answer_error _ _ _, rfl, rfl, .inr rfl⟩
    exact told.trans (dropped _)
  · exact dropped w

theorem close_silent (w : World) : w.Silent w.close :=
  .of_murmurs ⟨.close, fun _ _ => w.conn.close_mutters⟩ rfl rfl rfl rfl

theorem endWrite_silent (w : World) (left : Nat) (again ready : Bool) : w.Silent (w.endWrite left again ready) := by
  obtain ⟨phase, eq⟩ := w.endWrite_eq left again ready
  rw [eq]
  exact .of_same rfl rfl rfl rfl rfl

theorem orFail_silent (w : World) (left : Nat) (again : Bool) (res : Except Error Unit) :
    w.Silent (w.orFail left again res) := by
  cases res with
  | ok => exact .of_same rfl rfl rfl rfl rfl
  | error e => exact w.fail_silent e

/-- A call that reads a head hands it out, or finds none. -/
theorem pollReadHead_silent {w : World} (can : w.conn.canReadHead = true) (left : Nat) :
    w.Silent (w.pollReadHead left) ∨ ∃ id msg, w.callback = some id ∧ w.conn.pollReadHead.1 = .ready (some (.ok msg)) ∧
      w.pollReadHead left = recvHead { w with conn := w.conn.pollReadHead.2 } left msg := by
  have closed (v : World) : v.Silent { v.close with phase := .reading left } :=
    v.close_silent.trans (.of_same rfl rfl rfl rfl rfl)
  have read (none : ∀ msg, w.conn.pollReadHead.1 ≠ .ready (some (.ok msg))) :
      w.Silent { w with conn := w.conn.pollReadHead.2 } := by
    refine .of_murmurs ⟨.readHead can, fun inv empty => ?_⟩ rfl rfl rfl rfl
    obtain ⟨msg, found, -⟩ | ⟨-, mutters⟩ := Conn.pollReadHead_hears can empty
    · exact absurd found (none msg)
    · exact mutters
  unfold pollReadHead
  split
  · exact .inl (closed w)
  split
  · exact .inl (closed w)
  · next id callback _ =>
    dsimp only
    split
    · next pending => exact .inl ((read (by simp [pending])).trans (.of_same rfl rfl rfl rfl rfl))
    · next msg found => exact .inr ⟨id, msg, callback, found, rfl⟩
    · next e failed =>
      have told := (read (by simp [failed])).trans (recvErr_silent { w with conn := w.conn.pollReadHead.2 } e)
      left
      split
      · next v h =>
        rw [h] at told
        exact told.trans (closed v)
      · next v h =>
        rw [h] at told
        exact told.trans (v.fail_silent e)
    · next ended =>
      left
      split
      · exact (read (by simp [ended])).trans (closed { w with conn := w.conn.pollReadHead.2 })
      · exact (read (by simp [ended])).trans (.of_same rfl rfl rfl rfl rfl)

theorem pollReadStream_silent (w : World) (left j : Nat) : w.Silent (w.pollReadStream left j) := by
  unfold pollReadStream
  split
  · next can =>
    split
    · exact .of_same rfl rfl rfl rfl rfl
    · exact .of_murmurs ⟨.drain can, fun inv _ => Conn.pollDrainOrCloseRead_mutters inv can⟩ rfl rfl rfl rfl
    · have read : w.conn.Murmurs w.conn.pollReadBody.2 := ⟨.readBody can, fun inv _ => Conn.pollReadBody_mutters inv can⟩
      dsimp only
      split
      · exact .of_murmurs read rfl rfl rfl rfl
      · exact .of_murmurs read rfl rfl rfl rfl
      · exact .of_murmurs read rfl rfl rfl rfl
      · exact .of_murmurs read rfl rfl rfl rfl
  · exact .of_same rfl rfl rfl rfl rfl

theorem stepReading_silent (w : World) (left : Nat) :
    w.Silent (w.stepReading left) ∨ ∃ id msg, w.conn.canReadHead = true ∧ w.callback = some id ∧
      w.conn.pollReadHead.1 = .ready (some (.ok msg)) ∧
      w.stepReading left = recvHead { w with conn := w.conn.pollReadHead.2 } left msg := by
  unfold stepReading
  split
  · exact .inl (.of_same rfl rfl rfl rfl rfl)
  split
  · next can =>
    refine (pollReadHead_silent can left).imp_right ?_
    rintro ⟨id, msg, found⟩
    exact ⟨id, msg, can, found⟩
  split
  · next j _ =>
    obtain ⟨conn, successes, written, bodyOf, callback⟩ := pollReadStream_silent { w with bodyTx := none } left j
    exact .inl ⟨conn, successes, written, bodyOf, callback⟩
  · have looked : w.Silent { w with conn := w.conn.pollReadKeepAlive.2 } :=
      .of_murmurs ⟨.readKeepAlive, fun _ _ => w.conn.pollReadKeepAlive_mutters⟩ rfl rfl rfl rfl
    left
    dsimp only
    split
    · exact looked.trans (fail_silent _ _)
    · exact looked.trans (.of_same rfl rfl rfl rfl rfl)

theorem stepSending_silent (w : World) (left j : Nat) (frame : Frame) : w.Silent (w.stepSending left j frame) := by
  unfold stepSending
  dsimp only
  split
  · exact .of_same rfl rfl rfl rfl rfl
  split
  · exact .of_murmurs ⟨.closeRead, fun _ _ => w.conn.closeRead_mutters⟩ rfl rfl rfl rfl
  · exact .of_same rfl rfl rfl rfl rfl

theorem endBody_silent {w : World} (can : w.conn.canWriteBody = true) (left : Nat) (again : Bool) :
    w.Silent (w.endBody left again) := by
  have ended : w.Silent { w with conn := w.conn.endBody.2 } :=
    .of_murmurs ⟨.endBody can, fun _ _ => (Conn.endBody_sends can).mutters can⟩ rfl rfl rfl rfl
  exact ended.trans (orFail_silent _ left again _)

theorem writeChunk_silent {w : World} (can : w.conn.canWriteBody = true) (left : Nat) (again : Bool) {chunk : Bytes}
    (small : chunk.length < 2 ^ 64) (eos : Bool) : w.Silent (w.writeChunk left again chunk eos) := by
  unfold writeChunk
  split
  · have taken : w.Silent { w with bodyRx := none } := .of_same rfl rfl rfl rfl rfl
    dsimp only
    split
    · refine taken.trans (endBody_silent ?_ left again)
      exact can
    · next ne =>
      exact .of_murmurs ⟨.writeBodyAndEnd can ne small, fun _ _ => (Conn.writeBodyAndEnd_sends can _).mutters can⟩
        rfl rfl rfl rfl
  split
  · exact .of_same rfl rfl rfl rfl rfl
  · next ne =>
    exact .of_murmurs ⟨.writeBody can ne small, fun _ _ => (Conn.writeBody_sends can _).mutters can⟩ rfl rfl rfl rfl

theorem writeUserBody_silent (w : World) (left : Nat) (again : Bool) (body : UserBody) :
    w.Silent (w.writeUserBody left again body) := by
  unfold writeUserBody
  split
  · exact .of_same rfl rfl rfl rfl rfl
  · next can =>
    have can : w.conn.canWriteBody = true := by simpa using can
    have small := body.pollFrame_small
    have taken (bodyRx : Option UserBody) : w.Silent { w with bodyRx } := .of_same rfl rfl rfl rfl rfl
    dsimp only
    split
    · exact (taken _).trans (endWrite_silent _ _ _ _)
    · exact (taken _).trans (fail_silent _ _)
    · refine (taken none).trans (endBody_silent ?_ left again)
      exact can
    · next chunk data =>
      rw [data] at small
      refine (taken _).trans (writeChunk_silent ?_ left again small _)
      exact can
    · exact .of_murmurs ⟨.writeTrailers can, fun _ _ => (Conn.writeTrailers_sends can _).mutters can⟩ rfl rfl rfl rfl

theorem stepFlushing_silent (w : World) (left : Nat) (writeReady : Bool) : w.Silent (w.stepFlushing left writeReady) := by
  have flushed : w.Silent { w with conn := w.conn.pollFlush.2 } :=
    .of_murmurs ⟨.flush, fun _ _ => w.conn.pollFlush_mutters⟩ rfl rfl rfl rfl
  have looked : w.conn.pollFlush.2.Murmurs w.conn.pollFlush.2.wantsReadAgain.2 :=
    ⟨.readAgain, fun _ _ => .of_state rfl rfl rfl rfl rfl⟩
  have again : w.Silent { w with conn := w.conn.pollFlush.2.wantsReadAgain.2 } :=
    flushed.trans (.of_murmurs looked rfl rfl rfl rfl)
  unfold stepFlushing
  dsimp only
  split
  · exact flushed.trans (fail_silent _ _)
  split
  · exact again.trans (.of_same rfl rfl rfl rfl rfl)
  split
  · exact again.trans (.of_same rfl rfl rfl rfl rfl)
  · exact again.trans (.of_same rfl rfl rfl rfl rfl)

theorem complete_silent (w : World) (res : Dispatched) : w.Silent (w.complete res) := by
  have taken : w.Silent { w with conn := w.conn.takeError.2 } :=
    .of_murmurs ⟨.takeError, fun _ _ => .of_state rfl rfl rfl rfl rfl⟩ rfl rfl rfl rfl
  unfold complete
  dsimp only
  split
  · exact taken.trans (fail_silent _ _)
  · exact taken.trans (.of_same rfl rfl rfl rfl rfl)

theorem stepInner_silent (w : World) : w.Silent w.stepInner := by
  have upgrade : w.Silent { w with conn := w.conn.pendingUpgrade.2 } :=
    .of_murmurs ⟨.pendingUpgrade, fun _ _ => .of_state rfl rfl rfl rfl rfl⟩ rfl rfl rfl rfl
  have shut : w.Silent { w with conn := w.conn.pendingUpgrade.2.pollShutdown.2 } := by
    refine upgrade.trans (.of_murmurs ⟨.shutdown, fun _ _ => ?_⟩ rfl rfl rfl rfl)
    exact .of_state rfl (Conn.pollShutdown_unread _) rfl rfl rfl
  unfold stepInner
  split
  · dsimp only
    split
    · exact upgrade.trans (complete_silent _ _)
    split
    · split
      · exact shut.trans (.of_same rfl rfl rfl rfl rfl)
      · exact shut.trans (fail_silent _ _)
      · exact shut.trans (complete_silent _ _)
    · exact upgrade.trans (complete_silent _ _)
  · exact .of_same rfl rfl rfl rfl rfl

/-! ### Requests -/

theorem PolledMsg.silent {w v : World} {left : Nat} {again : Bool} (polled : w.PolledMsg left again v) :
    w.Silent v ∨ ∃ id req rest, w.chan.queue = (id, req) :: rest ∧ v = w.takeRequest left again id req rest := by
  have closed {v : World} (h : w.Silent v) : w.Silent (v.close.endWrite left again true) :=
    (h.trans v.close_silent).trans (endWrite_silent _ _ _ _)
  cases polled with
  | canceled => exact .inl (closed ⟨.refl, successes_answer_error _ _ _, rfl, rfl, .inl rfl⟩)
  | taken front => exact .inr ⟨_, _, _, front, rfl⟩
  | ended =>
    left
    apply closed
    exact .of_same rfl rfl rfl rfl rfl
  | waits => exact .inl (.of_same rfl rfl rfl rfl rfl)

theorem stepWriting_silent {w : World} {left : Nat} {again : Bool} (phase : w.phase = .writing left again) :
    w.Silent (w.stepWriting left again) ∨
      ∃ id req rest, w.TakesRequest left again id req rest ∧
        w.stepWriting left again = w.takeRequest left again id req rest := by
  have flushed : w.Silent { w with conn := w.conn.pollFlush.2 } :=
    .of_murmurs ⟨.flush, fun _ _ => w.conn.pollFlush_mutters⟩ rfl rfl rfl rfl
  generalize w.stepWriting left again = v, w.stepWriting_round left again = round
  cases round with
  | closing => exact .inl (endWrite_silent w _ _ _)
  | polled opened bodyRx can callback polled =>
    refine polled.silent.imp_right ?_
    rintro ⟨id, req, rest, front, eq⟩
    exact ⟨id, req, rest, ⟨phase, opened, bodyRx, can, callback, front⟩, eq⟩
  | blocked => exact .inl (flushed.trans (endWrite_silent _ _ _ _))
  | flushed => exact .inl (flushed.trans (orFail_silent _ _ _ _))
  | userBody => exact .inl (w.writeUserBody_silent _ _ _)
  | bodyDone _ can => exact .inl (endBody_silent can left again)
  | nothing => exact .inl (endWrite_silent w _ _ _)

/-- What an action of the system hands out and takes. -/
inductive Deals (w v : World) : Prop where
  | silent (silent : w.Silent v)
  | head {left id : Nat} {msg : ParsedMessage} (live : w.phase ≠ .gone) (can : w.conn.canReadHead = true)
      (callback : w.callback = some id) (found : w.conn.pollReadHead.1 = .ready (some (.ok msg)))
      (eq : v = recvHead { w with conn := w.conn.pollReadHead.2 } left msg)
  | request {left : Nat} {again : Bool} {id : Nat} {req : Request} {rest : List (Nat × Request)}
      (takes : w.TakesRequest left again id req rest) (eq : v = w.takeRequest left again id req rest)

theorem act_deals (w : World) (a : Action) : w.Deals (w.act a) := by
  have chanOnly {chan : Dispatch.Channel Request Response} (same : chan.successes = w.chan.successes) :
      w.Deals { w with chan } := .silent ⟨.refl, same, rfl, rfl, .inl rfl⟩
  cases a with
  | poll =>
    rw [act]
    split
    · exact .silent (.of_same rfl rfl rfl rfl rfl)
    · exact .silent (.refl w)
  | step =>
    rw [act, step]
    split
    · next left phase =>
      obtain silent | ⟨id, msg, can, callback, found, eq⟩ := w.stepReading_silent left
      · exact .silent silent
      · exact .head (by simp [phase]) can callback found eq
    · exact .silent (w.stepSending_silent _ _ _)
    · next left again phase =>
      obtain silent | ⟨id, req, rest, takes, eq⟩ := stepWriting_silent phase
      · exact .silent silent
      · exact .request takes eq
    · next left again _ =>
      have wants : w.Silent { w with chan := w.chan.want } := ⟨.refl, rfl, rfl, rfl, .inl rfl⟩
      exact .silent (wants.trans (endWrite_silent _ left again false))
    · exact .silent (w.stepFlushing_silent _ _)
    · exact .silent w.stepInner_silent
    · exact .silent (.refl w)
    · exact .silent (.refl w)
    · exact .silent (.refl w)
  | drop =>
    rw [act]
    split
    · exact .silent (w.drop_silent false)
    · exact .silent (w.drop_silent false)
    · exact .silent (.refl w)
  | give req =>
    apply chanOnly
    unfold Dispatch.Channel.give
    split
    · rfl
    split
    · rfl
    · rfl
  | push =>
    apply chanOnly
    unfold Dispatch.Channel.push Dispatch.Channel.send
    split
    · dsimp only
      split
      · rfl
      · rfl
    · rfl
  | dropSender =>
    apply chanOnly
    unfold Dispatch.Channel.dropSender
    split
    · rfl
    · rfl
  | cancel id => exact chanOnly rfl
  | pollFrame | dropBody => exact .silent (.of_same rfl rfl rfl rfl rfl)

/-! ### Who is answered -/

/-- The `k`-th response has gone to the caller of the `k`-th request, and the channel of its body is one for it. -/
structure AnswersTo (w : World) (msgs : List ParsedMessage) (k id : Nat) (res : Response) : Prop where
  caller : w.written[k]? = some id
  head : ∃ msg, msgs[k]? = some msg ∧ res.head = msg.head ∧ (res.body = none ↔ msg.decode = .ZERO)
  body : ∀ j, res.body = some j → w.bodyOf[j]? = some k

omit [Httparse] in
theorem AnswersTo.later {w v : World} {msgs msgs' : List ParsedMessage} {k id : Nat} {res : Response}
    (h : w.AnswersTo msgs k id res) (front : msgs <+: msgs') (written : w.written <+: v.written) (bodyOf : w.bodyOf <+: v.bodyOf) :
    v.AnswersTo msgs' k id res := by
  have kept {α : Type} {xs ys : List α} {i : Nat} {x : α} (front : xs <+: ys) (there : xs[i]? = some x) : ys[i]? = some x := by
    obtain ⟨rest, rfl⟩ := front
    rw [List.getElem?_append_left (List.getElem?_eq_some_iff.mp there).1]
    exact there
  obtain ⟨msg, there, head, body⟩ := h.head
  exact ⟨kept written h.caller, ⟨msg, kept front there, head, body⟩, fun j channel => kept bodyOf (h.body j channel)⟩

/-- What holds between the actions of a run. -/
structure Answering (opts : Http1Options) (text : Bytes) (w : World) (msgs : List ParsedMessage) : Prop where
  heard : w.conn.Heard opts text msgs
  written : w.phase = .gone ∨ w.written.length = w.conn.log.length
  caller : ∀ id, w.callback = some id → w.written.getLast? = some id
  count : w.chan.successes.length = msgs.length
  each : ∀ k id res, w.chan.successes[k]? = some (id, res) → w.AnswersTo msgs k id res

variable {opts : Http1Options} {text : Bytes} {w v : World} {msgs : List ParsedMessage}

theorem Answering.silent (h : w.Answering opts text msgs) (silent : w.Silent v) (gone : w.phase = .gone → v.phase = .gone) :
    v.Answering opts text msgs := by
  obtain ⟨heard, length⟩ := h.heard.calls silent.conn
  refine ⟨heard, ?_, ?_, ?_, ?_⟩
  · rw [silent.written, length]
    exact h.written.imp_left gone
  · intro id callback
    rw [silent.written]
    rcases silent.callback with same | none
    · exact h.caller id (same.symm.trans callback)
    · exact absurd (none.symm.trans callback) nofun
  · rw [silent.successes]
    exact h.count
  · intro k id res there
    rw [silent.successes] at there
    exact (h.each k id res there).later List.prefix_rfl (silent.written ▸ List.prefix_rfl) (silent.bodyOf ▸ List.prefix_rfl)

omit [Httparse] in
/-- A head goes to the callback, with the channel of its body. -/
theorem recvHead_spec {id : Nat} (left : Nat) (msg : ParsedMessage) (callback : w.callback = some id) :
    let body := if msg.decode = .ZERO then none else some w.bodies.length
    let v := w.recvHead left msg
    v.conn = (if msg.wantsUpgrade then w.conn.onUpgrade else w.conn) ∧ v.callback = none ∧ v.written = w.written ∧
      v.chan = w.chan.answer id (.ok { head := msg.head, body }) ∧
      v.bodyOf = if msg.decode = .ZERO then w.bodyOf else w.bodyOf ++ [w.conn.log.length - 1] := by
  unfold recvHead openBody setBodyTx
  dsimp only
  by_cases zero : msg.decode = .ZERO
  · simp [zero, callback]
  · simp only [zero, if_false, callback]
    cases w.bodyTx with
    | none => exact ⟨rfl, rfl, rfl, rfl, rfl⟩
    | some old => exact ⟨rfl, rfl, rfl, rfl, rfl⟩

theorem Answering.head (h : w.Answering opts text msgs) (lengths : w.bodyOf.length = w.bodies.length) {id : Nat}
    (live : w.phase ≠ .gone) (can : w.conn.canReadHead = true) (callback : w.callback = some id) {msg : ParsedMessage}
    (found : w.conn.pollReadHead.1 = .ready (some (.ok msg))) (left : Nat) :
    (recvHead { w with conn := w.conn.pollReadHead.2 } left msg).Answering opts text (msgs ++ [msg]) := by
  obtain ⟨heard, length, waiting⟩ := h.heard.head can found
  obtain ⟨conn, callback', written, chan, bodyOf⟩ :=
    recvHead_spec (w := { w with conn := w.conn.pollReadHead.2 }) left msg callback
  generalize recvHead { w with conn := w.conn.pollReadHead.2 } left msg = v at conn callback' written chan bodyOf ⊢
  have upgraded : v.conn.Heard opts text (msgs ++ [msg]) ∧ v.conn.log.length = w.conn.log.length := by
    rw [conn]
    split
    · have murmurs : w.conn.pollReadHead.2.Murmurs w.conn.pollReadHead.2.onUpgrade :=
        ⟨.onUpgrade, fun _ _ => .of_state rfl rfl rfl rfl rfl⟩
      exact ⟨heard.murmurs murmurs, length⟩
    · exact ⟨heard, length⟩
  have before : w.written.length = w.conn.log.length := h.written.resolve_left live
  have successes : v.chan.successes =
      w.chan.successes ++ [(id, ⟨msg.head, if msg.decode = .ZERO then none else some w.bodies.length⟩)] :=
    (congrArg Dispatch.Channel.successes chan).trans (successes_answer_ok _ _ _)
  have last : w.written[msgs.length]? = some id := by
    have caller := h.caller id callback
    rw [List.getLast?_eq_getElem?, before] at caller
    rwa [show msgs.length = w.conn.log.length - 1 by omega]
  refine ⟨upgraded.1, .inr ?_, ?_, ?_, ?_⟩
  · rw [written, upgraded.2]
    exact before
  · intro id' callback
    exact absurd (callback'.symm.trans callback) nofun
  · rw [successes, List.length_append, List.length_append, h.count]
    rfl
  · intro k id' res there
    rw [successes, List.getElem?_append] at there
    split at there
    · refine (h.each k id' res there).later (List.prefix_append _ _) (written ▸ List.prefix_rfl) ?_
      rw [bodyOf]
      split
      · exact List.prefix_rfl
      · exact List.prefix_append _ _
    · next behind =>
      obtain ⟨inside, same⟩ := List.getElem?_eq_some_iff.mp there
      rw [List.length_singleton] at inside
      obtain rfl : k = msgs.length := by
        have := h.count
        omega
      obtain ⟨rfl, rfl⟩ := Prod.mk.inj ((List.getElem_singleton ..).symm.trans same)
      refine ⟨written ▸ last, ⟨msg, List.getElem?_concat_length, rfl, ?_⟩, ?_⟩
      · dsimp only
        split
        · next zero => simp [zero]
        · next nonzero => simp [nonzero]
      · intro j body
        dsimp only at body
        split at body
        · cases body
        · next nonzero =>
          cases body
          rw [bodyOf, if_neg nonzero, length, ← lengths, List.getElem?_concat_length]
          congr 1
          omega

/-- A request whose head is written has the callback. Where encoding it panics, nobody has. -/
theorem takeRequest_spec (w : World) (left : Nat) (again : Bool) (id : Nat) (req : Request) (rest : List (Nat × Request)) :
    let v := w.takeRequest left again id req rest
    v.written = w.written ++ [id] ∧ v.bodyOf = w.bodyOf ∧ v.chan.successes = w.chan.successes ∧
      ((∃ conn, w.conn.writeHead req.head req.body.bodyType = some conn ∧ v.conn = conn ∧ v.callback = some id) ∨
        v.conn = w.conn ∧ v.phase = .gone ∧ v.callback = none) := by
  unfold takeRequest writeRequest
  dsimp only
  split
  · next conn wrote => exact ⟨rfl, rfl, rfl, .inl ⟨conn, wrote, rfl, rfl⟩⟩
  · generalize taken : World.mk .. = u
    have facts : u.conn = w.conn ∧ u.written = w.written ++ [id] ∧ u.bodyOf = w.bodyOf ∧
        u.chan.successes = w.chan.successes := by
      rw [← taken]
      exact ⟨rfl, rfl, rfl, rfl⟩
    obtain ⟨conn, written, bodyOf, successes⟩ := facts
    have silent := u.drop_silent true
    obtain ⟨chan, bodies, eq⟩ := u.drop_eq true
    refine ⟨silent.written.trans written, silent.bodyOf.trans bodyOf, silent.successes.trans successes, .inr ?_⟩
    rw [eq]
    exact ⟨conn, rfl, rfl⟩

theorem Answering.request (h : w.Answering opts text msgs) {left : Nat} {again : Bool} {id : Nat} {req : Request}
    {rest : List (Nat × Request)} (takes : w.TakesRequest left again id req rest) :
    (w.takeRequest left again id req rest).Answering opts text msgs := by
  have before : w.written.length = w.conn.log.length := h.written.resolve_left (by simp [takes.phase])
  obtain ⟨written, bodyOf, successes, outcome⟩ := w.takeRequest_spec left again id req rest
  generalize w.takeRequest left again id req rest = v at written bodyOf successes outcome ⊢
  have count : v.chan.successes.length = msgs.length := by
    rw [successes]
    exact h.count
  have each : ∀ k id res, v.chan.successes[k]? = some (id, res) → v.AnswersTo msgs k id res := by
    intro k id' res there
    rw [successes] at there
    exact (h.each k id' res there).later List.prefix_rfl (written ▸ List.prefix_append _ _) (bodyOf ▸ List.prefix_rfl)
  obtain ⟨conn, wrote, same, callback⟩ | ⟨same, gone, none⟩ := outcome
  · obtain ⟨heard, length⟩ := h.heard.writeHead takes.can (fun _ => UserBody.bodyType_small) wrote
    refine ⟨same ▸ heard, .inr ?_, ?_, count, each⟩
    · rw [written, List.length_append, List.length_singleton, before, same, length]
    · intro id' there
      cases callback.symm.trans there
      rw [written, List.getLast?_concat]
  · refine ⟨same ▸ h.heard, .inl gone, ?_, count, each⟩
    intro id' there
    exact absurd (none.symm.trans there) nofun

theorem Answering.act (h : w.Answering opts text msgs) (lengths : w.bodyOf.length = w.bodies.length) (a : Action) :
    ∃ msgs', (w.act a).Answering opts text msgs' := by
  cases w.act_deals a with
  | silent silent => exact ⟨msgs, h.silent silent fun gone => act_gone gone a⟩
  | head live can callback found eq =>
    rw [eq]
    exact ⟨_, h.head lengths live can callback found _⟩
  | request takes eq =>
    rw [eq]
    exact ⟨msgs, h.request takes⟩

theorem run_answering (opts : Http1Options) (io : Transport) (actions : List Action) :
    ∃ msgs, ((new opts io).run actions).Answering opts (io.reads.flatMap ReadEvent.bytes) msgs := by
  induction actions using List.reverseRecOn with
  | nil => exact ⟨[], Conn.handshake_heard opts io, .inr rfl, nofun, rfl, nofun⟩
  | append_singleton actions a ih =>
    obtain ⟨msgs, answering⟩ := ih
    have delivers := run_delivers (Conn.handshake_inv opts io) (Conn.handshake_fresh opts io) (new_delivers opts io) actions
    obtain ⟨held, streams, -⟩ := delivers.streams
    rw [run_append]
    exact answering.act streams.lengths a

/-! ### The transcript of a run -/

/-- The responses of a run, with what its users see of them. -/
structure Transcript (opts : Http1Options) (text : Bytes) (w : World) (replies : List Reply) (part : List ParsedMessage)
    (left : Bytes) : Prop where
  /-- The bytes begin with whole responses, one behind the other. -/
  told : Replies opts replies text left
  /-- These are what was read for the first requests. Of the response to the next one there is a part. -/
  history : ∃ earlier latest, w.conn.log = earlier ++ latest ∧ List.Forall₂ Reply.Answers replies earlier ∧
    w.conn.Latest opts left latest part
  /-- Each head has been handed out, in this order, and nothing else. -/
  count : w.chan.successes.length = (replies.map Reply.msg ++ part).length
  each : ∀ k id res, w.chan.successes[k]? = some (id, res) → w.AnswersTo (replies.map Reply.msg ++ part) k id res
  /-- Who comes to the end of a body has seen what its bytes carry. -/
  bodies : ∀ (j : Nat) (b : Incoming), w.bodies[j]? = some b → Incoming.endsCleanly b.observed = true →
    ∃ (k : Nat) (r : Reply), w.bodyOf[j]? = some k ∧ replies[k]? = some r ∧ Incoming.framesSeen b.observed = shown r.frames

/-- What the callers of a connection get is what the bytes of its transport say, wherever these are cut, and whatever the
order of what everybody does. The bytes begin with whole responses, each right behind the one before and in the framing of
its own head, and perhaps a part of one more. The `k`-th of them goes to the caller whose request was written as the `k`-th,
and who comes to the end of its body has been given what the bytes of that body carry. -/
theorem run_transcript (opts : Http1Options) (io : Transport) (actions : List Action) :
    ∃ replies part left,
      Transcript opts (io.reads.flatMap ReadEvent.bytes) ((new opts io).run actions) replies part left := by
  obtain ⟨msgs, answering⟩ := run_answering opts io actions
  obtain ⟨replies, left, earlier, latest, part, told, log, answers, reading, rfl⟩ := answering.heard.tells
  refine ⟨replies, part, left, told, ⟨earlier, latest, log, answers, reading⟩, answering.count, answering.each, ?_⟩
  intro j b body clean
  obtain ⟨k, x, exchange, there, serves, -⟩ := run_body opts io actions body
  have ended := Incoming.ended_of_endsCleanly clean
  have whole : x.decoderEof = true ∧ Incoming.framesSeen b.observed = shown x.decoded := by
    rcases serves with ⟨_, opened⟩ | closed
    · exact absurd ended (opened.ends.unended opened.tx)
    · obtain ⟨eof, -, frames⟩ | ⟨dirty, -⟩ := closed.observed ended
      · exact ⟨eof, frames⟩
      · exact absurd (dirty.symm.trans clean) nofun
  obtain ⟨eof, frames⟩ := whole
  rw [log, List.getElem?_append] at there
  split at there
  · next inside =>
    have known : k < replies.length := answers.length_eq ▸ inside
    have answer : (replies[k]).Answers x := by
      obtain ⟨_, same⟩ := List.getElem?_eq_some_iff.mp there
      rw [← same]
      exact answers.get known inside
    exact ⟨k, replies[k], exchange, List.getElem?_eq_getElem known, frames.trans (congrArg shown answer.decoded)⟩
  · exact absurd ((reading.unended (List.mem_of_getElem? there)).symm.trans eof) nofun

end World

end Hwire.Http1
