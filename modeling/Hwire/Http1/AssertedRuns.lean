import Hwire.Http1.AssertedCalls

/-!
# Runs keep every assertion

What the dispatcher asserts, on its own and through its connection, step by step over whole runs.
-/

namespace Hwire.Http1
open Lib

/-! ### The dispatcher -/

/-- A version that can be written on a request line. -/
def Request.Supported (req : Request) : Prop :=
  req.head.version = .http10 ∨ req.head.version = .http11 ∨ req.head.version = .http2

theorem Request.Supported.versionText {req : Request} (supported : req.Supported) :
    Client.versionText req.head.version ≠ none := by
  rcases supported with version | version | version
  · rw [version]; exact nofun
  · rw [version]; exact nofun
  · rw [version]; exact nofun

namespace World

section Asserts

variable [Httparse]

def PollReadHeadAsserts (w : World) : Prop :=
  match w.callback with
  | none => True
  | some id =>
    if w.chan.isCanceled id then True
    else
      w.conn.PollReadHeadAsserts ∧
        match w.conn.pollReadHead with
        | (.ready (some (.ok msg)), conn) =>
          msg.wantsUpgrade = true → conn.onUpgrade.state.upgrade = true ∧ msg.head.extensions.onUpgrade = false
        | (.ready none, conn) => conn.isReadClosed = true
        | _ => True

def PollReadAsserts (w : World) : Prop :=
  if w.isClosing then True
  else if w.conn.canReadHead then w.PollReadHeadAsserts
  else
    match w.bodyTx with
    | some j =>
      if w.conn.canReadBody then
        match (w.bodies[j]?.map Body.Incoming.pollReady).getD .pending with
        | .pending => True
        | .ready (.error _) => w.conn.PollDrainOrCloseReadAsserts
        | .ready (.ok ()) => w.conn.PollReadBodyAsserts
      else True
    | none => w.conn.PollReadKeepAliveAsserts

/-- `Client::poll_msg`, and `write_head` where it returns a request -/
def PollMsgAsserts (w : World) : Prop :=
  w.rxClosed = false ∧
    match w.chan.pollRecv with
    | (.ready (some (id, req)), chan) =>
      if chan.isCanceled id then True else w.conn.WriteHeadAsserts req.head req.body.bodyType
    | _ => True

def WriteUserBodyAsserts (w : World) (body : UserBody) : Prop :=
  if !w.conn.canWriteBody then True
  else
    match body.pollFrame with
    | (.frame (.data chunk), eos, _) =>
      if eos then if chunk = [] then w.conn.EndBodyAsserts else w.conn.WriteBodyAndEndAsserts chunk
      else if chunk = [] then True
      else w.conn.WriteBodyAsserts chunk
    | (.frame (.trailers t), _, _) => w.conn.WriteTrailersAsserts t
    | (.none, _, _) => w.conn.EndBodyAsserts
    | _ => True

def PollWriteAsserts (w : World) : Prop :=
  if w.isClosing then True
  else if w.bodyRx.isNone && w.conn.canWriteHead && w.shouldPoll then w.PollMsgAsserts
  else if !w.conn.canBufferBody then w.conn.PollFlushAsserts
  else
    match w.bodyRx with
    | some body => w.WriteUserBodyAsserts body
    | none => if w.conn.canWriteBody then w.conn.EndBodyAsserts else True

/-- What the next step of the task asserts. -/
def StepAsserts (w : World) : Prop :=
  match w.phase with
  | .reading _ => w.PollReadAsserts
  | .writing _ _ => w.PollWriteAsserts
  | .flushing _ _ => w.conn.PollFlushAsserts
  | .sending _ _ _ | .wanting _ _ | .inner | .parked | .finished _ | .gone => True

theorem pollReadHead_asserts {w : World} (can : w.conn.canReadHead = true) : w.PollReadHeadAsserts := by
  unfold PollReadHeadAsserts
  split
  · trivial
  split
  · trivial
  refine ⟨Conn.pollReadHead_asserts can, ?_⟩
  obtain ⟨-, eq⟩ | ⟨e, -, eq⟩ | ⟨msg, trailers, found, -, res, -⟩ := w.conn.pollReadHead_cases
  · rw [eq]
    trivial
  · rw [eq]
    have closed := (w.conn.withParse.onReadHeadError_closes e).2
    cases (w.conn.withParse.onReadHeadError e).1 with
    | none => simp [Conn.isReadClosed, State.isReadClosed, closed]
    | some err => trivial
  · rw [show w.conn.pollReadHead = (w.conn.pollReadHead.1, w.conn.pollReadHead.2) from rfl, res]
    exact fun _ => ⟨rfl, found.upgrade⟩

theorem pollRead_asserts {w : World} (inv : w.conn.Inv) (sound : w.conn.Sound) (reads : w.Reads) : w.PollReadAsserts := by
  unfold PollReadAsserts
  split
  · trivial
  split
  · next can => exact pollReadHead_asserts can
  next head =>
  have head : w.conn.canReadHead = false := by simpa using head
  split
  · split
    · next can =>
      split
      · trivial
      · exact Conn.pollDrainOrCloseRead_asserts inv sound can
      · exact Conn.pollReadBody_asserts inv sound can
    · trivial
  · next free =>
    refine Conn.pollReadKeepAlive_asserts head ?_
    cases body : w.conn.canReadBody with
    | false => rfl
    | true => exact absurd free (reads.body body)

omit [Httparse] in
theorem writeUserBody_asserts {w : World} (sound : w.conn.Sound) (buffers : w.conn.canBufferBody = true)
    (body : UserBody) : w.WriteUserBodyAsserts body := by
  have small := body.pollFrame_small
  unfold WriteUserBodyAsserts
  split
  · trivial
  next can =>
  have can : w.conn.canWriteBody = true := by simpa using can
  split
  · next chunk eos body frame =>
    rw [frame] at small
    split
    · split
      · exact Conn.endBody_asserts sound can
      · next ne => exact Conn.writeBodyAndEnd_asserts sound can buffers ne small
    split
    · trivial
    · next ne => exact Conn.writeBody_asserts sound can buffers ne small
  · exact Conn.writeTrailers_asserts sound can buffers _
  · exact Conn.endBody_asserts sound can
  · trivial

/-- The receiver is not polled after its end, and only requests that can be written are taken from it. -/
structure Accepts (w : World) : Prop where
  closing : w.rxClosed = true → w.isClosing = true
  queue : ∀ env ∈ w.chan.queue, env.2.Supported
  pushing : ∀ req, w.chan.pushing = some req → req.Supported

omit [Httparse] in
theorem pollMsg_asserts {w : World} (sound : w.conn.Sound) (accepts : w.Accepts) (notClosing : w.isClosing = false)
    (can : w.conn.canWriteHead = true) : w.PollMsgAsserts := by
  refine ⟨?_, ?_⟩
  · cases rx : w.rxClosed with
    | false => rfl
    | true => exact absurd ((accepts.closing rx).symm.trans notClosing) nofun
  · split
    · next id req chan took =>
      split
      · trivial
      · refine Conn.writeHead_asserts sound can (Request.Supported.versionText ?_) _
        unfold Dispatch.Channel.pollRecv at took
        split at took
        · next rest front =>
          cases took
          exact accepts.queue (id, req) (front ▸ List.mem_cons_self)
        · split at took
          · cases took
          · cases took
    · trivial

omit [Httparse] in
theorem pollWrite_asserts {w : World} (sound : w.conn.Sound) (accepts : w.Accepts) : w.PollWriteAsserts := by
  unfold PollWriteAsserts
  split
  · trivial
  next notClosing =>
  split
  · next ready =>
    simp only [Bool.and_eq_true] at ready
    exact pollMsg_asserts sound accepts (by simpa using notClosing) ready.1.2
  split
  · exact Conn.pollFlush_asserts sound
  next buffers =>
  split
  · exact writeUserBody_asserts sound (by simpa using buffers) _
  split
  · next can => exact Conn.endBody_asserts sound can
  · trivial

theorem step_asserts {w : World} (inv : w.conn.Inv) (sound : w.conn.Sound) (delivers : w.Delivers) (accepts : w.Accepts) :
    w.StepAsserts := by
  unfold Delivers at delivers
  unfold StepAsserts
  split
  · next phase =>
    rw [phase] at delivers
    exact pollRead_asserts inv sound delivers
  · exact pollWrite_asserts sound accepts
  · exact Conn.pollFlush_asserts sound
  all_goals trivial

end Asserts

/-! ### Runs accept requests one by one -/

theorem Accepts.close {w : World} (h : w.Accepts) : w.close.Accepts := ⟨fun _ => rfl, h.queue, h.pushing⟩

theorem Accepts.recvErr {w : World} (h : w.Accepts) (e : Error) : (w.recvErr e).2.Accepts := by
  unfold World.recvErr
  split
  · exact ⟨h.closing, h.queue, h.pushing⟩
  split
  · dsimp only
    unfold Dispatch.Channel.tryRecv
    split
    · next took =>
      split at took
      · next front =>
        cases took
        exact ⟨h.closing, fun env later => h.queue env (front ▸ List.mem_cons_of_mem _ later), h.pushing⟩
      · cases took
    · next took =>
      split at took
      · cases took
      · cases took
        exact ⟨h.closing, h.queue, h.pushing⟩
  · exact h

theorem Accepts.fail {w : World} (h : w.Accepts) (e : Error) : (w.fail e).Accepts := by
  obtain ⟨bodies, aborted⟩ := abortBody_eq { w with raised := w.raised ++ [e] } (.newBody "connection error")
  have start : (World.abortBody { w with raised := w.raised ++ [e] } (.newBody "connection error")).Accepts := by
    rw [aborted]
    exact ⟨h.closing, h.queue, h.pushing⟩
  have told := start.recvErr e
  unfold World.fail
  split
  · next eq =>
    rw [eq] at told
    exact ⟨told.closing, told.queue, told.pushing⟩
  · next eq =>
    rw [eq] at told
    exact ⟨told.closing, told.queue, told.pushing⟩

theorem Accepts.drop {w : World} (h : w.Accepts) (panicking : Bool) : (w.drop panicking).Accepts := by
  have dropped {v : World} (h : v.Accepts) :
      Accepts { World.abortBody { v with chan := v.chan.dropReceiver } .newIncomplete with
        bodyRx := none, phase := .gone } := by
    obtain ⟨bodies, eq⟩ := abortBody_eq { v with chan := v.chan.dropReceiver } .newIncomplete
    rw [eq]
    exact ⟨h.closing, by simp [Dispatch.Channel.dropReceiver], h.pushing⟩
  unfold World.drop
  split
  · apply dropped
    exact ⟨h.closing, h.queue, h.pushing⟩
  · exact dropped h

theorem Accepts.endWrite {w : World} (h : w.Accepts) (left : Nat) (again ready : Bool) :
    (w.endWrite left again ready).Accepts := by
  obtain ⟨phase, eq⟩ := w.endWrite_eq left again ready
  rw [eq]
  exact ⟨h.closing, h.queue, h.pushing⟩

theorem Accepts.orFail {w : World} (h : w.Accepts) (left : Nat) (again : Bool) (res : Except Error Unit) :
    (w.orFail left again res).Accepts := by
  cases res with
  | ok => exact ⟨h.closing, h.queue, h.pushing⟩
  | error e => exact h.fail e

/-- A step that leaves the client side alone -/
theorem Accepts.same {w w' : World} (h : w.Accepts) (rxClosed : w'.rxClosed = w.rxClosed)
    (isClosing : w'.isClosing = w.isClosing) (chan : w'.chan = w.chan) : w'.Accepts :=
  ⟨by rw [rxClosed, isClosing]; exact h.closing, by rw [chan]; exact h.queue, by rw [chan]; exact h.pushing⟩

theorem Accepts.recvHead {w : World} (h : w.Accepts) (left : Nat) (msg : ParsedMessage) : (w.recvHead left msg).Accepts := by
  obtain ⟨bodyTx, bodies, bodyOf, eq⟩ := w.openBody_eq msg
  unfold World.recvHead
  rw [eq]
  dsimp only
  split
  · exact ⟨h.closing, h.queue, h.pushing⟩
  · split
    · apply Accepts.fail
      exact h.same rfl rfl rfl
    · apply Accepts.fail
      exact h.same rfl rfl rfl

theorem Accepts.stepSending {w : World} (h : w.Accepts) (left j : Nat) (frame : Frame) :
    (w.stepSending left j frame).Accepts := by
  unfold World.stepSending
  dsimp only
  split
  · exact h.same rfl rfl rfl
  split
  · exact h.same rfl rfl rfl
  · exact h.same rfl rfl rfl

theorem Accepts.endBody {w : World} (h : w.Accepts) (left : Nat) (again : Bool) : (w.endBody left again).Accepts := by
  unfold World.endBody
  apply Accepts.orFail
  exact h.same rfl rfl rfl

theorem Accepts.writeChunk {w : World} (h : w.Accepts) (left : Nat) (again : Bool) (chunk : Bytes) (eos : Bool) :
    (w.writeChunk left again chunk eos).Accepts := by
  unfold World.writeChunk
  split
  · dsimp only
    split
    · apply Accepts.endBody
      exact h.same rfl rfl rfl
    · exact h.same rfl rfl rfl
  split
  · exact h.same rfl rfl rfl
  · exact h.same rfl rfl rfl

theorem Accepts.writeUserBody {w : World} (h : w.Accepts) (left : Nat) (again : Bool) (body : UserBody) :
    (w.writeUserBody left again body).Accepts := by
  unfold World.writeUserBody
  split
  · exact h.same rfl rfl rfl
  · dsimp only
    split
    · apply Accepts.endWrite
      exact h.same rfl rfl rfl
    · apply Accepts.fail
      exact h.same rfl rfl rfl
    · apply Accepts.endBody
      exact h.same rfl rfl rfl
    · apply Accepts.writeChunk
      exact h.same rfl rfl rfl
    · exact h.same rfl rfl rfl

theorem Accepts.writeRequest {w : World} (h : w.Accepts) (left : Nat) (again : Bool) (id : Nat) (req : Request) :
    (w.writeRequest left again id req).Accepts := by
  unfold World.writeRequest
  dsimp only
  split
  · exact h.same rfl rfl rfl
  · apply Accepts.drop
    exact h.same rfl rfl rfl

theorem Accepts.pollMsg {w : World} (h : w.Accepts) (left : Nat) (again : Bool) : (w.pollMsg left again).Accepts := by
  unfold World.pollMsg Dispatch.Channel.pollRecv
  cases front : w.chan.queue with
  | cons env rest =>
    have taken : Accepts { w with chan := { w.chan with queue := rest } } :=
      ⟨h.closing, fun env later => h.queue env (front ▸ List.mem_cons_of_mem _ later), h.pushing⟩
    dsimp only
    split
    · refine Accepts.endWrite (Accepts.close ?_) left again true
      exact ⟨taken.closing, taken.queue, taken.pushing⟩
    · exact taken.writeRequest left again env.1 env.2
  | nil =>
    by_cases ended : (w.chan.closed || decide (w.chan.senders = 0)) = true
    · simp only [ended, if_true]
      refine Accepts.endWrite ?_ left again true
      exact ⟨fun _ => rfl, h.queue, h.pushing⟩
    · simp only [ended]
      exact h.same rfl rfl rfl

theorem Accepts.stepWriting {w : World} (h : w.Accepts) (left : Nat) (again : Bool) :
    (w.stepWriting left again).Accepts := by
  unfold World.stepWriting
  split
  · exact h.endWrite left again true
  split
  · exact h.pollMsg left again
  split
  · dsimp only
    split
    · apply Accepts.endWrite
      exact h.same rfl rfl rfl
    · apply Accepts.orFail
      exact h.same rfl rfl rfl
  split
  · exact h.writeUserBody left again _
  split
  · exact h.endBody left again
  · exact h.endWrite left again false

theorem Accepts.stepFlushing {w : World} (h : w.Accepts) (left : Nat) (writeReady : Bool) :
    (w.stepFlushing left writeReady).Accepts := by
  unfold World.stepFlushing
  dsimp only
  split
  · apply Accepts.fail
    exact h.same rfl rfl rfl
  split
  · exact h.same rfl rfl rfl
  split
  · exact h.same rfl rfl rfl
  · exact h.same rfl rfl rfl

theorem Accepts.complete {w : World} (h : w.Accepts) (res : Dispatched) : (w.complete res).Accepts := by
  unfold World.complete
  dsimp only
  split
  · apply Accepts.fail
    exact h.same rfl rfl rfl
  · exact h.same rfl rfl rfl

theorem Accepts.stepInner {w : World} (h : w.Accepts) : w.stepInner.Accepts := by
  unfold World.stepInner
  split
  · dsimp only
    split
    · apply Accepts.complete
      exact h.same rfl rfl rfl
    split
    · split
      · exact h.same rfl rfl rfl
      · apply Accepts.fail
        exact h.same rfl rfl rfl
      · apply Accepts.complete
        exact h.same rfl rfl rfl
    · apply Accepts.complete
      exact h.same rfl rfl rfl
  · exact h.same rfl rfl rfl

variable [Httparse]

theorem Accepts.pollReadHead {w : World} (h : w.Accepts) (left : Nat) : (w.pollReadHead left).Accepts := by
  unfold World.pollReadHead
  split
  · exact h.close.same rfl rfl rfl
  split
  · exact h.close.same rfl rfl rfl
  have read : Accepts { w with conn := w.conn.pollReadHead.2 } := h.same rfl rfl rfl
  dsimp only
  split
  · exact h.same rfl rfl rfl
  · exact read.recvHead left _
  · next e _ =>
    have told := read.recvErr e
    split
    · next eq =>
      rw [eq] at told
      exact told.close.same rfl rfl rfl
    · next eq =>
      rw [eq] at told
      exact told.fail e
  · split
    · exact read.close.same rfl rfl rfl
    · exact h.same rfl rfl rfl

theorem Accepts.pollReadStream {w : World} (h : w.Accepts) (left j : Nat) : (w.pollReadStream left j).Accepts := by
  unfold World.pollReadStream
  split
  · split
    · exact h.same rfl rfl rfl
    · exact h.same rfl rfl rfl
    · dsimp only
      split
      · exact h.same rfl rfl rfl
      · exact h.same rfl rfl rfl
      · exact h.same rfl rfl rfl
      · exact h.same rfl rfl rfl
  · exact h.same rfl rfl rfl

theorem Accepts.stepReading {w : World} (h : w.Accepts) (left : Nat) : (w.stepReading left).Accepts := by
  unfold World.stepReading
  split
  · exact h.same rfl rfl rfl
  split
  · exact h.pollReadHead left
  split
  · apply Accepts.pollReadStream
    exact h.same rfl rfl rfl
  · dsimp only
    split
    · apply Accepts.fail
      exact h.same rfl rfl rfl
    · exact h.same rfl rfl rfl

theorem Accepts.step {w : World} (h : w.Accepts) : w.step.Accepts := by
  unfold World.step
  split
  · exact h.stepReading _
  · exact h.stepSending _ _ _
  · exact h.stepWriting _ _
  · unfold stepWanting
    apply Accepts.endWrite
    exact ⟨h.closing, h.queue, h.pushing⟩
  · exact h.stepFlushing _ _
  · exact h.stepInner
  · exact h
  · exact h
  · exact h

omit [Httparse] in
theorem Accepts.give {w : World} (h : w.Accepts) {req : Request} (supported : req.Supported) :
    Accepts { w with chan := w.chan.give req } := by
  unfold Dispatch.Channel.give
  split
  · exact h
  split
  · refine ⟨h.closing, h.queue, ?_⟩
    intro other same
    obtain rfl := Option.some.inj same
    exact supported
  · exact h

omit [Httparse] in
theorem Accepts.push {w : World} (h : w.Accepts) : Accepts { w with chan := w.chan.push } := by
  unfold Dispatch.Channel.push
  split
  · next req pushing =>
    unfold Dispatch.Channel.send
    split
    · exact ⟨h.closing, h.queue, by simp⟩
    · refine ⟨h.closing, ?_, by simp⟩
      intro env member
      rcases List.mem_append.mp member with earlier | last
      · exact h.queue env earlier
      · rw [List.mem_singleton.mp last]
        exact h.pushing req pushing
  · exact h

omit [Httparse] in
theorem Accepts.dropSender {w : World} (h : w.Accepts) : Accepts { w with chan := w.chan.dropSender } := by
  unfold Dispatch.Channel.dropSender
  split
  · exact h
  · exact ⟨h.closing, h.queue, h.pushing⟩

/-- The requests of a run have a version that can be written. -/
def Action.Supported : Action → Prop
  | .give req => req.Supported
  | _ => True

theorem Accepts.act {w : World} (h : w.Accepts) {a : Action} (supported : a.Supported) : (w.act a).Accepts := by
  cases a with
  | poll =>
    rw [World.act]
    split
    · exact h.same rfl rfl rfl
    · exact h
  | step => exact h.step
  | drop =>
    rw [World.act]
    split
    · exact h.drop false
    · exact h.drop false
    · exact h
  | give => exact h.give supported
  | push => exact h.push
  | dropSender => exact h.dropSender
  | cancel => exact ⟨h.closing, h.queue, h.pushing⟩
  | pollFrame | dropBody => exact h.same rfl rfl rfl

theorem Accepts.run {w : World} (h : w.Accepts) {actions : List Action} (supported : ∀ a ∈ actions, a.Supported) :
    (w.run actions).Accepts := by
  induction actions generalizing w with
  | nil => exact h
  | cons a rest ih =>
    have now := h.act (supported a List.mem_cons_self)
    exact ih now fun b later => supported b (List.mem_cons_of_mem _ later)

omit [Httparse] in
theorem new_accepts (opts : Http1Options) (io : Transport) : (new opts io).Accepts where
  closing := by simp [new]
  queue := by simp [new]
  pushing := by simp [new]

/-- In every state that a run reaches, whatever the task does next keeps every assertion of the source. -/
theorem run_asserts (opts : Http1Options) (io : Transport) {actions : List Action}
    (supported : ∀ a ∈ actions, a.Supported) : ((new opts io).run actions).StepAsserts := by
  have steps := run_steps (new opts io) actions
  have inv : (new opts io).conn.Inv := Conn.handshake_inv opts io
  have fresh : (new opts io).conn.Fresh := Conn.handshake_fresh opts io
  have sound := Conn.Steps.sound steps inv (Conn.handshake_sound opts io)
  have delivers := run_delivers inv fresh (new_delivers opts io) actions
  have accepts := (new_accepts opts io).run supported
  exact step_asserts (run_inv opts io actions) sound delivers accepts

def takesGet : List Action := [.give (sampleGet .empty), .push, .poll true, .step]

omit [Httparse] in
theorem run_asserts_takesGet :
    (@run onlyEmptyResponse thenEof takesGet).phase = .writing 15 false ∧
      @StepAsserts onlyEmptyResponse (@run onlyEmptyResponse thenEof takesGet) := by
  have supported : ∀ a ∈ takesGet, a.Supported := by
    simp [takesGet, Action.Supported, Request.Supported, sampleGet]
  exact ⟨rfl, @run_asserts onlyEmptyResponse {} _ takesGet supported⟩

end World

end Hwire.Http1
