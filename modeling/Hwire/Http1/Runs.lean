import Hwire.Http1.Declared
import Hwire.Http1.Dispatch
import Hwire.Http1.EndOfFile

/-!
# Runs of the dispatcher

Every action on the system makes a series of calls on the connection, each where the connection allows it. What holds
along such calls holds in every run.
-/

namespace Hwire.Http1
open Lib Body Dispatch.Channel

theorem UserBody.pollFrame_small (b : UserBody) : b.pollFrame.1.Small := by
  unfold UserBody.pollFrame
  split
  · trivial
  · next poll rest polls => exact b.small poll (polls ▸ .head _)

theorem UserBody.bodyType_small {b : UserBody} {n : Nat} (h : b.bodyType = some (.known n)) : n < 2 ^ 64 := by
  unfold UserBody.bodyType at h
  split at h
  · cases h
  · cases exact : b.exact with
    | none =>
      rw [exact] at h
      cases h
    | some m =>
      rw [exact] at h
      cases h
      exact m.toNat_lt

namespace World

/-! ### Parts that leave the connection alone -/

theorem recvErr_eq (w : World) (e : Error) : ∃ callback chan, (w.recvErr e).2 = { w with callback, chan } := by
  unfold recvErr
  split
  · exact ⟨_, _, rfl⟩
  split
  · dsimp only
    split
    · exact ⟨_, _, rfl⟩
    · exact ⟨_, _, rfl⟩
  · exact ⟨_, _, rfl⟩

theorem abortBody_eq (w : World) (err : Error) : ∃ bodies, w.abortBody err = { w with bodyTx := none, bodies } := by
  unfold abortBody
  split
  · exact ⟨_, rfl⟩
  · next none => exact ⟨w.bodies, by rw [← none]⟩

theorem fail_eq (w : World) (e : Error) :
    ∃ bodies callback chan res, w.fail e =
      { w with raised := w.raised ++ [e], bodyTx := none, bodies, callback, chan, phase := .finished res } := by
  obtain ⟨bodies, aborted⟩ := abortBody_eq { w with raised := w.raised ++ [e] } (.newBody "connection error")
  obtain ⟨callback, chan, told⟩ := recvErr_eq { w with raised := w.raised ++ [e], bodyTx := none, bodies } e
  unfold fail
  rw [aborted]
  split
  · next w' h =>
    rw [h] at told
    obtain rfl : w' = _ := told
    exact ⟨bodies, callback, chan, _, rfl⟩
  · next w' h =>
    rw [h] at told
    obtain rfl : w' = _ := told
    exact ⟨bodies, callback, chan, _, rfl⟩

theorem fail_conn (w : World) (e : Error) : (w.fail e).conn = w.conn := by
  obtain ⟨_, _, _, _, eq⟩ := w.fail_eq e
  rw [eq]

theorem fail_raised (w : World) (e : Error) : (w.fail e).raised = w.raised ++ [e] := by
  obtain ⟨_, _, _, _, eq⟩ := w.fail_eq e
  rw [eq]

theorem drop_eq (w : World) (panicking : Bool) :
    ∃ chan bodies, w.drop panicking =
      { w with callback := none, chan, bodyTx := none, bodies, bodyRx := none, phase := .gone } := by
  have dropped (v : World) : ∃ chan bodies, { { v with chan := v.chan.dropReceiver }.abortBody .newIncomplete with
      bodyRx := none, phase := .gone } = { v with chan, bodyTx := none, bodies, bodyRx := none, phase := .gone } := by
    obtain ⟨bodies, eq⟩ := abortBody_eq { v with chan := v.chan.dropReceiver } .newIncomplete
    exact ⟨_, bodies, by rw [eq]⟩
  unfold drop
  split
  · exact dropped _
  · next none =>
    obtain ⟨chan, bodies, eq⟩ := dropped w
    exact ⟨chan, bodies, by rw [eq, ← none]⟩

theorem openBody_eq (w : World) (msg : ParsedMessage) :
    ∃ bodyTx bodies bodyOf, w.openBody msg = { w with bodyTx, bodies, bodyOf } := by
  unfold openBody
  split
  · exact ⟨_, _, _, rfl⟩
  · unfold setBodyTx
    cases w.bodyTx with
    | none => exact ⟨_, _, _, rfl⟩
    | some old => exact ⟨_, _, _, rfl⟩

theorem endWrite_eq (w : World) (left : Nat) (again ready : Bool) :
    ∃ phase, w.endWrite left again ready = { w with phase } := by
  unfold endWrite
  split
  · exact ⟨_, rfl⟩
  · exact ⟨_, rfl⟩

/-! ### The calls of every step -/

/-- The connection and the request channel, across a step that does not call `write_head` and does not ask for more
requests. -/
structure Calls [Httparse] (w w' : World) : Prop where
  conn : w.conn.Calls w'.conn
  chan : w.chan.Tame w'.chan
  written : w'.written = w.written

variable [Httparse]

theorem Calls.refl (w : World) : w.Calls w := ⟨.refl, .refl _, rfl⟩

theorem Calls.trans {w₁ w₂ w₃ : World} (h : w₁.Calls w₂) (h' : w₂.Calls w₃) : w₁.Calls w₃ :=
  ⟨.trans h.conn h'.conn, h.chan.trans h'.chan, h'.written.trans h.written⟩

theorem Calls.of_call {w w' : World} (call : w.conn.Call w'.conn) (chan : w'.chan = w.chan)
    (written : w'.written = w.written) : w.Calls w' :=
  ⟨.single call, chan ▸ .refl _, written⟩

theorem Calls.of_same {w w' : World} (conn : w'.conn = w.conn) (chan : w'.chan = w.chan)
    (written : w'.written = w.written) : w.Calls w' :=
  ⟨conn ▸ .refl, chan ▸ .refl _, written⟩

theorem recvErr_calls (w : World) (e : Error) : w.Calls (w.recvErr e).2 := by
  unfold recvErr
  split
  · exact ⟨.refl, tame_answer _ _ _, rfl⟩
  split
  · have closed := w.chan.tame_close.trans w.chan.close.tame_tryRecv
    dsimp only
    split
    · next id req chan took =>
      rw [took] at closed
      exact ⟨.refl, closed.trans (tame_answer _ _ _), rfl⟩
    · next chan took =>
      rw [took] at closed
      exact ⟨.refl, closed, rfl⟩
  · exact .refl w

theorem fail_calls {w w' : World} (calls : w.Calls w') (e : Error) : w.Calls (w'.fail e) := by
  obtain ⟨bodies, aborted⟩ := abortBody_eq { w' with raised := w'.raised ++ [e] } (.newBody "connection error")
  have told := recvErr_calls (World.abortBody { w' with raised := w'.raised ++ [e] } (.newBody "connection error")) e
  have start : w'.Calls (World.abortBody { w' with raised := w'.raised ++ [e] } (.newBody "connection error")) := by
    rw [aborted]
    exact .of_same rfl rfl rfl
  refine calls.trans (start.trans ?_)
  unfold fail
  split
  · next h =>
    rw [h] at told
    exact told.trans (.of_same rfl rfl rfl)
  · next h =>
    rw [h] at told
    exact told.trans (.of_same rfl rfl rfl)

theorem drop_calls {w w' : World} (calls : w.Calls w') (panicking : Bool) : w.Calls (w'.drop panicking) := by
  have dropped (v : World) : v.Calls { World.abortBody { v with chan := v.chan.dropReceiver } .newIncomplete with
      bodyRx := none, phase := .gone } := by
    obtain ⟨bodies, eq⟩ := abortBody_eq { v with chan := v.chan.dropReceiver } .newIncomplete
    rw [eq]
    exact ⟨.refl, v.chan.tame_dropReceiver, rfl⟩
  refine calls.trans ?_
  unfold drop
  split
  · next id _ =>
    have told : w'.Calls { w' with callback := none, chan := w'.chan.dropCallback id panicking } :=
      ⟨.refl, tame_answer _ _ _, rfl⟩
    exact told.trans (dropped _)
  · exact dropped w'

theorem endWrite_calls {w w' : World} (calls : w.Calls w') (left : Nat) (again ready : Bool) :
    w.Calls (w'.endWrite left again ready) := by
  obtain ⟨phase, eq⟩ := w'.endWrite_eq left again ready
  rw [eq]
  exact calls.trans (.of_same rfl rfl rfl)

theorem orFail_calls {w w' : World} (calls : w.Calls w') (left : Nat) (again : Bool) (res : Except Error Unit) :
    w.Calls (w'.orFail left again res) := by
  cases res with
  | ok => exact calls.trans (.of_same rfl rfl rfl)
  | error e => exact fail_calls calls e

theorem close_calls (w : World) : w.Calls w.close := .of_call .close rfl rfl

theorem recvHead_calls (w : World) (left : Nat) (msg : ParsedMessage) : w.Calls (w.recvHead left msg) := by
  obtain ⟨bodyTx, bodies, bodyOf, eq⟩ := w.openBody_eq msg
  have upgraded : w.conn.Calls (if msg.wantsUpgrade then w.conn.onUpgrade else w.conn) := by
    split
    · exact .single .onUpgrade
    · exact .refl
  unfold recvHead
  rw [eq]
  dsimp only
  split
  · exact ⟨upgraded, tame_answer _ _ _, rfl⟩
  · split
    · apply fail_calls
      exact ⟨upgraded, .refl _, rfl⟩
    · apply fail_calls
      exact ⟨upgraded, .refl _, rfl⟩

theorem pollReadHead_calls {w : World} (can : w.conn.canReadHead = true) (left : Nat) :
    w.Calls (w.pollReadHead left) := by
  have read : w.Calls { w with conn := w.conn.pollReadHead.2 } := .of_call (.readHead can) rfl rfl
  unfold pollReadHead
  split
  · exact w.close_calls.trans (.of_same rfl rfl rfl)
  split
  · exact w.close_calls.trans (.of_same rfl rfl rfl)
  · dsimp only
    split
    · exact read.trans (.of_same rfl rfl rfl)
    · exact read.trans (recvHead_calls _ left _)
    · next e _ =>
      have told := read.trans (recvErr_calls { w with conn := w.conn.pollReadHead.2 } e)
      split
      · next h =>
        rw [h] at told
        exact told.trans ((close_calls _).trans (.of_same rfl rfl rfl))
      · next h =>
        rw [h] at told
        exact fail_calls told e
    · split
      · exact read.trans ((close_calls { w with conn := w.conn.pollReadHead.2 }).trans (.of_same rfl rfl rfl))
      · exact read.trans (.of_same rfl rfl rfl)

theorem pollReadStream_calls (w : World) (left j : Nat) : w.Calls (w.pollReadStream left j) := by
  unfold pollReadStream
  split
  · next can =>
    split
    · exact .of_same rfl rfl rfl
    · exact .of_call (.drain can) rfl rfl
    · dsimp only
      split
      · exact .of_call (.readBody can) rfl rfl
      · exact .of_call (.readBody can) rfl rfl
      · exact .of_call (.readBody can) rfl rfl
      · exact .of_call (.readBody can) rfl rfl
  · exact .of_same rfl rfl rfl

theorem stepReading_calls (w : World) (left : Nat) : w.Calls (w.stepReading left) := by
  unfold stepReading
  split
  · exact .of_same rfl rfl rfl
  split
  · next can => exact pollReadHead_calls can left
  split
  · next j _ =>
    have streamed := pollReadStream_calls { w with bodyTx := none } left j
    exact ⟨streamed.conn, streamed.chan, streamed.written⟩
  · dsimp only
    split
    · apply fail_calls
      exact .of_call .readKeepAlive rfl rfl
    · exact .of_call .readKeepAlive rfl rfl

theorem stepSending_calls (w : World) (left j : Nat) (frame : Frame) : w.Calls (w.stepSending left j frame) := by
  unfold stepSending
  dsimp only
  split
  · exact .of_same rfl rfl rfl
  split
  · exact .of_call .closeRead rfl rfl
  · exact .of_same rfl rfl rfl

theorem endBody_calls {w w' : World} (calls : w.Calls w') (can : w'.conn.canWriteBody = true) (left : Nat)
    (again : Bool) : w.Calls (w'.endBody left again) := by
  have ended : w'.Calls { w' with conn := w'.conn.endBody.2 } := .of_call (.endBody can) rfl rfl
  exact orFail_calls (calls.trans ended) left again _

theorem writeChunk_calls {w w' : World} (calls : w.Calls w') (can : w'.conn.canWriteBody = true) (left : Nat)
    (again : Bool) {chunk : Bytes} (small : chunk.length < 2 ^ 64) (eos : Bool) :
    w.Calls (w'.writeChunk left again chunk eos) := by
  unfold writeChunk
  split
  · have taken : w.Calls { w' with bodyRx := none } := calls.trans (.of_same rfl rfl rfl)
    dsimp only
    split
    · exact endBody_calls taken can left again
    · next ne => exact taken.trans (.of_call (.writeBodyAndEnd can ne small) rfl rfl)
  split
  · exact calls.trans (.of_same rfl rfl rfl)
  · next ne => exact calls.trans (.of_call (.writeBody can ne small) rfl rfl)

theorem writeUserBody_calls (w : World) (left : Nat) (again : Bool) (body : UserBody) :
    w.Calls (w.writeUserBody left again body) := by
  unfold writeUserBody
  split
  · exact .of_same rfl rfl rfl
  · next can =>
    have can : w.conn.canWriteBody = true := by simpa using can
    have small := body.pollFrame_small
    dsimp only
    split
    · apply endWrite_calls
      exact .of_same rfl rfl rfl
    · apply fail_calls
      exact .of_same rfl rfl rfl
    · refine endBody_calls ?_ ?_ left again
      · exact .of_same rfl rfl rfl
      · exact can
    · next chunk data =>
      rw [data] at small
      refine writeChunk_calls ?_ ?_ left again small _
      · exact .of_same rfl rfl rfl
      · exact can
    · exact .of_call (.writeTrailers can) rfl rfl

theorem stepFlushing_calls (w : World) (left : Nat) (writeReady : Bool) : w.Calls (w.stepFlushing left writeReady) := by
  have flushed : w.Calls { w with conn := w.conn.pollFlush.2 } := .of_call .flush rfl rfl
  unfold stepFlushing
  dsimp only
  split
  · exact fail_calls flushed _
  split
  · exact flushed.trans (.of_call .readAgain rfl rfl)
  split
  · exact flushed.trans (.of_call .readAgain rfl rfl)
  · exact flushed.trans (.of_call .readAgain rfl rfl)

theorem complete_calls {w w' : World} (calls : w.Calls w') (res : Dispatched) : w.Calls (w'.complete res) := by
  have taken : w.Calls { w' with conn := w'.conn.takeError.2 } := calls.trans (.of_call .takeError rfl rfl)
  unfold complete
  dsimp only
  split
  · exact fail_calls taken _
  · exact taken.trans (.of_same rfl rfl rfl)

theorem stepInner_calls (w : World) : w.Calls w.stepInner := by
  have upgrade : w.Calls { w with conn := w.conn.pendingUpgrade.2 } := .of_call .pendingUpgrade rfl rfl
  have shut : w.Calls { w with conn := w.conn.pendingUpgrade.2.pollShutdown.2 } := upgrade.trans (.of_call .shutdown rfl rfl)
  unfold stepInner
  split
  · dsimp only
    split
    · exact complete_calls upgrade _
    split
    · split
      · exact shut.trans (.of_same rfl rfl rfl)
      · exact fail_calls shut _
      · exact complete_calls shut _
    · exact complete_calls upgrade _
  · exact .of_same rfl rfl rfl

/-! ### Calls of `write_head` -/

/-- Where a step of the task calls `write_head`, and with which request. -/
structure TakesRequest (w : World) (left : Nat) (again : Bool) (id : Nat) (req : Request)
    (rest : List (Nat × Request)) : Prop where
  phase : w.phase = .writing left again
  notClosing : w.isClosing = false
  bodyRx : w.bodyRx = none
  can : w.conn.canWriteHead = true
  callback : w.callback = none
  front : w.chan.queue = (id, req) :: rest

def takeRequest (w : World) (left : Nat) (again : Bool) (id : Nat) (req : Request) (rest : List (Nat × Request)) : World :=
  writeRequest { w with chan := { w.chan with queue := rest } } left again id req

/-- What `poll_msg` comes to: a request that was given up ends the dispatcher, as the end of the channel does. -/
inductive PolledMsg (w : World) (left : Nat) (again : Bool) : World → Prop where
  | canceled {id : Nat} {req : Request} {rest : List (Nat × Request)} (front : w.chan.queue = (id, req) :: rest) :
    w.PolledMsg left again
      ({ w with chan := { w.chan with queue := rest }.dropCallback id false }.close.endWrite left again true)
  | taken {id : Nat} {req : Request} {rest : List (Nat × Request)} (front : w.chan.queue = (id, req) :: rest) :
    w.PolledMsg left again (w.takeRequest left again id req rest)
  | ended : w.PolledMsg left again ({ w with rxClosed := true }.close.endWrite left again true)
  | waits : w.PolledMsg left again { w with phase := .wanting left again }

omit [Httparse] in
theorem pollMsg_polled (w : World) (left : Nat) (again : Bool) : w.PolledMsg left again (w.pollMsg left again) := by
  unfold pollMsg Dispatch.Channel.pollRecv
  cases front : w.chan.queue with
  | cons env rest =>
    dsimp only
    split
    · exact .canceled front
    · exact .taken front
  | nil =>
    by_cases ended : (w.chan.closed || decide (w.chan.senders = 0)) = true
    · simp only [ended, if_true]
      exact .ended
    · simp only [ended]
      exact .waits

/-- What a round of `poll_write` comes to. -/
inductive WriteRound (w : World) (left : Nat) (again : Bool) : World → Prop where
  | closing (closes : w.isClosing = true) : w.WriteRound left again (w.endWrite left again true)
  | polled (opened : w.isClosing = false) (bodyRx : w.bodyRx = none) (can : w.conn.canWriteHead = true)
      (callback : w.callback = none) {v : World} (polled : w.PolledMsg left again v) : w.WriteRound left again v
  | blocked (opened : w.isClosing = false) (pending : w.conn.pollFlush.1 = .pending) :
    w.WriteRound left again ({ w with conn := w.conn.pollFlush.2 }.endWrite left again false)
  | flushed (opened : w.isClosing = false) {res : Except IoError Unit} (ready : w.conn.pollFlush.1 = .ready res) :
    w.WriteRound left again ({ w with conn := w.conn.pollFlush.2 }.orFail left again (res.mapError .newBodyWrite))
  | userBody {body : UserBody} (bodyRx : w.bodyRx = some body) :
    w.WriteRound left again (w.writeUserBody left again body)
  | bodyDone (bodyRx : w.bodyRx = none) (can : w.conn.canWriteBody = true) :
    w.WriteRound left again (w.endBody left again)
  | nothing (bodyRx : w.bodyRx = none) (cannot : w.conn.canWriteBody = false) :
    w.WriteRound left again (w.endWrite left again false)

omit [Httparse] in
theorem stepWriting_round (w : World) (left : Nat) (again : Bool) : w.WriteRound left again (w.stepWriting left again) := by
  unfold stepWriting
  split
  · next closes => exact .closing closes
  next opened =>
  have opened : w.isClosing = false := by simpa using opened
  split
  · next ready =>
    simp only [Bool.and_eq_true, Option.isNone_iff_eq_none, shouldPoll] at ready
    obtain ⟨⟨bodyRx, can⟩, callback⟩ := ready
    exact .polled opened bodyRx can callback (w.pollMsg_polled left again)
  split
  · dsimp only
    split
    · next pending => exact .blocked opened pending
    · next ready => exact .flushed opened ready
  split
  · next bodyRx => exact .userBody bodyRx
  · next bodyRx =>
    split
    · next can => exact .bodyDone bodyRx can
    · next cannot => exact .nothing bodyRx (by simpa using cannot)

theorem PolledMsg.calls {w v : World} {left : Nat} {again : Bool} (polled : w.PolledMsg left again v) :
    w.Calls v ∨ ∃ id req rest, w.chan.queue = (id, req) :: rest ∧ v = w.takeRequest left again id req rest := by
  have closed {v : World} (h : w.Calls v) : w.Calls (v.close.endWrite left again true) :=
    endWrite_calls (h.trans v.close_calls) _ _ _
  cases polled with
  | canceled front => exact .inl (closed ⟨.refl, (tame_take front).trans (tame_answer _ _ _), rfl⟩)
  | taken front => exact .inr ⟨_, _, _, front, rfl⟩
  | ended =>
    left
    apply closed
    exact .of_same rfl rfl rfl
  | waits => exact .inl (.of_same rfl rfl rfl)

theorem stepWriting_cases {w : World} {left : Nat} {again : Bool} (phase : w.phase = .writing left again) :
    w.Calls (w.stepWriting left again) ∨
      ∃ id req rest, w.TakesRequest left again id req rest ∧
        w.stepWriting left again = w.takeRequest left again id req rest := by
  have flushed : w.Calls { w with conn := w.conn.pollFlush.2 } := .of_call .flush rfl rfl
  generalize w.stepWriting left again = v, w.stepWriting_round left again = round
  cases round with
  | closing => exact .inl (endWrite_calls (.refl w) _ _ _)
  | polled opened bodyRx can callback polled =>
    refine polled.calls.imp_right ?_
    rintro ⟨id, req, rest, front, eq⟩
    exact ⟨id, req, rest, ⟨phase, opened, bodyRx, can, callback, front⟩, eq⟩
  | blocked => exact .inl (endWrite_calls flushed _ _ _)
  | flushed => exact .inl (orFail_calls flushed _ _ _)
  | userBody => exact .inl (w.writeUserBody_calls _ _ _)
  | bodyDone _ can => exact .inl (endBody_calls (.refl w) can left again)
  | nothing => exact .inl (endWrite_calls (.refl w) _ _ _)

/-- What an action does to the connection and the request channel. -/
theorem act_cases (w : World) (a : Action) :
    w.Calls (w.act a) ∨
      (∃ left again id req rest, a = .step ∧ w.TakesRequest left again id req rest ∧
        w.act a = w.takeRequest left again id req rest) ∨
      ∃ left again, a = .step ∧ w.phase = .wanting left again ∧ w.act a = w.stepWanting left again := by
  cases a with
  | poll =>
    rw [act]
    split
    · exact .inl (.of_same rfl rfl rfl)
    · exact .inl (.refl w)
  | step =>
    rw [act, step]
    split
    · exact .inl (w.stepReading_calls _)
    · exact .inl (w.stepSending_calls _ _ _)
    · next left again phase =>
      refine (stepWriting_cases phase).imp_right fun ⟨id, req, rest, takes, eq⟩ => ?_
      exact .inl ⟨left, again, id, req, rest, rfl, takes, eq⟩
    · next left again phase => exact .inr (.inr ⟨left, again, rfl, phase, rfl⟩)
    · exact .inl (w.stepFlushing_calls _ _)
    · exact .inl w.stepInner_calls
    · exact .inl (.refl w)
    · exact .inl (.refl w)
    · exact .inl (.refl w)
  | drop =>
    rw [act]
    split
    · exact .inl (drop_calls (.refl w) _)
    · exact .inl (drop_calls (.refl w) _)
    · exact .inl (.refl w)
  | give req => exact .inl ⟨.refl, w.chan.tame_give req, rfl⟩
  | push => exact .inl ⟨.refl, w.chan.tame_push, rfl⟩
  | dropSender => exact .inl ⟨.refl, w.chan.tame_dropSender, rfl⟩
  | cancel id => exact .inl ⟨.refl, w.chan.tame_cancel id, rfl⟩
  | pollFrame | dropBody => exact .inl (.of_same rfl rfl rfl)

/-- The head is written, or encoding it panics and the dispatcher is gone. -/
theorem takeRequest_cases (w : World) (left : Nat) (again : Bool) (id : Nat) (req : Request)
    (rest : List (Nat × Request)) :
    (∃ conn, w.conn.writeHead req.head req.body.bodyType = some conn ∧
      (w.takeRequest left again id req rest).conn = conn ∧
      (w.takeRequest left again id req rest).phase = .writing left again ∧
      (w.takeRequest left again id req rest).chan = { w.chan with queue := rest }) ∨
    ((w.takeRequest left again id req rest).conn = w.conn ∧ (w.takeRequest left again id req rest).phase = .gone ∧
      Dispatch.Channel.Tame { w.chan with queue := rest } (w.takeRequest left again id req rest).chan) := by
  unfold takeRequest writeRequest
  dsimp only
  split
  · next conn wrote => exact .inl ⟨conn, wrote, rfl, rfl, rfl⟩
  · refine .inr ?_
    generalize taken : World.mk .. = v
    have conn : v.conn = w.conn := by rw [← taken]
    have chan : v.chan = { w.chan with queue := rest } := by rw [← taken]
    obtain ⟨_, _, eq⟩ := v.drop_eq true
    exact ⟨by rw [eq]; exact conn, by rw [eq], chan ▸ (drop_calls (.refl v) true).chan⟩

theorem act_steps (w : World) (a : Action) : w.conn.Steps (w.act a).conn := by
  obtain calls | ⟨left, again, id, req, rest, -, takes, eq⟩ | ⟨left, again, -, -, eq⟩ := w.act_cases a
  · exact Conn.Calls.steps calls.conn
  · rw [eq]
    obtain ⟨conn, wrote, same, -⟩ | ⟨same, -⟩ := w.takeRequest_cases left again id req rest
    · rw [same]
      exact .single (.writeHead takes.can (fun _ => UserBody.bodyType_small) wrote)
    · rw [same]
  · obtain ⟨phase, ended⟩ := endWrite_eq { w with chan := w.chan.want } left again false
    rw [eq, stepWanting, ended]

theorem run_steps (w : World) (actions : List Action) : w.conn.Steps (w.run actions).conn := by
  induction actions generalizing w with
  | nil => exact .refl
  | cons a rest ih => exact .trans (w.act_steps a) (ih (w.act a))

/-! ### Samples -/

/-- A response without a body. -/
def emptyResponse : Bytes := ascii "HTTP/1.1 200 OK\r\ncontent-length: 0\r\n\r\n"

/-- What the parser says to this response, whatever follows it, and to nothing. -/
@[reducible] def onlyEmptyResponse : Httparse where
  parseResponse _ bytes _ :=
    if emptyResponse.isPrefixOf bytes then
      .ok (some { len := 38, version := 1, code := 200, reason := ascii "OK", headers := [⟨(17, 31), (33, 34)⟩] })
    else .ok none
  parseHeaders _ _ := .ok none
  canonicalReason _ := some (ascii "OK")

/-- A transport that takes everything and stays at the end of file. -/
def sampleTransport (reads : List ReadEvent) : Transport where
  reads
  writes := [.accept 1000, .accept 1000, .accept 1000]
  flushes := List.replicate 9 (.ready (.ok ()))
  isWriteVectored := true
  sticky := true

def sampleGet (headers : HeaderMap) : Request where
  head := { version := .http11, subject := ⟨.get, ascii "/"⟩, headers }
  body := { isEndStream := true, exact := none, polls := [], small := nofun }

/-- A request is accepted and the task writes its head. -/
def writesGet (headers : HeaderMap) : List Action := [.give (sampleGet headers), .push, .poll true, .step, .step]

def untilEof : List Action := writesGet .empty ++ ([.step, .step, .step, .poll true, .step, .step] : List Action)

def thenEof : World := new {} (sampleTransport [.pending, .data emptyResponse, .pending, .data []])

/-! ### What holds in every run -/

def CallsWriteHead (w : World) (a : Action) : Prop := (w.act a).written ≠ w.written

theorem takesRequest_of_calls {w : World} {a : Action} (calls : w.CallsWriteHead a) :
    ∃ left again id req rest, w.TakesRequest left again id req rest := by
  obtain aside | ⟨left, again, id, req, rest, -, takes, -⟩ | ⟨left, again, -, -, eq⟩ := w.act_cases a
  · exact absurd aside.written calls
  · exact ⟨left, again, id, req, rest, takes⟩
  · obtain ⟨phase, ended⟩ := endWrite_eq { w with chan := w.chan.want } left again false
    exact absurd (by rw [eq, stepWanting, ended]) calls

theorem run_inv (opts : Http1Options) (io : Transport) (actions : List Action) : ((new opts io).run actions).conn.Inv :=
  (Conn.Steps.inv (run_steps _ actions) (Conn.handshake_inv opts io)).1

theorem run_append (w : World) (earlier later : List Action) : w.run (earlier ++ later) = (w.run earlier).run later :=
  List.foldl_append

/-- A connection is used again only after the exchange before has come to its end on both sides. What has been closed stays
closed, and without keep-alive no connection becomes idle again. -/
theorem run_reuse (opts : Http1Options) (io : Transport) (actions : List Action) (a : Action) :
    (((new opts io).run actions).CallsWriteHead a →
      ∀ x ∈ ((new opts io).run actions).conn.log.getLast?, x.Done) ∧
    ((new opts io).run actions).conn.state.Keeps (((new opts io).run actions).act a).conn.state := by
  have inv := run_inv opts io actions
  refine ⟨?_, (Conn.Steps.inv (act_steps _ a) inv).2⟩
  intro calls x last
  obtain ⟨_, _, _, _, _, takes⟩ := takesRequest_of_calls calls
  obtain ⟨-, init, -⟩ := Conn.canWriteHead_iff.mp takes.can
  exact (inv.idle init).1 x (List.mem_of_getLast? last)

theorem act_afterEof {w : World} (inv : w.conn.Inv) (eof : w.conn.EofInv) (seen : w.conn.io.io.sawEof = true)
    (a : Action) : ¬ w.CallsWriteHead a := by
  intro calls
  obtain ⟨_, _, _, _, _, takes⟩ := takesRequest_of_calls calls
  exact absurd ((eof.stuck inv seen).2.2.symm.trans takes.can) nofun

theorem written_afterEof {w : World} (inv : w.conn.Inv) (eof : w.conn.EofInv) (seen : w.conn.io.io.sawEof = true)
    (later : List Action) : (w.run later).written = w.written := by
  induction later generalizing w with
  | nil => rfl
  | cons a rest ih =>
    have steps := w.act_steps a
    have same : (w.act a).written = w.written := not_not.mp (act_afterEof inv eof seen a)
    exact (ih (Conn.Steps.inv steps inv).1 (Conn.Steps.eof steps inv eof) (Conn.Steps.sawEof steps inv eof seen)).trans same

theorem run_eof {opts : Http1Options} {io : Transport} (sticky : io.sticky = true) (fresh : io.sawEof = false)
    (actions : List Action) : ((new opts io).run actions).conn.EofInv :=
  Conn.Steps.eof (run_steps _ actions) (Conn.handshake_inv opts io) (Conn.handshake_eof sticky fresh)

/-- Over a transport that stays at its end, no request is written once a read has found it. -/
theorem run_afterEof (opts : Http1Options) (io : Transport) (earlier later : List Action) (sticky : io.sticky = true)
    (fresh : io.sawEof = false) (seen : ((new opts io).run earlier).conn.io.io.sawEof = true) :
    ((new opts io).run (earlier ++ later)).written = ((new opts io).run earlier).written := by
  rw [run_append]
  exact written_afterEof (run_inv opts io earlier) (run_eof sticky fresh earlier) seen later

omit [Httparse] in
theorem run_afterEof_sample :
    (@run onlyEmptyResponse thenEof untilEof).conn.io.io.sawEof = true ∧
      (@run onlyEmptyResponse thenEof (untilEof ++ writesGet .empty)).written =
        (@run onlyEmptyResponse thenEof untilEof).written := by
  have seen : (@run onlyEmptyResponse thenEof untilEof).conn.io.io.sawEof = true := by decide +kernel
  exact ⟨seen, @run_afterEof onlyEmptyResponse {} _ untilEof (writesGet .empty) rfl rfl seen⟩

/-- Every request that was written to its end has sent the body that its head declares, exactly when no length of a body
that was not sent is left in the head. -/
theorem run_declared (opts : Http1Options) (io : Transport) (actions : List Action) {x : Exchange}
    (member : x ∈ ((new opts io).run actions).conn.log) (finished : x.finished = true)
    (plain : x.head.extensions.onPreserveHeader = none) :
    DeclaredBody x.head x.hint x.sent ↔ ¬ StaleLength x.head x.hint :=
  Conn.Steps.declared (run_steps _ actions) (Conn.handshake_inv opts io) (by simp [new, Conn.handshake]) member finished
    plain

/-- A body of three bytes, in two pieces with a pause before the second. -/
def threeBytes : Request where
  head := {
    version := .http11, subject := ⟨.post, ascii "/upload"⟩
    headers := MultiMap.empty.insert .contentLength (.fromStatic "3") }
  body := {
    isEndStream := false
    exact := some 3
    polls := [(.frame (.data (ascii "a")), false), (.pending, false), (.frame (.data (ascii "bc")), true)]
    small := by decide }

def sendsThree : List Action :=
  ([.give threeBytes, .push, .poll true] : List Action) ++ List.replicate 5 Action.step ++ [Action.poll true] ++
    List.replicate 4 Action.step

omit [Httparse] in
theorem run_declared_sample : ∃ x ∈ (@run onlyEmptyResponse thenEof sendsThree).conn.log,
    x.finished = true ∧ x.sent = ascii "abc" ∧ DeclaredBody x.head x.hint x.sent := by
  have facts : ∃ x ∈ (@run onlyEmptyResponse thenEof sendsThree).conn.log,
      x.finished = true ∧ x.sent = ascii "abc" ∧ x.head.extensions.onPreserveHeader.isNone = true ∧
        x.hint = some (.known 3) := by decide +kernel
  obtain ⟨x, member, finished, sent, plain, hint⟩ := facts
  refine ⟨x, member, finished, sent, ?_⟩
  refine (@run_declared onlyEmptyResponse {} _ _ x member finished (Option.isNone_iff_eq_none.mp plain)).mpr ?_
  rintro ⟨-, ⟨none, -⟩ | ⟨unknown, -⟩⟩
  · exact absurd (hint.symm.trans none) nofun
  · exact absurd (hint.symm.trans unknown) nofun

omit [Httparse] in
/-- A head with a length, and a body that is at its end before it begins: nothing is sent, and the connection is ready
for the next request. -/
theorem run_staleLength : ∃ x ∈ (@run onlyEmptyResponse thenEof
      (writesGet (MultiMap.empty.insert .contentLength (.fromStatic "5")))).conn.log,
    x.head.extensions.onPreserveHeader = none ∧ x.finished = true ∧ ¬ DeclaredBody x.head x.hint x.sent := by
  have facts : ∃ x ∈ (@run onlyEmptyResponse thenEof
      (writesGet (MultiMap.empty.insert .contentLength (.fromStatic "5")))).conn.log,
      x.finished = true ∧ x.head.extensions.onPreserveHeader.isNone = true ∧ x.hint = none ∧
        x.head.headers.contains .contentLength = true ∧
          Headers.contentLengthParseAll x.head.headers = some 5 := by decide +kernel
  obtain ⟨x, member, finished, plain, hint, present, parsed⟩ := facts
  have plain := Option.isNone_iff_eq_none.mp plain
  refine ⟨x, member, plain, finished, ?_⟩
  intro declared
  have holds := @Conn.Steps.declared onlyEmptyResponse _ _ (@run_steps onlyEmptyResponse thenEof _)
    (Conn.handshake_inv _ _) (by simp [thenEof, new, Conn.handshake]) x member finished plain
  exact holds.mp declared ⟨present, .inl ⟨hint, by simp [parsed]⟩⟩

end World

end Hwire.Http1
