import Hwire.Body.Incoming
import Hwire.Dispatch
import Hwire.Http1.Conn

/-!
# The dispatcher

The task that drives a connection, and the threads around it: the sender of requests, the users of responses and of
response bodies. The task moves in small steps, one round of one of its loops at a time, so that the others can act in
between. User bodies are scripts, like transports.
-/

namespace Hwire.Http1
open Lib Body

/-! ### User bodies -/

inductive BodyEvent where
  | pending
  | frame (f : Frame)
  | error (text : String)
  | none

def BodyEvent.Small : BodyEvent → Prop
  | .frame (.data bytes) => bytes.length < 2 ^ 64
  | _ => True

instance : DecidablePred BodyEvent.Small
  | .frame (.data bytes) => inferInstanceAs (Decidable (bytes.length < 2 ^ 64))
  | .frame (.trailers _) | .pending | .error _ | .none => isTrue trivial

/-- A user body: what it says at first, and a script of its frames with what `is_end_stream` says after each. Past the
script it is pending. -/
structure UserBody where
  isEndStream : Bool
  exact : Option UInt64
  polls : List (BodyEvent × Bool)
  small : ∀ poll ∈ polls, poll.1.Small

namespace UserBody

/-- `poll_frame`: its result, what `is_end_stream` says then, and the body. -/
def pollFrame (b : UserBody) : BodyEvent × Bool × UserBody :=
  match h : b.polls with
  | [] => (.pending, b.isEndStream, b)
  | poll :: rest =>
    (poll.1, poll.2, { b with polls := rest, isEndStream := poll.2, small := fun p member => b.small p (h ▸ .tail _ member) })

def bodyType (b : UserBody) : Option BodyLength :=
  if b.isEndStream then none
  else some (b.exact.elim .unknown fun n => .known n.toNat)

end UserBody

structure Request where
  head : RequestHead
  body : UserBody

structure Response where
  head : ResponseHead
  body : Option Nat

/-! ### The system -/

inductive Dispatched where
  | shutdown
  | upgrade
  deriving DecidableEq, Repr

/-- Where the task is. The number counts the rounds of `poll_loop` that are left. -/
inductive Phase where
  | parked
  | reading (left : Nat)
  /-- In `poll_read`, with a frame for the body channel that was taken out. -/
  | sending (left : Nat) (body : Nat) (frame : Frame)
  /-- In the loop of `poll_write`, the second one of a round or not. -/
  | writing (left : Nat) (again : Bool)
  /-- In `poll_write`, where the queue was empty and the receiver is about to signal that it wants. -/
  | wanting (left : Nat) (again : Bool)
  /-- Before `poll_flush`, with whether writing was ready. -/
  | flushing (left : Nat) (writeReady : Bool)
  /-- In `poll_inner`, after the loop. -/
  | inner
  | finished (res : Except Error Dispatched)
  | gone
  deriving DecidableEq

/-- The dispatcher with its environment. `written` lists the requests that were passed to `write_head`. -/
structure World where
  conn : Conn
  isClosing : Bool := false
  callback : Option Nat := none
  rxClosed : Bool := false
  bodyTx : Option Nat := none
  bodyRx : Option UserBody := none
  shouldShutdown : Bool := true
  phase : Phase := .parked
  chan : Dispatch.Channel Request Response := {}
  bodies : List Incoming := []
  /-- The exchange that each body channel belongs to. -/
  bodyOf : List Nat := []
  written : List Nat := []
  raised : List Error := []

namespace World

def new (opts : Http1Options) (io : Transport) : World := { conn := .handshake opts io }

/-! ### Small parts of the dispatcher -/

def shouldPoll (w : World) : Bool := w.callback.isNone

def close (w : World) : World := { w with isClosing := true, conn := w.conn.closeRead.closeWrite }

def onBody (w : World) (j : Nat) (f : Incoming → Incoming) : World := { w with bodies := w.bodies.modify j f }

def dropBodyTx (w : World) (j : Nat) : World := w.onBody j .dropSender

/-- `SenderGuard::set`. A sender that was there is dropped. -/
def setBodyTx (w : World) (j : Nat) : World := { w.bodyTx.elim w w.dropBodyTx with bodyTx := some j }

def nextRound : Nat → Phase
  | 0 => .parked
  | left + 1 => .reading left

/-- `Client::recv_msg` with an error. The flag says whether somebody got it. -/
def recvErr (w : World) (e : Error) : Bool × World :=
  match w.callback with
  | some id => (true, { w with callback := none, chan := w.chan.answer id (.error { error := e, message := none }) })
  | none =>
    if !w.rxClosed then
      let chan := w.chan.close
      match chan.tryRecv with
      | (some (id, req), chan) =>
        (true, { w with
          chan := chan.answer id (.error { error := Error.newCanceled.withCause e.description, message := some req }) })
      | (none, chan) => (false, { w with chan })
    else (false, w)

/-- The sender of a body is taken out of its guard, sends an error and is dropped. -/
def abortBody (w : World) (err : Error) : World :=
  match w.bodyTx with
  | some j => { w with bodyTx := none }.onBody j fun b => (b.sendError err).dropSender
  | none => w

/-- `poll_catch`, where `poll_inner` has failed. -/
def fail (w : World) (e : Error) : World :=
  -- Be sure to alert a streaming body of the failure.
  match ({ w with raised := w.raised ++ [e] }.abortBody (.newBody "connection error")).recvErr e with
  | (true, w) => { w with phase := .finished (.ok .shutdown) }
  | (false, w) => { w with phase := .finished (.error e) }

/-- The dispatcher is dropped, or taken apart by `into_inner`. -/
def drop (w : World) (panicking : Bool) : World :=
  let w := match w.callback with
    | some id => { w with callback := none, chan := w.chan.dropCallback id panicking }
    | none => w
  { { w with chan := w.chan.dropReceiver }.abortBody .newIncomplete with bodyRx := none, phase := .gone }

/-! ### Reading -/

def openBody (w : World) (msg : ParsedMessage) : World :=
  if msg.decode = .ZERO then w
  else
    setBodyTx { w with
      bodies := w.bodies ++ [.h1 msg.decode msg.wantsExpect]
      bodyOf := w.bodyOf ++ [w.conn.log.length - 1] } w.bodies.length

/-- A head for which there is a callback, or not. -/
def recvHead (w : World) (left : Nat) (msg : ParsedMessage) : World :=
  let body := if msg.decode = .ZERO then none else some w.bodies.length
  let w := w.openBody msg
  let w := { w with conn := if msg.wantsUpgrade then w.conn.onUpgrade else w.conn }
  match w.callback with
  | some id =>
    { w with callback := none, phase := .reading left, chan := w.chan.answer id (.ok { head := msg.head, body }) }
  | none =>
    -- Getting here is likely a bug! The response is dropped with its body.
    (body.elim w fun j => w.onBody j .dropReceiver).fail .newUnexpectedMessage

variable [Httparse]

def pollReadHead (w : World) (left : Nat) : World :=
  match w.callback with
  | none => { w.close with phase := .reading left }
  | some id =>
    if w.chan.isCanceled id then { w.close with phase := .reading left }
    else
      let (res, conn) := w.conn.pollReadHead
      let w := { w with conn }
      match res with
      | .pending => { w with phase := .writing left false }
      | .ready (some (.ok msg)) => w.recvHead left msg
      | .ready (some (.error e)) =>
        match w.recvErr e with
        | (true, w) => { w.close with phase := .reading left }
        | (false, w) => w.fail e
      | .ready none => if w.conn.isWriteClosed then { w.close with phase := .reading left } else { w with phase := .reading left }

/-- `poll_read` with the sender of a body, which was taken out of its guard. -/
def pollReadStream (w : World) (left : Nat) (j : Nat) : World :=
  if w.conn.canReadBody then
    match (w.bodies[j]?.map Incoming.pollReady).getD .pending with
    | .pending => { w with bodyTx := some j, phase := .writing left false }
    | .ready (.error _) =>
      -- The user doesn't care about the body, so we should stop reading.
      { w with conn := w.conn.pollDrainOrCloseRead, phase := .reading left }.dropBodyTx j
    | .ready (.ok ()) =>
      let (res, conn) := w.conn.pollReadBody
      let w := { w with conn }
      match res with
      | .ready (some (.ok frame)) => { w with phase := .sending left j frame }
      | .ready none => { w with phase := .reading left }.dropBodyTx j
      | .pending => { w with bodyTx := some j, phase := .writing left false }
      | .ready (some (.error e)) =>
        { w with phase := .reading left }.onBody j fun b => (b.sendError (.newBody e.text)).dropSender
  -- Just drop, the body will close automatically.
  else { w with phase := .reading left }.dropBodyTx j

def stepReading (w : World) (left : Nat) : World :=
  if w.isClosing then { w with phase := .writing left false }
  else if w.conn.canReadHead then w.pollReadHead left
  else
    match w.bodyTx with
    | some j => { w with bodyTx := none }.pollReadStream left j
    | none =>
      let (res, conn) := w.conn.pollReadKeepAlive
      let w := { w with conn }
      match res with
      | .ready (.error e) => w.fail e
      | _ => { w with phase := .writing left false }

def sendFrame (b : Incoming) (frame : Frame) : Bool × Incoming :=
  match frame with
  | .data chunk => b.sendData chunk
  | .trailers t => b.sendTrailers t

/-- The rest of the round of `poll_read` that has read a frame. -/
def stepSending (w : World) (left : Nat) (j : Nat) (frame : Frame) : World :=
  let sent := (w.bodies[j]?.map fun b => (sendFrame b frame).1).getD false
  let w := { w with phase := .reading left }.onBody j fun b => (sendFrame b frame).2
  if sent then { w with bodyTx := some j }
  else
    let w := w.dropBodyTx j
    if w.conn.canReadBody then { w with conn := w.conn.closeRead } else w

/-! ### Writing -/

def endWrite (w : World) (left : Nat) (again ready : Bool) : World :=
  if again then { w with phase := if ready then nextRound left else .inner }
  else { w with phase := .flushing left ready }

/-- `?` on a result of the connection, in the loop of `poll_write` -/
def orFail (w : World) (left : Nat) (again : Bool) (res : Except Error Unit) : World :=
  match res with
  | .ok () => { w with phase := .writing left again }
  | .error e => w.fail e

def endBody (w : World) (left : Nat) (again : Bool) : World :=
  { w with conn := w.conn.endBody.2 }.orFail left again w.conn.endBody.1

/-- A request whose promise is still waited for. -/
def writeRequest (w : World) (left : Nat) (again : Bool) (id : Nat) (req : Request) : World :=
  let w := { w with callback := some id, written := w.written ++ [id] }
  let bodyType := req.body.bodyType
  let w := { w with bodyRx := if bodyType.isNone then none else some req.body }
  match w.conn.writeHead req.head bodyType with
  | some conn => { w with conn, phase := .writing left again }
  -- The encoder panics on the version.
  | none => w.drop true

/-- `Client::poll_msg`, and what `poll_write` makes of it. -/
def pollMsg (w : World) (left : Nat) (again : Bool) : World :=
  match w.chan.pollRecv with
  | (.ready (some (id, req)), chan) =>
    if chan.isCanceled id then { w with chan := chan.dropCallback id false }.close.endWrite left again true
    else { w with chan }.writeRequest left again id req
  | (.ready none, chan) => { w with chan, rxClosed := true }.close.endWrite left again true
  | (.pending, chan) => { w with chan, phase := .wanting left again }

/-- A chunk of the user's body. `eos` says whether it is the last. -/
def writeChunk (w : World) (left : Nat) (again : Bool) (chunk : Bytes) (eos : Bool) : World :=
  if eos then
    let w := { w with bodyRx := none }
    if chunk = [] then w.endBody left again
    else { w with conn := w.conn.writeBodyAndEnd chunk, phase := .writing left again }
  else if chunk = [] then { w with phase := .writing left again }
  else { w with conn := w.conn.writeBody chunk, phase := .writing left again }

/-- A round of `poll_write` with a user body. -/
def writeUserBody (w : World) (left : Nat) (again : Bool) (body : UserBody) : World :=
  if !w.conn.canWriteBody then { w with bodyRx := none, phase := .writing left again }
  else
    let (res, eos, body) := body.pollFrame
    let w := { w with bodyRx := some body }
    match res with
    | .pending => w.endWrite left again false
    | .error text => { w with bodyRx := none }.fail (.newUserBody text)
    | .none => { w with bodyRx := none }.endBody left again
    | .frame (.data chunk) => w.writeChunk left again chunk eos
    | .frame (.trailers t) => { w with bodyRx := none, conn := w.conn.writeTrailers t, phase := .writing left again }

def stepWriting (w : World) (left : Nat) (again : Bool) : World :=
  if w.isClosing then w.endWrite left again true
  else if w.bodyRx.isNone && w.conn.canWriteHead && w.shouldPoll then w.pollMsg left again
  else if !w.conn.canBufferBody then
    let (res, conn) := w.conn.pollFlush
    let w := { w with conn }
    match res with
    | .pending => w.endWrite left again false
    | .ready res => w.orFail left again (res.mapError .newBodyWrite)
  else
    match w.bodyRx with
    | some body => w.writeUserBody left again body
    | none => if w.conn.canWriteBody then w.endBody left again else w.endWrite left again false

/-- The receiver signals that it wants, and `poll_write` returns. -/
def stepWanting (w : World) (left : Nat) (again : Bool) : World := { w with chan := w.chan.want }.endWrite left again false

def canWriteAgain (w : World) : Bool := !w.isClosing && w.bodyRx.isSome && w.conn.canWriteBody

/-- `poll_flush`, and what is left of the round of `poll_loop`. -/
def stepFlushing (w : World) (left : Nat) (writeReady : Bool) : World :=
  let (res, conn) := w.conn.pollFlush
  let w := { w with conn }
  match res with
  | .ready (.error e) => w.fail (.newBodyWrite e)
  | res =>
    let wantsWriteAgain := w.canWriteAgain && (writeReady || res.isReady)
    let (wantsReadAgain, conn) := w.conn.wantsReadAgain
    let w := { w with conn }
    if !(wantsWriteAgain || wantsReadAgain) then { w with phase := .inner }
    else if !wantsReadAgain then { w with phase := .writing left true }
    else { w with phase := nextRound left }

/-! ### The end of a poll -/

def isDone (w : World) : Bool := w.isClosing || w.conn.isReadClosed

def complete (w : World) (res : Dispatched) : World :=
  let (err, conn) := w.conn.takeError
  let w := { w with conn }
  match err with
  | some e => w.fail e
  | none => { w with phase := .finished (.ok res) }

def stepInner (w : World) : World :=
  if w.isDone then
    let (upgrade, conn) := w.conn.pendingUpgrade
    let w := { w with conn }
    if upgrade then w.complete .upgrade
    else if w.shouldShutdown then
      let (res, conn) := w.conn.pollShutdown
      let w := { w with conn }
      match res with
      | .pending => { w with phase := .parked }
      | .ready (.error e) => w.fail (.newShutdown e)
      | .ready (.ok ()) => w.complete .shutdown
    else w.complete .shutdown
  else { w with phase := .parked }

def step (w : World) : World :=
  match w.phase with
  | .reading left => w.stepReading left
  | .sending left j frame => w.stepSending left j frame
  | .writing left again => w.stepWriting left again
  | .wanting left again => w.stepWanting left again
  | .flushing left writeReady => w.stepFlushing left writeReady
  | .inner => w.stepInner
  | .parked | .finished _ | .gone => w

/-! ### Everybody -/

inductive Action where
  /-- The runtime polls the task, with or without a shutdown at its end. -/
  | poll (shouldShutdown : Bool)
  | step
  /-- The runtime drops the task between polls. -/
  | drop
  /-- A `try_send` is allowed, or not. -/
  | give (req : Request)
  | push
  | dropSender
  | cancel (id : Nat)
  | pollFrame (body : Nat)
  | dropBody (body : Nat)

def act (w : World) : Action → World
  | .poll shouldShutdown => if w.phase = .parked then { w with shouldShutdown, phase := .reading 15 } else w
  | .step => w.step
  | .drop =>
    match w.phase with
    | .parked | .finished _ => w.drop false
    | _ => w
  | .give req => { w with chan := w.chan.give req }
  | .push => { w with chan := w.chan.push }
  | .dropSender => { w with chan := w.chan.dropSender }
  | .cancel id => { w with chan := w.chan.cancel id }
  | .pollFrame j => w.onBody j .pollFrame
  | .dropBody j => w.onBody j .dropReceiver

/-- A run: any order of actions of the task and of the others. -/
def run (w : World) (actions : List Action) : World := actions.foldl act w

end World

end Hwire.Http1
