import Hwire.Http2.Ping
import Hwire.Http2.Pipe

/-!
# An HTTP/2 connection and its futures

The client task next to the futures that the executor holds for it: one that drives the connection, one for each response
that is waited for, one for each request body that is being sent. They hold each other by handles: a recorder of pings
each, a sender that keeps the connection open, and a channel on which a caller that gives up tells the body. Streams are
named by their callbacks. What the `http2` crate answers comes with the actions.
-/

namespace Hwire.Http2
open Lib Headers Dispatch

/-- `PipeMap`, with whether it still has its `cancel_rx` -/
structure PipeMap where
  cb : Nat
  cancelRx : Bool := true
  deriving DecidableEq

/-- What a poll of a `PipeToSendStream` comes to. As `ResetOnce` says, it has reset its stream if the body of the user has
failed, and only then. -/
inductive PipePolled where
  | pending
  | ready
  | failed (e : BodyError)
  deriving DecidableEq

/-- Where `send_reset` is called: in `PipeMap`, in `on_user_err`, and for a `CONNECT` whose response has a body. -/
inductive ResetSite where
  | pipeMap | userErr | connect
  deriving DecidableEq

structure Reset where
  site : ResetSite
  reason : String
  deriving DecidableEq

/-- What `ConnTask` has next to the connection -/
structure ConnTask where
  dropRxTerminated : Bool := false
  cancelTx : Bool := true
  deriving DecidableEq

structure Connection where
  task : ClientTask := {}
  ponger : Option Ponger := none
  connTask : Option ConnTask := some {}
  /-- The senders of the channel that `drop_rx` receives from. -/
  connDropRefs : Nat := 1
  pipes : List PipeMap := []
  /-- The streams of which somebody holds the response body or the tunnel, with a recorder in it. -/
  bodies : List Nat := []
  /-- The streams whose `cancel_tx` has been used. -/
  cancelled : List Nat := []
  resets : List (Nat × Reset) := []
  /-- The windows that the connection was told to use. -/
  windows : List Nat := []
  /-- `expect("ConnTask Future polled twice")` has failed. -/
  panicked : Bool := false

def Config.isEnabled (config : Config) : Bool := config.bdpInitialWindow.isSome || config.keepAliveInterval.isSome

namespace Connection

def handshake (config : Config) (now : Nat) (readies : List (Poll (Except H2Error Unit)))
    (sends : List (Except H2Error Unit)) : Connection where
  task := { readies, sends }
  ponger := if config.isEnabled then some (channel config now) else none

/-! ### Recorders -/

/-- A recorder that is disabled is not counted. -/
def cloneRecorder (c : Connection) : Connection :=
  { c with ponger := c.ponger.map fun p => { p with strongCount := p.strongCount + 1 } }

def dropRecorder (c : Connection) : Connection :=
  { c with ponger := c.ponger.map fun p => { p with strongCount := p.strongCount - 1 } }

def recordData (c : Connection) (answers : Answers) (len : Nat) : Connection :=
  { c with ponger := c.ponger.map fun p => { p with answers }.recordData len }

def recordNonData (c : Connection) (answers : Answers) : Connection :=
  { c with ponger := c.ponger.map fun p => { p with answers }.recordNonData }

/-! ### The client task -/

/-- What `poll_pipe` is called with, if this step of the task calls it. -/
def spawning (t : ClientTask) : Option FutCtx :=
  if t.sendTasks.length < t.step.sendTasks.length then
    match t.futCtx, t.chan.queue with
    | some f, _ => some f
    | none, (id, req) :: _ => some { isConnect := req.isConnect, eos := req.isEndStream, cb := id }
    | none, [] => none
  else none

/-- `poll_pipe`, with the first poll of the pipe -/
def pollPipe (c : Connection) (f : FutCtx) (polled : PipePolled) : Connection :=
  let c := c.cloneRecorder
  if !f.isConnect && !f.eos then
    match polled with
    | .pending => { c.cloneRecorder with connDropRefs := c.connDropRefs + 1, pipes := { cb := f.cb } :: c.pipes }
    | .ready => c
    | .failed e => { c with resets := c.resets ++ [(f.cb, ⟨.userErr, e.h2Reason⟩)] }
  else c

def step (c : Connection) (polled : PipePolled) : Connection :=
  let stepped := { c with task := c.task.step }
  match spawning c.task with
  | some f => stepped.pollPipe f polled
  | none => stepped

def drop (c : Connection) : Connection :=
  match c.task.phase with
  | .gone => c
  | _ => { c with task := c.task.drop, connDropRefs := c.connDropRefs - 1 }.dropRecorder

/-! ### Responses -/

/-- The recorder goes into the response, unless nobody takes the response. -/
def respond (c : Connection) (cb : Nat) : Connection :=
  if c.task.chan.isCanceled cb then c.dropRecorder else { c with bodies := cb :: c.bodies }

/-- A poll of a `SendWhen`. The flag says whether the stream of a response is already at its end. -/
def pollSend (c : Connection) (i : Nat) (res : Poll (Except H2Error ResponseHead)) (isEndStream : Bool)
    (answers : Answers) : Connection :=
  match c.task.sendTasks[i]? with
  | none => c
  | some task =>
    let polled := { c with task := c.task.pollSend i res }
    match res with
    | .pending =>
      -- Tell the pipe to reset the stream.
      if c.task.chan.isCanceled task.cb then { polled with cancelled := task.cb :: c.cancelled }.dropRecorder else polled
    | .ready (.error _) => polled.dropRecorder
    | .ready (.ok head) =>
      -- Record that we got the response headers.
      let polled := polled.recordNonData answers
      if task.isConnect && head.subject = 200 then
        if (contentLengthParseAll head.headers).any (· ≠ 0) then
          { polled with resets := polled.resets ++ [(task.cb, Reset.mk .connect internalError.text)] }.dropRecorder
        else polled.respond task.cb
      else if isEndStream then polled.dropRecorder
      else polled.respond task.cb

def dropSend (c : Connection) (i : Nat) : Connection :=
  match c.task.sendTasks[i]? with
  | none => c
  | some _ => { c with task := c.task.dropSend i }.dropRecorder

/-- A frame of a response body is taken: data, or none. -/
def readBody (c : Connection) (cb : Nat) (len : Option Nat) (answers : Answers) : Connection :=
  if cb ∈ c.bodies then
    match len with
    | some len => c.recordData answers len
    | none => c.recordNonData answers
  else c

def dropBody (c : Connection) (cb : Nat) : Connection :=
  if cb ∈ c.bodies then { c with bodies := c.bodies.erase cb }.dropRecorder else c

/-! ### Request bodies -/

/-- `cancel_rx`: a value, or an error once the sender is dropped without one -/
def pollCancelRx (c : Connection) (cb : Nat) : Poll (Except Unit Unit) :=
  if cb ∈ c.cancelled then .ready (.ok ())
  else if cb ∈ c.task.sendTasks.map SendWhen.cb then .pending
  else .ready (.error ())

def endPipe (c : Connection) (i : Nat) : Connection :=
  { c with pipes := c.pipes.eraseIdx i, connDropRefs := c.connDropRefs - 1 }.dropRecorder

/-- The poll of the pipe in a `PipeMap` -/
def pollPipeStream (c : Connection) (i cb : Nat) (polled : PipePolled) : Connection :=
  match polled with
  | .pending => c
  | .ready => c.endPipe i
  | .failed e => { c.endPipe i with resets := c.resets ++ [(cb, ⟨.userErr, e.h2Reason⟩)] }

/-- A poll of a `PipeMap`, with what its pipe would say -/
def pollPipeMap (c : Connection) (i : Nat) (polled : PipePolled) : Connection :=
  match c.pipes[i]? with
  | none => c
  | some pipe =>
    match if pipe.cancelRx then some (c.pollCancelRx pipe.cb) else none with
    | some (.ready (.ok ())) => { c.endPipe i with resets := c.resets ++ [(pipe.cb, ⟨.pipeMap, "CANCEL"⟩)] }
    | some (.ready (.error ())) =>
      -- Stop polling the receiver.
      let c := { c with pipes := c.pipes.set i { pipe with cancelRx := false } }
      c.pollPipeStream i pipe.cb polled
    | some .pending | none => c.pollPipeStream i pipe.cb polled

def dropPipe (c : Connection) (i : Nat) : Connection := if i < c.pipes.length then c.endPipe i else c

/-! ### The connection task -/

/-- The task is dropped with its ponger and its `cancel_tx`. -/
def endConn (c : Connection) : Connection :=
  { c with connTask := none, task := { c.task with connEof := true } }.dropRecorder

/-- A poll of the ponger, and whether the connection has timed out -/
def pollPonger (c : Connection) (answers : Answers) : Bool × Connection :=
  match c.ponger with
  | none => (false, c)
  | some p =>
    let (res, p) := { p with answers }.poll
    let c := { c with ponger := some p }
    match res with
    | .ready (.sizeUpdate window) => (false, { c with windows := c.windows ++ [window] })
    | .ready .keepAliveTimedOut => (true, { c with task := { c.task with isKeepAliveTimedOut := true } })
    | .pending => (false, c)

/-- `drop_rx` has nothing to receive, and ends when its senders are gone. -/
def pollDropRx (c : Connection) (conn : ConnTask) : Connection :=
  if !conn.dropRxTerminated && c.connDropRefs = 0 then
    { c with
      connTask := some { dropRxTerminated := true, cancelTx := false }
      panicked := c.panicked || !conn.cancelTx
      task := { c.task with connEof := true } }
  else c

/-- A poll of `ConnTask`, with whether the connection of the crate is ready, or refuses a window -/
def pollConn (c : Connection) (ready : Bool) (answers : Answers) : Connection :=
  match c.connTask with
  | none => c
  | some conn =>
    match c.pollPonger answers with
    | (true, c) => c.endConn
    | (false, c) => if ready then c.endConn else c.pollDropRx conn

def dropConn (c : Connection) : Connection := if c.connTask.isSome then c.endConn else c

/-! ### Everybody -/

inductive Action where
  | step (polled : PipePolled)
  | drop
  | pollSend (i : Nat) (res : Poll (Except H2Error ResponseHead)) (isEndStream : Bool) (answers : Answers)
  | dropSend (i : Nat)
  | readBody (cb : Nat) (len : Option Nat) (answers : Answers)
  | dropBody (cb : Nat)
  | pollPipe (i : Nat) (polled : PipePolled)
  | dropPipe (i : Nat)
  | pollConn (ready : Bool) (answers : Answers)
  | dropConn
  | trySend (req : Request)
  | cloneSender
  | dropSender
  | cancel (id : Nat)

def act (c : Connection) : Action → Connection
  | .step polled => c.step polled
  | .drop => c.drop
  | .pollSend i res isEndStream answers => c.pollSend i res isEndStream answers
  | .dropSend i => c.dropSend i
  | .readBody cb len answers => c.readBody cb len answers
  | .dropBody cb => c.dropBody cb
  | .pollPipe i polled => c.pollPipeMap i polled
  | .dropPipe i => c.dropPipe i
  | .pollConn ready answers => c.pollConn ready answers
  | .dropConn => c.dropConn
  | .trySend req => { c with task := c.task.act (.trySend req) }
  | .cloneSender => { c with task := c.task.act .cloneSender }
  | .dropSender => { c with task := c.task.act .dropSender }
  | .cancel id => { c with task := c.task.act (.cancel id) }

/-- A run: any order of actions of the futures, the callers and the users of bodies. -/
def run (c : Connection) (actions : List Action) : Connection := actions.foldl act c

end Connection

end Hwire.Http2
