import Hwire.Dispatch
import Hwire.Headers

/-!
# The HTTP/2 client task

The task that takes requests from the channel and passes them to the `http2` crate, with the futures that wait for the
responses. What the crate answers is a script; the executor polls and drops the futures at any time.
-/

namespace Hwire.Http2
open Lib Headers Dispatch

/-! ### Request heads -/

/-- The connection headers, less `TE`, which is allowed in requests as long as its value is "trailers". -/
def connectionHeaders : List HeaderName :=
  [headerName "keep-alive", headerName "proxy-connection", .transferEncoding, headerName "upgrade"]

/-- `headers.remove(name)` with a name that may not be valid -/
def removeNamed (headers : HeaderMap) (name : Bytes) : HeaderMap :=
  (HeaderName.fromBytes name).elim headers headers.remove

def stripConnectionHeaders (headers : HeaderMap) (isRequest : Bool) : HeaderMap :=
  let headers := connectionHeaders.foldl MultiMap.remove headers
  let headers :=
    if isRequest then
      if (headers.get .te).any fun te => te.bytes != ascii "trailers" then headers.remove .te else headers
    else headers.remove .te
  match headers.get .connection with
  | some header =>
    let headers := headers.remove .connection
    match header.toStr with
    | some headerContents => (splitComma headerContents).foldl (fun headers name => removeNamed headers (trim name)) headers
    | none => headers
  | none => headers

/-- A request, with what the task asks its body and its `OnPreserveHeader` extension for. -/
structure Request where
  head : RequestHead
  headerSort : Option (HeaderMap → HeaderMap) := none
  isEndStream : Bool := true
  exact : Option UInt64 := none

namespace Request

def headers (req : Request) : HeaderMap :=
  let headers := stripConnectionHeaders req.head.headers true
  let headers := match req.exact with
    | some len =>
      if len ≠ 0 || methodHasDefinedPayloadSemantics req.head.subject.method then
        setContentLengthIfMissing headers len.toNat
      else headers
    | none => headers
  req.headerSort.elim headers fun sort => sort headers

def isConnect (req : Request) : Bool := req.head.subject.method = .connect

end Request

/-- A `CONNECT` response makes the stream an upgraded connection. -/
structure Response where
  head : ResponseHead
  upgraded : Bool

/-! ### Errors -/

structure H2Error where
  io : Option IoError := none
  noError : Bool := false
  text : String

def newH2 (e : H2Error) : Error :=
  match e.io with
  | some io => .newIo io
  | none => { kind := .http2, cause := some e.text }

def internalError : H2Error := { text := "INTERNAL_ERROR" }

def keepAliveTimedOut : Error := { kind := .http2, cause := some "keep-alive timed out" }

def newUserInvalidConnect : Error := { kind := .user .invalidConnectWithBody }

/-! ### The task -/

structure FutCtx where
  isConnect : Bool
  eos : Bool
  cb : Nat

/-- `SendWhen`: a future that waits for a response. -/
structure SendWhen where
  isConnect : Bool
  cb : Nat

inductive Phase where
  | running
  /-- The future has returned; `Ok` is a shutdown. -/
  | finished (res : Except Error Unit)
  | gone

/-- The task and the futures it has spawned. `sent` lists the requests that were passed to `send_request`. -/
structure ClientTask where
  chan : Channel Request Response := {}
  futCtx : Option FutCtx := none
  sendTasks : List SendWhen := []
  connEof : Bool := false
  isKeepAliveTimedOut : Bool := false
  phase : Phase := .running
  readies : List (Poll (Except H2Error Unit)) := []
  sends : List (Except H2Error Unit) := []
  sent : List Nat := []

namespace ClientTask

def pollReady (t : ClientTask) : Poll (Except H2Error Unit) × ClientTask :=
  match t.readies with
  | [] => (.pending, t)
  | res :: rest => (res, { t with readies := rest })

def sendRequest (t : ClientTask) (id : Nat) : Except H2Error Unit × ClientTask :=
  let t := { t with sent := t.sent ++ [id] }
  match t.sends with
  | [] => (.ok (), t)
  | res :: rest => (res, { t with sends := rest })

/-- `poll_pipe`: the body goes to a future of its own, which knows nothing of the callback. -/
def pollPipe (t : ClientTask) (f : FutCtx) : ClientTask := { t with sendTasks := ⟨f.isConnect, f.cb⟩ :: t.sendTasks }

def refuse (t : ClientTask) (id : Nat) (error : Error) : ClientTask :=
  { t with chan := t.chan.answer id (.error { error, message := none }) }

def recv (t : ClientTask) (id : Nat) (req : Request) : ClientTask :=
  -- Check that the future hasn't been canceled already.
  if t.chan.isCanceled id then { t with chan := t.chan.dropCallback id false }
  else if req.isConnect && (contentLengthParseAll req.headers).any (· ≠ 0) then t.refuse id newUserInvalidConnect
  else
    match t.sendRequest id with
    | (.error err, t) => t.refuse id (newH2 err)
    | (.ok (), t) =>
      let f : FutCtx := { isConnect := req.isConnect, eos := req.isEndStream, cb := id }
      -- The new stream may be pending open, and then no new requests are accepted.
      match t.pollReady with
      | (.pending, t) => { t with futCtx := some f }
      | (.ready (.ok ()), t) => t.pollPipe f
      | (.ready (.error err), t) => t.refuse id (newH2 err)

/-- What the task returns when the connection is not ready any more. -/
def readyError (t : ClientTask) (err : H2Error) : Except Error Unit :=
  if t.isKeepAliveTimedOut then .error keepAliveTimedOut
  else if err.noError then .ok ()
  else .error (newH2 err)

/-- One round of the loop of `poll`, where the connection is ready. -/
def stepReady (t : ClientTask) : ClientTask :=
  match t.futCtx with
  | some f => { t with futCtx := none }.pollPipe f
  | none =>
    match t.chan.pollRecv with
    | (.ready (some (id, req)), chan) => { t with chan }.recv id req
    | (.ready none, chan) => { t with chan, phase := .finished (.ok ()) }
    | (.pending, chan) =>
      let t := { t with chan := chan.want }
      if t.connEof then { t with phase := .finished (.ok ()) } else t

def step (t : ClientTask) : ClientTask :=
  match t.phase with
  | .running =>
    match t.pollReady with
    | (.pending, t) => t
    | (.ready (.error err), t) => { t with phase := .finished (t.readyError err) }
    | (.ready (.ok ()), t) => t.stepReady
  | .finished _ | .gone => t

/-- The task is dropped, whether it has returned or not. -/
def drop (t : ClientTask) : ClientTask :=
  let t := match t.futCtx with
    | some f => { t with futCtx := none, chan := t.chan.dropCallback f.cb false }
    | none => t
  { t with chan := t.chan.dropReceiver, phase := .gone }

/-! ### Futures that wait for responses -/

/-- `ResponseFutMap`. An error never comes with the request. -/
def responseOf (t : ClientTask) (isConnect : Bool) (res : Except H2Error ResponseHead) : Outcome Request Response :=
  match res with
  | .ok head =>
    if isConnect && head.subject = 200 then
      if (contentLengthParseAll head.headers).any (· ≠ 0) then
        .error { error := newH2 internalError, message := none }
      else .ok { head, upgraded := true }
    else .ok { head, upgraded := false }
  | .error err =>
    .error { error := if t.isKeepAliveTimedOut then keepAliveTimedOut else newH2 err, message := none }

/-- A poll of a `SendWhen`, with what the response future of the crate says. -/
def pollSend (t : ClientTask) (i : Nat) (res : Poll (Except H2Error ResponseHead)) : ClientTask :=
  match t.sendTasks[i]? with
  | none => t
  | some task =>
    match res with
    | .ready res =>
      { t with sendTasks := t.sendTasks.eraseIdx i, chan := t.chan.answer task.cb (t.responseOf task.isConnect res) }
    | .pending =>
      if t.chan.isCanceled task.cb then
        { t with sendTasks := t.sendTasks.eraseIdx i, chan := t.chan.dropCallback task.cb false }
      else t

def dropSend (t : ClientTask) (i : Nat) : ClientTask :=
  match t.sendTasks[i]? with
  | none => t
  | some task => { t with sendTasks := t.sendTasks.eraseIdx i, chan := t.chan.dropCallback task.cb false }

/-! ### Everybody -/

inductive Action where
  | step
  | drop
  | pollSend (i : Nat) (res : Poll (Except H2Error ResponseHead))
  | dropSend (i : Nat)
  | trySend (req : Request)
  | cloneSender
  | dropSender
  | cancel (id : Nat)
  | connEof
  | keepAliveTimedOut

def act (t : ClientTask) : Action → ClientTask
  | .step => t.step
  | .drop => t.drop
  | .pollSend i res => t.pollSend i res
  | .dropSend i => t.dropSend i
  | .trySend req => { t with chan := t.chan.trySend req }
  | .cloneSender => { t with chan := t.chan.cloneSender }
  | .dropSender => { t with chan := t.chan.dropSender }
  | .cancel id => { t with chan := t.chan.cancel id }
  | .connEof => { t with connEof := true }
  | .keepAliveTimedOut => { t with isKeepAliveTimedOut := true }

/-- A run: any order of actions of the task, its futures and the others. -/
def run (t : ClientTask) (actions : List Action) : ClientTask := actions.foldl act t

end ClientTask

end Hwire.Http2
