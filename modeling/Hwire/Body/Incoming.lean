import Hwire.Error
import Hwire.Http1.ChunkedScan

/-!
# Incoming bodies

The channel through which a response body reaches the user: a data channel without buffer, in which a sender waits
after every item until one is taken, a single slot for trailers, and the signal that the user has polled. What the user
has seen is recorded.
-/

namespace Hwire.Body
open Lib Http1

/-- `Incoming::h1`, both halves of it. -/
structure Incoming where
  contentLength : DecodedLength
  items : List (Except Error Bytes) := []
  /-- The sender has used its slot and waits. -/
  parked : Bool := false
  /-- The value of the `want` watch: the user has polled for data. -/
  ready : Bool := true
  txAlive : Bool := true
  rxAlive : Bool := true
  trailersTx : Bool := true
  trailers : Option HeaderMap := none
  /-- The results of `poll_frame` that were ready; `none` is the end of the stream. -/
  observed : List (Option (Except Error Frame)) := []

namespace Incoming

def h1 (contentLength : DecodedLength) (wanter : Bool) : Incoming := { contentLength, ready := !wanter }

/-! ### The sender -/

def pollReady (b : Incoming) : Poll (Except Error Unit) :=
  if !b.rxAlive then .ready (.error .newClosed)
  else if !b.ready then .pending
  else if b.parked then .pending
  else .ready (.ok ())

/-- `Sender::send_data`. The flag says whether the chunk was taken. -/
def sendData (b : Incoming) (chunk : Bytes) : Bool × Incoming :=
  if !b.rxAlive || b.parked then (false, b)
  else (true, { b with items := b.items ++ [.ok chunk], parked := true })

def sendTrailers (b : Incoming) (trailers : HeaderMap) : Bool × Incoming :=
  if !b.trailersTx then (false, b)
  else if !b.rxAlive then (false, { b with trailersTx := false })
  else (true, { b with trailersTx := false, trailers := some trailers })

/-- `Sender::send_error`, through a clone of the sender, which always has a slot -/
def sendError (b : Incoming) (err : Error) : Incoming :=
  if !b.rxAlive then b else { b with items := b.items ++ [.error err] }

def dropSender (b : Incoming) : Incoming := { b with txAlive := false, trailersTx := false }

/-! ### The receiver -/

def subIf (len : DecodedLength) (amt : Nat) : DecodedLength :=
  match len with
  | .length known => .length (known - amt)
  | len => len

def observe (b : Incoming) (res : Option (Except Error Frame)) : Incoming := { b with observed := b.observed ++ [res] }

def pollFrame (b : Incoming) : Incoming :=
  if !b.rxAlive then b
  else
    let b := { b with ready := true }
    match b.items with
    | .ok chunk :: rest =>
      { b with items := rest, parked := false, contentLength := subIf b.contentLength chunk.length }.observe
        (some (.ok (.data chunk)))
    | .error err :: rest => { b with items := rest, parked := false }.observe (some (.error err))
    | [] =>
      if b.txAlive then b
      else
        -- Check trailers after data is terminated.
        match b.trailers with
        | some t => { b with trailers := none }.observe (some (.ok (.trailers t)))
        | none => if b.trailersTx then b else b.observe none

def isEndStream (b : Incoming) : Bool := b.contentLength = .ZERO

/-- The user drops the body, and the items in it are dropped too. -/
def dropReceiver (b : Incoming) : Incoming := { b with rxAlive := false, items := [] }

/-- The user polls until a stream whose sender is gone has come to its end. -/
def drained (b : Incoming) : Incoming := pollFrame^[b.items.length + 2] b

/-! ### What the user has seen -/

/-- The frames that the user was given, up to the first error or end. -/
def framesSeen : List (Option (Except Error Frame)) → List Frame
  | some (.ok frame) :: rest => frame :: framesSeen rest
  | _ => []

/-- The user has been given the end of the stream, and no error before it. -/
def endsCleanly : List (Option (Except Error Frame)) → Bool
  | some (.ok _) :: rest => endsCleanly rest
  | some (.error _) :: _ => false
  | none :: _ => true
  | [] => false

def sawError (observed : List (Option (Except Error Frame))) : Bool := observed.any fun
  | some (.error _) => true
  | _ => false

end Incoming

end Hwire.Body
