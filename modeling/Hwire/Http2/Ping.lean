import Hwire.Io

/-!
# Pings

The ping slot of an HTTP/2 connection with its two users: the estimate of the bandwidth-delay product and keep-alive.
Times are in nanoseconds, the clock moves on before any of its readings, and the comparison of bandwidths is left to the
environment. Wakers are not modelled.
-/

namespace Hwire.Http2
open Lib

structure Config where
  bdpInitialWindow : Option Nat
  keepAliveInterval : Option Nat
  keepAliveTimeout : Nat
  keepAliveWhileIdle : Bool

def Config.new (adaptiveWindow : Bool) (initialWindowSize : Nat) (keepAliveInterval : Option Nat) (keepAliveTimeout : Nat)
    (keepAliveWhileIdle : Bool) : Config where
  bdpInitialWindow := if adaptiveWindow then some initialWindowSize else none
  keepAliveInterval
  keepAliveTimeout
  keepAliveWhileIdle

structure Bdp where
  bdp : Nat
  pingDelay : Nat := 100000000
  stableCount : Nat := 0

inductive KeepAliveState where
  | init
  | scheduled (instant : Nat)
  | pingSent
  deriving DecidableEq

/-- The sleep is its deadline. -/
structure KeepAlive where
  interval : Nat
  timeout : Nat
  whileIdle : Bool
  state : KeepAliveState
  sleep : Nat

structure Shared where
  pingSentAt : Option Nat := none
  bytes : Option Nat
  nextBdpAt : Option Nat
  lastReadAt : Option Nat
  isKeepAliveTimedOut : Bool := false

inductive Ponged where
  | sizeUpdate (window : Nat)
  | keepAliveTimedOut
  deriving DecidableEq

/-- What the environment answers to the calls of one step: how far the clock has moved at each reading, whether
`send_ping` succeeds, what `poll_pong` returns, whether the bandwidth is below its maximum, and the readings of
`Instant::now`. -/
structure Answers where
  ticks : List Nat := []
  sends : List Bool := []
  pongs : List (Poll (Except Unit Unit)) := []
  slower : List Bool := []
  instants : List Nat := []

/-- What has happened, with the time. -/
inductive PingEvent where
  | read (time : Nat)
  | keepAlivePing (time : Nat) (isIdle : Bool)
  | pingSent (time : Nat)
  | pong
  | timedOut (time : Nat)
  deriving DecidableEq

/-- The ponger with what it shares. `strongCount` counts the holders of the shared part. -/
structure Ponger where
  clock : Nat
  answers : Answers := {}
  shared : Shared
  strongCount : Nat := 2
  bdp : Option Bdp
  keepAlive : Option KeepAlive
  log : List PingEvent

def channel (config : Config) (now : Nat) : Ponger where
  clock := now
  shared :=
    { bytes := config.bdpInitialWindow.map fun _ => 0
      nextBdpAt := config.bdpInitialWindow.map fun _ => now
      lastReadAt := config.keepAliveInterval.map fun _ => now }
  bdp := config.bdpInitialWindow.map fun window => { bdp := window }
  keepAlive := config.keepAliveInterval.map fun interval =>
    { interval, timeout := config.keepAliveTimeout, whileIdle := config.keepAliveWhileIdle, state := .init
      sleep := now + interval }
  log := (config.keepAliveInterval.map fun _ => .read now).toList

/-! ### The bandwidth-delay product -/

def BDP_LIMIT : Nat := 1024 * 1024 * 16

namespace Bdp

def stabilizeDelay (bdp : Bdp) : Bdp :=
  if bdp.pingDelay < 10000000000 then
    if bdp.stableCount + 1 ≥ 2 then { bdp with pingDelay := bdp.pingDelay * 4, stableCount := 0 }
    else { bdp with stableCount := bdp.stableCount + 1 }
  else bdp

def calculate (bdp : Bdp) (bytes : Nat) (slower : Bool) : Bdp × Option Nat :=
  if bdp.bdp = BDP_LIMIT then (bdp.stabilizeDelay, none)
  else if slower then (bdp.stabilizeDelay, none)
  else if bytes ≥ bdp.bdp * 2 / 3 then
    let window := min (bytes * 2) BDP_LIMIT
    ({ bdp := window, stableCount := 0, pingDelay := bdp.pingDelay / 2 }, some window)
  else (bdp.stabilizeDelay, none)

end Bdp

/-! ### Keep-alive -/

namespace KeepAlive

def schedule (ka : KeepAlive) (shared : Shared) : KeepAlive :=
  let interval := shared.lastReadAt.getD 0 + ka.interval
  { ka with state := .scheduled interval, sleep := interval }

def maybeSchedule (ka : KeepAlive) (isIdle : Bool) (shared : Shared) : KeepAlive :=
  match ka.state with
  | .init => if !ka.whileIdle && isIdle then ka else ka.schedule shared
  | .pingSent => if shared.pingSentAt.isSome then ka else ka.schedule shared
  | .scheduled _ => ka

end KeepAlive

namespace Ponger

/-- A reading of the clock, which is found in `clock`. -/
def tick (p : Ponger) : Ponger :=
  { p with clock := p.clock + p.answers.ticks.headD 0, answers := { p.answers with ticks := p.answers.ticks.tail } }

def note (p : Ponger) (event : PingEvent) : Ponger := { p with log := p.log ++ [event] }

def sendPing (p : Ponger) : Ponger :=
  let sent := p.answers.sends.headD true
  let p := { p with answers := { p.answers with sends := p.answers.sends.tail } }
  if sent then
    let p := p.tick
    { p with shared := { p.shared with pingSentAt := some p.clock } }
  else p

def updateLastReadAt (p : Ponger) : Ponger :=
  if p.shared.lastReadAt.isSome then
    let p := p.tick
    { p with shared := { p.shared with lastReadAt := some p.clock } }.note (.read p.clock)
  else p

def maybePing (p : Ponger) (ka : KeepAlive) (isIdle : Bool) : Ponger × KeepAlive :=
  match ka.state with
  | .scheduled instant =>
    let p := p.tick
    if p.clock < ka.sleep then (p, ka)
    -- A frame was received while the ping was scheduled.
    else if p.shared.lastReadAt.getD 0 + ka.interval > instant then (p, { ka with state := .init })
    else if !ka.whileIdle && isIdle then (p, ka)
    else
      let p := (p.note (.keepAlivePing p.clock isIdle)).sendPing.tick
      (p.note (.pingSent p.clock), { ka with state := .pingSent, sleep := p.clock + ka.timeout })
  | .init | .pingSent => (p, ka)

/-- Whether the timeout was reached. -/
def maybeTimeout (p : Ponger) (ka : KeepAlive) : Ponger × Bool :=
  match ka.state with
  | .pingSent =>
    let p := p.tick
    (p, decide (¬ p.clock < ka.sleep))
  | .init | .scheduled _ => (p, false)

/-- What both places of `poll` do with a keep-alive. -/
def keepAliveRound (p : Ponger) (isIdle : Bool) : Ponger :=
  match p.keepAlive with
  | some ka =>
    let (p, ka) := p.maybePing (ka.maybeSchedule isIdle p.shared) isIdle
    { p with keepAlive := some ka }
  | none => p

def isIdle (p : Ponger) : Bool := p.strongCount ≤ 2

def pollPong (p : Ponger) : Poll (Except Unit Unit) × Ponger :=
  (p.answers.pongs.headD .pending, { p with answers := { p.answers with pongs := p.answers.pongs.tail } })

/-- The acknowledgement of a BDP ping, which was polled at `now`. -/
def bdpAck (p : Ponger) (bdp : Bdp) (now : Nat) : Poll Ponged × Ponger :=
  let (bdp, update) := bdp.calculate (p.shared.bytes.getD 0) (p.answers.slower.headD false)
  let p := { p with
    answers := { p.answers with slower := p.answers.slower.tail }, bdp := some bdp
    shared := { p.shared with bytes := some 0, nextBdpAt := some (now + bdp.pingDelay) } }
  match update with
  | some update => (.ready (.sizeUpdate update), p)
  | none => (.pending, p)

/-- The slot is free again, which a keep-alive takes as a read. -/
def recvPong (p : Ponger) (isIdle : Bool) : Ponger :=
  let p := { p with shared := { p.shared with pingSentAt := none } }.note .pong
  if p.keepAlive.isSome then p.updateLastReadAt.keepAliveRound isIdle else p

/-- What is left to do when no pong has come. -/
def pollTimeout (p : Ponger) : Poll Ponged × Ponger :=
  match p.keepAlive with
  | some ka =>
    match p.maybeTimeout ka with
    | (p, true) =>
      (.ready .keepAliveTimedOut,
        { p with keepAlive := none, shared := { p.shared with isKeepAliveTimedOut := true } }.note (.timedOut p.clock))
    | (p, false) => (.pending, p)
  | none => (.pending, p)

/-- The part of `poll` that looks for the pong of a ping that is out. -/
def pollAnswer (p : Ponger) (isIdle : Bool) (now : Nat) : Poll Ponged × Ponger :=
  match p.pollPong with
  | (.ready (.ok ()), p) =>
    let p := p.recvPong isIdle
    match p.bdp with
    | some bdp => p.bdpAck bdp now
    | none => (.pending, p)
  | (.ready (.error ()), p) => (.pending, p)
  | (.pending, p) => p.pollTimeout

def poll (p : Ponger) : Poll Ponged × Ponger :=
  let p := p.tick
  let now := p.clock
  let isIdle := p.isIdle
  let p := p.keepAliveRound isIdle
  if p.shared.pingSentAt.isNone then (.pending, p) else p.pollAnswer isIdle now

/-! ### The recorders -/

/-- It is too early for the next BDP ping. -/
def beforeNextBdp (p : Ponger) : Bool :=
  match p.shared.nextBdpAt with
  | some nextBdpAt => decide (p.answers.instants.headD 0 < nextBdpAt)
  | none => false

def recordBytes (p : Ponger) (len : Nat) : Ponger :=
  match p.shared.bytes with
  | some bytes =>
    let p := { p with shared := { p.shared with bytes := some (bytes + len) } }
    if p.shared.pingSentAt.isNone then p.sendPing else p
  -- A BDP ping need not be sent when BDP is disabled.
  | none => p

/-- `Recorder::record_data` of a recorder that is not disabled. -/
def recordData (p : Ponger) (len : Nat) : Ponger :=
  let p := p.updateLastReadAt
  if p.beforeNextBdp then p else { p with shared := { p.shared with nextBdpAt := none } }.recordBytes len

def recordNonData (p : Ponger) : Ponger := p.updateLastReadAt

/-! ### Runs -/

/-- A call in any environment. -/
inductive Step (p : Ponger) : Ponger → Prop where
  | poll (answers : Answers) : Step p { p with answers }.poll.2
  | recordData (answers : Answers) (len : Nat) : Step p ({ p with answers }.recordData len)
  | recordNonData (answers : Answers) : Step p { p with answers }.recordNonData
  | cloned : Step p { p with strongCount := p.strongCount + 1 }
  | dropped : Step p { p with strongCount := p.strongCount - 1 }

abbrev Steps : Ponger → Ponger → Prop := Relation.ReflTransGen Step

end Ponger

end Hwire.Http2
