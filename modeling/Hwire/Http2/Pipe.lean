import Hwire.Lib.History
import Hwire.Http2.Client

/-!
# The body pipe

`PipeToSendStream` takes the frames of a request body and passes them to the send stream of the `http2` crate. The body
and the stream answer as they like: what they say may depend on everything that was called before. `history` keeps these
calls; the code does not have it.
-/

namespace Hwire.Http2
open Lib

/-! ### The body and the stream -/

inductive BodyFrame (D : Type) where
  | data (chunk : D)
  | trailers (fields : HeaderMap)
  | unknown

/-- An error of the user's body, with the reason of an `http2` error in its cause. -/
structure BodyError where
  text : String
  reason : Option String := none
  deriving DecidableEq

def BodyError.h2Reason (e : BodyError) : String := e.reason.getD internalError.text

/-- A call on the body or on the stream, with what it returned. -/
inductive Event (D : Type) where
  | pollReset (res : Poll (Except H2Error H2Error))
  | capacity (n : Nat)
  | pollCapacity (res : Poll (Option (Except H2Error Nat)))
  | pollFrame (res : Poll (Option (Except BodyError (BodyFrame D))))
  | reserveCapacity (n : Nat)
  /-- No data is `SendBuf::None`. -/
  | sendData (data : Option D) (isEos : Bool) (res : Except H2Error Unit)
  | sendTrailers (fields : HeaderMap) (res : Except H2Error Unit)
  | sendReset (reason : String)

/-- The answers to the next call. The reason of a reset is an error of its own. -/
structure Peer (D : Type) where
  pollReset : List (Event D) → Poll (Except H2Error H2Error)
  capacity : List (Event D) → Nat
  pollCapacity : List (Event D) → Poll (Option (Except H2Error Nat))
  pollFrame : List (Event D) → Poll (Option (Except BodyError (BodyFrame D)))
  isEndStream : List (Event D) → Bool
  sendData : List (Event D) → Except H2Error Unit
  sendTrailers : List (Event D) → Except H2Error Unit

/-! ### The pipe -/

structure Peeked (D : Type) where
  data : D
  isEos : Bool

inductive PipePhase where
  | parked
  | looping
  /-- Waiting for capacity, with a chunk in hand. -/
  | waiting
  | finished (res : Except Error Unit)
  | cancelled

structure PipeToSendStream (D : Type) where
  bufferedData : Option (Peeked D) := none
  phase : PipePhase := .parked
  history : List (Event D) := []

def newBodyWrite (text : String) : Error := { kind := .bodyWrite, cause := some text }

namespace PipeToSendStream

variable {D : Type} [Buf D]

omit [Buf D] in
def log (p : PipeToSendStream D) (e : Event D) : PipeToSendStream D := { p with history := p.history ++ [e] }

omit [Buf D] in
def finish (p : PipeToSendStream D) (res : Except Error Unit) : PipeToSendStream D := { p with phase := .finished res }

omit [Buf D] in
/-- `send_data`, and the return or the next round of the loop. -/
def sendData (peer : Peer D) (p : PipeToSendStream D) (data : Option D) (isEos : Bool) : PipeToSendStream D :=
  let res := peer.sendData p.history
  let p := p.log (.sendData data isEos res)
  match res with
  | .error e => p.finish (.error (newBodyWrite e.text))
  | .ok () => if isEos then p.finish (.ok ()) else { p with phase := .looping }

omit [Buf D] in
def sendEosFrame (peer : Peer D) (p : PipeToSendStream D) : PipeToSendStream D := p.sendData peer none true

omit [Buf D] in
def onUserErr (p : PipeToSendStream D) (e : BodyError) : PipeToSendStream D :=
  (p.log (.sendReset e.h2Reason)).finish (.error (.newUserBody e.text))

/-- A chunk of the body: sent at once if it is empty, or put away until there is capacity for it. -/
def onChunk (peer : Peer D) (p : PipeToSendStream D) (chunk : D) : PipeToSendStream D :=
  let isEos := peer.isEndStream p.history
  let len := Buf.remaining chunk
  if len = 0 then p.sendData peer (some chunk) isEos
  else { p.log (.reserveCapacity len) with bufferedData := some ⟨chunk, isEos⟩, phase := .looping }

omit [Buf D] in
def onTrailers (peer : Peer D) (p : PipeToSendStream D) (fields : HeaderMap) : PipeToSendStream D :=
  -- No more DATA, so give any capacity back.
  let p := p.log (.reserveCapacity 0)
  let res := peer.sendTrailers p.history
  (p.log (.sendTrailers fields res)).finish (res.mapError fun e => newBodyWrite e.text)

def pollBody (peer : Peer D) (p : PipeToSendStream D) : PipeToSendStream D :=
  let res := peer.pollFrame p.history
  let p := p.log (.pollFrame res)
  match res with
  | .pending => { p with phase := .parked }
  | .ready (some (.ok (.data chunk))) => p.onChunk peer chunk
  | .ready (some (.ok (.trailers fields))) => p.onTrailers peer fields
  | .ready (some (.ok .unknown)) => { p with phase := .looping }
  | .ready (some (.error e)) => p.onUserErr e
  | .ready none => p.sendEosFrame peer

def stepLooping (peer : Peer D) (p : PipeToSendStream D) : PipeToSendStream D :=
  let res := peer.pollReset p.history
  let p := p.log (.pollReset res)
  match res with
  | .ready (.error e) => p.finish (.error (newBodyWrite e.text))
  | .ready (.ok reason) => p.finish (.error (newBodyWrite reason.text))
  | .pending => if p.bufferedData.isSome then { p with phase := .waiting } else p.pollBody peer

omit [Buf D] in
def sendPeeked (peer : Peer D) (p : PipeToSendStream D) : PipeToSendStream D :=
  match p.bufferedData with
  | some peeked => { p with bufferedData := none }.sendData peer (some peeked.data) peeked.isEos
  -- `expect("checked is_some above")`
  | none => p

omit [Buf D] in
/-- A round of the loop that waits for capacity. -/
def stepWaiting (peer : Peer D) (p : PipeToSendStream D) : PipeToSendStream D :=
  let capacity := peer.capacity p.history
  let p := p.log (.capacity capacity)
  if capacity = 0 then
    let res := peer.pollCapacity p.history
    let p := p.log (.pollCapacity res)
    match res with
    | .pending => { p with phase := .parked }
    | .ready (some (.ok n)) => if n = 0 then p else p.sendPeeked peer
    | .ready (some (.error e)) => p.finish (.error (newBodyWrite e.text))
    | .ready none => p.finish (.error (newBodyWrite "send stream capacity unexpectedly closed"))
  else p.sendPeeked peer

inductive Action where
  | poll
  | step
  /-- `PipeMap` finds out that the request was cancelled, before it polls the pipe. -/
  | cancel

def act (peer : Peer D) (p : PipeToSendStream D) : Action → PipeToSendStream D
  | .poll =>
    match p.phase with
    | .parked => { p with phase := .looping }
    | _ => p
  | .step =>
    match p.phase with
    | .looping => p.stepLooping peer
    | .waiting => p.stepWaiting peer
    | _ => p
  | .cancel =>
    match p.phase with
    | .parked => { p.log (.sendReset "CANCEL") with phase := .cancelled }
    | _ => p

def run (peer : Peer D) (p : PipeToSendStream D) (actions : List Action) : PipeToSendStream D :=
  actions.foldl (act peer) p

end PipeToSendStream

/-! ### What a history says -/

namespace Event

variable {D : Type}

def payload? : Event D → Option D
  | .sendData data _ _ => data
  | _ => none

def polled? : Event D → Option D
  | .pollFrame (.ready (some (.ok (.data chunk)))) => some chunk
  | _ => none

def reset? : Event D → Option String
  | .sendReset reason => some reason
  | _ => none

/-- A frame that ends the stream: DATA with the flag, or trailers. -/
def marksEnd : Event D → Bool
  | .sendData _ isEos _ => isEos
  | .sendTrailers _ _ => true
  | _ => false

/-- The stream has taken the frame. -/
def accepted : Event D → Bool
  | .sendData _ _ (.ok ()) | .sendTrailers _ (.ok ()) => true
  | _ => false

end Event

variable {D : Type} [Buf D]

omit [Buf D] in
def payloads (history : List (Event D)) : List D := history.filterMap Event.payload?

omit [Buf D] in
def polled (history : List (Event D)) : List D := history.filterMap Event.polled?

omit [Buf D] in
/-- The reasons of the resets -/
def resets (history : List (Event D)) : List String := history.filterMap Event.reset?

omit [Buf D] in
@[simp] theorem payloads_concat (history : List (Event D)) (e : Event D) :
    payloads (history ++ [e]) = payloads history ++ e.payload?.toList := filterMap_concat ..

omit [Buf D] in
@[simp] theorem polled_concat (history : List (Event D)) (e : Event D) :
    polled (history ++ [e]) = polled history ++ e.polled?.toList := filterMap_concat ..

omit [Buf D] in
@[simp] theorem resets_concat (history : List (Event D)) (e : Event D) :
    resets (history ++ [e]) = resets history ++ e.reset?.toList := filterMap_concat ..

/-- What must have come before a call: nothing that ends the stream, no chunk that is still to be sent before the body is
polled, and a chunk in hand before capacity is asked for. -/
def Lawful (before : List (Event D)) (e : Event D) : Prop :=
  (∀ earlier ∈ before, earlier.marksEnd = false) ∧
  match e with
  | .pollFrame _ => polled before = payloads before
  | .pollCapacity _ => ∃ chunk, polled before = payloads before ++ [chunk]
  | .reserveCapacity n => 0 < n → ∃ chunk, polled before = payloads before ++ [chunk] ∧ Buf.remaining chunk = n
  | _ => True

namespace PipeToSendStream

def Going (p : PipeToSendStream D) : Prop := p.phase = .parked ∨ p.phase = .looping ∨ p.phase = .waiting

omit [Buf D] in
/-- A pipe resets its stream once at most, and is over then: it was cancelled, or the body of the user has failed. -/
def ResetOnce (p : PipeToSendStream D) : Prop :=
  resets p.history = [] ∨ p.phase = .cancelled ∧ resets p.history = ["CANCEL"] ∨
    ∃ e : BodyError, p.phase = .finished (.error (.newUserBody e.text)) ∧ resets p.history = [e.h2Reason]

structure Inv (p : PipeToSendStream D) : Prop where
  conserved : polled p.history = payloads p.history ++ (p.bufferedData.map Peeked.data).toList
  lawful : Always Lawful p.history
  unmarked : p.Going → ∀ e ∈ p.history, e.marksEnd = false
  inHand : p.phase = .waiting → p.bufferedData.isSome = true
  ended : p.phase = .finished (.ok ()) → ∃ e, p.history.filter Event.marksEnd = [e] ∧ e.accepted = true
  resetOnce : p.ResetOnce

theorem new_inv : ({} : PipeToSendStream D).Inv where
  conserved := rfl
  lawful := .nil _
  unmarked _ _ member := absurd member List.not_mem_nil
  inHand := nofun
  ended := nofun
  resetOnce := .inl rfl

/-- What is known of the calls so far, in the middle of `poll`. -/
structure Running (history : List (Event D)) (stash : List D) : Prop where
  conserved : polled history = payloads history ++ stash
  lawful : Always Lawful history
  unmarked : ∀ e ∈ history, e.marksEnd = false
  noReset : resets history = []

omit [Buf D] in
theorem not_going {p : PipeToSendStream D} (over_ : p.phase = .cancelled ∨ ∃ res, p.phase = .finished res) : ¬ p.Going := by
  rintro (h | h | h)
  all_goals
    rcases over_ with cancelled | ⟨res, finished⟩
    · exact absurd (cancelled.symm.trans h) nofun
    · exact absurd (finished.symm.trans h) nofun

theorem Inv.running {p : PipeToSendStream D} (inv : p.Inv) (going : p.Going) :
    Running p.history (p.bufferedData.map Peeked.data).toList := by
  refine ⟨inv.conserved, inv.lawful, inv.unmarked going, ?_⟩
  obtain none | ⟨cancelled, -⟩ | ⟨e, failed, -⟩ := inv.resetOnce
  · exact none
  · exact absurd going (not_going (.inl cancelled))
  · exact absurd going (not_going (.inr ⟨_, failed⟩))

theorem Running.inv {p : PipeToSendStream D} (running : Running p.history (p.bufferedData.map Peeked.data).toList)
    (inHand : p.phase = .waiting → p.bufferedData.isSome = true) (open_ : p.phase ≠ .finished (.ok ())) : p.Inv :=
  ⟨running.conserved, running.lawful, fun _ => running.unmarked, inHand, fun done => absurd done open_,
    .inl running.noReset⟩

theorem Running.unmarked_concat {history : List (Event D)} {stash : List D} (running : Running history stash) {e : Event D}
    (mark : e.marksEnd = false) : ∀ earlier ∈ history ++ [e], earlier.marksEnd = false := by
  intro earlier member
  rcases List.mem_append.mp member with old | new
  · exact running.unmarked earlier old
  · rw [List.mem_singleton.mp new]
    exact mark

/-- A call that neither polls nor sends data. -/
theorem Running.log {history : List (Event D)} {stash : List D} (running : Running history stash) {e : Event D}
    (lawful : Lawful history e) (payload : e.payload? = none) (frame : e.polled? = none) (mark : e.marksEnd = false)
    (reset : e.reset? = none) : Running (history ++ [e]) stash := by
  refine ⟨?_, running.lawful.concat lawful, running.unmarked_concat mark, ?_⟩
  · rw [polled_concat, payloads_concat, payload, frame, running.conserved]
    simp
  · rw [resets_concat, running.noReset, reset]
    rfl

/-- The last call of a pipe that is over: the reset that goes with its end. -/
theorem Running.reset {p : PipeToSendStream D} (running : Running p.history (p.bufferedData.map Peeked.data).toList)
    {reason : String} {phase : PipePhase} (ends : phase = .cancelled ∧ reason = "CANCEL" ∨
      ∃ e : BodyError, phase = .finished (.error (.newUserBody e.text)) ∧ reason = e.h2Reason) :
    Inv { p.log (.sendReset reason) with phase } := by
  have told : resets (p.history ++ [Event.sendReset reason]) = [reason] := by
    rw [resets_concat, running.noReset]
    rfl
  refine ⟨?_, running.lawful.concat ⟨running.unmarked, trivial⟩, ?_, ?_, ?_, .inr ?_⟩
  · show polled (p.history ++ [Event.sendReset reason]) =
      payloads (p.history ++ [Event.sendReset reason]) ++ (p.bufferedData.map Peeked.data).toList
    rw [polled_concat, payloads_concat, running.conserved]
    simp [Event.polled?, Event.payload?]
  · intro going
    refine absurd going (not_going ?_)
    rcases ends with ⟨rfl, -⟩ | ⟨e, rfl, -⟩
    · exact .inl rfl
    · exact .inr ⟨_, rfl⟩
  · rcases ends with ⟨rfl, -⟩ | ⟨e, rfl, -⟩
    · exact nofun
    · exact nofun
  · rcases ends with ⟨rfl, -⟩ | ⟨e, rfl, -⟩
    · exact nofun
    · exact nofun
  · rcases ends with ⟨rfl, rfl⟩ | ⟨e, rfl, rfl⟩
    · exact .inl ⟨rfl, told⟩
    · exact .inr ⟨e, rfl, told⟩

theorem Running.chunk {history : List (Event D)} (running : Running history []) (chunk : D) :
    Running (history ++ [Event.pollFrame (.ready (some (.ok (.data chunk))))]) [chunk] := by
  have same := running.conserved
  rw [List.append_nil] at same
  refine ⟨?_, running.lawful.concat ⟨running.unmarked, same⟩, running.unmarked_concat rfl, ?_⟩
  · rw [polled_concat, payloads_concat, same]
    simp [Event.polled?, Event.payload?]
  · rw [resets_concat, running.noReset]
    rfl

theorem Running.filter_concat {history : List (Event D)} {stash : List D} (running : Running history stash) (e : Event D) :
    (history ++ [e]).filter Event.marksEnd = [e].filter Event.marksEnd := by
  have none : history.filter Event.marksEnd = [] := by
    rw [List.filter_eq_nil_iff]
    intro earlier member
    rw [running.unmarked earlier member]
    exact Bool.false_ne_true
  rw [List.filter_append, none, List.nil_append]

/-- The data that was polled last is passed to `send_data`, or none is. -/
theorem Running.sendData {p : PipeToSendStream D} {data : Option D} (running : Running p.history data.toList)
    (empty : p.bufferedData = none) (peer : Peer D) (isEos : Bool) : (p.sendData peer data isEos).Inv := by
  have sent (res : Except H2Error Unit) : polled (p.history ++ [Event.sendData data isEos res]) =
      payloads (p.history ++ [Event.sendData data isEos res]) ++ (p.bufferedData.map Peeked.data).toList := by
    rw [polled_concat, payloads_concat, running.conserved, empty]
    simp [Event.polled?, Event.payload?]
  have lawful (res : Except H2Error Unit) : Always Lawful (p.history ++ [Event.sendData data isEos res]) :=
    running.lawful.concat ⟨running.unmarked, trivial⟩
  have noReset (res : Except H2Error Unit) : resets (p.history ++ [Event.sendData data isEos res]) = [] := by
    rw [resets_concat, running.noReset]
    rfl
  unfold PipeToSendStream.sendData
  cases peer.sendData p.history with
  | error e =>
    exact ⟨sent _, lawful _, fun going => absurd going (not_going (.inr ⟨_, rfl⟩)), nofun, nofun, .inl (noReset _)⟩
  | ok =>
    cases isEos with
    | true =>
      refine ⟨sent _, lawful _, fun going => absurd going (not_going (.inr ⟨_, rfl⟩)), nofun, ?_, .inl (noReset _)⟩
      intro _
      exact ⟨_, running.filter_concat _, rfl⟩
    | false => exact ⟨sent _, lawful _, fun _ => running.unmarked_concat rfl, nofun, nofun, .inl (noReset _)⟩

theorem onTrailers_inv {p : PipeToSendStream D} (running : Running p.history []) (empty : p.bufferedData = none)
    (peer : Peer D) (fields : HeaderMap) : (p.onTrailers peer fields).Inv := by
  have returned : Running (p.history ++ [Event.reserveCapacity 0]) [] :=
    running.log ⟨running.unmarked, fun pos => absurd pos (Nat.lt_irrefl 0)⟩ rfl rfl rfl rfl
  unfold onTrailers
  dsimp only
  generalize peer.sendTrailers _ = res
  refine ⟨?_, returned.lawful.concat ⟨returned.unmarked, trivial⟩,
    fun going => absurd going (not_going (.inr ⟨_, rfl⟩)), nofun, ?_, .inl ?_⟩
  · show polled (p.history ++ [Event.reserveCapacity 0] ++ [Event.sendTrailers fields res]) =
      payloads (p.history ++ [Event.reserveCapacity 0] ++ [Event.sendTrailers fields res]) ++
        (p.bufferedData.map Peeked.data).toList
    rw [polled_concat, payloads_concat, returned.conserved, empty]
    simp [Event.polled?, Event.payload?]
  · intro finished
    refine ⟨_, returned.filter_concat _, ?_⟩
    cases res with
    | error e => cases finished
    | ok => rfl
  · show resets (p.history ++ [Event.reserveCapacity 0] ++ [Event.sendTrailers fields res]) = []
    rw [resets_concat, returned.noReset]
    rfl

theorem onChunk_inv {p : PipeToSendStream D} {chunk : D} (running : Running p.history [chunk])
    (empty : p.bufferedData = none) (peer : Peer D) : (p.onChunk peer chunk).Inv := by
  unfold onChunk
  dsimp only
  split
  · exact @Running.sendData D _ p (some chunk) running empty peer _
  · have reserved : Running (p.history ++ [Event.reserveCapacity (Buf.remaining chunk)]) [chunk] :=
      running.log ⟨running.unmarked, fun _ => ⟨chunk, running.conserved, rfl⟩⟩ rfl rfl rfl rfl
    exact Running.inv (p := { p.log (.reserveCapacity (Buf.remaining chunk)) with
      bufferedData := some ⟨chunk, peer.isEndStream p.history⟩, phase := .looping }) reserved nofun nofun

theorem pollBody_inv {p : PipeToSendStream D} (running : Running p.history []) (empty : p.bufferedData = none)
    (peer : Peer D) : (p.pollBody peer).Inv := by
  have same := running.conserved
  rw [List.append_nil] at same
  have stash : (p.bufferedData.map Peeked.data).toList = [] := by
    rw [empty]
    rfl
  have asked (res : Poll (Option (Except BodyError (BodyFrame D)))) (frame : (Event.pollFrame res).polled? = none) :
      Running (p.history ++ [Event.pollFrame res]) [] := running.log ⟨running.unmarked, same⟩ rfl frame rfl rfl
  have waits (res : Poll (Option (Except BodyError (BodyFrame D)))) (frame : (Event.pollFrame res).polled? = none)
      {phase : PipePhase} (later : phase = .parked ∨ phase = .looping) :
      Inv { p.log (.pollFrame res) with phase } := by
    refine Running.inv (p := { p.log (.pollFrame res) with phase }) (stash ▸ asked res frame) ?_ ?_
    · rintro rfl
      rcases later with h | h
      · cases h
      · cases h
    · rintro rfl
      rcases later with h | h
      · cases h
      · cases h
  unfold pollBody
  dsimp only
  cases peer.pollFrame p.history with
  | pending => exact waits _ rfl (.inl rfl)
  | ready res =>
    cases res with
    | none => exact @Running.sendData D _ (p.log _) none (asked (.ready none) rfl) empty peer true
    | some res =>
      cases res with
      | error e =>
        have asked := asked (.ready (some (.error e))) rfl
        exact Running.reset (p := p.log (.pollFrame (.ready (some (.error e))))) (stash ▸ asked) (.inr ⟨e, rfl, rfl⟩)
      | ok frame =>
        cases frame with
        | data chunk => exact onChunk_inv (p := p.log _) (running.chunk chunk) empty peer
        | trailers fields => exact onTrailers_inv (p := p.log _) (asked _ rfl) empty peer fields
        | unknown => exact waits _ rfl (.inr rfl)

theorem stepLooping_inv {p : PipeToSendStream D} (inv : p.Inv) (phase : p.phase = .looping) (peer : Peer D) :
    (p.stepLooping peer).Inv := by
  have running := inv.running (.inr (.inl phase))
  have asked (res : Poll (Except H2Error H2Error)) :
      Running (p.history ++ [Event.pollReset res]) (p.bufferedData.map Peeked.data).toList :=
    running.log ⟨running.unmarked, trivial⟩ rfl rfl rfl rfl
  unfold stepLooping
  dsimp only
  cases peer.pollReset p.history with
  | ready res =>
    cases res with
    | error e => exact Running.inv (p := (p.log _).finish _) (asked _) nofun nofun
    | ok reason => exact Running.inv (p := (p.log _).finish _) (asked _) nofun nofun
  | pending =>
    dsimp only
    split
    · next some =>
      exact Running.inv (p := { p.log (.pollReset .pending) with phase := .waiting }) (asked _) (fun _ => some) nofun
    · next absent =>
      have empty : p.bufferedData = none := Option.not_isSome_iff_eq_none.mp absent
      have asked := asked .pending
      rw [empty] at asked
      exact pollBody_inv (p := p.log _) asked empty peer

theorem sendPeeked_inv {p : PipeToSendStream D} (running : Running p.history (p.bufferedData.map Peeked.data).toList)
    (some : p.bufferedData.isSome = true) (peer : Peer D) : (p.sendPeeked peer).Inv := by
  obtain ⟨peeked, stashed⟩ := Option.isSome_iff_exists.mp some
  unfold sendPeeked
  rw [stashed]
  rw [stashed] at running
  exact @Running.sendData D _ { p with bufferedData := none } (Option.some peeked.data) running rfl peer _

theorem stepWaiting_inv {p : PipeToSendStream D} (inv : p.Inv) (phase : p.phase = .waiting) (peer : Peer D) :
    (p.stepWaiting peer).Inv := by
  have some := inv.inHand phase
  obtain ⟨peeked, stashed⟩ := Option.isSome_iff_exists.mp some
  have running := inv.running (.inr (.inr phase))
  have looked (n : Nat) : Running (p.history ++ [Event.capacity n]) (p.bufferedData.map Peeked.data).toList :=
    running.log ⟨running.unmarked, trivial⟩ rfl rfl rfl rfl
  have inHand : ∃ chunk, polled (p.history ++ [Event.capacity 0]) = payloads (p.history ++ [Event.capacity 0]) ++ [chunk] := by
    refine ⟨peeked.data, ?_⟩
    rw [(looked 0).conserved, stashed]
    rfl
  have asked (res : Poll (Option (Except H2Error Nat))) :
      Running (p.history ++ [Event.capacity 0] ++ [Event.pollCapacity res]) (p.bufferedData.map Peeked.data).toList :=
    (looked 0).log ⟨(looked 0).unmarked, inHand⟩ rfl rfl rfl rfl
  unfold stepWaiting
  dsimp only
  split
  · next zero =>
    rw [zero]
    cases peer.pollCapacity (p.log (.capacity 0)).history with
    | pending =>
      exact Running.inv (p := { (p.log (.capacity 0)).log (.pollCapacity .pending) with phase := .parked }) (asked _)
        nofun nofun
    | ready res =>
      cases res with
      | none => exact Running.inv (p := ((p.log (.capacity 0)).log _).finish _) (asked _) nofun nofun
      | some res =>
        cases res with
        | error e => exact Running.inv (p := ((p.log (.capacity 0)).log _).finish _) (asked _) nofun nofun
        | ok n =>
          dsimp only
          split
          · refine Running.inv (p := (p.log (.capacity 0)).log _) (asked _) (fun _ => some) ?_
            intro finished
            exact absurd (phase.symm.trans finished) nofun
          · exact sendPeeked_inv (p := (p.log (.capacity 0)).log _) (asked _) some peer
  · exact sendPeeked_inv (p := p.log _) (looked _) some peer

theorem act_inv {p : PipeToSendStream D} (inv : p.Inv) (peer : Peer D) (a : Action) : (p.act peer a).Inv := by
  cases a with
  | poll =>
    dsimp only [act]
    split
    · next parked =>
      exact Running.inv (p := { p with phase := .looping }) (inv.running (.inl parked)) nofun nofun
    · exact inv
  | step =>
    dsimp only [act]
    split
    · next phase => exact stepLooping_inv inv phase peer
    · next phase => exact stepWaiting_inv inv phase peer
    · exact inv
  | cancel =>
    dsimp only [act]
    split
    · next parked => exact (inv.running (.inl parked)).reset (.inl ⟨rfl, rfl⟩)
    · exact inv

theorem run_inv {p : PipeToSendStream D} (inv : p.Inv) (peer : Peer D) (actions : List Action) : (p.run peer actions).Inv := by
  induction actions generalizing p with
  | nil => exact inv
  | cons a rest ih => exact ih (act_inv inv peer a)

/-- What the pipe has done with the body: nothing is lost, sent twice or out of order, and the stream ends or is reset
once. -/
structure Piped (p : PipeToSendStream D) : Prop where
  inOrder : polled p.history = payloads p.history ++ (p.bufferedData.map Peeked.data).toList
  oneAtATime : ∀ before res after, p.history = before ++ Event.pollFrame res :: after → polled before = payloads before
  reserved : ∀ before n after, p.history = before ++ Event.reserveCapacity n :: after → 0 < n →
    ∃ chunk, polled before = payloads before ++ [chunk] ∧ Buf.remaining chunk = n
  waited : ∀ before res after, p.history = before ++ Event.pollCapacity res :: after →
    ∃ chunk, polled before = payloads before ++ [chunk]
  nothingAfter : ∀ before e after, p.history = before ++ e :: after → e.marksEnd = true → after = []
  endedOnce : p.phase = .finished (.ok ()) → ∃ e, p.history.filter Event.marksEnd = [e] ∧ e.accepted = true
  resetOnce : p.ResetOnce

theorem Inv.piped {p : PipeToSendStream D} (inv : p.Inv) : p.Piped where
  inOrder := inv.conserved
  oneAtATime before res after same := (inv.lawful before _ after same).2
  reserved before n after same := (inv.lawful before _ after same).2
  waited before res after same := (inv.lawful before _ after same).2
  nothingAfter before e after same marks := by
    cases after with
    | nil => rfl
    | cons next after =>
      rw [List.append_cons] at same
      have unmarked := (inv.lawful _ next after same).1 e (List.mem_append_right _ List.mem_cons_self)
      exact absurd (marks.symm.trans unmarked) nofun
  endedOnce := inv.ended
  resetOnce := inv.resetOnce

/-- Whatever the body and the stream answer, and whenever the pipe is polled or cancelled. -/
theorem run_piped (peer : Peer D) (actions : List Action) : (run peer {} actions).Piped :=
  (run_inv new_inv peer actions).piped

/-- A body of two chunks, the first of which has to wait for capacity. -/
def slowPeer : Peer Bytes where
  pollReset _ := .pending
  capacity _ := 0
  pollCapacity history := if history.length < 8 then .pending else .ready (some (.ok 5))
  pollFrame history :=
    if polled history = [] then .ready (some (.ok (.data (ascii "hello")))) else .ready (some (.ok (.data [])))
  isEndStream history := (polled history).length = 2
  sendData _ := .ok ()
  sendTrailers _ := .ok ()

example : payloads (run slowPeer {} [.poll, .step, .step, .step, .poll, .step, .step, .step]).history = [ascii "hello", []] := by
  decide +kernel

end PipeToSendStream

end Hwire.Http2
