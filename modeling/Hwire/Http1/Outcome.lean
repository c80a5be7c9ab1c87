import Hwire.Http1.Runs

/-!
# Outcomes of requests

The dispatcher as a ledger of promises: the callback holds one, the queue the others, and a request is used when it is
passed to `write_head`.
-/

namespace Hwire.Http1
open Lib Dispatch Channel

namespace World

abbrev Requests := Ledger Request (Outcome Request Response)

def ledger (w : World) : Requests := w.chan.ledger w.callback.toList w.written

abbrev Moves : Requests → Requests → Prop := Ledger.Moves HandsBack

/-! ### Steps that keep the client side -/

theorem abortBody_ledger (w : World) (err : Error) : (w.abortBody err).ledger = w.ledger := by
  obtain ⟨_, eq⟩ := w.abortBody_eq err
  rw [eq]
  rfl

theorem openBody_ledger (w : World) (msg : ParsedMessage) : (w.openBody msg).ledger = w.ledger := by
  obtain ⟨_, _, _, eq⟩ := w.openBody_eq msg
  rw [eq]
  rfl

theorem endWrite_ledger (w : World) (left : Nat) (again ready : Bool) :
    (w.endWrite left again ready).ledger = w.ledger := by
  obtain ⟨_, eq⟩ := w.endWrite_eq left again ready
  rw [eq]
  rfl

theorem ledger_of_free {w : World} (callback : w.callback = none) : w.ledger = w.chan.ledger [] w.written := by
  rw [ledger, callback]
  rfl

/-! ### Answers -/

theorem moves_callback {w : World} {id : Nat} {res : Outcome Request Response} (callback : w.callback = some id)
    (keeps : ¬ HandsBack res) : Moves w.ledger (ledger { w with callback := none, chan := w.chan.answer id res }) := by
  rw [ledger, callback]
  exact moves_answer (.refl [id]) keeps

theorem recvErr_moves (w : World) (e : Error) : Moves w.ledger (w.recvErr e).2.ledger := by
  unfold recvErr
  split
  · next id callback => exact moves_callback callback (not_handsBack_error e)
  split
  · dsimp only
    split
    · next id req chan took =>
      unfold tryRecv at took
      split at took
      · next env rest front =>
        cases took
        exact moves_handBack front
      · cases took
    · next chan took =>
      unfold tryRecv at took
      split at took
      · cases took
      · cases took
        exact .refl
  · exact .refl

theorem fail_moves {w : World} {l : Requests} (same : w.ledger = l) (e : Error) : Moves l (w.fail e).ledger := by
  subst same
  have told := recvErr_moves (World.abortBody { w with raised := w.raised ++ [e] } (.newBody "connection error")) e
  rw [abortBody_ledger] at told
  unfold fail
  split
  · next h => rw [h] at told; exact told
  · next h => rw [h] at told; exact told

theorem orFail_moves {w : World} {l : Requests} (same : w.ledger = l) (left : Nat) (again : Bool)
    (res : Except Error Unit) : Moves l (w.orFail left again res).ledger := by
  subst same
  cases res with
  | ok => exact .refl
  | error e => exact fail_moves rfl e

theorem drop_moves {w : World} {l : Requests} (same : w.ledger = l) (panicking : Bool) :
    Moves l (w.drop panicking).ledger := by
  subst same
  have dropped (v : World) : Moves v.ledger
      (ledger { World.abortBody { v with chan := v.chan.dropReceiver } .newIncomplete with
        bodyRx := none, phase := .gone }) := by
    show Moves v.ledger (World.abortBody { v with chan := v.chan.dropReceiver } .newIncomplete).ledger
    rw [abortBody_ledger]
    exact moves_dropReceiver v.chan
  unfold drop
  split
  · next id callback => exact .trans (moves_callback callback (not_handsBack_error _)) (dropped _)
  · exact dropped w

theorem recvHead_moves (w : World) (left : Nat) (msg : ParsedMessage) : Moves w.ledger (w.recvHead left msg).ledger := by
  rw [← w.openBody_ledger msg]
  unfold recvHead
  dsimp only
  split
  · next id callback => exact moves_callback (w := w.openBody msg) callback (not_handsBack_ok _)
  · split
    · exact fail_moves (by rfl) _
    · exact fail_moves (by rfl) _

theorem stepSending_moves (w : World) (left j : Nat) (frame : Frame) :
    Moves w.ledger (w.stepSending left j frame).ledger := by
  unfold stepSending
  dsimp only
  split
  · exact .refl
  split
  · exact .refl
  · exact .refl

/-- A request is taken, its callback kept, and the request used. -/
theorem writeRequest_moves {w : World} {id : Nat} {req : Request} {rest : List (Nat × Request)}
    (front : w.chan.queue = (id, req) :: rest) (callback : w.callback = none) (left : Nat) (again : Bool) :
    Moves w.ledger (writeRequest { w with chan := { w.chan with queue := rest } } left again id req).ledger := by
  have used : Moves w.ledger (ledger { w with
      chan := { w.chan with queue := rest }, callback := some id, written := w.written ++ [id] }) := by
    have took : Moves (w.chan.ledger [] w.written) ({ w.chan with queue := rest }.ledger [id] w.written) :=
      moves_take front
    have use : Ledger.Move HandsBack ({ w.chan with queue := rest }.ledger [id] w.written)
        ({ w.chan with queue := rest }.ledger [id] (w.written ++ [id])) := .use (List.mem_singleton.mpr rfl)
    rw [ledger_of_free callback]
    exact took.tail use
  unfold writeRequest
  dsimp only
  split
  · exact used
  · exact .trans used (drop_moves (by rfl) true)

theorem PolledMsg.moves {w v : World} {left : Nat} {again : Bool} (polled : w.PolledMsg left again v)
    (callback : w.callback = none) : Moves w.ledger v.ledger := by
  cases polled with
  | @canceled id req rest front =>
    rw [endWrite_ledger]
    have took : Moves (w.chan.ledger [] w.written) ({ w.chan with queue := rest }.ledger [id] w.written) := moves_take front
    have dropped : Moves ({ w.chan with queue := rest }.ledger [id] w.written)
        (({ w.chan with queue := rest }.dropCallback id false).ledger [] w.written) :=
      moves_dropCallback (.refl [id]) false
    rw [ledger_of_free callback]
    refine (took.trans dropped).trans ?_
    rw [ledger_of_free]
    · exact .refl
    · exact callback
  | taken front => exact writeRequest_moves front callback left again
  | ended =>
    rw [endWrite_ledger]
    exact .refl
  | waits => exact .refl

theorem writeUserBody_moves (w : World) (left : Nat) (again : Bool) (body : UserBody) :
    Moves w.ledger (w.writeUserBody left again body).ledger := by
  unfold writeUserBody
  split
  · exact .refl
  · dsimp only
    split
    · rw [endWrite_ledger]
      exact .refl
    · exact fail_moves (by rfl) _
    · exact orFail_moves (by rfl) _ _ _
    · unfold writeChunk
      split
      · dsimp only
        split
        · exact orFail_moves (by rfl) _ _ _
        · exact .refl
      split
      · exact .refl
      · exact .refl
    · exact .refl

theorem stepWriting_moves (w : World) (left : Nat) (again : Bool) : Moves w.ledger (w.stepWriting left again).ledger := by
  generalize w.stepWriting left again = v, w.stepWriting_round left again = round
  cases round with
  | closing => rw [endWrite_ledger]
  | polled _ _ _ callback polled => exact polled.moves callback
  | blocked =>
    rw [endWrite_ledger]
    exact .refl
  | flushed => exact orFail_moves (by rfl) _ _ _
  | userBody => exact w.writeUserBody_moves left again _
  | bodyDone => exact orFail_moves (by rfl) _ _ _
  | nothing => rw [endWrite_ledger]

theorem stepFlushing_moves (w : World) (left : Nat) (writeReady : Bool) :
    Moves w.ledger (w.stepFlushing left writeReady).ledger := by
  unfold stepFlushing
  dsimp only
  split
  · exact fail_moves (by rfl) _
  split
  · exact .refl
  split
  · exact .refl
  · exact .refl

theorem complete_moves {w : World} {l : Requests} (same : w.ledger = l) (res : Dispatched) :
    Moves l (w.complete res).ledger := by
  subst same
  unfold complete
  dsimp only
  split
  · exact fail_moves (by rfl) _
  · exact .refl

theorem stepInner_moves (w : World) : Moves w.ledger w.stepInner.ledger := by
  unfold stepInner
  split
  · dsimp only
    split
    · exact complete_moves (by rfl) _
    split
    · split
      · exact .refl
      · exact fail_moves (by rfl) _
      · exact complete_moves (by rfl) _
    · exact complete_moves (by rfl) _
  · exact .refl

/-! ### The end of the dispatcher -/

/-- A dispatcher that is gone has left nothing behind. -/
def Settled (w : World) : Prop :=
  w.phase = .gone → w.chan.closed = true ∧ w.chan.queue = [] ∧ w.callback = none

theorem fail_settled (w : World) (e : Error) : (w.fail e).Settled := by
  obtain ⟨_, _, _, _, eq⟩ := w.fail_eq e
  rw [eq]
  exact nofun

theorem orFail_settled (w : World) (left : Nat) (again : Bool) (res : Except Error Unit) :
    (w.orFail left again res).Settled := by
  cases res with
  | ok => exact nofun
  | error e => exact w.fail_settled e

theorem drop_settled (w : World) (panicking : Bool) : (w.drop panicking).Settled := by
  intro _
  have dropped (v : World) : (World.abortBody { v with chan := v.chan.dropReceiver } .newIncomplete).chan =
        v.chan.dropReceiver ∧
      (World.abortBody { v with chan := v.chan.dropReceiver } .newIncomplete).callback = v.callback := by
    obtain ⟨_, eq⟩ := abortBody_eq { v with chan := v.chan.dropReceiver } .newIncomplete
    rw [eq]
    exact ⟨rfl, rfl⟩
  unfold drop
  split
  · rw [(dropped _).1, (dropped _).2]
    exact ⟨rfl, rfl, rfl⟩
  · next callback =>
    rw [(dropped _).1, (dropped _).2]
    exact ⟨rfl, rfl, callback⟩

theorem nextRound_ne_gone (left : Nat) : nextRound left ≠ .gone := by
  cases left <;> exact nofun

theorem endWrite_settled (w : World) (left : Nat) (again ready : Bool) : (w.endWrite left again ready).Settled := by
  intro gone
  unfold endWrite at gone
  split at gone
  · dsimp only at gone
    split at gone
    · exact absurd gone (nextRound_ne_gone left)
    · cases gone
  · cases gone

theorem recvHead_settled (w : World) (left : Nat) (msg : ParsedMessage) : (w.recvHead left msg).Settled := by
  unfold recvHead
  dsimp only
  split
  · exact nofun
  · exact fail_settled _ _

theorem stepSending_settled (w : World) (left j : Nat) (frame : Frame) : (w.stepSending left j frame).Settled := by
  unfold stepSending
  dsimp only
  split
  · exact nofun
  split
  · exact nofun
  · exact nofun

theorem PolledMsg.settled {w v : World} {left : Nat} {again : Bool} (polled : w.PolledMsg left again v) : v.Settled := by
  cases polled with
  | canceled => exact endWrite_settled _ _ _ _
  | taken =>
    unfold takeRequest writeRequest
    dsimp only
    split
    · exact nofun
    · exact drop_settled _ _
  | ended => exact endWrite_settled _ _ _ _
  | waits => exact nofun

theorem writeUserBody_settled (w : World) (left : Nat) (again : Bool) (body : UserBody) :
    (w.writeUserBody left again body).Settled := by
  unfold writeUserBody
  split
  · exact nofun
  · dsimp only
    split
    · exact endWrite_settled _ _ _ _
    · exact fail_settled _ _
    · exact orFail_settled _ _ _ _
    · unfold writeChunk
      split
      · dsimp only
        split
        · exact orFail_settled _ _ _ _
        · exact nofun
      split
      · exact nofun
      · exact nofun
    · exact nofun

theorem stepWriting_settled (w : World) (left : Nat) (again : Bool) : (w.stepWriting left again).Settled := by
  generalize w.stepWriting left again = v, w.stepWriting_round left again = round
  cases round with
  | closing => exact endWrite_settled _ _ _ _
  | polled _ _ _ _ polled => exact polled.settled
  | blocked => exact endWrite_settled _ _ _ _
  | flushed => exact orFail_settled _ _ _ _
  | userBody => exact w.writeUserBody_settled left again _
  | bodyDone => exact orFail_settled _ _ _ _
  | nothing => exact endWrite_settled _ _ _ _

theorem stepFlushing_settled (w : World) (left : Nat) (writeReady : Bool) : (w.stepFlushing left writeReady).Settled := by
  unfold stepFlushing
  dsimp only
  split
  · exact fail_settled _ _
  split
  · exact nofun
  split
  · exact nofun
  · intro gone
    exact absurd gone (nextRound_ne_gone left)

theorem complete_settled (w : World) (res : Dispatched) : (w.complete res).Settled := by
  unfold complete
  dsimp only
  split
  · exact fail_settled _ _
  · exact nofun

theorem stepInner_settled (w : World) : w.stepInner.Settled := by
  unfold stepInner
  split
  · dsimp only
    split
    · exact complete_settled _ _
    split
    · split
      · exact nofun
      · exact fail_settled _ _
      · exact complete_settled _ _
    · exact complete_settled _ _
  · exact nofun

theorem Settled.push {w : World} (h : w.Settled) : Settled { w with chan := w.chan.push } := by
  intro gone
  obtain ⟨closed, empty, callback⟩ := h gone
  unfold Channel.push
  split
  · simp [Channel.send, closed, empty, callback]
  · exact ⟨closed, empty, callback⟩

theorem Settled.give {w : World} (h : w.Settled) (req : Request) : Settled { w with chan := w.chan.give req } := by
  intro gone
  unfold Channel.give
  split
  · exact h gone
  split
  · exact h gone
  · exact h gone

theorem Settled.dropSender {w : World} (h : w.Settled) : Settled { w with chan := w.chan.dropSender } := by
  intro gone
  unfold Channel.dropSender
  split
  · exact h gone
  · exact h gone

variable [Httparse]

theorem pollReadHead_moves (w : World) (left : Nat) : Moves w.ledger (w.pollReadHead left).ledger := by
  unfold pollReadHead
  split
  · exact .refl
  split
  · exact .refl
  · dsimp only
    split
    · exact .refl
    · exact recvHead_moves { w with conn := w.conn.pollReadHead.2 } left _
    · next e _ =>
      have told := recvErr_moves { w with conn := w.conn.pollReadHead.2 } e
      split
      · next h => rw [h] at told; exact told
      · next h => rw [h] at told; exact .trans told (fail_moves rfl e)
    · split
      · exact .refl
      · exact .refl

theorem stepReading_moves (w : World) (left : Nat) : Moves w.ledger (w.stepReading left).ledger := by
  unfold stepReading
  split
  · exact .refl
  split
  · exact w.pollReadHead_moves left
  split
  · unfold pollReadStream
    split
    · split
      · exact .refl
      · exact .refl
      · dsimp only
        split
        · exact .refl
        · exact .refl
        · exact .refl
        · exact .refl
    · exact .refl
  · dsimp only
    split
    · exact fail_moves (by rfl) _
    · exact .refl


theorem act_moves (w : World) (a : Action) : Moves w.ledger (w.act a).ledger := by
  cases a with
  | poll =>
    rw [act]
    split
    · exact .refl
    · exact .refl
  | step =>
    rw [act, step]
    split
    · exact w.stepReading_moves _
    · exact w.stepSending_moves _ _ _
    · exact w.stepWriting_moves _ _
    · rw [stepWanting, endWrite_ledger]
      exact .refl
    · exact w.stepFlushing_moves _ _
    · exact w.stepInner_moves
    · exact .refl
    · exact .refl
    · exact .refl
  | drop =>
    rw [act]
    split
    · exact drop_moves rfl _
    · exact drop_moves rfl _
    · exact .refl
  | give req =>
    show Moves w.ledger ((w.chan.give req).ledger _ _)
    rw [ledger_give]
    exact .refl
  | push => exact moves_push w.chan
  | dropSender =>
    show Moves w.ledger (w.chan.dropSender.ledger _ _)
    rw [ledger_dropSender]
    exact .refl
  | cancel | pollFrame | dropBody => exact .refl

theorem run_moves (w : World) (actions : List Action) : Moves w.ledger (w.run actions).ledger := by
  induction actions generalizing w with
  | nil => exact .refl
  | cons a rest ih => exact .trans (w.act_moves a) (ih (w.act a))

theorem stepReading_settled (w : World) (left : Nat) : (w.stepReading left).Settled := by
  unfold stepReading
  split
  · exact nofun
  split
  · unfold pollReadHead
    split
    · exact nofun
    split
    · exact nofun
    · dsimp only
      split
      · exact nofun
      · exact recvHead_settled _ _ _
      · split
        · exact nofun
        · exact fail_settled _ _
      · split
        · exact nofun
        · exact nofun
  split
  · unfold pollReadStream
    split
    · split
      · exact nofun
      · exact nofun
      · dsimp only
        split
        · exact nofun
        · exact nofun
        · exact nofun
        · exact nofun
    · exact nofun
  · dsimp only
    split
    · exact fail_settled _ _
    · exact nofun

theorem act_settled {w : World} (h : w.Settled) (a : Action) : (w.act a).Settled := by
  cases a with
  | poll =>
    rw [act]
    split
    · intro gone
      cases gone
    · exact h
  | step =>
    rw [act, step]
    split
    · exact w.stepReading_settled _
    · exact w.stepSending_settled _ _ _
    · exact w.stepWriting_settled _ _
    · exact endWrite_settled _ _ _ _
    · exact w.stepFlushing_settled _ _
    · exact w.stepInner_settled
    · exact h
    · exact h
    · exact h
  | drop =>
    rw [act]
    split
    · exact w.drop_settled _
    · exact w.drop_settled _
    · exact h
  | give req => exact h.give req
  | push => exact h.push
  | dropSender => exact h.dropSender
  | cancel | pollFrame | dropBody => exact h

theorem run_settled {w : World} (h : w.Settled) (actions : List Action) : (w.run actions).Settled := by
  induction actions generalizing w with
  | nil => exact h
  | cons a rest ih => exact ih (act_settled h a)

/-- In every run, the promises of the requests that were accepted balance. -/
theorem run_balanced (opts : Http1Options) (io : Transport) (actions : List Action) :
    ((new opts io).run actions).ledger.Balanced HandsBack :=
  (run_moves _ actions).balanced .empty

end World

end Hwire.Http1
