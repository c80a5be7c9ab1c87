import Hwire.Http1.Outcome
import Hwire.Http2.Client

/-!
# Outcomes of HTTP/2 requests

The client task as a ledger of promises: a request that is pending open and the futures that wait for responses hold one
each, and a request is used when it is passed to `send_request`. With the ledger of the HTTP/1 dispatcher this gives what
callers rely on, whichever protocol a connection speaks.
-/

namespace Hwire.Http2
open Lib Dispatch Channel

namespace ClientTask

abbrev Requests := Ledger Request (Outcome Request Response)

/-- The promises that the task and its futures hold. -/
def held (t : ClientTask) : List Nat := t.futCtx.toList.map FutCtx.cb ++ t.sendTasks.map SendWhen.cb

def ledger (t : ClientTask) : Requests := t.chan.ledger t.held t.sent

abbrev Moves : Requests → Requests → Prop := Ledger.Moves HandsBack

theorem pollReady_eq (t : ClientTask) : ∃ readies, t.pollReady.2 = { t with readies } := by
  unfold pollReady
  split
  · exact ⟨_, rfl⟩
  · exact ⟨_, rfl⟩

theorem sendRequest_eq (t : ClientTask) (id : Nat) :
    ∃ sends, (t.sendRequest id).2 = { t with sends, sent := t.sent ++ [id] } := by
  unfold sendRequest
  dsimp only
  split
  · exact ⟨_, rfl⟩
  · exact ⟨_, rfl⟩

theorem held_of_free {t : ClientTask} (free : t.futCtx = none) : t.held = t.sendTasks.map SendWhen.cb := by
  rw [held, free]
  rfl

/-! ### What a step does -/

/-- What becomes of a request that was taken from the queue. -/
inductive Taken (t : ClientTask) (id : Nat) (req : Request) : ClientTask → Prop where
  | canceled (canceled : t.chan.isCanceled id = true) : Taken t id req { t with chan := t.chan.dropCallback id false }
  | refused {readies : List (Poll (Except H2Error Unit))} {sends : List (Except H2Error Unit)} {sent : List Nat}
      {error : Error} (explicit : error.kind ≠ .user .dispatchGone) (asked : sent = t.sent ∨ sent = t.sent ++ [id]) :
      Taken t id req { t with readies, sends, sent, chan := t.chan.answer id (.error { error, message := none }) }
  | stashed {readies : List (Poll (Except H2Error Unit))} {sends : List (Except H2Error Unit)} {f : FutCtx}
      (cb : f.cb = id) : Taken t id req { t with readies, sends, sent := t.sent ++ [id], futCtx := some f }
  | spawned {readies : List (Poll (Except H2Error Unit))} {sends : List (Except H2Error Unit)} :
      Taken t id req { t with readies, sends, sent := t.sent ++ [id], sendTasks := ⟨req.isConnect, id⟩ :: t.sendTasks }

theorem newH2_kind (err : H2Error) : (newH2 err).kind ≠ .user .dispatchGone := by
  unfold newH2
  split
  · intro same
    cases same
  · intro same
    cases same

theorem recv_taken (t : ClientTask) (id : Nat) (req : Request) : t.Taken id req (t.recv id req) := by
  unfold recv
  split
  · next canceled => exact .canceled canceled
  split
  · refine .refused ?_ (.inl rfl)
    intro same
    cases same
  obtain ⟨sends, asked⟩ := t.sendRequest_eq id
  split
  · next err t' h =>
    rw [h] at asked
    obtain rfl : t' = _ := asked
    exact .refused (newH2_kind err) (.inr rfl)
  · next t' h =>
    rw [h] at asked
    obtain rfl : t' = _ := asked
    obtain ⟨readies, polled⟩ := pollReady_eq { t with sends, sent := t.sent ++ [id] }
    dsimp only
    split
    · next t' h =>
      rw [h] at polled
      obtain rfl : t' = _ := polled
      exact .stashed rfl
    · next t' h =>
      rw [h] at polled
      obtain rfl : t' = _ := polled
      exact .spawned
    · next err t' h =>
      rw [h] at polled
      obtain rfl : t' = _ := polled
      exact .refused (newH2_kind err) (.inr rfl)

/-- What a step of the task does. -/
inductive Stepped (t : ClientTask) : ClientTask → Prop where
  | ended (ended : t.phase ≠ .running) : Stepped t t
  | notReady {readies : List (Poll (Except H2Error Unit))} (running : t.phase = .running) : Stepped t { t with readies }
  | failed {readies : List (Poll (Except H2Error Unit))} {err : H2Error} (running : t.phase = .running) :
      Stepped t { t with readies, phase := .finished (t.readyError err) }
  | resumed {readies : List (Poll (Except H2Error Unit))} {f : FutCtx} (running : t.phase = .running)
      (stash : t.futCtx = some f) :
      Stepped t { t with readies, futCtx := none, sendTasks := ⟨f.isConnect, f.cb⟩ :: t.sendTasks }
  | received {readies : List (Poll (Except H2Error Unit))} {id : Nat} {req : Request} {rest : List (Nat × Request)}
      {t' : ClientTask} (running : t.phase = .running) (free : t.futCtx = none) (front : t.chan.queue = (id, req) :: rest)
      (taken : Taken { t with readies, chan := { t.chan with queue := rest } } id req t') : Stepped t t'
  | quiet {readies : List (Poll (Except H2Error Unit))} {wanting : Bool} {phase : Phase} (running : t.phase = .running)
      (free : t.futCtx = none) (phase_eq : phase = .running ∨ phase = .finished (.ok ())) :
      Stepped t { t with readies, chan := { t.chan with wanting }, phase }

theorem stepReady_stepped {t : ClientTask} (running : t.phase = .running)
    (readies : List (Poll (Except H2Error Unit))) : t.Stepped (stepReady { t with readies }) := by
  unfold stepReady
  split
  · next f stash => exact .resumed running stash
  · next free =>
    have still : t.phase = .running ∨ t.phase = .finished (.ok ()) := .inl running
    unfold pollRecv
    dsimp only
    cases front : t.chan.queue with
    | cons env rest => exact .received running free front (recv_taken _ env.1 env.2)
    | nil =>
      dsimp only
      by_cases closed : (t.chan.closed || decide (t.chan.senders = 0)) = true
      · rw [if_pos closed]
        exact .quiet running free (.inr rfl)
      · rw [if_neg closed]
        dsimp only
        split
        · exact .quiet running free (.inr rfl)
        · exact .quiet running free still

theorem step_stepped (t : ClientTask) : t.Stepped t.step := by
  obtain ⟨readies, polled⟩ := t.pollReady_eq
  unfold step
  split
  · next running =>
    split
    · next t' h =>
      rw [h] at polled
      obtain rfl : t' = _ := polled
      exact .notReady running
    · next err t' h =>
      rw [h] at polled
      obtain rfl : t' = _ := polled
      exact .failed running
    · next t' h =>
      rw [h] at polled
      obtain rfl : t' = _ := polled
      exact stepReady_stepped running readies
  · next finished => exact .ended (by rw [finished]; intro same; cases same)
  · next gone => exact .ended (by rw [gone]; intro same; cases same)

/-! ### The task -/

/-- A request that was taken from the queue ends up in a future, or its promise is settled. -/
theorem Taken.moves {t t' : ClientTask} {id : Nat} {req : Request} (taken : t.Taken id req t') (free : t.futCtx = none) :
    Moves (t.chan.ledger (id :: t.held) t.sent) t'.ledger := by
  have settle {ch : Channel Request Response} {used : List Nat} {res : Outcome Request Response}
      (keeps : ¬ HandsBack res) : Moves (ch.ledger (id :: t.held) used) ((ch.answer id res).ledger t.held used) :=
    moves_answer (.refl _) keeps
  have use : Ledger.Move HandsBack (t.chan.ledger (id :: t.held) t.sent)
      (t.chan.ledger (id :: t.held) (t.sent ++ [id])) := .use (List.mem_cons_self ..)
  cases taken with
  | canceled => exact settle (not_handsBack_error _)
  | refused explicit asked =>
    obtain rfl | rfl := asked
    · exact settle (not_handsBack_error _)
    · exact .head use (settle (not_handsBack_error _))
  | stashed cb =>
    subst cb
    rw [held_of_free free] at use ⊢
    exact .single use
  | spawned =>
    rw [held_of_free free] at use ⊢
    rw [ledger, held, free]
    exact .single use

theorem Stepped.moves {t t' : ClientTask} (stepped : t.Stepped t') : Moves t.ledger t'.ledger := by
  cases stepped with
  | ended | notReady | failed | quiet => exact .refl
  | resumed running stash =>
    rw [ledger, held, stash]
    exact .refl
  | @received readies id req rest _ running free front taken =>
    have took : Moves t.ledger ({ t.chan with queue := rest }.ledger (id :: t.held) t.sent) := moves_take front
    exact .trans took (taken.moves free)

theorem drop_moves (t : ClientTask) : Moves t.ledger t.drop.ledger := by
  unfold drop
  split
  · next f waits =>
    have dropped : Moves t.ledger (ledger { t with futCtx := none, chan := t.chan.dropCallback f.cb false }) := by
      rw [ledger, held, waits]
      exact moves_dropCallback (.refl _) false
    exact .trans dropped (moves_dropReceiver (t.chan.dropCallback f.cb false))
  · exact moves_dropReceiver t.chan

/-! ### The futures -/

theorem not_handsBack_responseOf (t : ClientTask) (isConnect : Bool) (res : Except H2Error ResponseHead) :
    ¬ HandsBack (t.responseOf isConnect res) := by
  unfold responseOf
  split
  · split
    · split
      · exact not_handsBack_error _
      · exact not_handsBack_ok _
    · exact not_handsBack_ok _
  · exact not_handsBack_error _

/-- The promise of a future is settled with something other than the request. -/
theorem moves_task {t : ClientTask} {i : Nat} {task : SendWhen} (there : t.sendTasks[i]? = some task)
    {res : Outcome Request Response} (keeps : ¬ HandsBack res) :
    Moves t.ledger (ledger { t with sendTasks := t.sendTasks.eraseIdx i, chan := t.chan.answer task.cb res }) := by
  obtain ⟨bound, rfl⟩ := List.getElem?_eq_some_iff.mp there
  have tasks : t.sendTasks.Perm (t.sendTasks[i] :: t.sendTasks.eraseIdx i) := (List.getElem_cons_eraseIdx_perm bound).symm
  have holds : t.held.Perm
      (t.sendTasks[i].cb :: (t.futCtx.toList.map FutCtx.cb ++ (t.sendTasks.eraseIdx i).map SendWhen.cb)) :=
    ((tasks.map SendWhen.cb).append_left _).trans List.perm_middle
  exact moves_answer holds keeps

theorem pollSend_moves (t : ClientTask) (i : Nat) (res : Poll (Except H2Error ResponseHead)) :
    Moves t.ledger (t.pollSend i res).ledger := by
  unfold pollSend
  split
  · exact .refl
  · next task there =>
    split
    · exact moves_task there (t.not_handsBack_responseOf _ _)
    · split
      · exact moves_task there (not_handsBack_error _)
      · exact .refl

theorem dropSend_moves (t : ClientTask) (i : Nat) : Moves t.ledger (t.dropSend i).ledger := by
  unfold dropSend
  split
  · exact .refl
  · next task there => exact moves_task there (not_handsBack_error _)

/-! ### Runs -/

theorem act_moves (t : ClientTask) (a : Action) : Moves t.ledger (t.act a).ledger := by
  cases a with
  | step => exact t.step_stepped.moves
  | drop => exact t.drop_moves
  | pollSend i res => exact t.pollSend_moves i res
  | dropSend i => exact t.dropSend_moves i
  | trySend req =>
    rw [act, trySend]
    split
    · exact .refl
    · exact moves_send t.chan req
  | cloneSender =>
    rw [act, cloneSender]
    split
    · exact .refl
    · exact .refl
  | dropSender =>
    show Moves t.ledger (t.chan.dropSender.ledger _ _)
    rw [ledger_dropSender]
    exact .refl
  | cancel | connEof | keepAliveTimedOut => exact .refl

theorem run_moves (t : ClientTask) (actions : List Action) : Moves t.ledger (t.run actions).ledger := by
  induction actions generalizing t with
  | nil => exact .refl
  | cons a rest ih => exact .trans (t.act_moves a) (ih (t.act a))

/-- A task that is gone has left nothing behind but its futures. -/
def Settled (t : ClientTask) : Prop := t.phase = .gone → t.chan.closed = true ∧ t.chan.queue = [] ∧ t.futCtx = none

theorem Taken.phase {t t' : ClientTask} {id : Nat} {req : Request} (taken : t.Taken id req t') : t'.phase = t.phase := by
  cases taken with
  | canceled | refused | stashed | spawned => rfl

theorem Stepped.settled {t t' : ClientTask} (stepped : t.Stepped t') (h : t.Settled) : t'.Settled := by
  intro gone
  cases stepped with
  | ended => exact h gone
  | notReady running | resumed running =>
    rw [running] at gone
    cases gone
  | failed => cases gone
  | received running free front taken =>
    rw [taken.phase, running] at gone
    cases gone
  | quiet running free phase_eq =>
    rcases phase_eq with rfl | rfl
    · cases gone
    · cases gone

theorem drop_settled (t : ClientTask) : t.drop.Settled := by
  intro _
  unfold drop
  split
  · exact ⟨rfl, rfl, rfl⟩
  · next free => exact ⟨rfl, rfl, free⟩

theorem act_settled {t : ClientTask} (h : t.Settled) (a : Action) : (t.act a).Settled := by
  cases a with
  | step => exact t.step_stepped.settled h
  | drop => exact t.drop_settled
  | pollSend i res =>
    rw [act, pollSend]
    split
    · exact h
    split
    · exact h
    · split
      · exact h
      · exact h
  | dropSend i =>
    rw [act, dropSend]
    split
    · exact h
    · exact h
  | trySend req =>
    intro gone
    obtain ⟨closed, empty, free⟩ := h gone
    simp [act, trySend, send, closed, empty, free]
  | cloneSender =>
    rw [act, cloneSender]
    split
    · exact h
    · exact h
  | dropSender =>
    rw [act, Channel.dropSender]
    split
    · exact h
    · exact h
  | cancel | connEof | keepAliveTimedOut => exact h

theorem run_settled {t : ClientTask} (h : t.Settled) (actions : List Action) : (t.run actions).Settled := by
  induction actions generalizing t with
  | nil => exact h
  | cons a rest ih => exact ih (act_settled h a)

end ClientTask

end Hwire.Http2

namespace Hwire
open Dispatch

/-- Every request that a channel has accepted gets one result: never two, none is lost on the way, and once the task (and,
for HTTP/2, the futures it has spawned) is gone there is one for each. A request that is handed back was never passed to
`write_head` or to `send_request`. -/
theorem run_oneOutcome :
    (∀ [Httparse] (opts : Http1.Http1Options) (io : Http1.Transport) (actions : List Http1.World.Action),
      let w := (Http1.World.new opts io).run actions
      w.chan.OneOutcome w.callback.toList w.written ∧
        (w.phase = .gone → ∀ id < w.chan.accepted, id ∈ w.chan.results.map Prod.fst)) ∧
    (∀ (readies : List (Poll (Except Http2.H2Error Unit))) (sends : List (Except Http2.H2Error Unit))
        (actions : List Http2.ClientTask.Action),
      let t := Http2.ClientTask.run { readies, sends } actions
      t.chan.OneOutcome t.held t.sent ∧
        (t.phase = .gone → t.sendTasks = [] → ∀ id < t.chan.accepted, id ∈ t.chan.results.map Prod.fst)) := by
  constructor
  · intro _ opts io actions
    have one := Channel.oneOutcome_of_balanced (Http1.World.run_balanced opts io actions)
    refine ⟨one, ?_⟩
    intro gone id bound
    obtain ⟨-, empty, free⟩ := Http1.World.run_settled (w := .new opts io) nofun actions gone
    rcases one.kept id bound with settled | queued | held
    · exact settled
    · rw [empty] at queued
      cases queued
    · rw [free] at held
      cases held
  · intro readies sends actions
    have balanced := (Http2.ClientTask.run_moves { readies, sends } actions).balanced .empty
    have one := Channel.oneOutcome_of_balanced balanced
    refine ⟨one, ?_⟩
    intro gone none id bound
    obtain ⟨-, empty, free⟩ := Http2.ClientTask.run_settled (t := { readies, sends }) nofun actions gone
    rcases one.kept id bound with settled | queued | held
    · exact settled
    · rw [empty] at queued
      cases queued
    · rw [Http2.ClientTask.held, free, none] at held
      cases held

end Hwire
