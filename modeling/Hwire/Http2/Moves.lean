import Hwire.Http2.Connection
import Hwire.Http2.Outcome
import Hwire.Http2.PingCalls

/-!
# Moves of an HTTP/2 connection

Every action of a connection is made of a few moves: the client task goes on, a future is spawned or done, a handle is
released. What holds in every run is shown of these.
-/

namespace Hwire.Http2
open Lib Dispatch Channel

namespace ClientTask

/-! ### What the task does to its futures -/

/-- The request has left the queue and the stash. -/
def Launched (t : ClientTask) (id : Nat) : Prop := id ∈ t.sendTasks.map SendWhen.cb ∨ id ∈ t.chan.results.map Prod.fst

/-- The task moves on and leaves its futures alone. -/
structure Alone (t t' : ClientTask) : Prop where
  sendTasks : t'.sendTasks = t.sendTasks
  results : t.chan.results ⊆ t'.chan.results
  canceled : t.chan.canceled ⊆ t'.chan.canceled
  connEof : t'.connEof = t.connEof
  gone : t'.phase = .gone ↔ t.phase = .gone
  ledger : Moves t.ledger t'.ledger

/-- The task moves on and spawns a future for a stream. -/
structure Spawns (t : ClientTask) (f : FutCtx) (t' : ClientTask) : Prop where
  running : t.phase = .running
  still : t'.phase = .running
  waiting : f.cb ∈ t.chan.queue.map Prod.fst ++ t.futCtx.toList.map FutCtx.cb
  sendTasks : t'.sendTasks = ⟨f.isConnect, f.cb⟩ :: t.sendTasks
  chan : t'.chan.results = t.chan.results ∧ t'.chan.canceled = t.chan.canceled
  connEof : t'.connEof = t.connEof
  ledger : Moves t.ledger t'.ledger

theorem Alone.refl (t : ClientTask) : t.Alone t := ⟨rfl, List.Subset.refl _, List.Subset.refl _, rfl, Iff.rfl, .refl⟩

theorem subset_answer (ch : Channel Request Response) (id : Nat) (res : Outcome Request Response) :
    ch.results ⊆ (ch.answer id res).results := List.subset_append_left _ _

theorem Stepped.alone_or_spawns {t t' : ClientTask} (stepped : t.Stepped t') :
    t.Alone t' ∨
      ∃ f, t.Spawns f t' ∧ (match t.futCtx, t.chan.queue with
        | some f, _ => some f
        | none, (id, req) :: _ => some { isConnect := req.isConnect, eos := req.isEndStream, cb := id }
        | none, [] => none) = some f := by
  have moves := stepped.moves
  cases stepped with
  | ended => exact .inl (.refl t)
  | notReady => exact .inl ⟨rfl, List.Subset.refl _, List.Subset.refl _, rfl, Iff.rfl, moves⟩
  | failed running =>
    refine .inl ⟨rfl, List.Subset.refl _, List.Subset.refl _, rfl, ?_, moves⟩
    rw [running]
    exact ⟨nofun, nofun⟩
  | quiet running free phase_eq =>
    refine .inl ⟨rfl, List.Subset.refl _, List.Subset.refl _, rfl, ?_, moves⟩
    rw [running]
    rcases phase_eq with rfl | rfl
    · exact Iff.rfl
    · exact ⟨nofun, nofun⟩
  | @resumed readies f running stash =>
    refine .inr ⟨f, ⟨running, running, ?_, rfl, ⟨rfl, rfl⟩, rfl, moves⟩, by rw [stash]⟩
    rw [stash]
    exact List.mem_append_right _ (List.mem_singleton_self _)
  | @received readies id req rest _ running free front taken =>
    cases taken with
    | canceled => exact .inl ⟨rfl, subset_answer _ _ _, List.Subset.refl _, rfl, Iff.rfl, moves⟩
    | refused => exact .inl ⟨rfl, subset_answer _ _ _, List.Subset.refl _, rfl, Iff.rfl, moves⟩
    | stashed => exact .inl ⟨rfl, List.Subset.refl _, List.Subset.refl _, rfl, Iff.rfl, moves⟩
    | spawned =>
      refine .inr ⟨_, ⟨running, running, ?_, rfl, ⟨rfl, rfl⟩, rfl, moves⟩, by rw [free, front]⟩
      rw [front]
      exact List.mem_append_left _ (List.mem_cons_self ..)

end ClientTask

namespace Connection

/-- What a step of the task does, with what `poll_pipe` is called with. -/
theorem spawning_cases (t : ClientTask) :
    (spawning t = none ∧ t.Alone t.step) ∨ ∃ f, spawning t = some f ∧ t.Spawns f t.step := by
  unfold spawning
  rcases t.step_stepped.alone_or_spawns with alone | ⟨f, spawns, named⟩
  · rw [alone.sendTasks, if_neg (Nat.lt_irrefl _)]
    exact .inl ⟨rfl, alone⟩
  · rw [spawns.sendTasks, List.length_cons, if_pos (Nat.lt_succ_self _)]
    exact .inr ⟨f, named, spawns⟩

/-- What a callback sends when it is dropped. -/
def goneOutcome : Outcome Request Response := .error { error := dispatchGone false, message := none }

/-- A future is done, and its caller has a result. -/
def settle (c : Connection) (i : Nat) (cb : Nat) (res : Outcome Request Response) : Connection :=
  { c with task := { c.task with sendTasks := c.task.sendTasks.eraseIdx i, chan := c.task.chan.answer cb res } }

/-- The moves of which every action is made. -/
inductive Move (c : Connection) : Connection → Prop where
  | task {t : ClientTask} (alone : c.task.Alone t) : Move c { c with task := t }
  | spawn {t : ClientTask} {f : FutCtx} (spawns : c.task.Spawns f t) (polled : PipePolled) :
      Move c ({ c with task := t }.pollPipe f polled)
  | drop (held : c.task.phase ≠ .gone) :
      Move c { c with task := c.task.drop, connDropRefs := c.connDropRefs - 1 }.dropRecorder
  | recorded {p q : Ponger} (pinging : c.ponger = some p) (step : p.Step q) (calls : ∀ isIdle, p.Calls isIdle [] q) :
      Move c { c with ponger := some q }
  | polled {p : Ponger} (pinging : c.ponger = some p) (answers : Answers) :
      Move c { c with
        ponger := some { p with answers }.poll.2
        windows := c.windows ++ (Ponged.window? { p with answers }.poll.1).toList }
  | settled {i : Nat} {task : SendWhen} {res : Outcome Request Response} (there : c.task.sendTasks[i]? = some task)
      (keeps : ¬ HandsBack res) :
      Move c (c.settle i task.cb res).dropRecorder
  | responded {i : Nat} {task : SendWhen} {res : Outcome Request Response} (there : c.task.sendTasks[i]? = some task)
      (keeps : ¬ HandsBack res) :
      Move c { c.settle i task.cb res with bodies := task.cb :: c.bodies }
  | refused {i : Nat} {task : SendWhen} {res : Outcome Request Response} (there : c.task.sendTasks[i]? = some task)
      (connects : task.isConnect = true) (keeps : ¬ HandsBack res) :
      Move c { c.settle i task.cb res with
        resets := c.resets ++ [(task.cb, Reset.mk .connect internalError.text)] }.dropRecorder
  | gaveUp {i : Nat} {task : SendWhen} (there : c.task.sendTasks[i]? = some task)
      (canceled : c.task.chan.isCanceled task.cb = true) :
      Move c { c.settle i task.cb goneOutcome with
        cancelled := task.cb :: c.cancelled }.dropRecorder
  | bodyDropped {cb : Nat} (holds : cb ∈ c.bodies) : Move c { c with bodies := c.bodies.erase cb }.dropRecorder
  | pipeEnded {i : Nat} {pipe : PipeMap} (there : c.pipes[i]? = some pipe) : Move c (c.endPipe i)
  | pipeReset {i : Nat} {pipe : PipeMap} {reset : Reset} (there : c.pipes[i]? = some pipe) (other : reset.site ≠ .connect)
      (canceled : reset.site = .pipeMap → reset.reason = "CANCEL" ∧ pipe.cb ∈ c.cancelled) :
      Move c { c.endPipe i with resets := c.resets ++ [(pipe.cb, reset)] }
  | pipeDeaf {i : Nat} {pipe : PipeMap} (there : c.pipes[i]? = some pipe) (kept : pipe.cb ∉ c.cancelled)
      (done : pipe.cb ∉ c.task.sendTasks.map SendWhen.cb) :
      Move c { c with pipes := c.pipes.set i { pipe with cancelRx := false } }
  | connEnded (held : c.connTask.isSome = true) : Move c c.endConn
  | signaled {conn : ConnTask} (held : c.connTask = some conn) : Move c (c.pollDropRx conn)

abbrev Moves : Connection → Connection → Prop := Relation.ReflTransGen Move

/-! ### Actions -/

theorem recordData_moves (c : Connection) (answers : Answers) (len : Nat) : c.Moves (c.recordData answers len) := by
  unfold recordData
  cases pinging : c.ponger with
  | none => rw [Option.map_none, ← pinging]
  | some p => exact .single (.recorded pinging (.recordData answers len) fun _ => .of_asked (Ponger.recordData_calls _ _ len))

theorem recordNonData_moves (c : Connection) (answers : Answers) : c.Moves (c.recordNonData answers) := by
  unfold recordNonData
  cases pinging : c.ponger with
  | none => rw [Option.map_none, ← pinging]
  | some p => exact .single (.recorded pinging (.recordNonData answers) fun _ => .of_asked (Ponger.updateLastReadAt_calls _ _))

theorem step_moves (c : Connection) (polled : PipePolled) : c.Moves (c.step polled) := by
  unfold step
  rcases spawning_cases c.task with ⟨none, alone⟩ | ⟨f, some, spawns⟩
  · rw [none]
    exact .single (.task alone)
  · rw [some]
    exact .single (.spawn spawns polled)

theorem drop_moves (c : Connection) : c.Moves c.drop := by
  unfold drop
  split
  · exact .refl
  · next held => exact .single (.drop held)

theorem pollSend_moves (c : Connection) (i : Nat) (res : Poll (Except H2Error ResponseHead)) (isEndStream : Bool)
    (answers : Answers) : c.Moves (c.pollSend i res isEndStream answers) := by
  unfold pollSend
  cases there : c.task.sendTasks[i]? with
  | none => exact .refl
  | some task =>
    have keeps (res : Except H2Error ResponseHead) : ¬ HandsBack (c.task.responseOf task.isConnect res) :=
      c.task.not_handsBack_responseOf task.isConnect res
    have respond (res : Except H2Error ResponseHead) : Move (c.recordNonData answers)
        (((c.recordNonData answers).settle i task.cb (c.task.responseOf task.isConnect res)).respond task.cb) := by
      unfold respond
      split
      · exact .settled there (keeps res)
      · exact .responded there (keeps res)
    cases res with
    | pending =>
      dsimp only
      split
      · next canceled =>
        have given : c.task.pollSend i .pending = (c.settle i task.cb goneOutcome).task := by
          unfold ClientTask.pollSend
          rw [there]
          exact if_pos canceled
        rw [given]
        exact .single (.gaveUp there canceled)
      · next waits =>
        have same : c.task.pollSend i .pending = c.task := by
          unfold ClientTask.pollSend
          rw [there]
          exact if_neg waits
        rw [same]
    | ready res =>
      have polled : { c with task := c.task.pollSend i (.ready res) } =
          c.settle i task.cb (c.task.responseOf task.isConnect res) := by
        unfold settle ClientTask.pollSend
        rw [there]
      dsimp only
      rw [polled]
      cases res with
      | error err => exact .single (.settled there (keeps _))
      | ok head =>
        dsimp only
        refine .trans (c.recordNonData_moves answers) ?_
        split
        · next upgrades =>
          simp only [Bool.and_eq_true] at upgrades
          split
          · exact .single (.refused there upgrades.1 (keeps _))
          · exact .single (respond _)
        · split
          · exact .single (.settled there (keeps _))
          · exact .single (respond _)

theorem dropSend_moves (c : Connection) (i : Nat) : c.Moves (c.dropSend i) := by
  unfold dropSend ClientTask.dropSend
  cases there : c.task.sendTasks[i]? with
  | none => exact .refl
  | some task => exact .single (.settled there (not_handsBack_error _))

theorem readBody_moves (c : Connection) (cb : Nat) (len : Option Nat) (answers : Answers) :
    c.Moves (c.readBody cb len answers) := by
  unfold readBody
  split
  · cases len with
    | some len => exact c.recordData_moves answers len
    | none => exact c.recordNonData_moves answers
  · exact .refl

theorem dropBody_moves (c : Connection) (cb : Nat) : c.Moves (c.dropBody cb) := by
  unfold dropBody
  split
  · next holds => exact .single (.bodyDropped holds)
  · exact .refl

/-- What `cancel_rx` says, and what that means. -/
theorem pollCancelRx_cases (c : Connection) (cb : Nat) :
    (c.pollCancelRx cb = .ready (.ok ()) ∧ cb ∈ c.cancelled) ∨
    (c.pollCancelRx cb = .pending ∧ cb ∉ c.cancelled ∧ cb ∈ c.task.sendTasks.map SendWhen.cb) ∨
    (c.pollCancelRx cb = .ready (.error ()) ∧ cb ∉ c.cancelled ∧ cb ∉ c.task.sendTasks.map SendWhen.cb) := by
  unfold pollCancelRx
  by_cases canceled : cb ∈ c.cancelled
  · exact .inl ⟨if_pos canceled, canceled⟩
  rw [if_neg canceled]
  by_cases waits : cb ∈ c.task.sendTasks.map SendWhen.cb
  · exact .inr (.inl ⟨if_pos waits, canceled, waits⟩)
  · exact .inr (.inr ⟨if_neg waits, canceled, waits⟩)

theorem pollPipeStream_moves {c : Connection} {i cb : Nat} (there : ∃ pipe, c.pipes[i]? = some pipe ∧ pipe.cb = cb)
    (polled : PipePolled) : c.Moves (c.pollPipeStream i cb polled) := by
  obtain ⟨pipe, there, rfl⟩ := there
  cases polled with
  | pending => exact .refl
  | ready => exact .single (.pipeEnded there)
  | failed e => exact .single (.pipeReset there nofun nofun)

theorem pollPipeMap_moves (c : Connection) (i : Nat) (polled : PipePolled) : c.Moves (c.pollPipeMap i polled) := by
  unfold pollPipeMap
  cases there : c.pipes[i]? with
  | none => exact .refl
  | some pipe =>
    have goOn : c.Moves (c.pollPipeStream i pipe.cb polled) := pollPipeStream_moves ⟨pipe, there, rfl⟩ polled
    dsimp only
    cases pipe.cancelRx with
    | false => exact goOn
    | true =>
      rw [if_pos rfl]
      rcases c.pollCancelRx_cases pipe.cb with ⟨told, canceled⟩ | ⟨told, -, -⟩ | ⟨told, kept, done⟩
      · rw [told]
        exact .single (.pipeReset there nofun fun _ => ⟨rfl, canceled⟩)
      · rw [told]
        exact goOn
      · rw [told]
        have deaf := Move.pipeDeaf there kept done
        have still : (c.pipes.set i { pipe with cancelRx := false })[i]? = some { pipe with cancelRx := false } :=
          List.getElem?_set_self (List.getElem?_eq_some_iff.mp there).1
        exact .head deaf (pollPipeStream_moves ⟨{ pipe with cancelRx := false }, still, rfl⟩ polled)

theorem dropPipe_moves (c : Connection) (i : Nat) : c.Moves (c.dropPipe i) := by
  unfold dropPipe
  split
  · next bound => exact .single (.pipeEnded (List.getElem?_eq_getElem bound))
  · exact .refl

theorem pollPonger_moves (c : Connection) (answers : Answers) :
    c.Moves (c.pollPonger answers).2 ∧ (c.pollPonger answers).2.connTask = c.connTask := by
  unfold pollPonger
  cases pinging : c.ponger with
  | none => exact ⟨.refl, rfl⟩
  | some p =>
    have polled := Move.polled pinging answers
    dsimp only
    generalize { p with answers }.poll = res at polled ⊢
    obtain ⟨res, q⟩ := res
    cases res with
    | pending =>
      rw [Ponged.window?, Option.toList_none, List.append_nil] at polled
      exact ⟨.single polled, rfl⟩
    | ready ponged =>
      cases ponged with
      | sizeUpdate window => exact ⟨.single polled, rfl⟩
      | keepAliveTimedOut =>
        rw [Ponged.window?, Option.toList_none, List.append_nil] at polled
        exact ⟨.tail (.single polled) (.task ⟨rfl, List.Subset.refl _, List.Subset.refl _, rfl, Iff.rfl, .refl⟩), rfl⟩

theorem pollConn_moves (c : Connection) (ready : Bool) (answers : Answers) : c.Moves (c.pollConn ready answers) := by
  unfold pollConn
  cases held : c.connTask with
  | none => exact .refl
  | some conn =>
    obtain ⟨moves, same⟩ := c.pollPonger_moves answers
    dsimp only
    generalize c.pollPonger answers = polled at moves same ⊢
    obtain ⟨timedOut, polled⟩ := polled
    dsimp only at moves same
    rw [held] at same
    have ends : Move polled polled.endConn := .connEnded (by rw [same]; rfl)
    cases timedOut with
    | true => exact .tail moves ends
    | false =>
      dsimp only
      split
      · exact .tail moves ends
      · exact .tail moves (.signaled same)

theorem dropConn_moves (c : Connection) : c.Moves c.dropConn := by
  unfold dropConn
  split
  · next held => exact .single (.connEnded held)
  · exact .refl

theorem alone_chan {t : ClientTask} {chan : Channel Request Response} (results : chan.results = t.chan.results)
    (canceled : t.chan.canceled ⊆ chan.canceled)
    (ledger : ClientTask.Moves t.ledger { t with chan }.ledger) : t.Alone { t with chan } :=
  ⟨rfl, by rw [results]; exact List.Subset.refl _, canceled, rfl, Iff.rfl, ledger⟩

theorem act_moves (c : Connection) (a : Action) : c.Moves (c.act a) := by
  cases a with
  | step polled => exact c.step_moves polled
  | drop => exact c.drop_moves
  | pollSend i res isEndStream answers => exact c.pollSend_moves i res isEndStream answers
  | dropSend i => exact c.dropSend_moves i
  | readBody cb len answers => exact c.readBody_moves cb len answers
  | dropBody cb => exact c.dropBody_moves cb
  | pollPipe i polled => exact c.pollPipeMap_moves i polled
  | dropPipe i => exact c.dropPipe_moves i
  | pollConn ready answers => exact c.pollConn_moves ready answers
  | dropConn => exact c.dropConn_moves
  | trySend req =>
    refine .single (.task (alone_chan ?_ ?_ (c.task.act_moves (.trySend req))))
    · unfold trySend send
      split
      · rfl
      split
      · rfl
      · rfl
    · unfold trySend send
      split
      · exact List.Subset.refl _
      split
      · exact List.Subset.refl _
      · exact List.Subset.refl _
  | cloneSender =>
    refine .single (.task (alone_chan ?_ ?_ (c.task.act_moves .cloneSender)))
    · unfold cloneSender
      split
      · rfl
      · rfl
    · unfold cloneSender
      split
      · exact List.Subset.refl _
      · exact List.Subset.refl _
  | dropSender =>
    refine .single (.task (alone_chan ?_ ?_ (c.task.act_moves .dropSender)))
    · unfold dropSender
      split
      · rfl
      · rfl
    · unfold dropSender
      split
      · exact List.Subset.refl _
      · exact List.Subset.refl _
  | cancel id => exact .single (.task (alone_chan rfl (List.subset_cons_self _ _) .refl))

theorem run_moves (c : Connection) (actions : List Action) : c.Moves (c.run actions) := by
  induction actions generalizing c with
  | nil => exact .refl
  | cons a rest ih => exact .trans (c.act_moves a) (ih (c.act a))

/-! ### The ledger -/

theorem task_dropRecorder (c : Connection) : c.dropRecorder.task = c.task := rfl

/-- A pipe for a stream that is no `CONNECT`, or a recorder only, and a reset if the body has failed at once. -/
theorem pollPipe_cases (c : Connection) (f : FutCtx) (polled : PipePolled) :
    (f.isConnect = false ∧ c.pollPipe f polled = { c.cloneRecorder.cloneRecorder with
      connDropRefs := c.connDropRefs + 1, pipes := { cb := f.cb } :: c.pipes }) ∨
    c.pollPipe f polled = c.cloneRecorder ∨
    ∃ reason, f.isConnect = false ∧
      c.pollPipe f polled = { c.cloneRecorder with resets := c.resets ++ [(f.cb, ⟨.userErr, reason⟩)] } := by
  unfold pollPipe
  dsimp only
  split
  · next uploads =>
    obtain ⟨other, -⟩ : f.isConnect = false ∧ f.eos = false := by simpa using uploads
    cases polled with
    | pending => exact .inl ⟨other, rfl⟩
    | ready => exact .inr (.inl rfl)
    | failed e => exact .inr (.inr ⟨e.h2Reason, other, rfl⟩)
  · exact .inr (.inl rfl)

theorem task_pollPipe (c : Connection) (f : FutCtx) (polled : PipePolled) : (c.pollPipe f polled).task = c.task := by
  obtain ⟨-, eq⟩ | eq | ⟨_, -, eq⟩ := c.pollPipe_cases f polled
  · rw [eq]
    rfl
  · rw [eq]
    rfl
  · rw [eq]
    rfl

theorem task_pollDropRx (c : Connection) (conn : ConnTask) :
    ∃ connEof, (c.pollDropRx conn).task = { c.task with connEof } := by
  unfold pollDropRx
  split
  · exact ⟨true, rfl⟩
  · exact ⟨c.task.connEof, rfl⟩

theorem Move.ledger {c c' : Connection} (move : c.Move c') : ClientTask.Moves c.task.ledger c'.task.ledger := by
  cases move with
  | task alone => exact alone.ledger
  | spawn spawns =>
    rw [task_pollPipe]
    exact spawns.ledger
  | drop => exact c.task.drop_moves
  | settled there keeps | responded there keeps | refused there _ keeps => exact ClientTask.moves_task there keeps
  | gaveUp there => exact ClientTask.moves_task there (not_handsBack_error _)
  | recorded | polled | bodyDropped | pipeEnded | pipeReset | pipeDeaf | connEnded => exact .refl
  | @signaled conn =>
    obtain ⟨connEof, same⟩ := c.task_pollDropRx conn
    rw [same]
    exact .refl

theorem Move.balanced {c c' : Connection} (move : c.Move c') (balanced : c.task.ledger.Balanced HandsBack) :
    c'.task.ledger.Balanced HandsBack := Ledger.Moves.balanced move.ledger balanced

end Connection

end Hwire.Http2
