import Hwire.Http2.Moves

/-!
# Handles of an HTTP/2 connection

The two counts by which the futures of a connection know of each other. The recorders of pings say whether the connection
is idle, and the senders that nothing is sent on say when it is time to shut down.
-/

namespace Hwire.Http2
open Lib Dispatch Channel

/-- The task has one of each handle until it is dropped. -/
def ClientTask.handles (t : ClientTask) : Nat :=
  match t.phase with
  | .gone => 0
  | .running | .finished _ => 1

theorem ClientTask.handles_gone {t : ClientTask} (gone : t.phase = .gone) : t.handles = 0 := by rw [handles, gone]

theorem ClientTask.handles_held {t : ClientTask} (held : t.phase ≠ .gone) : t.handles = 1 := by
  unfold handles
  split
  · next gone => exact absurd gone held
  · rfl
  · rfl

theorem ClientTask.handles_eq_zero {t : ClientTask} : t.handles = 0 ↔ t.phase = .gone := by
  constructor
  · intro none
    by_contra held
    rw [handles_held held] at none
    cases none
  · exact handles_gone

theorem ClientTask.handles_congr {t t' : ClientTask} (same : t'.phase = .gone ↔ t.phase = .gone) :
    t'.handles = t.handles := by
  by_cases gone : t.phase = .gone
  · rw [handles_gone gone, handles_gone (same.mpr gone)]
  · rw [handles_held gone, handles_held fun gone' => gone (same.mp gone')]

namespace Connection

/-- The streams that somebody is still busy with: the response, the request body, or the response body. One that is at it
with two of them counts twice. -/
def openStreams (c : Connection) : Nat := c.task.sendTasks.length + c.pipes.length + c.bodies.length

structure Counted (c : Connection) : Prop where
  recorders : ∀ p, c.ponger = some p → p.strongCount = c.connTask.toList.length + c.task.handles + c.openStreams
  dropRefs : c.connDropRefs = c.task.handles + c.pipes.length

theorem ponger_dropRecorder {c : Connection} {p : Ponger} (pinging : c.dropRecorder.ponger = some p) :
    ∃ q, c.ponger = some q ∧ p.strongCount = q.strongCount - 1 := by
  obtain ⟨q, same, rfl⟩ := Option.map_eq_some_iff.mp pinging
  exact ⟨q, same, rfl⟩

theorem ponger_cloneRecorder {c : Connection} {p : Ponger} (pinging : c.cloneRecorder.ponger = some p) :
    ∃ q, c.ponger = some q ∧ p.strongCount = q.strongCount + 1 := by
  obtain ⟨q, same, rfl⟩ := Option.map_eq_some_iff.mp pinging
  exact ⟨q, same, rfl⟩

theorem length_eraseIdx_of {α : Type} {xs : List α} {i : Nat} {x : α} (there : xs[i]? = some x) :
    (xs.eraseIdx i).length + 1 = xs.length := by
  obtain ⟨bound, -⟩ := List.getElem?_eq_some_iff.mp there
  rw [List.length_eraseIdx_of_lt bound]
  omega

theorem Counted.settled {c : Connection} (h : c.Counted) {i : Nat} {task : SendWhen}
    (there : c.task.sendTasks[i]? = some task) (res : Outcome Request Response) :
    (c.settle i task.cb res).dropRecorder.Counted := by
  refine ⟨?_, h.dropRefs⟩
  intro p pinging
  obtain ⟨q, same, count⟩ := ponger_dropRecorder pinging
  have before := h.recorders q same
  have fewer := length_eraseIdx_of there
  show p.strongCount = c.connTask.toList.length + c.task.handles +
    ((c.task.sendTasks.eraseIdx i).length + c.pipes.length + c.bodies.length)
  unfold openStreams at before
  omega

theorem Counted.endPipe {c : Connection} (h : c.Counted) {i : Nat} {pipe : PipeMap} (there : c.pipes[i]? = some pipe) :
    (c.endPipe i).Counted := by
  have fewer := length_eraseIdx_of there
  have refs := h.dropRefs
  refine ⟨?_, ?_⟩
  · intro p pinging
    obtain ⟨q, same, count⟩ := ponger_dropRecorder pinging
    have before := h.recorders q same
    show p.strongCount = c.connTask.toList.length + c.task.handles +
      (c.task.sendTasks.length + (c.pipes.eraseIdx i).length + c.bodies.length)
    unfold openStreams at before
    omega
  · show c.connDropRefs - 1 = c.task.handles + (c.pipes.eraseIdx i).length
    omega

theorem Counted.spawn {c : Connection} (h : c.Counted) {t : ClientTask} {f : FutCtx} (spawns : c.task.Spawns f t)
    (polled : PipePolled) : ({ c with task := t }.pollPipe f polled).Counted := by
  have handles : t.handles = c.task.handles := by
    refine ClientTask.handles_congr ?_
    rw [spawns.running, spawns.still]
  have one : t.sendTasks.length = c.task.sendTasks.length + 1 := by rw [spawns.sendTasks, List.length_cons]
  have refs := h.dropRefs
  have recorded : Counted (cloneRecorder { c with task := t }) := by
    refine ⟨?_, by rw [← handles] at refs; exact refs⟩
    intro p pinging
    obtain ⟨q, same, count⟩ := ponger_cloneRecorder pinging
    have before := h.recorders q same
    show p.strongCount = c.connTask.toList.length + t.handles + (t.sendTasks.length + c.pipes.length + c.bodies.length)
    unfold openStreams at before
    omega
  obtain ⟨-, eq⟩ | eq | ⟨_, -, eq⟩ := pollPipe_cases { c with task := t } f polled
  · rw [eq]
    refine ⟨?_, ?_⟩
    · intro p pinging
      obtain ⟨q, same, count⟩ := ponger_cloneRecorder (c := ({ c with task := t } : Connection).cloneRecorder) pinging
      have before : q.strongCount = c.connTask.toList.length + t.handles +
          (t.sendTasks.length + c.pipes.length + c.bodies.length) := recorded.recorders q same
      show p.strongCount = c.connTask.toList.length + t.handles +
        (t.sendTasks.length + (c.pipes.length + 1) + c.bodies.length)
      omega
    · show c.connDropRefs + 1 = t.handles + (c.pipes.length + 1)
      omega
  · rw [eq]
    exact recorded
  · rw [eq]
    exact ⟨recorded.recorders, recorded.dropRefs⟩

theorem Move.counted {c c' : Connection} (move : c.Move c') (h : c.Counted) : c'.Counted := by
  have refs := h.dropRefs
  cases move with
  | task alone =>
    have handles := ClientTask.handles_congr alone.gone
    refine ⟨?_, by rw [← handles] at refs; exact refs⟩
    intro p pinging
    have before := h.recorders p pinging
    unfold openStreams at before ⊢
    rwa [handles, alone.sendTasks]
  | spawn spawns polled => exact h.spawn spawns polled
  | drop held =>
    have one := ClientTask.handles_held held
    have sendTasks : c.task.drop.sendTasks = c.task.sendTasks := by
      unfold ClientTask.drop
      split
      · rfl
      · rfl
    refine ⟨?_, ?_⟩
    · intro p pinging
      obtain ⟨q, same, count⟩ := ponger_dropRecorder pinging
      have before := h.recorders q same
      show p.strongCount = c.connTask.toList.length + 0 +
        (c.task.drop.sendTasks.length + c.pipes.length + c.bodies.length)
      unfold openStreams at before
      rw [sendTasks]
      omega
    · show c.connDropRefs - 1 = 0 + c.pipes.length
      omega
  | recorded pinging step calls =>
    refine ⟨?_, refs⟩
    intro p same
    obtain rfl := Option.some.inj same
    rw [(calls false).strongCount]
    exact h.recorders _ pinging
  | @polled p pinging answers =>
    refine ⟨?_, refs⟩
    intro q same
    obtain rfl := Option.some.inj same
    rw [(Ponger.poll_calls _).strongCount]
    exact h.recorders p pinging
  | settled there => exact h.settled there _
  | @refused i task res there =>
    have settled := h.settled there res
    exact ⟨settled.recorders, settled.dropRefs⟩
  | gaveUp there =>
    have settled := h.settled there goneOutcome
    exact ⟨settled.recorders, settled.dropRefs⟩
  | @responded i task res there =>
    have fewer := length_eraseIdx_of there
    refine ⟨?_, refs⟩
    intro p pinging
    have before := h.recorders p pinging
    show p.strongCount = c.connTask.toList.length + c.task.handles +
      ((c.task.sendTasks.eraseIdx i).length + c.pipes.length + (c.bodies.length + 1))
    unfold openStreams at before
    omega
  | @bodyDropped cb holds =>
    have fewer : (c.bodies.erase cb).length + 1 = c.bodies.length := by
      have some := List.length_pos_of_mem holds
      rw [List.length_erase_of_mem holds]
      omega
    refine ⟨?_, refs⟩
    intro p pinging
    obtain ⟨q, same, count⟩ := ponger_dropRecorder pinging
    have before := h.recorders q same
    show p.strongCount = c.connTask.toList.length + c.task.handles +
      (c.task.sendTasks.length + c.pipes.length + (c.bodies.erase cb).length)
    unfold openStreams at before
    omega
  | pipeEnded there => exact h.endPipe there
  | pipeReset there =>
    have ended := h.endPipe there
    exact ⟨ended.recorders, ended.dropRefs⟩
  | @pipeDeaf i pipe there =>
    refine ⟨?_, ?_⟩
    · intro p pinging
      have before := h.recorders p pinging
      unfold openStreams at before ⊢
      rwa [List.length_set]
    · show c.connDropRefs = c.task.handles + (c.pipes.set i _).length
      rwa [List.length_set]
  | connEnded held =>
    obtain ⟨conn, held⟩ := Option.isSome_iff_exists.mp held
    refine ⟨?_, refs⟩
    intro p pinging
    obtain ⟨q, same, count⟩ := ponger_dropRecorder pinging
    have before := h.recorders q same
    rw [held] at before
    show p.strongCount = 0 + c.task.handles + c.openStreams
    simp only [Option.toList_some, List.length_singleton] at before
    omega
  | signaled held =>
    unfold pollDropRx
    split
    · refine ⟨?_, refs⟩
      intro p pinging
      have before := h.recorders p pinging
      rw [held] at before
      exact before
    · exact h

/-! ### Shutdown -/

/-- What a connection task that is there has told the client task. -/
structure Told (c : Connection) : Prop where
  calm : c.panicked = false
  paired : ∀ conn, c.connTask = some conn → conn.cancelTx = !conn.dropRxTerminated
  eof : ∀ conn, c.connTask = some conn → conn.cancelTx = !c.task.connEof
  last : ∀ conn, c.connTask = some conn → conn.cancelTx = false → c.connDropRefs = 0
  ended : c.connTask = none → c.task.connEof = true

theorem Told.aside {c c' : Connection} (h : c.Told) (panicked : c'.panicked = c.panicked)
    (connTask : c'.connTask = c.connTask) (connEof : c'.task.connEof = c.task.connEof)
    (refs : c.connDropRefs = 0 → c'.connDropRefs = 0) : c'.Told := by
  refine ⟨panicked.trans h.calm, ?_, ?_, ?_, ?_⟩
  · rw [connTask]
    exact h.paired
  · rw [connTask, connEof]
    exact h.eof
  · rw [connTask]
    intro conn held told
    exact refs (h.last conn held told)
  · rw [connTask, connEof]
    exact h.ended

theorem Move.told {c c' : Connection} (move : c.Move c') (counted : c.Counted) (h : c.Told) : c'.Told := by
  have refs := counted.dropRefs
  cases move with
  | task alone => exact h.aside rfl rfl alone.connEof id
  | @spawn t f spawns polled =>
    have held : c.task.phase ≠ .gone := by
      rw [spawns.running]
      exact nofun
    have one := ClientTask.handles_held held
    have some : c.connDropRefs ≠ 0 := by omega
    obtain ⟨-, eq⟩ | eq | ⟨_, -, eq⟩ := pollPipe_cases { c with task := t } f polled
    · rw [eq]
      exact h.aside rfl rfl spawns.connEof fun none => absurd none some
    · rw [eq]
      exact h.aside rfl rfl spawns.connEof id
    · rw [eq]
      exact h.aside rfl rfl spawns.connEof id
  | drop held =>
    refine h.aside rfl rfl ?_ fun none => ?_
    · show c.task.drop.connEof = _
      unfold ClientTask.drop
      split
      · rfl
      · rfl
    · show c.connDropRefs - 1 = 0
      omega
  | recorded | polled | settled | refused | gaveUp | responded | bodyDropped | pipeDeaf => exact h.aside rfl rfl rfl id
  | pipeEnded | pipeReset =>
    refine h.aside rfl rfl rfl fun none => ?_
    show c.connDropRefs - 1 = 0
    omega
  | connEnded => exact ⟨h.calm, nofun, nofun, nofun, fun _ => rfl⟩
  | @signaled conn held =>
    unfold pollDropRx
    split
    · next signals =>
      obtain ⟨fresh, none⟩ := Bool.and_eq_true_iff.mp signals
      have kept : conn.cancelTx = true := by rw [h.paired conn held]; exact fresh
      refine ⟨?_, ?_, ?_, ?_, nofun⟩
      · show (c.panicked || !conn.cancelTx) = false
        rw [h.calm, kept]
        rfl
      · intro conn' same
        obtain rfl := Option.some.inj same
        rfl
      · intro conn' same
        obtain rfl := Option.some.inj same
        rfl
      · intro _ _ _
        exact of_decide_eq_true none
    · exact h

theorem handshake_counted (config : Config) (now : Nat) (readies : List (Poll (Except H2Error Unit)))
    (sends : List (Except H2Error Unit)) : (handshake config now readies sends).Counted := by
  refine ⟨?_, rfl⟩
  intro p pinging
  unfold handshake at pinging
  dsimp only at pinging
  split at pinging
  · obtain rfl := Option.some.inj pinging
    rfl
  · cases pinging

theorem handshake_told (config : Config) (now : Nat) (readies : List (Poll (Except H2Error Unit)))
    (sends : List (Except H2Error Unit)) : (handshake config now readies sends).Told := by
  have first {conn : ConnTask} (held : (handshake config now readies sends).connTask = some conn) : conn = {} :=
    (Option.some.inj held).symm
  refine ⟨rfl, ?_, ?_, ?_, nofun⟩
  · intro conn held
    obtain rfl := first held
    rfl
  · intro conn held
    obtain rfl := first held
    rfl
  · intro conn held told
    obtain rfl := first held
    cases told

theorem Moves.handles {c c' : Connection} (moves : c.Moves c') (counted : c.Counted) (told : c.Told) :
    c'.Counted ∧ c'.Told := by
  induction moves with
  | refl => exact ⟨counted, told⟩
  | tail _ move ih => exact ⟨move.counted ih.1, move.told ih.1 ih.2⟩

theorem run_handles (config : Config) (now : Nat) (readies : List (Poll (Except H2Error Unit)))
    (sends : List (Except H2Error Unit)) (actions : List Action) :
    ((handshake config now readies sends).run actions).Counted ∧
      ((handshake config now readies sends).run actions).Told :=
  (run_moves _ actions).handles (handshake_counted config now readies sends) (handshake_told config now readies sends)

/-- Nobody can send on the channel any more, and nobody will. -/
theorem Counted.dropRefs_eq_zero {c : Connection} (h : c.Counted) :
    c.connDropRefs = 0 ↔ c.task.phase = .gone ∧ c.pipes = [] := by
  rw [h.dropRefs, Nat.add_eq_zero_iff, ClientTask.handles_eq_zero, List.length_eq_zero_iff]

theorem Move.stays {c c' : Connection} (move : c.Move c') (finished : c.task.phase = .gone ∧ c.pipes = []) :
    c'.task.phase = .gone ∧ c'.pipes = [] := by
  obtain ⟨gone, none⟩ := finished
  cases move with
  | task alone => exact ⟨alone.gone.mpr gone, none⟩
  | spawn spawns =>
    have running := spawns.running
    rw [gone] at running
    cases running
  | drop held => exact absurd gone held
  | pipeEnded there | pipeReset there | pipeDeaf there =>
    rw [none] at there
    cases there
  | signaled =>
    unfold pollDropRx
    split
    · exact ⟨gone, none⟩
    · exact ⟨gone, none⟩
  | _ => exact ⟨gone, none⟩

theorem Moves.stays {c c' : Connection} (moves : c.Moves c') (finished : c.task.phase = .gone ∧ c.pipes = []) :
    c'.task.phase = .gone ∧ c'.pipes = [] := by
  induction moves with
  | refl => exact finished
  | tail _ move ih => exact move.stays ih

theorem pollPonger_frame (c : Connection) (answers : Answers) :
    (c.pollPonger answers).2.task.phase = c.task.phase ∧ (c.pollPonger answers).2.pipes = c.pipes ∧
      (c.pollPonger answers).2.connTask = c.connTask := by
  unfold pollPonger
  split
  · exact ⟨rfl, rfl, rfl⟩
  · dsimp only
    split
    · exact ⟨rfl, rfl, rfl⟩
    · exact ⟨rfl, rfl, rfl⟩
    · exact ⟨rfl, rfl, rfl⟩

/-- A poll that leaves the connection task there has told the client task if and only if there was reason to. -/
theorem Told.pollDropRx {c : Connection} (h : c.Told) {conn : ConnTask} (held : c.connTask = some conn) {conn' : ConnTask}
    (left : (c.pollDropRx conn).connTask = some conn') : conn'.cancelTx = false ↔ c.connDropRefs = 0 := by
  unfold Connection.pollDropRx at left
  split at left
  · next signals =>
    obtain rfl := Option.some.inj left
    obtain ⟨-, none⟩ := Bool.and_eq_true_iff.mp signals
    exact ⟨fun _ => of_decide_eq_true none, fun _ => rfl⟩
  · next quiet =>
    rw [held] at left
    obtain rfl := Option.some.inj left
    refine ⟨h.last conn held, ?_⟩
    intro none
    rw [h.paired conn held]
    by_contra fresh
    refine quiet (Bool.and_eq_true_iff.mpr ⟨?_, decide_eq_true none⟩)
    simpa using fresh

/-- In every run the connection task never panics. The client task is told that the connection is over only when it is, and
the connection is told to shut down by a poll if and only if the client task is gone and no request body is being sent any
more, which stays so. -/
theorem run_shutdown (config : Config) (now : Nat) (readies : List (Poll (Except H2Error Unit)))
    (sends : List (Except H2Error Unit)) (actions : List Action) :
    let c := (handshake config now readies sends).run actions
    c.panicked = false ∧
    (c.task.phase ≠ .gone → (c.task.connEof = true ↔ c.connTask = none)) ∧
    (∀ ready answers conn, (c.act (.pollConn ready answers)).connTask = some conn →
      (conn.cancelTx = false ↔ c.task.phase = .gone ∧ c.pipes = [])) ∧
    (c.task.phase = .gone → c.pipes = [] → ∀ others, (c.run others).task.phase = .gone ∧ (c.run others).pipes = []) := by
  intro c
  obtain ⟨counted, told⟩ := run_handles config now readies sends actions
  refine ⟨told.calm, ?_, ?_, ?_⟩
  · intro held
    refine ⟨?_, told.ended⟩
    intro eof
    cases there : c.connTask with
    | none => rfl
    | some conn =>
      have dropped : conn.cancelTx = false := by rw [told.eof conn there, eof]; rfl
      exact absurd (counted.dropRefs_eq_zero.mp (told.last conn there dropped)).1 held
  · intro ready answers conn left
    obtain ⟨phase, pipes, connTask⟩ := c.pollPonger_frame answers
    have polled := (c.pollPonger_moves answers).1.handles counted told
    rw [← phase, ← pipes, ← polled.1.dropRefs_eq_zero]
    replace left : (c.pollConn ready answers).connTask = some conn := left
    unfold pollConn at left
    cases there : c.connTask with
    | none =>
      rw [there] at left
      dsimp only at left
      rw [there] at left
      cases left
    | some conn' =>
      rw [there] at left connTask
      dsimp only at left
      generalize c.pollPonger answers = result at *
      obtain ⟨timedOut, d⟩ := result
      cases timedOut with
      | true => cases left
      | false =>
        dsimp only at left
        split at left
        · cases left
        · exact polled.2.pollDropRx connTask left
  · intro gone none others
    exact (run_moves c others).stays ⟨gone, none⟩

end Connection

end Hwire.Http2
