import Hwire.Http2.Handles

/-!
# Idle connections

Whether a connection is idle is read off a reference count. It is found idle when its streams are done, and then no
keep-alive ping is sent unless that is wanted.
-/

namespace Hwire.Http2
open Lib Dispatch Channel

def PingEvent.isKeepAlivePing : PingEvent → Bool
  | .keepAlivePing _ _ => true
  | .read _ | .pingSent _ | .pong | .timedOut _ => false

namespace Ponger

/-- The keep-alive pings that were sent. -/
def keepAlivePings (p : Ponger) : List PingEvent := p.log.filter PingEvent.isKeepAlivePing

variable {p q : Ponger}

/-- A call that would send the same pings whether the connection is idle or not sends none. -/
theorem Calls.noPings (idle : p.Calls true [] q) (busy : p.Calls false [] q) : q.keepAlivePings = p.keepAlivePings := by
  obtain ⟨-, ⟨added, log, found⟩, -⟩ := idle
  obtain ⟨-, ⟨added', log', found'⟩, -⟩ := busy
  obtain rfl : added = added' := List.append_cancel_left (log.symm.trans log')
  unfold keepAlivePings
  rw [log, List.filter_append]
  have none : added.filter PingEvent.isKeepAlivePing = [] := by
    refine List.filter_eq_nil_iff.mpr ?_
    intro event member
    cases event with
    | keepAlivePing time state => exact absurd (found time state member) (by rw [found' time state member]; decide)
    | read | pingSent | pong | timedOut => exact Bool.false_ne_true
  rw [none, List.append_nil]

theorem keepAlivePings_recordData (p : Ponger) (len : Nat) : (p.recordData len).keepAlivePings = p.keepAlivePings :=
  Calls.noPings (p.recordData_calls true len) (p.recordData_calls false len)

theorem keepAlivePings_recordNonData (p : Ponger) : p.recordNonData.keepAlivePings = p.keepAlivePings :=
  Calls.noPings (p.updateLastReadAt_calls true) (p.updateLastReadAt_calls false)

end Ponger

namespace Connection

def keepAlivePings (c : Connection) : List PingEvent := (c.ponger.map Ponger.keepAlivePings).getD []

theorem keepAlivePings_map (c : Connection) {f : Ponger → Ponger} (same : ∀ p, (f p).keepAlivePings = p.keepAlivePings) :
    keepAlivePings { c with ponger := c.ponger.map f } = c.keepAlivePings := by
  unfold keepAlivePings
  dsimp only
  cases c.ponger with
  | none => rfl
  | some p => exact same p

@[simp] theorem keepAlivePings_cloneRecorder (c : Connection) : c.cloneRecorder.keepAlivePings = c.keepAlivePings :=
  c.keepAlivePings_map fun _ => rfl

@[simp] theorem keepAlivePings_dropRecorder (c : Connection) : c.dropRecorder.keepAlivePings = c.keepAlivePings :=
  c.keepAlivePings_map fun _ => rfl

@[simp] theorem keepAlivePings_recordData (c : Connection) (answers : Answers) (len : Nat) :
    (c.recordData answers len).keepAlivePings = c.keepAlivePings :=
  c.keepAlivePings_map fun p => Ponger.keepAlivePings_recordData { p with answers } len

@[simp] theorem keepAlivePings_recordNonData (c : Connection) (answers : Answers) :
    (c.recordNonData answers).keepAlivePings = c.keepAlivePings :=
  c.keepAlivePings_map fun p => Ponger.keepAlivePings_recordNonData { p with answers }

theorem keepAlivePings_congr {c c' : Connection} (same : c'.ponger = c.ponger) : c'.keepAlivePings = c.keepAlivePings := by
  rw [keepAlivePings, same]
  rfl

theorem keepAlivePings_pollPipe (c : Connection) (f : FutCtx) (polled : PipePolled) :
    (c.pollPipe f polled).keepAlivePings = c.keepAlivePings := by
  obtain ⟨-, eq⟩ | eq | ⟨_, -, eq⟩ := c.pollPipe_cases f polled
  · rw [eq]
    exact (keepAlivePings_congr rfl).trans ((keepAlivePings_cloneRecorder _).trans (keepAlivePings_cloneRecorder c))
  · rw [eq]
    exact keepAlivePings_cloneRecorder c
  · rw [eq]
    exact (keepAlivePings_congr rfl).trans (keepAlivePings_cloneRecorder c)

theorem keepAlivePings_step (c : Connection) (polled : PipePolled) : (c.step polled).keepAlivePings = c.keepAlivePings := by
  unfold step
  split
  · exact keepAlivePings_pollPipe _ _ polled
  · rfl

theorem keepAlivePings_respond (c : Connection) (cb : Nat) : (c.respond cb).keepAlivePings = c.keepAlivePings := by
  unfold respond
  split
  · exact keepAlivePings_dropRecorder c
  · rfl

theorem keepAlivePings_pollSend (c : Connection) (i : Nat) (res : Poll (Except H2Error ResponseHead)) (isEndStream : Bool)
    (answers : Answers) : (c.pollSend i res isEndStream answers).keepAlivePings = c.keepAlivePings := by
  unfold pollSend
  cases c.task.sendTasks[i]? with
  | none => rfl
  | some task =>
    have recorded (t : ClientTask) : ({ c with task := t }.recordNonData answers).keepAlivePings = c.keepAlivePings :=
      keepAlivePings_recordNonData _ _
    cases res with
    | pending =>
      dsimp only
      split
      · exact keepAlivePings_dropRecorder _
      · rfl
    | ready res =>
      cases res with
      | error err => exact keepAlivePings_dropRecorder _
      | ok head =>
        dsimp only
        split
        · split
          · exact (keepAlivePings_dropRecorder _).trans (recorded _)
          · exact (keepAlivePings_respond _ _).trans (recorded _)
        · split
          · exact (keepAlivePings_dropRecorder _).trans (recorded _)
          · exact (keepAlivePings_respond _ _).trans (recorded _)

theorem keepAlivePings_endPipe (c : Connection) (i : Nat) : (c.endPipe i).keepAlivePings = c.keepAlivePings :=
  keepAlivePings_dropRecorder _

theorem keepAlivePings_pollPipeStream (c : Connection) (i cb : Nat) (polled : PipePolled) :
    (c.pollPipeStream i cb polled).keepAlivePings = c.keepAlivePings := by
  cases polled with
  | pending => rfl
  | ready | failed e => exact c.keepAlivePings_endPipe i

theorem keepAlivePings_pollPipeMap (c : Connection) (i : Nat) (polled : PipePolled) :
    (c.pollPipeMap i polled).keepAlivePings = c.keepAlivePings := by
  unfold pollPipeMap
  cases c.pipes[i]? with
  | none => rfl
  | some pipe =>
    dsimp only
    split
    · exact c.keepAlivePings_endPipe i
    · exact (keepAlivePings_pollPipeStream _ i pipe.cb polled).trans rfl
    · exact c.keepAlivePings_pollPipeStream i pipe.cb polled
    · exact c.keepAlivePings_pollPipeStream i pipe.cb polled

/-- Only the connection task sends keep-alive pings. -/
theorem keepAlivePings_act {c : Connection} {a : Action} (changed : (c.act a).keepAlivePings ≠ c.keepAlivePings) :
    ∃ ready answers, a = .pollConn ready answers := by
  cases a with
  | pollConn ready answers => exact ⟨ready, answers, rfl⟩
  | step polled => exact absurd (c.keepAlivePings_step polled) changed
  | pollSend i res isEndStream answers => exact absurd (c.keepAlivePings_pollSend i res isEndStream answers) changed
  | pollPipe i polled => exact absurd (c.keepAlivePings_pollPipeMap i polled) changed
  | drop =>
    refine absurd ?_ changed
    show c.drop.keepAlivePings = _
    unfold drop
    split
    · rfl
    · exact keepAlivePings_dropRecorder _
  | dropSend i =>
    refine absurd ?_ changed
    show (c.dropSend i).keepAlivePings = _
    unfold dropSend
    split
    · rfl
    · exact keepAlivePings_dropRecorder _
  | readBody cb len answers =>
    refine absurd ?_ changed
    show (c.readBody cb len answers).keepAlivePings = _
    unfold readBody
    split
    · cases len with
      | some len => exact c.keepAlivePings_recordData answers len
      | none => exact c.keepAlivePings_recordNonData answers
    · rfl
  | dropBody cb =>
    refine absurd ?_ changed
    show (c.dropBody cb).keepAlivePings = _
    unfold dropBody
    split
    · exact keepAlivePings_dropRecorder _
    · rfl
  | dropPipe i =>
    refine absurd ?_ changed
    show (c.dropPipe i).keepAlivePings = _
    unfold dropPipe
    split
    · exact c.keepAlivePings_endPipe i
    · rfl
  | dropConn =>
    refine absurd ?_ changed
    show c.dropConn.keepAlivePings = _
    unfold dropConn
    split
    · exact keepAlivePings_dropRecorder _
    · rfl
  | trySend | cloneSender | dropSender | cancel => exact absurd rfl changed

theorem keepAlivePings_pollConn {c : Connection} {ready : Bool} {answers : Answers}
    (changed : (c.pollConn ready answers).keepAlivePings ≠ c.keepAlivePings) :
    c.connTask.isSome = true ∧ ∃ p, c.ponger = some p ∧
      { p with answers }.poll.2.keepAlivePings ≠ p.keepAlivePings := by
  unfold pollConn at changed
  cases held : c.connTask with
  | none =>
    rw [held] at changed
    exact absurd rfl changed
  | some conn =>
    refine ⟨rfl, ?_⟩
    rw [held] at changed
    have polled : (c.pollPonger answers).2.keepAlivePings ≠ c.keepAlivePings := by
      intro same
      refine changed ?_
      dsimp only
      generalize c.pollPonger answers = result at *
      obtain ⟨timedOut, d⟩ := result
      cases timedOut with
      | true => exact (keepAlivePings_dropRecorder _).trans same
      | false =>
        dsimp only
        split
        · exact (keepAlivePings_dropRecorder _).trans same
        · unfold Connection.pollDropRx
          split
          · exact same
          · exact same
    unfold pollPonger at polled
    cases pinging : c.ponger with
    | none =>
      rw [pinging] at polled
      exact absurd rfl polled
    | some p =>
      refine ⟨p, rfl, ?_⟩
      intro same
      refine polled ?_
      rw [pinging]
      unfold keepAlivePings
      rw [pinging]
      dsimp only
      split
      · exact same
      · exact same
      · exact same

/-! ### Runs -/

theorem steps_dropRecorder {c : Connection} {p' : Ponger} (pinging : c.dropRecorder.ponger = some p') :
    ∃ p, c.ponger = some p ∧ p.Steps p' := by
  obtain ⟨p, same, rfl⟩ := Option.map_eq_some_iff.mp pinging
  exact ⟨p, same, .single .dropped⟩

theorem steps_cloneRecorder {c : Connection} {p' : Ponger} (pinging : c.cloneRecorder.ponger = some p') :
    ∃ p, c.ponger = some p ∧ p.Steps p' := by
  obtain ⟨p, same, rfl⟩ := Option.map_eq_some_iff.mp pinging
  exact ⟨p, same, .single .cloned⟩

theorem Move.steps {c c' : Connection} (move : c.Move c') {p' : Ponger} (pinging : c'.ponger = some p') :
    ∃ p, c.ponger = some p ∧ p.Steps p' := by
  cases move with
  | task | responded | pipeDeaf => exact ⟨p', pinging, .refl⟩
  | recorded before step =>
    obtain rfl := Option.some.inj pinging
    exact ⟨_, before, .single step⟩
  | polled before answers =>
    obtain rfl := Option.some.inj pinging
    exact ⟨_, before, .single (.poll answers)⟩
  | drop | settled | refused | gaveUp | bodyDropped | pipeEnded | pipeReset | connEnded => exact steps_dropRecorder pinging
  | @spawn t f spawns polled =>
    obtain ⟨-, eq⟩ | eq | ⟨_, -, eq⟩ := pollPipe_cases { c with task := t } f polled
    · rw [eq] at pinging
      obtain ⟨q, once, steps⟩ := steps_cloneRecorder (c := ({ c with task := t } : Connection).cloneRecorder) pinging
      obtain ⟨p, same, first⟩ := steps_cloneRecorder once
      exact ⟨p, same, .trans first steps⟩
    · rw [eq] at pinging
      exact steps_cloneRecorder pinging
    · rw [eq] at pinging
      exact steps_cloneRecorder pinging
  | signaled =>
    unfold Connection.pollDropRx at pinging
    split at pinging
    · exact ⟨p', pinging, .refl⟩
    · exact ⟨p', pinging, .refl⟩

theorem Moves.steps {c c' : Connection} (moves : c.Moves c') {p' : Ponger} (pinging : c'.ponger = some p') :
    ∃ p, c.ponger = some p ∧ p.Steps p' := by
  induction moves generalizing p' with
  | refl => exact ⟨p', pinging, .refl⟩
  | tail _ move ih =>
    obtain ⟨q, before, last⟩ := move.steps pinging
    obtain ⟨p, start, steps⟩ := ih before
    exact ⟨p, start, .trans steps last⟩

theorem run_good (config : Config) (now : Nat) (readies : List (Poll (Except H2Error Unit)))
    (sends : List (Except H2Error Unit)) (actions : List Action) {p : Ponger}
    (pinging : ((handshake config now readies sends).run actions).ponger = some p) : p.Good config := by
  obtain ⟨q, start, steps⟩ := (run_moves _ actions).steps pinging
  have first : q = channel config now := by
    unfold handshake at start
    dsimp only at start
    split at start
    · exact (Option.some.inj start).symm
    · cases start
  subst first
  exact Ponger.Steps.good steps (Ponger.channel_good config now)

/-- A ping that is not wanted while the connection is idle is not sent while it is. -/
theorem busy_of_pings {config : Config} (unwanted : config.keepAliveWhileIdle = false) {p : Ponger}
    (good : p.Good config) (sent : p.poll.2.keepAlivePings ≠ p.keepAlivePings) : p.isIdle = false := by
  obtain ⟨-, ⟨added, log, found⟩, -⟩ := p.poll_calls
  by_contra idle
  rw [Bool.not_eq_false] at idle
  refine sent ?_
  unfold Ponger.keepAlivePings
  rw [log, List.filter_append]
  have none : added.filter PingEvent.isKeepAlivePing = [] := by
    refine List.filter_eq_nil_iff.mpr ?_
    intro event member
    cases event with
    | keepAlivePing time state =>
      obtain ⟨before, after, split⟩ := List.append_of_mem member
      have allowed := (Ponger.poll_spec good).1.recorded.rules (p.log ++ before) (.keepAlivePing time state) after
        (by rw [log, split, List.append_assoc])
      have busy := allowed.2 unwanted
      rw [found time state member, idle] at busy
      cases busy
    | read | pingSent | pong | timedOut => exact Bool.false_ne_true
  rw [none, List.append_nil]

theorem Counted.isIdle_iff {c : Connection} (h : c.Counted) {p : Ponger} (pinging : c.ponger = some p)
    (held : c.connTask.isSome = true) : p.isIdle = true ↔ c.task.handles + c.openStreams ≤ 1 := by
  obtain ⟨conn, held⟩ := Option.isSome_iff_exists.mp held
  have count := h.recorders p pinging
  rw [held, Option.toList_some, List.length_singleton] at count
  unfold Ponger.isIdle
  rw [decide_eq_true_iff]
  omega

/-- In every run, while the connection task is there, the connection is idle if and only if nobody is busy with a stream,
or the client task is gone and nobody is busy with more than one. No action sends a keep-alive ping while no stream is
open, unless that is wanted. -/
theorem run_idle (config : Config) (now : Nat) (readies : List (Poll (Except H2Error Unit)))
    (sends : List (Except H2Error Unit)) (actions : List Action) :
    let c := (handshake config now readies sends).run actions
    (∀ p, c.ponger = some p → c.connTask.isSome = true →
      (p.isIdle = true ↔ c.openStreams = 0 ∨ c.task.phase = .gone ∧ c.openStreams = 1)) ∧
    (config.keepAliveWhileIdle = false → ∀ a, (c.act a).keepAlivePings ≠ c.keepAlivePings → c.openStreams ≠ 0) := by
  intro c
  obtain ⟨counted, -⟩ := run_handles config now readies sends actions
  have idle (p : Ponger) (pinging : c.ponger = some p) (held : c.connTask.isSome = true) :
      p.isIdle = true ↔ c.openStreams = 0 ∨ c.task.phase = .gone ∧ c.openStreams = 1 := by
    rw [counted.isIdle_iff pinging held, ← ClientTask.handles_eq_zero]
    have atMost : c.task.handles ≤ 1 := by
      by_cases gone : c.task.phase = .gone
      · rw [ClientTask.handles_gone gone]
        exact Nat.zero_le 1
      · rw [ClientTask.handles_held gone]
    show c.task.handles + c.openStreams ≤ 1 ↔ _
    omega
  refine ⟨idle, ?_⟩
  intro unwanted a changed none
  obtain ⟨ready, answers, rfl⟩ := keepAlivePings_act changed
  obtain ⟨held, p, pinging, sent⟩ := keepAlivePings_pollConn changed
  have good := run_good config now readies sends actions pinging
  have busy : p.isIdle = false := busy_of_pings (p := { p with answers }) unwanted (good.asked answers) sent
  rw [(idle p pinging held).mpr (.inl none)] at busy
  cases busy

end Connection

end Hwire.Http2
