import Hwire.Http2.Ping
import Hwire.Lib.History

/-!
# Pings on time

What must have come before a keep-alive ping and before a timeout, in every run of the ponger and the recorders.
-/

namespace Hwire.Http2
open Lib

/-! ### Rules -/

/-- The keep-alive ping was sent at this time, and no ping was answered since. -/
def Unanswered (log : List PingEvent) (sent : Nat) : Prop :=
  ∃ earlier later, log = earlier ++ .pingSent sent :: later ∧
    ∀ event ∈ later, event ≠ .pong ∧ ∀ time, event ≠ .pingSent time

/-- A ping is sent an interval after every read, and not to an idle connection unless that is wanted. A timeout comes
that long after a ping that was not answered. -/
def Config.Allows (config : Config) (before : List PingEvent) : PingEvent → Prop
  | .keepAlivePing time isIdle =>
    (∃ interval, config.keepAliveInterval = some interval ∧ ∀ read, .read read ∈ before → read + interval ≤ time) ∧
      (config.keepAliveWhileIdle = false → isIdle = false)
  | .timedOut time => ∃ sent, Unanswered before sent ∧ sent + config.keepAliveTimeout ≤ time
  | .read _ | .pingSent _ | .pong => True

theorem Unanswered.concat {log : List PingEvent} {sent : Nat} (unanswered : Unanswered log sent) {event : PingEvent}
    (notPong : event ≠ .pong) (notSent : ∀ time, event ≠ .pingSent time) : Unanswered (log ++ [event]) sent := by
  obtain ⟨earlier, later, rfl, quiet⟩ := unanswered
  refine ⟨earlier, later ++ [event], by simp, ?_⟩
  intro other member
  rcases List.mem_append.mp member with old | new
  · exact quiet other old
  · obtain rfl := List.mem_singleton.mp new
    exact ⟨notPong, notSent⟩

theorem unanswered_sent (log : List PingEvent) (sent : Nat) : Unanswered (log ++ [.pingSent sent]) sent :=
  ⟨log, [], rfl, fun _ member => absurd member List.not_mem_nil⟩

/-! ### The record of reads -/

/-- The last read that is remembered is the latest of the log, and not in the future. -/
structure Recorded (config : Config) (log : List PingEvent) (lastReadAt : Option Nat) (clock : Nat) : Prop where
  rules : Always config.Allows log
  reads : ∀ read, .read read ∈ log → ∃ last, lastReadAt = some last ∧ read ≤ last
  past : ∀ last, lastReadAt = some last → last ≤ clock

variable {config : Config} {log : List PingEvent} {lastReadAt : Option Nat} {clock : Nat}

theorem Recorded.tick (recorded : Recorded config log lastReadAt clock) {later : Nat} (forward : clock ≤ later) :
    Recorded config log lastReadAt later :=
  ⟨recorded.rules, recorded.reads, fun last same => (recorded.past last same).trans forward⟩

theorem Recorded.event (recorded : Recorded config log lastReadAt clock) {event : PingEvent}
    (allowed : config.Allows log event) (notRead : ∀ time, event ≠ .read time) :
    Recorded config (log ++ [event]) lastReadAt clock := by
  refine ⟨recorded.rules.concat allowed, ?_, recorded.past⟩
  intro read member
  rcases List.mem_append.mp member with old | new
  · exact recorded.reads read old
  · exact absurd (List.mem_singleton.mp new).symm (notRead read)

theorem Recorded.read {last : Nat} (recorded : Recorded config log (some last) clock) :
    Recorded config (log ++ [.read clock]) (some clock) clock := by
  refine ⟨recorded.rules.concat trivial, ?_, ?_⟩
  · intro read member
    refine ⟨clock, rfl, ?_⟩
    rcases List.mem_append.mp member with old | new
    · obtain ⟨known, same, before⟩ := recorded.reads read old
      exact before.trans (recorded.past known same)
    · rw [PingEvent.read.inj (List.mem_singleton.mp new)]
  · intro last same
    exact (Option.some.inj same).ge

/-! ### The keep-alive state -/

/-- A keep-alive under the settings, whose sleep ends when a scheduled ping is due. -/
structure Kept (config : Config) (ka : KeepAlive) : Prop where
  interval : config.keepAliveInterval = some ka.interval
  timeout : ka.timeout = config.keepAliveTimeout
  whileIdle : ka.whileIdle = config.keepAliveWhileIdle
  scheduled : ∀ instant, ka.state = .scheduled instant → ka.sleep = instant

/-- While a ping is out, the sleep ends a timeout after it. -/
def Waiting (log : List PingEvent) (ka : KeepAlive) : Prop :=
  ka.state = .pingSent → ∃ sent, Unanswered log sent ∧ ka.sleep = sent + ka.timeout

theorem Waiting.concat {ka : KeepAlive} (waiting : Waiting log ka) {event : PingEvent} (notPong : event ≠ .pong)
    (notSent : ∀ time, event ≠ .pingSent time) : Waiting (log ++ [event]) ka := by
  intro state
  obtain ⟨sent, unanswered, sleep⟩ := waiting state
  exact ⟨sent, unanswered.concat notPong notSent, sleep⟩

theorem KeepAlive.schedule_spec {ka : KeepAlive} (kept : Kept config ka) (shared : Shared) :
    Kept config (ka.schedule shared) ∧ Waiting log (ka.schedule shared) := by
  refine ⟨⟨kept.interval, kept.timeout, kept.whileIdle, ?_⟩, ?_⟩
  · intro instant state
    exact KeepAliveState.scheduled.inj state
  · intro state
    cases state

/-- A ping that is answered is waited for no longer. -/
theorem KeepAlive.maybeSchedule_spec {ka : KeepAlive} (kept : Kept config ka) {shared : Shared}
    (waiting : shared.pingSentAt.isSome = true → Waiting log ka) (isIdle : Bool) :
    Kept config (ka.maybeSchedule isIdle shared) ∧ Waiting log (ka.maybeSchedule isIdle shared) := by
  unfold maybeSchedule
  cases state : ka.state with
  | init =>
    dsimp only
    split
    · refine ⟨kept, ?_⟩
      intro sent
      rw [state] at sent
      cases sent
    · exact schedule_spec kept shared
  | scheduled instant =>
    refine ⟨kept, ?_⟩
    intro sent
    rw [state] at sent
    cases sent
  | pingSent =>
    dsimp only
    split
    · next out => exact ⟨kept, waiting out⟩
    · exact schedule_spec kept shared

namespace Ponger

theorem le_tick (p : Ponger) : p.clock ≤ p.tick.clock := Nat.le_add_right _ _

theorem sendPing_frame (p : Ponger) :
    p.sendPing.log = p.log ∧ p.sendPing.shared.lastReadAt = p.shared.lastReadAt ∧ p.sendPing.keepAlive = p.keepAlive ∧
      p.clock ≤ p.sendPing.clock := by
  unfold sendPing
  dsimp only
  split
  · exact ⟨rfl, rfl, rfl, le_tick _⟩
  · exact ⟨rfl, rfl, rfl, Nat.le_refl _⟩

theorem updateLastReadAt_cases (p : Ponger) :
    (p.shared.lastReadAt = none ∧ p.updateLastReadAt = p) ∨
    ∃ last, p.shared.lastReadAt = some last ∧ p.clock ≤ p.updateLastReadAt.clock ∧
      p.updateLastReadAt.log = p.log ++ [.read p.updateLastReadAt.clock] ∧
      p.updateLastReadAt.shared.lastReadAt = some p.updateLastReadAt.clock ∧
      p.updateLastReadAt.keepAlive = p.keepAlive ∧
      p.updateLastReadAt.shared.pingSentAt = p.shared.pingSentAt := by
  unfold updateLastReadAt
  cases known : p.shared.lastReadAt with
  | none => exact .inl ⟨rfl, rfl⟩
  | some last => exact .inr ⟨last, rfl, le_tick p, rfl, rfl, rfl, rfl⟩

/-- What holds of a ponger, as far as its keep-alive is concerned. -/
structure Good (config : Config) (p : Ponger) : Prop where
  recorded : Recorded config p.log p.shared.lastReadAt p.clock
  keepAlive : ∀ ka, p.keepAlive = some ka → p.shared.lastReadAt.isSome = true ∧ Kept config ka ∧ Waiting p.log ka

theorem Good.tick {p : Ponger} (good : Good config p) : Good config p.tick :=
  ⟨good.recorded.tick (le_tick p), good.keepAlive⟩

theorem Good.updateLastReadAt {p : Ponger} (good : Good config p) : Good config p.updateLastReadAt := by
  rcases p.updateLastReadAt_cases with ⟨-, same⟩ | ⟨last, known, forward, log, read, keepAlive, -⟩
  · rw [same]
    exact good
  · have recorded := good.recorded.tick forward
    rw [known] at recorded
    refine ⟨?_, ?_⟩
    · rw [log, read]
      exact recorded.read
    · intro ka present
      rw [keepAlive] at present
      obtain ⟨-, kept, waiting⟩ := good.keepAlive ka present
      rw [log, read]
      exact ⟨rfl, kept, waiting.concat (by simp) (by simp)⟩

/-- A ping is sent when the sleep is over and nothing was read since it was scheduled. -/
theorem maybePing_spec {p : Ponger} {ka : KeepAlive} (recorded : Recorded config p.log p.shared.lastReadAt p.clock)
    (kept : Kept config ka) (waiting : Waiting p.log ka) (isIdle : Bool) :
    Recorded config (p.maybePing ka isIdle).1.log (p.maybePing ka isIdle).1.shared.lastReadAt
      (p.maybePing ka isIdle).1.clock ∧
    (p.maybePing ka isIdle).1.shared.lastReadAt = p.shared.lastReadAt ∧
    Kept config (p.maybePing ka isIdle).2 ∧ Waiting (p.maybePing ka isIdle).1.log (p.maybePing ka isIdle).2 := by
  unfold maybePing
  cases state : ka.state with
  | init => exact ⟨recorded, rfl, kept, waiting⟩
  | pingSent => exact ⟨recorded, rfl, kept, waiting⟩
  | scheduled instant =>
    have ticked := recorded.tick (le_tick p)
    dsimp only
    split
    · exact ⟨ticked, rfl, kept, waiting⟩
    · next ended =>
      split
      · refine ⟨ticked, rfl, ⟨kept.interval, kept.timeout, kept.whileIdle, ?_⟩, ?_⟩
        · intro instant impossible
          cases impossible
        · intro impossible
          cases impossible
      · next unread =>
        split
        · exact ⟨ticked, rfl, kept, waiting⟩
        · next wanted =>
          have allowed : config.Allows p.log (.keepAlivePing p.tick.clock isIdle) := by
            refine ⟨⟨ka.interval, kept.interval, ?_⟩, ?_⟩
            · intro read member
              obtain ⟨last, known, before⟩ := recorded.reads read member
              have due := kept.scheduled instant state
              rw [show p.tick.shared.lastReadAt = some last from known, Option.getD_some] at unread
              omega
            · intro noIdle
              rw [← kept.whileIdle] at noIdle
              simpa [noIdle] using wanted
          have pinged := ticked.event allowed (by simp)
          obtain ⟨log, last, -, forward⟩ := sendPing_frame (p.tick.note (.keepAlivePing p.tick.clock isIdle))
          generalize (p.tick.note (.keepAlivePing p.tick.clock isIdle)).sendPing = q at log last forward ⊢
          have sent : Recorded config (q.log ++ [.pingSent q.tick.clock]) q.shared.lastReadAt q.tick.clock := by
            rw [log, last]
            exact (pinged.tick (forward.trans (le_tick q))).event trivial (by simp)
          refine ⟨sent, last, ⟨kept.interval, kept.timeout, kept.whileIdle, ?_⟩, ?_⟩
          · intro instant impossible
            cases impossible
          · intro _
            exact ⟨_, unanswered_sent _ _, rfl⟩

/-- A ping that is no longer out need not be waited for. -/
theorem keepAliveRound_good {p : Ponger} (recorded : Recorded config p.log p.shared.lastReadAt p.clock)
    (kept : ∀ ka, p.keepAlive = some ka → p.shared.lastReadAt.isSome = true ∧ Kept config ka ∧
      (p.shared.pingSentAt.isSome = true → Waiting p.log ka)) (isIdle : Bool) :
    Good config (p.keepAliveRound isIdle) := by
  unfold keepAliveRound
  cases present : p.keepAlive with
  | none =>
    refine ⟨recorded, ?_⟩
    intro ka same
    rw [present] at same
    cases same
  | some ka =>
    obtain ⟨read, fits, waiting⟩ := kept ka present
    obtain ⟨scheduled, stillWaiting⟩ := KeepAlive.maybeSchedule_spec fits waiting isIdle
    obtain ⟨recorded, last, fits, waiting⟩ := maybePing_spec recorded scheduled stillWaiting isIdle
    refine ⟨recorded, ?_⟩
    intro ka' same
    obtain rfl := Option.some.inj same
    refine ⟨?_, fits, waiting⟩
    show (p.maybePing _ isIdle).1.shared.lastReadAt.isSome = true
    rw [last]
    exact read

theorem Good.keepAliveRound {p : Ponger} (good : Good config p) (isIdle : Bool) :
    Good config (p.keepAliveRound isIdle) := by
  apply keepAliveRound_good good.recorded
  intro ka present
  obtain ⟨read, kept, waiting⟩ := good.keepAlive ka present
  exact ⟨read, kept, fun _ => waiting⟩

theorem bdpAck_frame (p : Ponger) (bdp : Bdp) (now : Nat) :
    (p.bdpAck bdp now).2.log = p.log ∧ (p.bdpAck bdp now).2.shared.lastReadAt = p.shared.lastReadAt ∧
      (p.bdpAck bdp now).2.clock = p.clock ∧ (p.bdpAck bdp now).2.keepAlive = p.keepAlive ∧
      (p.bdpAck bdp now).1 ≠ .ready .keepAliveTimedOut := by
  unfold bdpAck
  generalize bdp.calculate _ _ = calculated
  obtain ⟨bdp, update⟩ := calculated
  cases update with
  | none => exact ⟨rfl, rfl, rfl, rfl, by simp⟩
  | some window => exact ⟨rfl, rfl, rfl, rfl, by simp⟩

theorem recvPong_good {p : Ponger} (good : Good config p) (isIdle : Bool) : Good config (p.recvPong isIdle) := by
  have ponged : Recorded config (p.log ++ [.pong]) p.shared.lastReadAt p.clock := good.recorded.event trivial (by simp)
  unfold recvPong
  generalize freed : { p with shared := { p.shared with pingSentAt := none } }.note .pong = q
  have log : q.log = p.log ++ [.pong] := by rw [← freed]; rfl
  have shared : q.shared = { p.shared with pingSentAt := none } := by rw [← freed]; rfl
  have clock : q.clock = p.clock := by rw [← freed]; rfl
  have keepAlive : q.keepAlive = p.keepAlive := by rw [← freed]; rfl
  have recorded : Recorded config q.log q.shared.lastReadAt q.clock := by
    rw [log, shared, clock]
    exact ponged
  show Good config (if q.keepAlive.isSome then q.updateLastReadAt.keepAliveRound isIdle else q)
  split
  · next present =>
    obtain ⟨ka, present⟩ := Option.isSome_iff_exists.mp present
    obtain ⟨read, kept, -⟩ := good.keepAlive ka (keepAlive ▸ present)
    rcases q.updateLastReadAt_cases with ⟨unread, -⟩ | ⟨last, known, forward, log', now, keepAlive', slot⟩
    · rw [shared] at unread
      rw [show p.shared.lastReadAt = none from unread] at read
      cases read
    · have later := recorded.tick forward
      rw [known] at later
      apply keepAliveRound_good
      · rw [log', now]
        exact later.read
      · intro ka' same
        rw [keepAlive', present] at same
        obtain rfl := Option.some.inj same
        refine ⟨by rw [now]; rfl, kept, ?_⟩
        rw [slot, shared]
        exact fun out => absurd out Bool.false_ne_true
  · next absent =>
    refine ⟨recorded, ?_⟩
    intro ka present
    rw [present] at absent
    exact absurd rfl absent

/-- A timeout comes when the sleep of a ping is over. -/
theorem pollTimeout_spec {p : Ponger} (good : Good config p) :
    Good config p.pollTimeout.2 ∧ (p.pollTimeout.1 = .ready .keepAliveTimedOut →
      ∃ log, p.pollTimeout.2.log = log ++ [.timedOut p.pollTimeout.2.clock]) := by
  unfold pollTimeout
  cases present : p.keepAlive with
  | none => exact ⟨good, by simp⟩
  | some ka =>
    obtain ⟨read, kept, waiting⟩ := good.keepAlive ka present
    dsimp only
    unfold maybeTimeout
    cases state : ka.state with
    | init => exact ⟨good, by simp⟩
    | scheduled instant => exact ⟨good, by simp⟩
    | pingSent =>
      obtain ⟨sent, unanswered, sleep⟩ := waiting state
      dsimp only
      by_cases early : p.tick.clock < ka.sleep
      · rw [decide_eq_false (not_not.mpr early)]
        exact ⟨good.tick, by simp⟩
      · rw [decide_eq_true early]
        refine ⟨⟨?_, ?_⟩, fun _ => ⟨_, rfl⟩⟩
        · have allowed : config.Allows p.log (.timedOut p.tick.clock) := by
            refine ⟨sent, unanswered, ?_⟩
            rw [← kept.timeout, ← sleep]
            omega
          exact good.tick.recorded.event allowed (by simp)
        · intro ka' impossible
          cases impossible

theorem pollAnswer_spec {p : Ponger} (good : Good config p) (isIdle : Bool) (now : Nat) :
    Good config (p.pollAnswer isIdle now).2 ∧ ((p.pollAnswer isIdle now).1 = .ready .keepAliveTimedOut →
      ∃ log, (p.pollAnswer isIdle now).2.log = log ++ [.timedOut (p.pollAnswer isIdle now).2.clock]) := by
  have polled : Good config p.pollPong.2 := ⟨good.recorded, good.keepAlive⟩
  unfold pollAnswer
  generalize p.pollPong = polledPong at polled ⊢
  obtain ⟨answer, q⟩ := polledPong
  match answer with
  | .pending => exact pollTimeout_spec polled
  | .ready (.error ()) => exact ⟨polled, by simp⟩
  | .ready (.ok ()) =>
    have ponged := recvPong_good polled isIdle
    dsimp only at ponged ⊢
    generalize q.recvPong isIdle = q at ponged ⊢
    cases q.bdp with
    | none => exact ⟨ponged, by simp⟩
    | some bdp =>
      obtain ⟨log, last, clock, keepAlive, other⟩ := q.bdpAck_frame bdp now
      refine ⟨⟨?_, ?_⟩, fun timedOut => absurd timedOut other⟩
      · rw [log, last, clock]
        exact ponged.recorded
      · rw [log, last, keepAlive]
        exact ponged.keepAlive

theorem poll_spec {p : Ponger} (good : Good config p) :
    Good config p.poll.2 ∧ (p.poll.1 = .ready .keepAliveTimedOut →
      ∃ log, p.poll.2.log = log ++ [.timedOut p.poll.2.clock]) := by
  have first := good.tick.keepAliveRound p.tick.isIdle
  unfold poll
  dsimp only
  split
  · exact ⟨first, by simp⟩
  · exact pollAnswer_spec first _ _

theorem Good.sendPing {p : Ponger} (good : Good config p) : Good config p.sendPing := by
  obtain ⟨log, last, keepAlive, forward⟩ := p.sendPing_frame
  refine ⟨?_, ?_⟩
  · rw [log, last]
    exact good.recorded.tick forward
  · rw [log, last, keepAlive]
    exact good.keepAlive

theorem Good.recordBytes {p : Ponger} (good : Good config p) (len : Nat) : Good config (p.recordBytes len) := by
  unfold Ponger.recordBytes
  cases p.shared.bytes with
  | none => exact good
  | some bytes =>
    dsimp only
    split
    · exact Good.sendPing ⟨good.recorded, good.keepAlive⟩
    · exact ⟨good.recorded, good.keepAlive⟩

theorem Good.recordData {p : Ponger} (good : Good config p) (len : Nat) : Good config (p.recordData len) := by
  have read := good.updateLastReadAt
  unfold Ponger.recordData
  dsimp only
  split
  · exact read
  · have free : Good config { p.updateLastReadAt with shared := { p.updateLastReadAt.shared with nextBdpAt := none } } :=
      ⟨read.recorded, read.keepAlive⟩
    exact free.recordBytes len

/-! ### Runs -/

theorem channel_good (config : Config) (now : Nat) : Good config (channel config now) := by
  unfold channel
  refine ⟨⟨?_, ?_, ?_⟩, ?_⟩
  · cases config.keepAliveInterval with
    | none => exact Always.nil _
    | some interval => exact (Always.nil _).concat trivial
  · intro read member
    dsimp only at member ⊢
    cases interval : config.keepAliveInterval with
    | none => simp [interval] at member
    | some interval' =>
      simp only [interval, Option.map_some, Option.toList_some, List.mem_singleton, PingEvent.read.injEq] at member
      exact ⟨now, rfl, member.le⟩
  · intro last known
    obtain ⟨_, -, rfl⟩ := Option.map_eq_some_iff.mp known
    exact Nat.le_refl _
  · intro ka present
    obtain ⟨interval, known, rfl⟩ := Option.map_eq_some_iff.mp present
    refine ⟨by simp [known], ⟨known, rfl, rfl, ?_⟩, ?_⟩
    · intro instant state
      cases state
    · intro state
      cases state

theorem Good.asked {p : Ponger} (good : Good config p) (answers : Answers) : Good config { p with answers } :=
  ⟨good.recorded, good.keepAlive⟩

theorem Step.good {p q : Ponger} (step : p.Step q) (good : Good config p) : Good config q := by
  cases step with
  | poll answers => exact (poll_spec (good.asked answers)).1
  | recordData answers len => exact (good.asked answers).recordData len
  | recordNonData answers => exact (good.asked answers).updateLastReadAt
  | cloned => exact ⟨good.recorded, good.keepAlive⟩
  | dropped => exact ⟨good.recorded, good.keepAlive⟩

theorem Steps.good {p q : Ponger} (steps : p.Steps q) (good : Good config p) : Good config q := by
  induction steps with
  | refl => exact good
  | tail _ step ih => exact step.good ih

/-- In every run keep-alive pings are sent on time, and a poll that returns a timeout has waited long enough for a
pong. -/
theorem Steps.onTime {p : Ponger} {now : Nat} (steps : (channel config now).Steps p) :
    Always config.Allows p.log ∧
    ∀ answers, ({ p with answers }.poll).1 = .ready .keepAliveTimedOut →
      ∃ before sent, ({ p with answers }.poll).2.log = before ++ [.timedOut ({ p with answers }.poll).2.clock] ∧
        Unanswered before sent ∧ sent + config.keepAliveTimeout ≤ ({ p with answers }.poll).2.clock := by
  have good := steps.good (channel_good config now)
  refine ⟨good.recorded.rules, ?_⟩
  intro answers timedOut
  obtain ⟨polled, logged⟩ := poll_spec (good.asked answers)
  obtain ⟨before, log⟩ := logged timedOut
  obtain ⟨sent, unanswered, waited⟩ := polled.recorded.rules before (.timedOut _) [] log
  exact ⟨before, sent, log, unanswered, waited⟩

/-- A connection that is read from at time 4, pinged at time 16 and given up at time 21. -/
def pingConfig : Config := .new false 0 (some 10) 5 true

def pinged : Ponger :=
  let read := { channel pingConfig 0 with answers := { ticks := [4] } }.recordNonData
  let scheduled := { read with answers := {} }.poll.2
  { scheduled with answers := { ticks := [12] } }.poll.2

theorem Steps.onTime_pinged :
    Always pingConfig.Allows pinged.log ∧
    ∃ before sent, ({ pinged with answers := { ticks := [5] } }.poll).2.log = before ++ [.timedOut 21] ∧
      Unanswered before sent ∧ sent + 5 ≤ 21 := by
  have steps : (channel pingConfig 0).Steps pinged :=
    ((Relation.ReflTransGen.refl.tail (.recordNonData _)).tail (.poll _)).tail (.poll _)
  obtain ⟨rules, waited⟩ := Steps.onTime steps
  exact ⟨rules, waited { ticks := [5] } (by decide)⟩

end Ponger

end Hwire.Http2
