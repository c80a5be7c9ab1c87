import Hwire.Http2.Bandwidth
import Hwire.Http2.PingTimes

/-!
# Calls of a ponger

What every call of a ponger or of a recorder leaves as it was, and the windows that polls ask for.
-/

namespace Hwire.Http2
open Lib

/-- The window that a poll asks for. -/
def Ponged.window? : Poll Ponged → Option Nat
  | .ready (.sizeUpdate window) => some window
  | .ready .keepAliveTimedOut | .pending => none

namespace Ponger

/-- What a call does that finds the connection idle or not, and gives these windows. -/
structure Calls (p : Ponger) (isIdle : Bool) (windows : List Nat) (q : Ponger) : Prop where
  strongCount : q.strongCount = p.strongCount
  log : ∃ added, q.log = p.log ++ added ∧ ∀ time found, PingEvent.keepAlivePing time found ∈ added → found = isIdle
  bytes : p.shared.bytes.isSome = true → q.shared.bytes.isSome = true
  bdp : ∃ samples, q.bdp = p.bdp.map (fun bdp => (bdp.calculates samples).1) ∧
    windows = (p.bdp.map fun bdp => (bdp.calculates samples).2).getD []

variable {p q r : Ponger} {isIdle : Bool} {windows windows' : List Nat}

theorem log_same (same : q.log = p.log) : ∃ added, q.log = p.log ++ added ∧
    ∀ time found, PingEvent.keepAlivePing time found ∈ added → found = isIdle :=
  ⟨[], by rw [same, List.append_nil], fun _ _ member => absurd member List.not_mem_nil⟩

theorem bdp_same (same : q.bdp = p.bdp) : ∃ samples, q.bdp = p.bdp.map (fun bdp => (bdp.calculates samples).1) ∧
    [] = (p.bdp.map fun bdp => (bdp.calculates samples).2).getD [] := by
  refine ⟨[], ?_⟩
  rw [same]
  cases p.bdp with
  | none => exact ⟨rfl, rfl⟩
  | some bdp => exact ⟨rfl, rfl⟩

theorem Calls.aside (strongCount : q.strongCount = p.strongCount) (log : q.log = p.log)
    (bytes : p.shared.bytes.isSome = true → q.shared.bytes.isSome = true) (bdp : q.bdp = p.bdp) :
    p.Calls isIdle [] q := ⟨strongCount, log_same log, bytes, bdp_same bdp⟩

theorem Calls.trans (first : p.Calls isIdle windows q) (next : q.Calls isIdle windows' r) :
    p.Calls isIdle (windows ++ windows') r := by
  obtain ⟨count, ⟨added, log, found⟩, bytes, samples, bdp, given⟩ := first
  obtain ⟨count', ⟨added', log', found'⟩, bytes', samples', bdp', given'⟩ := next
  refine ⟨count'.trans count, ⟨added ++ added', by rw [log', log, List.append_assoc], ?_⟩, bytes' ∘ bytes,
    samples ++ samples', ?_⟩
  · intro time state member
    rcases List.mem_append.mp member with old | new
    · exact found time state old
    · exact found' time state new
  · rw [bdp', given, given', bdp]
    cases p.bdp with
    | none => exact ⟨rfl, rfl⟩
    | some bdp => simp [Bdp.calculates_append]

/-- Nothing but a note of an event. -/
theorem Calls.noted {event : PingEvent} (strongCount : q.strongCount = p.strongCount) (log : q.log = p.log ++ [event])
    (other : ∀ time found, event = .keepAlivePing time found → found = isIdle)
    (bytes : p.shared.bytes.isSome = true → q.shared.bytes.isSome = true) (bdp : q.bdp = p.bdp) :
    p.Calls isIdle [] q := by
  refine ⟨strongCount, ⟨[event], log, ?_⟩, bytes, bdp_same bdp⟩
  intro time found member
  exact other time found (List.mem_singleton.mp member).symm

theorem Calls.of_asked {answers : Answers} (calls : { p with answers }.Calls isIdle windows q) :
    p.Calls isIdle windows q := ⟨calls.strongCount, calls.log, calls.bytes, calls.bdp⟩

theorem tick_calls (p : Ponger) : p.Calls isIdle [] p.tick := .aside rfl rfl id rfl

theorem sendPing_calls (p : Ponger) : p.Calls isIdle [] p.sendPing := by
  unfold sendPing
  dsimp only
  split
  · exact .aside rfl rfl id rfl
  · exact .aside rfl rfl id rfl

theorem updateLastReadAt_calls (p : Ponger) (isIdle : Bool) : p.Calls isIdle [] p.updateLastReadAt := by
  unfold updateLastReadAt
  split
  · refine .noted rfl rfl ?_ id rfl
    intro time found same
    cases same
  · exact .aside rfl rfl id rfl

theorem maybePing_calls (p : Ponger) (ka : KeepAlive) : p.Calls isIdle [] (p.maybePing ka isIdle).1 := by
  unfold maybePing
  cases ka.state with
  | init | pingSent => exact .aside rfl rfl id rfl
  | scheduled instant =>
    dsimp only
    split
    · exact .aside rfl rfl id rfl
    split
    · exact .aside rfl rfl id rfl
    split
    · exact .aside rfl rfl id rfl
    · have noted : p.Calls isIdle [] (p.tick.note (.keepAlivePing p.tick.clock isIdle)) := by
        refine .noted rfl rfl ?_ id rfl
        intro time found same
        exact (PingEvent.keepAlivePing.inj same).2.symm
      refine (noted.trans ((sendPing_calls _).trans (tick_calls _))).trans (.noted rfl rfl ?_ id rfl)
      intro time found same
      cases same

theorem keepAliveRound_calls (p : Ponger) : p.Calls isIdle [] (p.keepAliveRound isIdle) := by
  unfold keepAliveRound
  split
  · exact (p.maybePing_calls _).trans (.aside rfl rfl id rfl)
  · exact .aside rfl rfl id rfl

theorem recvPong_calls (p : Ponger) : p.Calls isIdle [] (p.recvPong isIdle) := by
  have freed : p.Calls isIdle [] ({ p with shared := { p.shared with pingSentAt := none } }.note .pong) := by
    refine .noted rfl rfl ?_ id rfl
    intro time found same
    cases same
  unfold recvPong
  dsimp only
  split
  · exact freed.trans ((updateLastReadAt_calls _ _).trans (keepAliveRound_calls _))
  · exact freed

/-- The acknowledgement of a BDP ping is one more sample. -/
theorem bdpAck_calls {p : Ponger} {bdp : Bdp} (measures : p.bdp = some bdp) (now : Nat) :
    p.Calls isIdle (Ponged.window? (p.bdpAck bdp now).1).toList (p.bdpAck bdp now).2 := by
  have sampled : (bdp.calculates [(p.shared.bytes.getD 0, p.answers.slower.headD false)]) =
      ((bdp.calculate (p.shared.bytes.getD 0) (p.answers.slower.headD false)).1,
        (bdp.calculate (p.shared.bytes.getD 0) (p.answers.slower.headD false)).2.toList) := by
    simp only [Bdp.calculates, List.append_nil]
  unfold bdpAck
  generalize bdp.calculate _ _ = calculated at sampled ⊢
  obtain ⟨after, update⟩ := calculated
  cases update with
  | none =>
    refine ⟨rfl, log_same rfl, fun _ => rfl, [(p.shared.bytes.getD 0, p.answers.slower.headD false)], ?_⟩
    rw [measures, Option.map_some, Option.map_some, sampled]
    exact ⟨rfl, rfl⟩
  | some window =>
    refine ⟨rfl, log_same rfl, fun _ => rfl, [(p.shared.bytes.getD 0, p.answers.slower.headD false)], ?_⟩
    rw [measures, Option.map_some, Option.map_some, sampled]
    exact ⟨rfl, rfl⟩

theorem pollTimeout_calls (p : Ponger) : p.Calls isIdle [] p.pollTimeout.2 := by
  unfold pollTimeout maybeTimeout
  cases p.keepAlive with
  | none => exact .aside rfl rfl id rfl
  | some ka =>
    dsimp only
    cases ka.state with
    | init | scheduled => exact .aside rfl rfl id rfl
    | pingSent =>
      dsimp only
      cases decide (¬ p.tick.clock < ka.sleep) with
      | true =>
        refine .noted rfl rfl ?_ id rfl
        intro time found same
        cases same
      | false => exact .aside rfl rfl id rfl

theorem pollTimeout_window (p : Ponger) : Ponged.window? p.pollTimeout.1 = none := by
  unfold pollTimeout
  split
  · split
    · rfl
    · rfl
  · rfl

theorem pollAnswer_calls (p : Ponger) (now : Nat) :
    p.Calls isIdle (Ponged.window? (p.pollAnswer isIdle now).1).toList (p.pollAnswer isIdle now).2 := by
  have polled : p.Calls isIdle [] p.pollPong.2 := .aside rfl rfl id rfl
  unfold pollAnswer
  generalize p.pollPong = answer at polled ⊢
  obtain ⟨answer, q⟩ := answer
  refine polled.trans ?_
  match answer with
  | .pending =>
    dsimp only
    rw [q.pollTimeout_window]
    exact q.pollTimeout_calls
  | .ready (.error ()) => exact .aside rfl rfl id rfl
  | .ready (.ok ()) =>
    refine q.recvPong_calls.trans ?_
    dsimp only
    cases measures : (q.recvPong isIdle).bdp with
    | none => exact .aside rfl rfl id rfl
    | some bdp => exact bdpAck_calls measures now

theorem poll_calls (p : Ponger) : p.Calls p.isIdle (Ponged.window? p.poll.1).toList p.poll.2 := by
  have first : p.Calls p.isIdle [] (p.tick.keepAliveRound p.tick.isIdle) := p.tick_calls.trans p.tick.keepAliveRound_calls
  unfold poll
  dsimp only
  split
  · exact first
  · exact first.trans (pollAnswer_calls _ _)

theorem recordData_calls (p : Ponger) (isIdle : Bool) (len : Nat) : p.Calls isIdle [] (p.recordData len) := by
  have read := p.updateLastReadAt_calls isIdle
  unfold recordData recordBytes
  dsimp only
  split
  · exact read
  split
  · next bytes _ =>
    have counted : p.updateLastReadAt.Calls isIdle [] { p.updateLastReadAt with
        shared := { p.updateLastReadAt.shared with bytes := some (bytes + len), nextBdpAt := none } } :=
      .aside rfl rfl (fun _ => rfl) rfl
    split
    · exact read.trans (counted.trans (sendPing_calls _))
    · exact read.trans counted
  · exact read.trans (.aside rfl rfl id rfl)

end Ponger

end Hwire.Http2
