import Hwire.Http2.Idle

/-!
# Windows of a connection

The windows that a connection is told to use are those of the bandwidth estimate on some samples, in every run of the
connection with everybody who records or pings. What the estimate promises for all samples thus holds of the connection.
-/

namespace Hwire.Http2
open Lib Dispatch Channel

namespace Bdp

/-- The estimate is the last window that it gave. -/
theorem calculates_last (bdp : Bdp) (samples : List (Nat × Bool)) :
    (bdp.calculates samples).1.bdp = (bdp.calculates samples).2.getLastD bdp.bdp := by
  induction samples generalizing bdp with
  | nil => rfl
  | cons sample samples ih =>
    have later := ih (bdp.calculate sample.1 sample.2).1
    show ((bdp.calculate sample.1 sample.2).1.calculates samples).1.bdp =
      ((bdp.calculate sample.1 sample.2).2.toList ++
        ((bdp.calculate sample.1 sample.2).1.calculates samples).2).getLastD bdp.bdp
    rw [later]
    obtain stable | ⟨-, -, grows⟩ := bdp.calculate_cases sample.1 sample.2
    · rw [stable, Option.toList_none, List.nil_append, stabilizeDelay_bdp]
    · rw [grows, Option.toList_some, List.singleton_append, List.getLastD_cons]

end Bdp

namespace Connection

/-- The estimate that a ponger starts with. -/
def startEstimate (config : Config) : Option Bdp := config.bdpInitialWindow.map fun window => { bdp := window }

/-- The ponger and the connection agree on the samples so far. -/
structure Measured (config : Config) (c : Connection) (samples : List (Nat × Bool)) : Prop where
  bdp : ∀ p, c.ponger = some p → p.bdp = (startEstimate config).map fun bdp => (bdp.calculates samples).1
  windows : c.windows = ((startEstimate config).map fun bdp => (bdp.calculates samples).2).getD []
  bytes : ∀ p, c.ponger = some p → p.bdp.isSome = true → p.shared.bytes.isSome = true

variable {config : Config} {c : Connection} {samples : List (Nat × Bool)}

/-- Handles are counted elsewhere. -/
theorem Measured.aside {c' : Connection} (h : c.Measured config samples) (windows : c'.windows = c.windows)
    (ponger : ∀ p', c'.ponger = some p' → ∃ p, c.ponger = some p ∧ p'.bdp = p.bdp ∧ p'.shared = p.shared) :
    c'.Measured config samples := by
  refine ⟨?_, windows.trans h.windows, ?_⟩
  · intro p' pinging
    obtain ⟨p, same, bdp, -⟩ := ponger p' pinging
    exact bdp.trans (h.bdp p same)
  · intro p' pinging
    obtain ⟨p, same, bdp, shared⟩ := ponger p' pinging
    rw [bdp, shared]
    exact h.bytes p same

theorem Measured.calls (h : c.Measured config samples) {p q : Ponger} (pinging : c.ponger = some p) {isIdle : Bool}
    {windows : List Nat} (calls : p.Calls isIdle windows q) :
    ∃ samples, Measured config { c with ponger := some q, windows := c.windows ++ windows } samples := by
  obtain ⟨-, -, bytes, more, bdp, given⟩ := calls
  have before := h.bdp p pinging
  refine ⟨samples ++ more, ?_, ?_, ?_⟩
  · intro q' same
    obtain rfl := Option.some.inj same
    rw [bdp, before]
    cases startEstimate config with
    | none => rfl
    | some start => simp [Bdp.calculates_append]
  · show c.windows ++ windows = _
    rw [h.windows, given, before]
    cases startEstimate config with
    | none => rfl
    | some start => simp [Bdp.calculates_append]
  · intro q' same measures
    obtain rfl := Option.some.inj same
    refine bytes (h.bytes p pinging ?_)
    rw [bdp, Option.isSome_map] at measures
    exact measures

theorem Move.measured {c' : Connection} (move : c.Move c') (h : c.Measured config samples) :
    ∃ samples, c'.Measured config samples := by
  have kept (p : Ponger) (pinging : c.ponger = some p) : ∃ q, c.ponger = some q ∧ p.bdp = q.bdp ∧ p.shared = q.shared :=
    ⟨p, pinging, rfl, rfl⟩
  have dropped (p : Ponger) (pinging : c.dropRecorder.ponger = some p) :
      ∃ q, c.ponger = some q ∧ p.bdp = q.bdp ∧ p.shared = q.shared := by
    obtain ⟨q, same, rfl⟩ := Option.map_eq_some_iff.mp pinging
    exact ⟨q, same, rfl, rfl⟩
  cases move with
  | task | responded | pipeDeaf => exact ⟨samples, h.aside rfl kept⟩
  | drop | settled | refused | gaveUp | bodyDropped | pipeEnded | pipeReset | connEnded => exact ⟨samples, h.aside rfl dropped⟩
  | recorded pinging step calls =>
    obtain ⟨more, measured⟩ := h.calls pinging (calls false)
    rw [List.append_nil] at measured
    exact ⟨more, measured⟩
  | polled pinging answers => exact h.calls pinging (.of_asked (Ponger.poll_calls _))
  | @spawn t f spawns polled =>
    refine ⟨samples, ?_⟩
    have cloned (p : Ponger) (pinging : c.cloneRecorder.ponger = some p) :
        ∃ q, c.ponger = some q ∧ p.bdp = q.bdp ∧ p.shared = q.shared := by
      obtain ⟨q, same, rfl⟩ := Option.map_eq_some_iff.mp pinging
      exact ⟨q, same, rfl, rfl⟩
    obtain ⟨-, eq⟩ | eq | ⟨_, -, eq⟩ := pollPipe_cases { c with task := t } f polled
    · rw [eq]
      refine h.aside rfl ?_
      intro p pinging
      obtain ⟨q, once, rfl⟩ := Option.map_eq_some_iff.mp pinging
      exact cloned q once
    · rw [eq]
      exact h.aside rfl cloned
    · rw [eq]
      exact h.aside rfl cloned
  | signaled =>
    refine ⟨samples, ?_⟩
    unfold Connection.pollDropRx
    split
    · exact h.aside rfl kept
    · exact h

theorem Moves.measured {c' : Connection} (moves : c.Moves c') (h : c.Measured config samples) :
    ∃ samples, c'.Measured config samples := by
  induction moves with
  | refl => exact ⟨samples, h⟩
  | tail _ move ih =>
    obtain ⟨before, measured⟩ := ih
    exact move.measured measured

theorem handshake_measured (config : Config) (now : Nat) (readies : List (Poll (Except H2Error Unit)))
    (sends : List (Except H2Error Unit)) : (handshake config now readies sends).Measured config [] := by
  have start {p : Ponger} (pinging : (handshake config now readies sends).ponger = some p) : p = channel config now := by
    unfold handshake at pinging
    dsimp only at pinging
    split at pinging
    · exact (Option.some.inj pinging).symm
    · cases pinging
  refine ⟨?_, ?_, ?_⟩
  · intro p pinging
    rw [start pinging]
    exact Option.map_id'.symm
  · show [] = _
    cases startEstimate config with
    | none => rfl
    | some bdp => rfl
  · intro p pinging
    rw [start pinging]
    cases measures : config.bdpInitialWindow with
    | none => simp [channel, measures]
    | some window => simp [channel, measures]

/-- In every run of a connection with an adaptive window, the windows that it is told to use grow from the initial one, are
at most 20 and at most 16 MiB, and the last of them is the estimate. Without an adaptive window there are none. What
`Ponger::poll` expects to be there is there. -/
theorem run_windows (config : Config) (now : Nat) (readies : List (Poll (Except H2Error Unit)))
    (sends : List (Except H2Error Unit)) (actions : List Action) :
    let c := (handshake config now readies sends).run actions
    (config.bdpInitialWindow = none → c.windows = []) ∧
    (config.bdpInitialWindow = some SPEC_WINDOW_SIZE →
      (SPEC_WINDOW_SIZE :: c.windows).Pairwise (· < ·) ∧ (∀ window ∈ c.windows, window ≤ 16 * 1024 * 1024) ∧
        c.windows.length ≤ 20 ∧
        ∀ p, c.ponger = some p → p.bdp.map Bdp.bdp = some (c.windows.getLastD SPEC_WINDOW_SIZE)) ∧
    ∀ p, c.ponger = some p → (p.bdp.isSome = true → p.shared.bytes.isSome = true) ∧
      (p.keepAlive.isSome = true → p.shared.lastReadAt.isSome = true) := by
  intro c
  obtain ⟨samples, h⟩ := (run_moves _ actions).measured (handshake_measured config now readies sends)
  refine ⟨?_, ?_, ?_⟩
  · intro fixed
    rw [h.windows, startEstimate, fixed]
    rfl
  · intro adaptive
    have start : startEstimate config = some Bdp.adaptive := by
      rw [startEstimate, adaptive]
      rfl
    have windows : c.windows = (Bdp.adaptive.calculates samples).2 := by
      rw [h.windows, start]
      rfl
    have adapted := Bdp.adapted_adaptive.calculates samples
    rw [List.nil_append, ← windows] at adapted
    refine ⟨adapted.sorted, ?_, adapted.few, ?_⟩
    · intro window member
      exact Nat.le_trans (adapted.top window (List.mem_cons_of_mem _ member)) adapted.limit
    · intro p pinging
      rw [h.bdp p pinging, start, Option.map_some, Option.map_some, Bdp.calculates_last, ← windows]
      rfl
  · intro p pinging
    refine ⟨h.bytes p pinging, ?_⟩
    intro keeps
    obtain ⟨ka, present⟩ := Option.isSome_iff_exists.mp keeps
    exact ((run_good config now readies sends actions pinging).keepAlive ka present).1

end Connection

end Hwire.Http2
