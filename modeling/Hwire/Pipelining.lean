import Hwire.Dispatch

/-!
# One request at a time

A sender and a receiver that share a channel, each in the middle of its call or not. `try_send` asks the giver and then
pushes; `poll_recv` looks at the queue and then, if that was empty, signals that it wants a request. The two halves of
each call are steps of their own, and the steps of the two come in any order.
-/

namespace Hwire.Dispatch
open Lib

/-- The channel, and whether the receiver has found the queue empty and has not signalled yet. -/
structure Parties (T U : Type) where
  chan : Channel T U := {}
  foundEmpty : Bool := false

namespace Parties

variable {T U : Type}

inductive Turn (T : Type) where
  /-- `giver.give()`, with the request that `try_send` was called with. -/
  | give (val : T)
  /-- `inner.send(envelope)` -/
  | push
  | dropSender
  /-- `inner.poll_recv()` -/
  | check
  /-- `taker.want()` -/
  | want
  | close
  | tryRecv

def turn (p : Parties T U) : Turn T → Parties T U
  | .give val => { p with chan := p.chan.give val }
  | .push => { p with chan := p.chan.push }
  | .dropSender => { p with chan := p.chan.dropSender }
  | .check =>
    if p.foundEmpty then p
    else
      match p.chan.pollRecv with
      | (.ready _, chan) => { p with chan }
      | (.pending, chan) => { chan, foundEmpty := true }
  | .want => if p.foundEmpty then { chan := p.chan.want, foundEmpty := false } else p
  -- The receiver closes the channel and empties it between its polls.
  | .close => if p.foundEmpty then p else { p with chan := p.chan.close }
  | .tryRecv => if p.foundEmpty then p else { p with chan := p.chan.tryRecv.2 }

def run (p : Parties T U) (turns : List (Turn T)) : Parties T U := turns.foldl turn p

/-- No request is on its way when the receiver signals. -/
def wantsQuietly (p : Parties T U) : Turn T → Bool
  | .want => !p.foundEmpty || (p.chan.queue.isEmpty && p.chan.pushing.isNone)
  | _ => true

/-- No send falls between the look at the queue and the signal, in the whole run. -/
def quietRun (p : Parties T U) : List (Turn T) → Bool
  | [] => true
  | t :: rest => p.wantsQuietly t && (p.turn t).quietRun rest

/-- At most one request that was accepted has not been received, and while there is one `try_send` returns the next. -/
structure NotPipelined (p : Parties T U) : Prop where
  one : p.chan.queue.length + p.chan.pushing.toList.length ≤ 1
  refuses : p.chan.queue ≠ [] → ∀ val, p.chan.give val = p.chan

theorem notPipelined_of_calm {p : Parties T U} (calm : p.chan.Calm) : p.NotPipelined := by
  refine ⟨calm.one, ?_⟩
  intro waiting val
  have notWanting : p.chan.wanting = false := by
    rw [← Bool.not_eq_true]
    intro wanting
    exact waiting (calm.wanting wanting).1
  have before : p.chan.bufferedOnce = true := by
    rw [← Bool.not_eq_false]
    intro fresh
    exact waiting (calm.bufferedOnce fresh).1
  unfold Channel.give
  simp [notWanting, before]

theorem turn_calm {p : Parties T U} (calm : p.chan.Calm) {t : Turn T} (quietly : p.wantsQuietly t = true) :
    (p.turn t).chan.Calm := by
  cases t with
  | give val => exact (p.chan.tame_give val).calm calm
  | push => exact p.chan.tame_push.calm calm
  | dropSender => exact p.chan.tame_dropSender.calm calm
  | check =>
    rw [turn]
    split
    · exact calm
    · unfold Channel.pollRecv
      split
      · next received =>
        split at received
        · next front =>
          cases received
          exact (Channel.tame_take front).calm calm
        · split at received
          · cases received
            exact calm
          · cases received
      · next received =>
        split at received
        · cases received
        · split at received
          · cases received
          · cases received
            exact calm
  | want =>
    rw [turn]
    split
    · next found =>
      simp only [wantsQuietly, found, Bool.not_true, Bool.false_or, Bool.and_eq_true, List.isEmpty_iff,
        Option.isNone_iff_eq_none] at quietly
      exact calm.want quietly.1 quietly.2
    · exact calm
  | close =>
    rw [turn]
    split
    · exact calm
    · exact p.chan.tame_close.calm calm
  | tryRecv =>
    rw [turn]
    split
    · exact calm
    · exact p.chan.tame_tryRecv.calm calm

theorem run_calm {p : Parties T U} (calm : p.chan.Calm) {turns : List (Turn T)} (quiet : p.quietRun turns = true) :
    (p.run turns).chan.Calm := by
  induction turns generalizing p with
  | nil => exact calm
  | cons t rest ih =>
    rw [quietRun, Bool.and_eq_true] at quiet
    exact ih (turn_calm calm quiet.1) quiet.2

/-- No pipelining in runs where the signal of the receiver meets nothing on its way. -/
theorem run_notPipelined {turns : List (Turn T)} (quiet : quietRun ({} : Parties T U) turns = true) :
    (run ({} : Parties T U) turns).NotPipelined :=
  notPipelined_of_calm (run_calm Channel.calm_new quiet)

theorem run_notPipelined_sample :
    (run ({} : Parties String Unit) [.give "a", .push, .check, .check, .want, .give "b", .push]).NotPipelined :=
  run_notPipelined rfl

/-- The one request that may be sent without notice comes between the look at the queue and the signal, which lets in
another. -/
theorem run_pipelined :
    (run ({} : Parties String Unit) [.check, .give "a", .push, .want, .give "b", .push]).chan.queue = [(0, "a"), (1, "b")] ∧
      ¬ (run ({} : Parties String Unit) [.check, .give "a", .push, .want, .give "b", .push]).NotPipelined := by
  refine ⟨rfl, ?_⟩
  intro notPipelined
  exact absurd notPipelined.one (by decide)

end Parties

end Hwire.Dispatch
