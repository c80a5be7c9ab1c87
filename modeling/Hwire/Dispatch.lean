import Hwire.Error
import Hwire.Lib.Ledger

/-!
# The request channel

The channel from the senders of requests to the task that owns the connection, with the promises on which results are
sent. A request that is accepted gets a number, which names its promise.
-/

namespace Hwire.Dispatch
open Lib

structure TrySendError (T : Type) where
  error : Error
  message : Option T

abbrev Outcome (T U : Type) := Except (TrySendError T) U

structure Channel (T U : Type) where
  /-- The envelopes that the receiver has not taken yet. -/
  queue : List (Nat × T) := []
  /-- The `want` signal of the receiver. -/
  wanting : Bool := false
  closed : Bool := false
  bufferedOnce : Bool := false
  /-- A `try_send` that has been allowed to send and has not sent yet. -/
  pushing : Option T := none
  senders : Nat := 1
  accepted : Nat := 0
  results : List (Nat × Outcome T U) := []
  /-- The promises that nobody waits for any more. -/
  canceled : List Nat := []

namespace Channel

variable {T U : Type}

/-! ### Senders -/

/-- `self.giver.give() || !self.buffered_once`, the first half of `Sender::try_send` -/
def give (ch : Channel T U) (val : T) : Channel T U :=
  if ch.pushing.isSome || ch.senders = 0 then ch
  else if ch.wanting || !ch.bufferedOnce then { ch with wanting := false, bufferedOnce := true, pushing := some val }
  else ch

/-- `self.inner.send(Envelope(..))`, which fails once the receiver has closed the channel -/
def send (ch : Channel T U) (val : T) : Channel T U :=
  if ch.closed then ch else { ch with queue := ch.queue ++ [(ch.accepted, val)], accepted := ch.accepted + 1 }

/-- The second half of `Sender::try_send` -/
def push (ch : Channel T U) : Channel T U :=
  match ch.pushing with
  | some val => { ch with pushing := none }.send val
  | none => ch

def trySend (ch : Channel T U) (val : T) : Channel T U := if ch.senders = 0 then ch else ch.send val

def cloneSender (ch : Channel T U) : Channel T U :=
  if ch.senders = 0 then ch else { ch with senders := ch.senders + 1 }

def dropSender (ch : Channel T U) : Channel T U :=
  if ch.pushing.isSome then ch else { ch with senders := ch.senders - 1 }

def cancel (ch : Channel T U) (id : Nat) : Channel T U := { ch with canceled := id :: ch.canceled }

/-! ### The receiver -/

def isCanceled (ch : Channel T U) (id : Nat) : Bool := ch.canceled.contains id

/-- `self.inner.poll_recv(cx)` of the queue. The signal that follows `Pending` is `want`. -/
def pollRecv (ch : Channel T U) : Poll (Option (Nat × T)) × Channel T U :=
  match ch.queue with
  | env :: rest => (.ready (some env), { ch with queue := rest })
  | [] => if ch.closed || ch.senders = 0 then (.ready none, ch) else (.pending, ch)

def want (ch : Channel T U) : Channel T U := { ch with wanting := true }

def close (ch : Channel T U) : Channel T U := { ch with wanting := false, closed := true }

def tryRecv (ch : Channel T U) : Option (Nat × T) × Channel T U :=
  match ch.queue with
  | env :: rest => (some env, { ch with queue := rest })
  | [] => (none, ch)

def answer (ch : Channel T U) (id : Nat) (val : Outcome T U) : Channel T U :=
  { ch with results := ch.results ++ [(id, val)] }

def dispatchGone (panicking : Bool) : Error :=
  Error.newUserDispatchGone.withCause (if panicking then "user code panicked" else "runtime dropped the dispatch task")

def dropCallback (ch : Channel T U) (id : Nat) (panicking : Bool) : Channel T U :=
  ch.answer id (.error { error := dispatchGone panicking, message := none })

def envelopeDropped (env : Nat × T) : Nat × Outcome T U :=
  (env.1, .error { error := Error.newCanceled.withCause "connection closed", message := some env.2 })

/-- `Drop for Receiver`, and the envelopes that are dropped with its queue -/
def dropReceiver (ch : Channel T U) : Channel T U :=
  { ch.close with queue := [], results := ch.results ++ ch.queue.map envelopeDropped }

/-! ### The ledger of a channel -/

/-- The channel as a ledger, for a receiver that holds some promises and has used some requests. -/
def ledger (ch : Channel T U) (held used : List Nat) : Ledger T (Outcome T U) where
  queue := ch.queue
  held
  settled := ch.results
  used
  accepted := ch.accepted

/-- The request is returned to the caller. -/
def HandsBack (res : Outcome T U) : Prop := ∃ error message, res = .error { error, message := some message }

theorem not_handsBack_ok (res : U) : ¬ HandsBack (.ok res : Outcome T U) := by
  rintro ⟨_, _, h⟩
  cases h

theorem not_handsBack_error (e : Error) : ¬ HandsBack (.error ⟨e, none⟩ : Outcome T U) := by
  rintro ⟨_, _, h⟩
  cases h

variable {held used : List Nat}

@[simp] theorem ledger_give (ch : Channel T U) (val : T) : (ch.give val).ledger held used = ch.ledger held used := by
  unfold give
  split
  · rfl
  split
  · rfl
  · rfl

theorem moves_send (ch : Channel T U) (val : T) :
    Ledger.Moves HandsBack (ch.ledger held used) ((ch.send val).ledger held used) := by
  unfold send
  split
  · exact .refl
  · exact .single (.accept val)

theorem moves_push (ch : Channel T U) :
    Ledger.Moves HandsBack (ch.ledger held used) (ch.push.ledger held used) := by
  unfold push
  split
  · next val _ => exact moves_send { ch with pushing := none } val
  · exact .refl

@[simp] theorem ledger_dropSender (ch : Channel T U) : ch.dropSender.ledger held used = ch.ledger held used := by
  unfold dropSender
  split
  · rfl
  · rfl

theorem moves_answer {ch : Channel T U} {id : Nat} {res : Outcome T U} {rest : List Nat} (holds : held.Perm (id :: rest))
    (keeps : ¬ HandsBack res) :
    Ledger.Moves HandsBack (ch.ledger held used) ((ch.answer id res).ledger rest used) :=
  .single (.settle holds keeps)

theorem moves_dropCallback {ch : Channel T U} {id : Nat} {rest : List Nat} (holds : held.Perm (id :: rest))
    (panicking : Bool) :
    Ledger.Moves HandsBack (ch.ledger held used) ((ch.dropCallback id panicking).ledger rest used) :=
  moves_answer holds (not_handsBack_error _)

theorem moves_take {ch : Channel T U} {env : Nat × T} {rest : List (Nat × T)} (front : ch.queue = env :: rest) :
    Ledger.Moves HandsBack (ch.ledger held used) ({ ch with queue := rest }.ledger (env.1 :: held) used) :=
  .single (.take front)

theorem moves_handBack {ch : Channel T U} {env : Nat × T} {rest : List (Nat × T)} {e : Error}
    (front : ch.queue = env :: rest) :
    Ledger.Moves HandsBack (ch.ledger held used)
      (({ ch with queue := rest }.answer env.1 (.error { error := e, message := some env.2 })).ledger held used) :=
  .single (.handBack front)

/-- Dropping the receiver hands back what is still in the queue. -/
theorem moves_dropReceiver (ch : Channel T U) :
    Ledger.Moves HandsBack (ch.ledger held used) (ch.dropReceiver.ledger held used) := by
  obtain ⟨queue, wanting, closed, bufferedOnce, pushing, senders, accepted, results, canceled⟩ := ch
  simp only [dropReceiver, close, ledger]
  induction queue generalizing results with
  | nil => simpa using .refl
  | cons env rest ih =>
    have back : Ledger.Move HandsBack (T := T) (R := Outcome T U) ⟨env :: rest, held, results, used, accepted⟩
        ⟨rest, held, results ++ [envelopeDropped env], used, accepted⟩ := .handBack (l := ⟨env :: rest, _, _, _, _⟩) rfl
    have later := ih (results ++ [envelopeDropped env])
    rw [List.append_assoc, List.singleton_append, ← List.map_cons] at later
    exact .head back later

/-! ### One request at a time -/

/-- The receiver has taken a request and has not asked for another since. -/
structure Quiet (ch : Channel T U) : Prop where
  queue : ch.queue = []
  pushing : ch.pushing = none
  wanting : ch.wanting = false
  bufferedOnce : ch.bufferedOnce = true

/-- At most one request is on its way, and none of them where another may be sent. -/
structure Calm (ch : Channel T U) : Prop where
  wanting : ch.wanting = true → ch.queue = [] ∧ ch.pushing = none
  bufferedOnce : ch.bufferedOnce = false → ch.queue = [] ∧ ch.pushing = none
  one : ch.queue.length + ch.pushing.toList.length ≤ 1

/-- Operations that allow no more requests than there were. -/
structure Tame (ch ch' : Channel T U) : Prop where
  calm : ch.Calm → ch'.Calm
  quiet : ch.Quiet → ch'.Quiet

theorem Tame.refl (ch : Channel T U) : ch.Tame ch := ⟨id, id⟩

theorem Tame.trans {ch₁ ch₂ ch₃ : Channel T U} (h : ch₁.Tame ch₂) (h' : ch₂.Tame ch₃) : ch₁.Tame ch₃ :=
  ⟨h'.calm ∘ h.calm, h'.quiet ∘ h.quiet⟩

theorem tame_answer (ch : Channel T U) (id : Nat) (res : Outcome T U) : ch.Tame (ch.answer id res) :=
  ⟨fun h => ⟨h.wanting, h.bufferedOnce, h.one⟩, fun h => ⟨h.queue, h.pushing, h.wanting, h.bufferedOnce⟩⟩

theorem tame_cancel (ch : Channel T U) (id : Nat) : ch.Tame (ch.cancel id) :=
  ⟨fun h => ⟨h.wanting, h.bufferedOnce, h.one⟩, fun h => ⟨h.queue, h.pushing, h.wanting, h.bufferedOnce⟩⟩

theorem tame_close (ch : Channel T U) : ch.Tame ch.close :=
  ⟨fun h => ⟨nofun, h.bufferedOnce, h.one⟩, fun h => ⟨h.queue, h.pushing, rfl, h.bufferedOnce⟩⟩

theorem tame_take {ch : Channel T U} {env : Nat × T} {rest : List (Nat × T)} (front : ch.queue = env :: rest) :
    ch.Tame { ch with queue := rest } := by
  refine ⟨fun h => ⟨?_, ?_, ?_⟩, ?_⟩
  · intro wanting
    exact absurd ((h.wanting wanting).1.symm.trans front) nofun
  · intro fresh
    exact absurd ((h.bufferedOnce fresh).1.symm.trans front) nofun
  · have one := h.one
    simp only [front, List.length_cons] at one
    dsimp only
    omega
  · intro h
    exact absurd (h.queue.symm.trans front) nofun

theorem Calm.quiet_of_take {ch : Channel T U} (calm : ch.Calm) {env : Nat × T} {rest : List (Nat × T)}
    (front : ch.queue = env :: rest) : Quiet { ch with queue := rest } := by
  have one := calm.one
  simp only [front, List.length_cons] at one
  have empty : rest = [] := List.length_eq_zero_iff.mp (by omega)
  have none : ch.pushing.toList = [] := List.length_eq_zero_iff.mp (by omega)
  refine ⟨empty, Option.toList_eq_nil_iff.mp none, ?_, ?_⟩
  · cases wanting : ch.wanting with
    | false => rfl
    | true => exact absurd ((calm.wanting wanting).1.symm.trans front) nofun
  · cases once : ch.bufferedOnce with
    | true => rfl
    | false => exact absurd ((calm.bufferedOnce once).1.symm.trans front) nofun

theorem tame_tryRecv (ch : Channel T U) : ch.Tame ch.tryRecv.2 := by
  unfold tryRecv
  split
  · next front => exact tame_take front
  · exact .refl ch

theorem tame_dropReceiver (ch : Channel T U) : ch.Tame ch.dropReceiver := by
  refine ⟨fun h => ⟨nofun, fun fresh => ⟨rfl, (h.bufferedOnce fresh).2⟩, ?_⟩, fun h => ⟨rfl, h.pushing, rfl, h.bufferedOnce⟩⟩
  have one := h.one
  simp only [dropReceiver, close, List.length_nil]
  omega

theorem tame_give (ch : Channel T U) (val : T) : ch.Tame (ch.give val) := by
  unfold give
  split
  · exact .refl ch
  split
  · next may =>
    refine ⟨?_, fun h => absurd may (by simp [h.wanting, h.bufferedOnce])⟩
    intro h
    have empty : ch.queue = [] := by
      rcases Bool.or_eq_true_iff.mp may with wanting | fresh
      · exact (h.wanting wanting).1
      · exact (h.bufferedOnce (by simpa using fresh)).1
    exact ⟨nofun, nofun, by simp [empty]⟩
  · exact .refl ch

theorem tame_push (ch : Channel T U) : ch.Tame ch.push := by
  unfold push
  split
  · next val pushing =>
    refine ⟨?_, fun h => absurd (h.pushing.symm.trans pushing) nofun⟩
    intro h
    have one := h.one
    simp only [pushing, Option.toList_some, List.length_singleton] at one
    have empty : ch.queue = [] := List.length_eq_zero_iff.mp (by omega)
    have notNow : ch.wanting = false := by
      cases wanting : ch.wanting with
      | false => rfl
      | true => exact absurd ((h.wanting wanting).2.symm.trans pushing) nofun
    have before : ch.bufferedOnce = true := by
      cases once : ch.bufferedOnce with
      | true => rfl
      | false => exact absurd ((h.bufferedOnce once).2.symm.trans pushing) nofun
    unfold send
    split
    · exact ⟨fun _ => ⟨empty, rfl⟩, fun _ => ⟨empty, rfl⟩, by simp [empty]⟩
    · refine ⟨?_, ?_, by simp [empty]⟩
      · intro wanting
        exact absurd (notNow.symm.trans wanting) nofun
      · intro fresh
        exact absurd (before.symm.trans fresh) nofun
  · exact .refl ch

theorem tame_dropSender (ch : Channel T U) : ch.Tame ch.dropSender := by
  unfold dropSender
  split
  · exact .refl ch
  · exact ⟨fun h => ⟨h.wanting, h.bufferedOnce, h.one⟩, fun h => ⟨h.queue, h.pushing, h.wanting, h.bufferedOnce⟩⟩

/-- The signal is harmless where nothing is on its way. -/
theorem Calm.want {ch : Channel T U} (calm : ch.Calm) (empty : ch.queue = []) (none : ch.pushing = none) : ch.want.Calm :=
  ⟨fun _ => ⟨empty, none⟩, calm.bufferedOnce, calm.one⟩

theorem calm_new : Calm ({} : Channel T U) := ⟨nofun, fun _ => ⟨rfl, rfl⟩, Nat.zero_le _⟩

/-! ### Outcomes -/

/-- What callers rely on, for a receiver that holds some promises and has used some requests. -/
structure OneOutcome (ch : Channel T U) (held used : List Nat) : Prop where
  once : (ch.results.map Prod.fst).Nodup
  accepted : ∀ id ∈ ch.results.map Prod.fst, id < ch.accepted
  kept : ∀ id < ch.accepted, id ∈ ch.results.map Prod.fst ∨ id ∈ ch.queue.map Prod.fst ∨ id ∈ held
  unused : ∀ id res, (id, res) ∈ ch.results → HandsBack res → id ∉ used

theorem oneOutcome_of_balanced {ch : Channel T U} (balanced : (ch.ledger held used).Balanced HandsBack) :
    ch.OneOutcome held used := by
  have member (id : Nat) : id ∈ (ch.ledger held used).tickets ↔ id < ch.accepted := by
    rw [balanced.once.mem_iff]
    exact List.mem_range
  refine ⟨(List.nodup_append.mp balanced.nodup).2.1, ?_, ?_, ?_⟩
  · intro id settled
    exact (member id).mp (List.mem_append_right _ settled)
  · intro id bound
    rcases List.mem_append.mp ((member id).mpr bound) with waiting | settled
    · exact .inr (List.mem_append.mp waiting)
    · exact .inl settled
  · intro id res settled back
    exact balanced.unused settled back

end Channel

end Hwire.Dispatch
