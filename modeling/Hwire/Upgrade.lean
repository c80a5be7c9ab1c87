import Hwire.Http1.Io

/-!
# Upgraded connections

The transport of a connection that was upgraded, with the bytes that had been read from it before. Reads take the bytes
of the buffer first.
-/

namespace Hwire
open Lib Http1

/-- `poll_read` into a buffer with room for so many bytes. What does not fit stays in the transport. -/
def Http1.Transport.pollReadInto (t : Transport) (room : Nat) : Poll (Except IoError Bytes) × Transport :=
  match t.reads with
  | .data bytes :: rest =>
    if (t.sticky && t.sawEof) || bytes.length ≤ room then t.pollRead
    else (.ready (.ok (bytes.take room)), { t with reads := .data (bytes.drop room) :: rest, received := t.received + room })
  | _ => t.pollRead

/-- Combine a buffer with an IO, rewinding reads to use the buffer. -/
structure Rewind where
  pre : Option Bytes
  inner : Transport

namespace Rewind

def newBuffered (io : Transport) (buf : Bytes) : Rewind := ⟨some buf, io⟩

/-- The buffer is gone. -/
def pollInner (r : Rewind) (room : Nat) : Poll (Except IoError Bytes) × Rewind :=
  let (res, inner) := r.inner.pollReadInto room
  (res, ⟨none, inner⟩)

def pollRead (r : Rewind) (room : Nat) : Poll (Except IoError Bytes) × Rewind :=
  match r.pre with
  | some buffered =>
    -- If there are no remaining bytes, let the bytes get dropped.
    if buffered ≠ [] then
      let copyLen := min buffered.length room
      let left := buffered.drop copyLen
      (.ready (.ok (buffered.take copyLen)), { r with pre := if left ≠ [] then some left else none })
    else r.pollInner room
  | none => r.pollInner room

end Rewind

structure Upgraded where
  io : Rewind

namespace Upgraded

def new (io : Transport) (readBuf : Bytes) : Upgraded := ⟨.newBuffered io readBuf⟩

def pollRead (u : Upgraded) (room : Nat) : Poll (Except IoError Bytes) × Upgraded :=
  let (res, io) := u.io.pollRead room
  (res, ⟨io⟩)

/-- The bytes that a poll has put into the buffer. -/
def delivered : Poll (Except IoError Bytes) → Bytes
  | .ready (.ok bytes) => bytes
  | _ => []

/-- One read after the other, with any room in each: all bytes that were delivered, and what is left. -/
def pollReads (u : Upgraded) : List Nat → Bytes × Upgraded
  | [] => ([], u)
  | room :: rooms =>
    let (res, u) := u.pollRead room
    let (bytes, u) := u.pollReads rooms
    (delivered res ++ bytes, u)

end Upgraded

/-! ### Nothing is lost -/

namespace Rewind

def unread (r : Rewind) : Bytes := r.pre.getD [] ++ r.inner.reads.flatMap ReadEvent.bytes

/-- Bytes and events that are still to come. -/
def weight (r : Rewind) : Nat := r.unread.length + r.inner.reads.length

/-- The transport has said that nothing follows. -/
def Ended (r : Rewind) : Prop := r.inner.sticky = true ∧ r.inner.sawEof = true

/-- A read takes something out of the buffer, or its buffer is empty and it is one of the transport. -/
theorem pollRead_cases (r : Rewind) (room : Nat) :
    (∃ copied left, r.pre = some (copied ++ left) ∧ copied ++ left ≠ [] ∧ (0 < room → copied ≠ []) ∧
      (r.pollRead room).1 = .ready (.ok copied) ∧ (r.pollRead room).2.pre.getD [] = left ∧
      (r.pollRead room).2.inner = r.inner) ∨
    (r.pre.getD [] = [] ∧ r.pollRead room = r.pollInner room) := by
  unfold pollRead
  cases pre : r.pre with
  | none => exact .inr ⟨rfl, rfl⟩
  | some buffered =>
    by_cases empty : buffered = []
    · subst empty
      exact .inr ⟨rfl, rfl⟩
    · refine .inl ⟨buffered.take (min buffered.length room), buffered.drop (min buffered.length room), ?_⟩
      rw [List.take_append_drop]
      refine ⟨rfl, empty, ?_, ?_⟩
      · intro pos
        have here := List.length_pos_iff.mpr empty
        apply List.ne_nil_of_length_pos
        rw [List.length_take]
        omega
      · simp only [ne_eq, empty, not_false_eq_true, if_true, true_and, and_true]
        split
        · rfl
        · next none => exact (not_not.mp none).symm

theorem pollReadInto_bytes (t : Transport) (room : Nat) :
    Upgraded.delivered (t.pollReadInto room).1 ++ (t.pollReadInto room).2.reads.flatMap ReadEvent.bytes =
      t.reads.flatMap ReadEvent.bytes := by
  unfold Transport.pollReadInto Transport.pollRead
  cases events : t.reads with
  | nil =>
    dsimp only
    split
    · simp [Upgraded.delivered, events]
    · simp [Upgraded.delivered, events]
  | cons event rest =>
    cases event with
    | pending =>
      dsimp only
      split
      · simp [Upgraded.delivered, events]
      · simp [Upgraded.delivered, ReadEvent.bytes]
    | error e =>
      dsimp only
      split
      · simp [Upgraded.delivered, events]
      · simp [Upgraded.delivered, ReadEvent.bytes]
    | data bytes =>
      dsimp only
      split
      · split
        · simp [Upgraded.delivered, events]
        · simp [Upgraded.delivered, ReadEvent.bytes]
      · simp [Upgraded.delivered, ReadEvent.bytes, ← List.append_assoc]

theorem pollRead_unread (r : Rewind) (room : Nat) :
    Upgraded.delivered (r.pollRead room).1 ++ (r.pollRead room).2.unread = r.unread := by
  obtain ⟨copied, left, pre, -, -, res, back, inner⟩ | ⟨empty, eq⟩ := r.pollRead_cases room
  · rw [unread, res, back, inner, unread, pre, Upgraded.delivered, Option.getD_some, List.append_assoc]
  · rw [eq, unread, unread, empty]
    exact pollReadInto_bytes r.inner room

/-- A read with room takes a byte or an event, as long as there is one. -/
theorem pollReadInto_shorter {t : Transport} {room : Nat} (pos : 0 < room) (going : (t.sticky && t.sawEof) = false)
    (there : t.reads ≠ []) :
    ((t.pollReadInto room).2.reads.flatMap ReadEvent.bytes).length + (t.pollReadInto room).2.reads.length <
      (t.reads.flatMap ReadEvent.bytes).length + t.reads.length := by
  unfold Transport.pollReadInto Transport.pollRead
  rw [going]
  cases events : t.reads with
  | nil => exact absurd events there
  | cons event rest =>
    cases event with
    | pending => simp [ReadEvent.bytes]
    | error e => simp [ReadEvent.bytes]
    | data bytes =>
      by_cases fits : bytes.length ≤ room
      · simp [fits, ReadEvent.bytes]
        omega
      · simp [fits, ReadEvent.bytes]
        omega

theorem pollRead_progress (r : Rewind) {room : Nat} (pos : 0 < room) (going : ¬ r.Ended) :
    (r.pollRead room).2.weight < r.weight ∨ (r.pollRead room).2.unread = [] := by
  obtain ⟨copied, left, pre, -, some, -, back, inner⟩ | ⟨empty, eq⟩ := r.pollRead_cases room
  · left
    have copied := List.length_pos_iff.mpr (some pos)
    rw [weight, weight, unread, unread, back, inner, pre, Option.getD_some]
    simp only [List.length_append]
    omega
  · rw [eq]
    by_cases there : r.inner.reads = []
    · right
      have all := r.pollRead_unread room
      rw [eq, show r.unread = [] by simp [unread, empty, there]] at all
      exact (List.append_eq_nil_iff.mp all).2
    · left
      have going : (r.inner.sticky && r.inner.sawEof) = false := by simpa [Ended] using going
      have shorter := pollReadInto_shorter pos going there
      rw [weight, weight, unread, unread, empty]
      exact shorter

theorem pollRead_ended (r : Rewind) (room : Nat) (ended : r.Ended) : (r.pollRead room).2.Ended := by
  obtain ⟨_, _, -, -, -, -, -, inner⟩ | ⟨-, eq⟩ := r.pollRead_cases room
  · rw [Ended, inner]
    exact ended
  · have same : r.inner.pollReadInto room = (.ready (.ok []), r.inner) := by
      have found : r.inner.pollRead = (.ready (.ok []), r.inner) := by
        rw [Transport.pollRead, ended.1, ended.2]
        rfl
      unfold Transport.pollReadInto
      rw [found, ended.1, ended.2]
      split
      · rfl
      · rfl
    rw [eq, Ended, pollInner, same]
    exact ended

end Rewind

namespace Upgraded

/-- Whatever the rooms are: what was read, followed by what is left, is what was there. -/
theorem pollReads_unread (u : Upgraded) (rooms : List Nat) :
    (u.pollReads rooms).1 ++ (u.pollReads rooms).2.io.unread = u.io.unread := by
  induction rooms generalizing u with
  | nil => rfl
  | cons room rooms ih =>
    rw [pollReads, List.append_assoc, ih]
    exact u.io.pollRead_unread room

theorem pollReads_ended {u : Upgraded} (ended : u.io.Ended) (rooms : List Nat) : (u.pollReads rooms).2.io.Ended := by
  induction rooms generalizing u with
  | nil => exact ended
  | cons room rooms ih =>
    rw [pollReads]
    apply ih
    exact u.io.pollRead_ended room ended

/-- Enough reads with room take everything, unless the transport says that nothing follows. -/
theorem pollReads_all {u : Upgraded} {rooms : List Nat} (pos : ∀ room ∈ rooms, 0 < room)
    (enough : u.io.weight ≤ rooms.length) : (u.pollReads rooms).2.io.unread = [] ∨ (u.pollReads rooms).2.io.Ended := by
  induction rooms generalizing u with
  | nil =>
    left
    apply List.length_eq_zero_iff.mp
    simp only [Rewind.weight, List.length_nil] at enough
    show u.io.unread.length = 0
    omega
  | cons room rooms ih =>
    obtain ⟨first, later⟩ := List.forall_mem_cons.mp pos
    rw [pollReads]
    by_cases ended : u.io.Ended
    · right
      refine pollReads_ended ?_ rooms
      exact u.io.pollRead_ended room ended
    · rcases u.io.pollRead_progress first ended with shorter | none
      · refine ih later ?_
        rw [List.length_cons] at enough
        exact Nat.le_of_lt_succ (Nat.lt_of_lt_of_le shorter enough)
      · left
        have all := pollReads_unread (u.pollRead room).2 rooms
        rw [show (u.pollRead room).2.io.unread = [] from none] at all
        exact (List.append_eq_nil_iff.mp all).2

end Upgraded

end Hwire
