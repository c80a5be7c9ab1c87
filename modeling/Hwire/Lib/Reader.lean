import Mathlib.Data.List.Basic

/-!
# Readers

A reader takes a value from the front of a text and leaves what follows. A piece that is read as a value whatever
follows it can stand in front of anything, so texts of such pieces are read piece by piece.
-/

namespace Hwire.Lib

variable {α β γ ι : Type}

abbrev Reader (α β : Type) := List α → Option (β × List α)

/-- `piece` is read as `value`, whatever follows it. -/
def Reads (r : Reader α β) (piece : List α) (value : β) : Prop := ∀ rest, r (piece ++ rest) = some (value, rest)

namespace Reader

def done (value : β) : Reader α β := fun text => some (value, text)

def andThen (r : Reader α β) (next : β → Reader α γ) : Reader α γ := fun text =>
  match r text with
  | some (value, rest) => next value rest
  | none => none

def map (f : β → γ) (r : Reader α β) : Reader α γ := r.andThen fun value => done (f value)

/-- Only values that `f` accepts. -/
def accept (f : β → Option γ) (r : Reader α β) : Reader α γ := fun text =>
  match r text with
  | some (value, rest) => (f value).map fun value => (value, rest)
  | none => none

def expect [DecidableEq α] (mark : List α) : Reader α Unit := fun text =>
  if mark.isPrefixOf text then some ((), text.drop mark.length) else none

def take (n : Nat) : Reader α (List α) := fun text =>
  if text.length < n then none else some (text.take n, text.drop n)

def many (r : Reader α β) : Nat → Reader α (List β)
  | 0 => done []
  | n + 1 => r.andThen fun value => (many r n).map (value :: ·)

end Reader

theorem Reads.done (value : β) : Reads (Reader.done value : Reader α β) [] value := fun _ => rfl

theorem Reads.andThen {r : Reader α β} {next : β → Reader α γ} {piece later : List α} {value : β} {result : γ}
    (first : Reads r piece value) (second : Reads (next value) later result) :
    Reads (r.andThen next) (piece ++ later) result := by
  intro rest
  rw [List.append_assoc, Reader.andThen, first]
  exact second rest

theorem Reads.map {r : Reader α β} {piece : List α} {value : β} (reads : Reads r piece value) (f : β → γ) :
    Reads (r.map f) piece (f value) := by
  rw [← List.append_nil piece]
  exact reads.andThen (.done (f value))

theorem Reads.accept {r : Reader α β} {piece : List α} {value : β} (reads : Reads r piece value) {f : β → Option γ}
    {result : γ} (accepted : f value = some result) : Reads (r.accept f) piece result := by
  intro rest
  rw [Reader.accept, reads]
  dsimp only
  rw [accepted]
  rfl

theorem Reads.expect [DecidableEq α] (mark : List α) : Reads (Reader.expect mark) mark () := by
  intro rest
  have there : mark.isPrefixOf (mark ++ rest) = true := List.isPrefixOf_iff_prefix.mpr (List.prefix_append mark rest)
  rw [Reader.expect, if_pos there, List.drop_left]

theorem Reads.take (piece : List α) : Reads (Reader.take piece.length) piece piece := by
  intro rest
  have enough : ¬ (piece ++ rest).length < piece.length := by simp
  rw [Reader.take, if_neg enough, List.take_left, List.drop_left]

/-- Pieces one after another are read one after another. -/
theorem Reads.many {r : Reader α β} {piece : ι → List α} {value : ι → β} {items : List ι}
    (each : ∀ i ∈ items, Reads r (piece i) (value i)) :
    Reads (r.many items.length) (items.flatMap piece) (items.map value) := by
  induction items with
  | nil => exact .done []
  | cons i items ih =>
    obtain ⟨first, later⟩ := List.forall_mem_cons.mp each
    rw [List.flatMap_cons]
    refine first.andThen ?_
    exact (ih later).map (value i :: ·)

end Hwire.Lib
