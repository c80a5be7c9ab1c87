import Mathlib.Data.List.Basic
import Mathlib.Tactic

/-!
# Cutting lists at a pattern

A list is cut at the first place where a pattern stands. A text of lines that an empty line ends is read line by line.
-/

namespace Hwire.Lib

variable {α : Type} [DecidableEq α]

/-- What stands before the first `pattern`, and what stands after it. -/
def cut (pattern : List α) : List α → Option (List α × List α)
  | [] => if pattern = [] then some ([], []) else none
  | x :: rest =>
    if (x :: rest).take pattern.length = pattern then some ([], (x :: rest).drop pattern.length)
    else (cut pattern rest).map fun parts => (x :: parts.1, parts.2)

theorem cut_append {mark : α} {tail before rest : List α} (fresh : mark ∉ before) :
    cut (mark :: tail) (before ++ (mark :: tail ++ rest)) = some (before, rest) := by
  induction before with
  | nil => simp [cut]
  | cons x before ih =>
    have other : mark ≠ x := List.ne_of_not_mem_cons fresh
    have later : mark ∉ before := List.not_mem_of_not_mem_cons fresh
    have elsewhere : ¬ (x :: (before ++ (mark :: tail ++ rest))).take (mark :: tail).length = mark :: tail := by
      simp [Ne.symm other]
    rw [List.cons_append, cut, if_neg elsewhere, ih later]
    rfl

/-- The lines before the first empty one, and what stands after it. -/
def linesUntilEmpty (lineEnd : List α) : Nat → List α → Option (List (List α) × List α)
  | 0, _ => none
  | fuel + 1, text =>
    match cut lineEnd text with
    | none => none
    | some ([], rest) => some ([], rest)
    | some (line, rest) => (linesUntilEmpty lineEnd fuel rest).map fun parts => (line :: parts.1, parts.2)

theorem linesUntilEmpty_append {mark : α} {tail rest : List α} {lines : List (List α)} {fuel : Nat}
    (fresh : ∀ line ∈ lines, line ≠ [] ∧ mark ∉ line) (enough : lines.length < fuel) :
    linesUntilEmpty (mark :: tail) fuel (lines.flatMap (· ++ mark :: tail) ++ (mark :: tail ++ rest)) =
      some (lines, rest) := by
  induction lines generalizing fuel with
  | nil =>
    obtain ⟨fuel, rfl⟩ := Nat.exists_eq_add_of_lt enough
    have first : cut (mark :: tail) ([] ++ (mark :: tail ++ rest)) = some ([], rest) := cut_append List.not_mem_nil
    rw [List.flatMap_nil, linesUntilEmpty, first]
  | cons line lines ih =>
    obtain ⟨⟨nonempty, free⟩, later⟩ := List.forall_mem_cons.mp fresh
    obtain ⟨fuel, rfl⟩ : ∃ n, fuel = n + 1 := Nat.exists_eq_succ_of_ne_zero (by omega)
    have shorter : lines.length < fuel := by simpa using enough
    rw [List.flatMap_cons, List.append_assoc, List.append_assoc, linesUntilEmpty, cut_append free]
    obtain ⟨x, line, rfl⟩ := List.exists_cons_of_ne_nil nonempty
    dsimp only
    rw [ih later shorter]
    rfl

/-- The length of the text is fuel enough for it. -/
theorem linesUntilEmpty_text {mark : α} {tail rest : List α} {lines : List (List α)}
    (fresh : ∀ line ∈ lines, line ≠ [] ∧ mark ∉ line) :
    linesUntilEmpty (mark :: tail) (lines.flatMap (· ++ mark :: tail) ++ (mark :: tail ++ rest)).length
      (lines.flatMap (· ++ mark :: tail) ++ (mark :: tail ++ rest)) = some (lines, rest) := by
  have long : lines.length ≤ (lines.flatMap (· ++ mark :: tail)).length := by
    clear fresh
    induction lines with
    | nil => exact Nat.le_refl 0
    | cons line lines ih =>
      simp only [List.length_cons, List.flatMap_cons, List.length_append]
      omega
  apply linesUntilEmpty_append fresh
  simp only [List.length_append, List.length_cons]
  omega

end Hwire.Lib
