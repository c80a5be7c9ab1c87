import Mathlib.Tactic

/-!
# Histories

A list that is only added to at its end, and rules that say of every entry what must have come before it.
-/

namespace Hwire.Lib

variable {α : Type}

/-- Every entry was allowed by what came before it. -/
def Always (rule : List α → α → Prop) (history : List α) : Prop :=
  ∀ before entry after, history = before ++ entry :: after → rule before entry

theorem Always.nil (rule : List α → α → Prop) : Always rule [] := by
  intro before entry after same
  exact absurd same.symm (List.append_ne_nil_of_right_ne_nil _ (List.cons_ne_nil _ _))

theorem Always.concat {rule : List α → α → Prop} {history : List α} (always : Always rule history) {entry : α}
    (allowed : rule history entry) : Always rule (history ++ [entry]) := by
  intro before other after same
  rcases List.eq_nil_or_concat after with rfl | ⟨after, last, rfl⟩
  · obtain ⟨rfl, one⟩ := List.append_inj' same rfl
    obtain rfl := List.singleton_inj.mp one
    exact allowed
  · rw [List.concat_eq_append, ← List.cons_append, ← List.append_assoc] at same
    obtain ⟨earlier, -⟩ := List.append_inj' same rfl
    exact always before other after earlier

/-- What is picked out of a history grows with it. -/
theorem filterMap_concat {β : Type} (pick : α → Option β) (history : List α) (entry : α) :
    (history ++ [entry]).filterMap pick = history.filterMap pick ++ (pick entry).toList := by
  rw [List.filterMap_append]
  cases picked : pick entry with
  | none => simp [picked]
  | some b => simp [picked]

end Hwire.Lib
