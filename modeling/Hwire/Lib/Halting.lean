import Mathlib.Order.WellFounded
import Mathlib.Data.List.Range
import Mathlib.Tactic

/-!
# Coming to rest

A process among others, with a measure that its own steps bring down until it rests and that nobody else brings up.
However the steps are mixed with what the others do, the process rests again and again.
-/

namespace Hwire.Lib

variable {S A R : Type}

/-- The states along an endless schedule. -/
def trace (act : S → A → S) (s : S) (schedule : ℕ → A) : ℕ → S
  | 0 => s
  | n + 1 => act (trace act s schedule n) (schedule n)

theorem trace_eq_foldl (act : S → A → S) (s : S) (schedule : ℕ → A) (n : ℕ) :
    trace act s schedule n = ((List.range n).map schedule).foldl act s := by
  induction n with
  | zero => rfl
  | succ n ih => rw [trace, ih, List.range_succ, List.map_append, List.foldl_append]; rfl

/-- However far the schedule has come, one of these actions is still ahead. -/
def Recurs (own : A → Prop) (schedule : ℕ → A) : Prop := ∀ n, ∃ m ≥ n, own (schedule m)

/-- What an invariant has to give for a process to come to rest. -/
structure Settles [Preorder R] (act : S → A → S) (own : A → Prop) (inv rest : S → Prop) (rank : S → R) : Prop where
  keeps : ∀ {s : S} (a : A), inv s → inv (act s a)
  lowers : ∀ {s : S} {a : A}, inv s → ¬ rest s → own a → rank (act s a) < rank s
  others : ∀ {s : S} {a : A}, inv s → ¬ rest s → ¬ own a → rank (act s a) ≤ rank s

namespace Settles

variable [Preorder R] {act : S → A → S} {own : A → Prop} {inv rest : S → Prop} {rank : S → R} {s : S} {schedule : ℕ → A}

theorem trace_inv (h : Settles act own inv rest rank) (start : inv s) (n : ℕ) : inv (trace act s schedule n) := by
  induction n with
  | zero => exact start
  | succ n ih => exact h.keeps (schedule n) ih

/-- As long as the process does not rest, its measure never goes up. -/
theorem rank_le (h : Settles act own inv rest rank) (start : inv s) {n m : ℕ} (later : n ≤ m)
    (busy : ∀ k ≥ n, ¬ rest (trace act s schedule k)) : rank (trace act s schedule m) ≤ rank (trace act s schedule n) := by
  induction m, later using Nat.le_induction with
  | base => exact le_rfl
  | succ m later ih =>
    refine le_trans ?_ ih
    by_cases turn : own (schedule m)
    · exact (h.lowers (h.trace_inv start m) (busy m later) turn).le
    · exact h.others (h.trace_inv start m) (busy m later) turn

/-- The process rests again and again. -/
theorem rests [WellFoundedLT R] (h : Settles act own inv rest rank) (start : inv s) (turns : Recurs own schedule) (n : ℕ) :
    ∃ m ≥ n, rest (trace act s schedule m) := by
  by_contra never
  have busy : ∀ k ≥ n, ¬ rest (trace act s schedule k) := fun k later rested => never ⟨k, later, rested⟩
  have lower : ∀ r : R, ∀ m ≥ n, rank (trace act s schedule m) ≠ r := by
    intro r
    induction r using WellFoundedLT.induction with
    | ind r ih =>
      rintro m later rfl
      obtain ⟨k, after, turn⟩ := turns m
      have still := fun j (late : j ≥ m) => busy j (le_trans later late)
      have down := h.lowers (h.trace_inv start k) (still k after) turn
      exact ih _ (lt_of_lt_of_le down (h.rank_le start after still)) (k + 1) (by omega) rfl
  exact lower _ n le_rfl rfl

end Settles

end Hwire.Lib
