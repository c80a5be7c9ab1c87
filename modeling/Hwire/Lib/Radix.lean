import Mathlib.Data.Nat.Digits.Lemmas
import Mathlib.Tactic

/-!
# Positional numerals

Printing a natural number most significant digit first, reading digits back left to right, and reading
them into a bounded accumulator that fails on overflow.
-/

namespace Hwire.Lib

/-- The digits of `n`, most significant first. Zero prints as one digit. -/
def bigDigits (base n : Nat) : List Nat := if n = 0 then [0] else (base.digits n).reverse

/-- The digits `ds` read after the accumulator `acc`. -/
def readDigits (base acc : Nat) (ds : List Nat) : Nat := ds.foldl (fun v d => v * base + d) acc

/-- One more digit into an accumulator below `bound`: `checked_mul`, then `checked_add`. -/
def pushDigit (base bound acc d : Nat) : Option Nat :=
  if acc * base < bound then (if acc * base + d < bound then some (acc * base + d) else none) else none

@[simp] theorem readDigits_nil (base acc : Nat) : readDigits base acc [] = acc := rfl

@[simp] theorem readDigits_cons (base acc d : Nat) (ds : List Nat) :
    readDigits base acc (d :: ds) = readDigits base (acc * base + d) ds := rfl

theorem readDigits_bigDigits {base : Nat} (n : Nat) : readDigits base 0 (bigDigits base n) = n := by
  unfold bigDigits
  split
  · next h => simp [h]
  · rw [readDigits, List.foldl_reverse]
    have := Nat.ofDigits_eq_foldr base (base.digits n)
    rw [Nat.ofDigits_digits] at this
    simpa [Nat.add_comm, Nat.mul_comm] using this.symm

theorem bigDigits_ne_nil {base : Nat} (n : Nat) : bigDigits base n ≠ [] := by
  unfold bigDigits
  split
  · simp
  · next h => simpa [Nat.digits_ne_nil_iff_ne_zero] using h

theorem bigDigits_lt {base n d : Nat} (hb : 1 < base) (h : d ∈ bigDigits base n) : d < base := by
  unfold bigDigits at h
  split at h
  · simp only [List.mem_singleton] at h; omega
  · exact Nat.digits_lt_base hb (List.mem_reverse.mp h)

theorem bigDigits_length_le {base n k : Nat} (hb : 1 < base) (hk : 0 < k) (h : n < base ^ k) :
    (bigDigits base n).length ≤ k := by
  unfold bigDigits
  split
  · simp; omega
  · simpa using (Nat.digits_length_le_iff hb n).mpr h

theorem le_readDigits {base : Nat} (hb : 0 < base) (acc : Nat) (ds : List Nat) :
    acc ≤ readDigits base acc ds := by
  induction ds generalizing acc with
  | nil => exact Nat.le_refl _
  | cons d ds ih =>
    have grows : acc ≤ acc * base + d := Nat.le_add_right_of_le (Nat.le_mul_of_pos_right acc hb)
    exact grows.trans (ih _)

theorem pushDigit_eq_some {base bound acc d v : Nat} :
    pushDigit base bound acc d = some v ↔ acc * base + d = v ∧ v < bound := by
  unfold pushDigit
  split
  · split
    · simp; omega
    · simp; omega
  · simp; omega

end Hwire.Lib
