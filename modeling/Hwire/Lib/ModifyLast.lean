import Mathlib.Data.List.Forall2
import Mathlib.Data.List.ModifyLast
import Mathlib.Tactic

/-!
# Changing the last element

A history that is only added to, where the entry at its end may still be completed.
-/

namespace Hwire.Lib

variable {α : Type}

theorem modifyLast_eq_self {g : α → α} {l : List α} (same : ∀ r, g r = r) : l.modifyLast g = l := by
  rcases List.eq_nil_or_concat l with rfl | ⟨pre, x, rfl⟩
  · rfl
  · simp [List.modifyLast_concat, same]

theorem dropLast_modifyLast (g : α → α) (l : List α) : (l.modifyLast g).dropLast = l.dropLast := by
  rcases List.eq_nil_or_concat l with rfl | ⟨pre, x, rfl⟩
  · rfl
  · simp [List.modifyLast_concat]

theorem getLast?_modifyLast (g : α → α) (l : List α) : (l.modifyLast g).getLast? = l.getLast?.map g := by
  rcases List.eq_nil_or_concat l with rfl | ⟨pre, x, rfl⟩
  · rfl
  · simp [List.modifyLast_concat]

theorem length_modifyLast (g : α → α) (l : List α) : (l.modifyLast g).length = l.length := by
  rcases List.eq_nil_or_concat l with rfl | ⟨pre, x, rfl⟩
  · rfl
  · simp [List.modifyLast_concat]

theorem getElem?_modifyLast (g : α → α) (l : List α) (i : Nat) :
    (l.modifyLast g)[i]? = if i + 1 = l.length then l[i]?.map g else l[i]? := by
  rcases List.eq_nil_or_concat l with rfl | ⟨pre, x, rfl⟩
  · simp [List.modifyLast, List.modifyLast.go]
  · simp only [List.concat_eq_append, List.modifyLast_concat, List.length_append, List.length_singleton]
    rcases Nat.lt_trichotomy i pre.length with earlier | rfl | later
    · rw [if_neg (by omega), List.getElem?_append_left earlier, List.getElem?_append_left earlier]
    · simp
    · rw [if_neg (by omega), List.getElem?_eq_none (by simp; omega), List.getElem?_eq_none (by simp; omega)]

theorem forall₂_modifyLast {β : Type} {R : β → α → Prop} {g : α → α} {bs : List β} {l : List α}
    (related : List.Forall₂ R bs l)
    (keeps : ∀ b x, bs.getLast? = some b → l.getLast? = some x → R b x → R b (g x)) : List.Forall₂ R bs (l.modifyLast g) := by
  rcases List.eq_nil_or_concat l with rfl | ⟨pre, x, rfl⟩
  · exact related
  · rw [List.concat_eq_append] at related keeps ⊢
    rw [List.modifyLast_concat]
    rw [← List.forall₂_reverse_iff, List.reverse_append, List.reverse_singleton, List.singleton_append] at related ⊢
    obtain ⟨b, rest, last, earlier, eq⟩ := List.forall₂_cons_right_iff.mp related
    have bsLast : bs.getLast? = some b := by rw [← List.head?_reverse, eq]; rfl
    rw [eq]
    exact .cons (keeps b x bsLast List.getLast?_concat last) earlier

end Hwire.Lib
