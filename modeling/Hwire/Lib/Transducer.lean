import Mathlib.Data.List.Basic

/-!
# Transducers

A machine that takes its input one symbol at a time, may refuse a symbol, and puts something out at each. What it makes
of an input does not depend on where the input is cut.
-/

namespace Hwire.Lib

variable {σ τ α β : Type}

/-- Where a machine is after some input, and all that it has put out. -/
def transduce (step : σ → α → Option (σ × List β)) : σ → List α → Option (σ × List β)
  | s, [] => some (s, [])
  | s, x :: xs =>
    match step s x with
    | none => none
    | some (s, out) => (transduce step s xs).map fun res => (res.1, out ++ res.2)

/-- A machine takes all of `xs`, puts `out` out and is in `s'`. -/
def Emits (step : σ → α → Option (σ × List β)) (s : σ) (xs : List α) (s' : σ) (out : List β) : Prop :=
  transduce step s xs = some (s', out)

variable {step : σ → α → Option (σ × List β)}

theorem Emits.nil (s : σ) : Emits step s [] s [] := rfl

theorem Emits.cons {s s₁ s' : σ} {x : α} {xs : List α} {out later : List β} (first : step s x = some (s₁, out))
    (rest : Emits step s₁ xs s' later) : Emits step s (x :: xs) s' (out ++ later) := by
  unfold Emits at rest ⊢
  rw [transduce, first]
  dsimp only
  rw [rest]
  rfl

theorem Emits.single {s s' : σ} {x : α} {out : List β} (first : step s x = some (s', out)) : Emits step s [x] s' out := by
  have one := Emits.cons first (.nil s')
  rwa [List.append_nil] at one

theorem emits_nil {s s' : σ} {out : List β} : Emits step s [] s' out ↔ s' = s ∧ out = [] := by
  constructor
  · intro h
    cases h
    exact ⟨rfl, rfl⟩
  · rintro ⟨rfl, rfl⟩
    exact .nil _

theorem emits_cons {s s' : σ} {x : α} {xs : List α} {out : List β} :
    Emits step s (x :: xs) s' out ↔
      ∃ s₁ now later, step s x = some (s₁, now) ∧ Emits step s₁ xs s' later ∧ out = now ++ later := by
  constructor
  · intro h
    unfold Emits at h
    rw [transduce] at h
    split at h
    · cases h
    · next s₁ now first =>
      obtain ⟨⟨s₂, later⟩, rest, same⟩ := Option.map_eq_some_iff.mp h
      cases same
      exact ⟨s₁, now, later, first, rest, rfl⟩
  · rintro ⟨s₁, now, later, first, rest, rfl⟩
    exact .cons first rest

theorem Emits.append {s s₁ s' : σ} {xs ys : List α} {out later : List β} (first : Emits step s xs s₁ out)
    (second : Emits step s₁ ys s' later) : Emits step s (xs ++ ys) s' (out ++ later) := by
  induction xs generalizing s out with
  | nil =>
    obtain ⟨rfl, rfl⟩ := emits_nil.mp first
    exact second
  | cons x xs ih =>
    obtain ⟨s₂, now, next, here, rest, rfl⟩ := emits_cons.mp first
    rw [List.append_assoc]
    exact .cons here (ih rest)

/-- A machine that another one simulates puts out the same. -/
theorem Emits.map {step' : τ → α → Option (τ × List β)} {f : σ → τ}
    (same : ∀ s x, step' (f s) x = (step s x).map fun res => (f res.1, res.2)) {s : σ} {xs : List α} {t : τ}
    {out : List β} : Emits step' (f s) xs t out ↔ ∃ s', t = f s' ∧ Emits step s xs s' out := by
  induction xs generalizing s out with
  | nil =>
    rw [emits_nil]
    constructor
    · rintro ⟨rfl, rfl⟩
      exact ⟨s, rfl, .nil s⟩
    · rintro ⟨s', rfl, stays⟩
      obtain ⟨rfl, rfl⟩ := emits_nil.mp stays
      exact ⟨rfl, rfl⟩
  | cons x xs ih =>
    rw [emits_cons]
    constructor
    · rintro ⟨t₁, now, later, first, rest, rfl⟩
      rw [same] at first
      obtain ⟨⟨s₁, now⟩, here, eq⟩ := Option.map_eq_some_iff.mp first
      cases eq
      obtain ⟨s', rfl, simulated⟩ := ih.mp rest
      exact ⟨s', rfl, .cons here simulated⟩
    · rintro ⟨s', rfl, emits⟩
      obtain ⟨s₁, now, later, first, rest, rfl⟩ := emits_cons.mp emits
      refine ⟨f s₁, now, later, ?_, ih.mpr ⟨s', rfl, rest⟩, rfl⟩
      rw [same, first]
      rfl

end Hwire.Lib
