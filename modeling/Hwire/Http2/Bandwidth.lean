import Hwire.Http2.Ping

/-!
# The adaptive window

The window that the estimate of the bandwidth-delay product gives, and the delay between the pings that measure it, over
every sequence of samples. A window is at least 4/3 of the one before it, so there are few of them, and the delay is
halved only as often.
-/

namespace Hwire.Http2
open Lib

def SPEC_WINDOW_SIZE : Nat := 65535

/-- `Duration::MAX`, in nanoseconds. -/
def durationMax : Nat := 2 ^ 64 * 1000000000 - 1

namespace Bdp

/-! ### Samples -/

/-- The estimate that `channel` starts with for an adaptive window. -/
def adaptive : Bdp := { bdp := SPEC_WINDOW_SIZE }

theorem channel_adaptive (interval : Option Nat) (timeout now : Nat) (whileIdle : Bool) :
    (channel (Config.new true SPEC_WINDOW_SIZE interval timeout whileIdle) now).bdp = some adaptive := rfl

/-- Samples of bytes, each with the outcome of the comparison of bandwidths, and the windows that they give. -/
def calculates (bdp : Bdp) : List (Nat × Bool) → Bdp × List Nat
  | [] => (bdp, [])
  | (bytes, slower) :: samples =>
    let (bdp, update) := bdp.calculate bytes slower
    let (bdp, windows) := calculates bdp samples
    (bdp, update.toList ++ windows)

theorem calculates_append (bdp : Bdp) (samples later : List (Nat × Bool)) :
    bdp.calculates (samples ++ later) =
      (((bdp.calculates samples).1.calculates later).1,
        (bdp.calculates samples).2 ++ ((bdp.calculates samples).1.calculates later).2) := by
  induction samples generalizing bdp with
  | nil => rfl
  | cons sample samples ih =>
    rw [List.cons_append, calculates, calculates]
    simp only [ih, List.append_assoc]

/-- Either the delay is stabilized, or the sample is large enough for a larger window. -/
theorem calculate_cases (bdp : Bdp) (bytes : Nat) (slower : Bool) :
    bdp.calculate bytes slower = (bdp.stabilizeDelay, none) ∨
      (bdp.bdp ≠ BDP_LIMIT ∧ bdp.bdp * 2 / 3 ≤ bytes ∧
        bdp.calculate bytes slower =
          ({ bdp := min (bytes * 2) BDP_LIMIT, stableCount := 0, pingDelay := bdp.pingDelay / 2 },
            some (min (bytes * 2) BDP_LIMIT))) := by
  unfold calculate
  by_cases full : bdp.bdp = BDP_LIMIT
  · rw [if_pos full]
    exact .inl rfl
  rw [if_neg full]
  by_cases slow : slower = true
  · rw [if_pos slow]
    exact .inl rfl
  rw [if_neg slow]
  by_cases large : bytes ≥ bdp.bdp * 2 / 3
  · rw [if_pos large]
    exact .inr ⟨full, large, rfl⟩
  · rw [if_neg large]
    exact .inl rfl

theorem calculate_full {bdp : Bdp} (full : bdp.bdp = BDP_LIMIT) (bytes : Nat) (slower : Bool) :
    bdp.calculate bytes slower = (bdp.stabilizeDelay, none) := by
  rw [calculate, if_pos full]

@[simp] theorem stabilizeDelay_bdp (bdp : Bdp) : bdp.stabilizeDelay.bdp = bdp.bdp := by
  unfold stabilizeDelay
  split
  · split
    · rfl
    · rfl
  · rfl

theorem calculates_full {bdp : Bdp} (full : bdp.bdp = BDP_LIMIT) (samples : List (Nat × Bool)) :
    (bdp.calculates samples).2 = [] := by
  induction samples generalizing bdp with
  | nil => rfl
  | cons sample samples ih =>
    rw [calculates, calculate_full full]
    exact ih (bdp.stabilizeDelay_bdp.trans full)

/-! ### Machine arithmetic -/

/-- No operation of `stabilize_delay` overflows. -/
structure StabilizeFits (bdp : Bdp) : Prop where
  stableCount : bdp.pingDelay < 10000000000 → bdp.stableCount + 1 < 2 ^ 32
  pingDelay : bdp.pingDelay < 10000000000 → bdp.pingDelay * 4 ≤ durationMax

/-- No operation of `calculate` overflows, for a `usize` of 64 bits. -/
structure CalculateFits (bdp : Bdp) (bytes : Nat) : Prop extends StabilizeFits bdp where
  product : bdp.bdp * 2 < 2 ^ 64
  sample : bytes * 2 < 2 ^ 64
  window : min (bytes * 2) BDP_LIMIT < 2 ^ 32

/-! ### Growth -/

/-- A lower bound for the window after some updates. -/
def grown : Nat → Nat
  | 0 => SPEC_WINDOW_SIZE
  | k + 1 => grown k * 2 / 3 * 2

theorem grown_le_succ (k : Nat) : grown k < grown (k + 1) ∧ 65535 ≤ grown k := by
  induction k with
  | zero => decide
  | succ k ih =>
    have next : grown (k + 1 + 1) = grown (k + 1) * 2 / 3 * 2 := rfl
    omega

theorem grown_mono {j k : Nat} (le : j ≤ k) : grown j ≤ grown k := by
  induction le with
  | refl => exact Nat.le_refl _
  | step _ ih => exact Nat.le_trans ih (Nat.le_of_lt (grown_le_succ _).1)

def MAX_UPDATES : Nat := 20

theorem limit_le_grown : BDP_LIMIT ≤ grown MAX_UPDATES := by decide

/-- What holds after any samples that have given these windows. -/
structure Adapted (bdp : Bdp) (windows : List Nat) : Prop where
  sorted : (SPEC_WINDOW_SIZE :: windows).Pairwise (· < ·)
  top : ∀ w ∈ SPEC_WINDOW_SIZE :: windows, w ≤ bdp.bdp
  limit : bdp.bdp ≤ BDP_LIMIT
  growth : min (grown windows.length) BDP_LIMIT ≤ bdp.bdp
  few : windows.length ≤ MAX_UPDATES
  halved : 100000000 / 2 ^ windows.length ≤ bdp.pingDelay
  delay : bdp.pingDelay < 40000000000
  stable : bdp.stableCount ≤ 1

theorem adapted_adaptive : adaptive.Adapted [] := by
  refine ⟨List.pairwise_singleton _ _, ?_, by decide, by decide, by decide, by decide, by decide, by decide⟩
  intro w member
  rw [List.mem_singleton.mp member]
  exact Nat.le_refl _

theorem Adapted.stabilizeDelay {bdp : Bdp} {windows : List Nat} (h : bdp.Adapted windows) :
    bdp.stabilizeDelay.Adapted windows := by
  have kept := bdp.stabilizeDelay_bdp
  have halved := h.halved
  have delay := h.delay
  have stable := h.stable
  refine ⟨h.sorted, kept ▸ h.top, kept ▸ h.limit, kept ▸ h.growth, h.few, ?_, ?_, ?_⟩
  · unfold Bdp.stabilizeDelay
    split
    · split
      · show _ ≤ bdp.pingDelay * 4
        omega
      · exact halved
    · exact halved
  · unfold Bdp.stabilizeDelay
    split
    · split
      · show bdp.pingDelay * 4 < _
        omega
      · exact delay
    · exact delay
  · unfold Bdp.stabilizeDelay
    split
    · split
      · exact Nat.zero_le _
      · show bdp.stableCount + 1 ≤ 1
        omega
    · exact stable

/-- A larger window is larger than all before it, and there is room for one more. -/
theorem Adapted.update {bdp : Bdp} {windows : List Nat} (h : bdp.Adapted windows) (room : bdp.bdp ≠ BDP_LIMIT) {bytes : Nat}
    (large : bdp.bdp * 2 / 3 ≤ bytes) :
    Adapted { bdp := min (bytes * 2) BDP_LIMIT, stableCount := 0, pingDelay := bdp.pingDelay / 2 }
      (windows ++ [min (bytes * 2) BDP_LIMIT]) := by
  have least := h.top SPEC_WINDOW_SIZE List.mem_cons_self
  have below : bdp.bdp < BDP_LIMIT := Nat.lt_of_le_of_ne h.limit room
  have growth : grown windows.length ≤ bdp.bdp := by
    have := h.growth
    omega
  have larger : bdp.bdp < min (bytes * 2) BDP_LIMIT := by
    unfold SPEC_WINDOW_SIZE at least
    omega
  refine ⟨?_, ?_, Nat.min_le_right _ _, ?_, ?_, ?_, ?_, Nat.zero_le _⟩
  · rw [← List.cons_append, List.pairwise_append]
    refine ⟨h.sorted, List.pairwise_singleton _ _, ?_⟩
    intro w member w' last
    rw [List.mem_singleton.mp last]
    exact Nat.lt_of_le_of_lt (h.top w member) larger
  · intro w member
    rw [← List.cons_append] at member
    obtain older | last := List.mem_append.mp member
    · exact Nat.le_trans (h.top w older) (Nat.le_of_lt larger)
    · rw [List.mem_singleton.mp last]
  · have next : grown (windows.length + 1) = grown windows.length * 2 / 3 * 2 := rfl
    rw [List.length_append, List.length_singleton, next]
    show _ ≤ min (bytes * 2) BDP_LIMIT
    omega
  · rw [List.length_append, List.length_singleton]
    by_contra many
    have bound := Nat.le_trans limit_le_grown (grown_mono (show MAX_UPDATES ≤ windows.length by omega))
    omega
  · rw [List.length_append, List.length_singleton, Nat.pow_succ, ← Nat.div_div_eq_div_mul]
    exact Nat.div_le_div_right h.halved
  · exact Nat.lt_of_le_of_lt (Nat.div_le_self _ _) h.delay

theorem Adapted.calculate {bdp : Bdp} {windows : List Nat} (h : bdp.Adapted windows) (bytes : Nat) (slower : Bool) :
    (bdp.calculate bytes slower).1.Adapted (windows ++ (bdp.calculate bytes slower).2.toList) := by
  obtain stable | ⟨room, large, grows⟩ := bdp.calculate_cases bytes slower
  · rw [stable, Option.toList_none, List.append_nil]
    exact h.stabilizeDelay
  · rw [grows]
    exact h.update room large

theorem Adapted.calculates {bdp : Bdp} {windows : List Nat} (h : bdp.Adapted windows) (samples : List (Nat × Bool)) :
    (bdp.calculates samples).1.Adapted (windows ++ (bdp.calculates samples).2) := by
  induction samples generalizing bdp windows with
  | nil => exact (List.append_nil windows).symm ▸ h
  | cons sample samples ih =>
    have later := ih (h.calculate sample.1 sample.2)
    rw [List.append_assoc] at later
    exact later

theorem Adapted.pos {bdp : Bdp} {windows : List Nat} (h : bdp.Adapted windows) : 0 < bdp.pingDelay := by
  have few : 2 ^ windows.length ≤ 2 ^ MAX_UPDATES := Nat.pow_le_pow_right (by decide) h.few
  have least : 100000000 / 2 ^ MAX_UPDATES ≤ 100000000 / 2 ^ windows.length := Nat.div_le_div_left few (Nat.two_pow_pos _)
  have pos : 0 < 100000000 / 2 ^ MAX_UPDATES := by decide
  have halved := h.halved
  omega

theorem Adapted.fits {bdp : Bdp} {windows : List Nat} (h : bdp.Adapted windows) {bytes : Nat} (small : bytes < 2 ^ 63) :
    bdp.CalculateFits bytes := by
  have limit := h.limit
  have stable := h.stable
  unfold BDP_LIMIT at limit
  refine ⟨⟨fun _ => by omega, ?_⟩, by omega, by omega, ?_⟩
  · intro short
    unfold durationMax
    omega
  · exact Nat.lt_of_le_of_lt (Nat.min_le_right _ _) (by decide)

/-- For all samples, the windows grow from the initial one up to 16 MiB, where they end. Nothing overflows, and the delay
stays positive and below 40 seconds. -/
theorem calculates_adaptive (samples : List (Nat × Bool)) (small : ∀ sample ∈ samples, sample.1 < 2 ^ 63) :
    let run := adaptive.calculates samples
    (SPEC_WINDOW_SIZE :: run.2).Pairwise (· < ·) ∧ (∀ window ∈ run.2, window ≤ 16 * 1024 * 1024) ∧
      (16 * 1024 * 1024 ∈ run.2 → ∀ later, (adaptive.calculates (samples ++ later)).2 = run.2) ∧
      (∀ earlier sample later, samples = earlier ++ sample :: later →
        (adaptive.calculates earlier).1.CalculateFits sample.1) ∧
      0 < run.1.pingDelay ∧ run.1.pingDelay < 40 * 1000000000 := by
  have adapted := adapted_adaptive.calculates samples
  rw [List.nil_append] at adapted
  refine ⟨adapted.sorted, ?_, ?_, ?_, adapted.pos, adapted.delay⟩
  · intro window member
    exact Nat.le_trans (adapted.top window (List.mem_cons_of_mem _ member)) adapted.limit
  · intro reached later
    have full : (adaptive.calculates samples).1.bdp = BDP_LIMIT :=
      Nat.le_antisymm adapted.limit (adapted.top _ (List.mem_cons_of_mem _ reached))
    rw [calculates_append, calculates_full full, List.append_nil]
  · rintro earlier sample later rfl
    have before := adapted_adaptive.calculates earlier
    exact before.fits (small sample (List.mem_append_right _ List.mem_cons_self))

/-- A sample that is slower changes nothing, and the second large one reaches the limit. -/
theorem calculates_adaptive_full :
    (adaptive.calculates [(50000, false), (9000000, true), (9000000, false)]).2 = [100000, 16777216] ∧
      ∀ later, (adaptive.calculates ([(50000, false), (9000000, true), (9000000, false)] ++ later)).2 = [100000, 16777216] := by
  have windows : (adaptive.calculates [(50000, false), (9000000, true), (9000000, false)]).2 = [100000, 16777216] := by decide
  have small : ∀ sample ∈ [(50000, false), (9000000, true), (9000000, false)], sample.1 < 2 ^ 63 := by decide
  refine ⟨windows, fun later => ?_⟩
  exact (calculates_adaptive _ small).2.2.1 (by decide) later

end Bdp

end Hwire.Http2
