import Hwire.Http1.Io

/-!
# The size of reads

The adaptive size stays between the initial size and the maximum. It doubles when a read fills it, and two small reads in
a row bring it down to a power of two.
-/

namespace Hwire.Http1

/-! ### Powers of two -/

theorem log2_bounds {n : Nat} (least : 4 ≤ n) (fits : n ≤ usizeMax) : 2 ≤ Nat.log2 n ∧ Nat.log2 n ≤ 63 := by
  have some : n ≠ 0 := by omega
  have low := (Nat.le_log2 (k := 2) some).mpr least
  have high := (Nat.log2_lt (k := 64) some).mpr (Nat.lt_of_le_of_lt fits (by decide))
  omega

/-- The shift leaves as many ones as the result has zeros. -/
theorem usizeMax_shift {k : Nat} (short : k ≤ 64) : usizeMax / 2 ^ (64 - k) = 2 ^ k - 1 := by
  have ones : usizeMax + 1 = 2 ^ k * 2 ^ (64 - k) := by
    rw [← Nat.pow_add, Nat.add_sub_cancel' short]
    rfl
  have pos := Nat.two_pow_pos (64 - k)
  have some := Nat.two_pow_pos k
  apply Nat.div_eq_of_lt_le
  · rw [Nat.sub_mul]
    omega
  · rw [Nat.sub_add_cancel some]
    omega

theorem prevPowerOfTwo_eq {n : Nat} (least : 4 ≤ n) (fits : n ≤ usizeMax) : prevPowerOfTwo n = 2 ^ (Nat.log2 n - 1) := by
  obtain ⟨low, high⟩ := log2_bounds least fits
  have shift : leadingZeros n + 2 = 64 - (Nat.log2 n - 1) := by
    rw [leadingZeros, if_neg (by omega)]
    omega
  rw [prevPowerOfTwo, shift, usizeMax_shift (by omega), Nat.sub_add_cancel (Nat.two_pow_pos _)]

theorem prevPowerOfTwo_lt {n : Nat} (least : 4 ≤ n) (fits : n ≤ usizeMax) : prevPowerOfTwo n < n := by
  obtain ⟨low, high⟩ := log2_bounds least fits
  have below : 2 ^ Nat.log2 n ≤ n := Nat.log2_self_le (by omega)
  have half : 2 ^ (Nat.log2 n - 1) < 2 ^ Nat.log2 n := Nat.pow_lt_pow_right (by decide) (by omega)
  rw [prevPowerOfTwo_eq least fits]
  omega

/-- The assertion of `prev_power_of_two`, and that neither its shift nor its sum overflows. -/
structure PrevFits (n : Nat) : Prop where
  assert : 4 ≤ n
  shift : leadingZeros n + 2 < 64
  sum : usizeMax / 2 ^ (leadingZeros n + 2) + 1 ≤ usizeMax

theorem PrevFits.of_le {n : Nat} (least : 4 ≤ n) (fits : n ≤ usizeMax) : PrevFits n := by
  obtain ⟨low, high⟩ := log2_bounds least fits
  refine ⟨least, ?_, ?_⟩
  · rw [leadingZeros, if_neg (by omega)]
    omega
  · exact Nat.le_of_lt (Nat.lt_of_lt_of_le (prevPowerOfTwo_lt least fits) fits)

namespace ReadStrategy

/-- No step of `record` overflows. The doubling saturates. -/
def RecordFits (s : ReadStrategy) (bytesRead : Nat) : Prop :=
  match s with
  | .adaptive _ next _ => bytesRead < next → PrevFits next
  | .exact _ => True

def records (s : ReadStrategy) (bytesRead : List Nat) : ReadStrategy := bytesRead.foldl record s

@[simp] theorem records_append (s : ReadStrategy) (earlier later : List Nat) :
    s.records (earlier ++ later) = (s.records earlier).records later := List.foldl_append

/-- What a record does to the adaptive size. -/
inductive Recorded (decreaseNow : Bool) (next max bytesRead : Nat) : ReadStrategy → Prop where
  | grown (full : next ≤ bytesRead) : Recorded decreaseNow next max bytesRead (.adaptive false (min (incrPowerOfTwo next) max) max)
  | shrunk (again : decreaseNow = true) (small : bytesRead < prevPowerOfTwo next) :
    Recorded decreaseNow next max bytesRead (.adaptive false (Nat.max (prevPowerOfTwo next) INIT_BUFFER_SIZE) max)
  | noted (first : decreaseNow = false) (small : bytesRead < prevPowerOfTwo next) :
    Recorded decreaseNow next max bytesRead (.adaptive true next max)
  | kept (short : bytesRead < next) (enough : prevPowerOfTwo next ≤ bytesRead) :
    Recorded decreaseNow next max bytesRead (.adaptive false next max)

theorem record_recorded (decreaseNow : Bool) (next max bytesRead : Nat) :
    Recorded decreaseNow next max bytesRead ((adaptive decreaseNow next max).record bytesRead) := by
  unfold record
  dsimp only
  split
  · next full => exact .grown full
  split
  · next small =>
    split
    · next again => exact .shrunk again small
    · next first => exact .noted (Bool.eq_false_iff.mpr first) small
  · next short enough => exact .kept (Nat.lt_of_not_le short) (Nat.le_of_not_lt enough)

/-- The last record left the size as it is, and was too small for it. -/
def Noted (initial : ReadStrategy) (earlier : List Nat) (next : Nat) : Prop :=
  ∃ before last, earlier = before ++ [last] ∧ (initial.records before).next = next ∧ last < prevPowerOfTwo next

/-- The size is in range, and a decrease is only ever prepared by the last record. -/
structure Ranged (initial : ReadStrategy) (max : Nat) (earlier : List Nat) (decreaseNow : Bool) (next : Nat) : Prop where
  least : INIT_BUFFER_SIZE ≤ next
  most : next ≤ max
  noted : decreaseNow = true → Noted initial earlier next

theorem prevPowerOfTwo_max_le {next : Nat} (least : INIT_BUFFER_SIZE ≤ next) (fits : next ≤ usizeMax) :
    Nat.max (prevPowerOfTwo next) INIT_BUFFER_SIZE ≤ next := by
  have lt := prevPowerOfTwo_lt (Nat.le_trans (by decide) least) fits
  exact Nat.max_le.mpr ⟨Nat.le_of_lt lt, least⟩

theorem incrPowerOfTwo_min {next max : Nat} (fits : max ≤ usizeMax) : min (incrPowerOfTwo next) max = min (2 * next) max := by
  unfold incrPowerOfTwo
  omega

theorem records_ranged {max : Nat} (least : INIT_BUFFER_SIZE ≤ max) (fits : max ≤ usizeMax) (bytesRead : List Nat) :
    ∃ decreaseNow next, (withMax max).records bytesRead = .adaptive decreaseNow next max ∧
      Ranged (withMax max) max bytesRead decreaseNow next := by
  induction bytesRead using List.reverseRecOn with
  | nil =>
    refine ⟨false, INIT_BUFFER_SIZE, rfl, Nat.le_refl _, least, ?_⟩
    intro wrong
    cases wrong
  | append_singleton earlier last ih =>
    obtain ⟨decreaseNow, next, same, ranged⟩ := ih
    have low := ranged.least
    have high := ranged.most
    rw [records_append, same]
    have recorded := record_recorded decreaseNow next max last
    rw [show (adaptive decreaseNow next max).records [last] = (adaptive decreaseNow next max).record last from rfl]
    generalize (adaptive decreaseNow next max).record last = s at recorded
    -- Only the first of two small records leaves the flag.
    cases recorded with
    | grown full =>
      refine ⟨_, _, rfl, ?_, Nat.min_le_right _ _, ?_⟩
      · rw [incrPowerOfTwo_min fits]
        omega
      · intro wrong
        cases wrong
    | shrunk again small =>
      refine ⟨_, _, rfl, Nat.le_max_right _ _, ?_, ?_⟩
      · exact Nat.le_trans (prevPowerOfTwo_max_le low (Nat.le_trans high fits)) high
      · intro wrong
        cases wrong
    | noted first small =>
      refine ⟨_, _, rfl, low, high, fun _ => ⟨earlier, last, rfl, ?_, small⟩⟩
      rw [same]
      rfl
    | kept short enough =>
      refine ⟨_, _, rfl, low, high, ?_⟩
      intro wrong
      cases wrong

section

variable {decreaseNow : Bool} {next max bytesRead : Nat} {later : ReadStrategy}

theorem Recorded.doubles (recorded : Recorded decreaseNow next max bytesRead later) (least : INIT_BUFFER_SIZE ≤ next)
    (fits : max ≤ usizeMax) (most : next ≤ max) (full : next ≤ bytesRead) : later.next = min (2 * next) max := by
  have lt := prevPowerOfTwo_lt (Nat.le_trans (by decide) least) (Nat.le_trans most fits)
  cases recorded with
  | grown => exact incrPowerOfTwo_min fits
  | shrunk again small => omega
  | noted first small => omega
  | kept short enough => omega

theorem Recorded.full_of_grows (recorded : Recorded decreaseNow next max bytesRead later) (least : INIT_BUFFER_SIZE ≤ next)
    (fits : next ≤ usizeMax) (more : next < later.next) : next ≤ bytesRead := by
  cases recorded with
  | grown full => exact full
  | shrunk again small => exact absurd more (Nat.not_lt.mpr (prevPowerOfTwo_max_le least fits))
  | noted first small => exact absurd more (Nat.lt_irrefl next)
  | kept short enough => exact absurd more (Nat.lt_irrefl next)

/-- Both sides of the maximum are powers of two. -/
theorem Recorded.small_of_shrinks (recorded : Recorded decreaseNow next max bytesRead later) (least : INIT_BUFFER_SIZE ≤ next)
    (fits : max ≤ usizeMax) (most : next ≤ max) (less : later.next < next) :
    bytesRead < prevPowerOfTwo next ∧ decreaseNow = true ∧ ∃ k, later.next = 2 ^ k := by
  cases recorded with
  | grown full =>
    have less : min (incrPowerOfTwo next) max < next := less
    rw [incrPowerOfTwo_min fits] at less
    omega
  | shrunk again small =>
    refine ⟨small, again, ?_⟩
    show ∃ k, Nat.max (prevPowerOfTwo next) (2 ^ 13) = 2 ^ k
    rw [prevPowerOfTwo_eq (Nat.le_trans (by decide) least) (Nat.le_trans most fits)]
    obtain big | small := Nat.le_total (2 ^ 13) (2 ^ (Nat.log2 next - 1))
    · exact ⟨_, Nat.max_eq_left big⟩
    · exact ⟨_, Nat.max_eq_right small⟩
  | noted first small => exact absurd less (Nat.lt_irrefl next)
  | kept short enough => exact absurd less (Nat.lt_irrefl next)

end

/-- For every maximum and all records, the size is in range and nothing overflows. It grows only when a read fills it, and
then doubles up to the maximum; it shrinks only with the second of two small records, and then to a power of two. -/
theorem records_adaptive {max : Nat} (least : 8192 ≤ max) (fits : max ≤ usizeMax) (earlier : List Nat) (bytesRead : Nat) :
    let s := (withMax max).records earlier
    let later := s.record bytesRead
    (8192 ≤ s.next ∧ s.next ≤ max) ∧
      s.RecordFits bytesRead ∧ (∃ k, prevPowerOfTwo s.next = 2 ^ k) ∧ prevPowerOfTwo s.next < s.next ∧
      (s.next ≤ bytesRead → later.next = min (2 * s.next) max) ∧ (s.next < later.next → s.next ≤ bytesRead) ∧
      (later.next < s.next →
        bytesRead < prevPowerOfTwo s.next ∧ Noted (withMax max) earlier s.next ∧ ∃ k, later.next = 2 ^ k) := by
  intro s later
  obtain ⟨decreaseNow, next, same, ranged⟩ := records_ranged least fits earlier
  have same : s = .adaptive decreaseNow next max := same
  have inside : next ≤ usizeMax := Nat.le_trans ranged.most fits
  have four : 4 ≤ next := Nat.le_trans (by decide) ranged.least
  have recorded : Recorded decreaseNow next max bytesRead later := by
    have recorded := record_recorded decreaseNow next max bytesRead
    rwa [← same] at recorded
  rw [same]
  refine ⟨⟨ranged.least, ranged.most⟩, fun _ => .of_le four inside, ⟨_, prevPowerOfTwo_eq four inside⟩,
    prevPowerOfTwo_lt four inside, ?_, ?_, ?_⟩
  · intro full
    exact recorded.doubles ranged.least fits ranged.most full
  · intro more
    exact recorded.full_of_grows ranged.least inside more
  · intro less
    obtain ⟨small, again, power⟩ := recorded.small_of_shrinks ranged.least fits ranged.most less
    exact ⟨small, ranged.noted again, power⟩

/-- A maximum that is no power of two, and the same size after the first of two small reads. -/
theorem records_adaptive_capped :
    ((withMax 20000).records [8192, 16384, 1]).next = 20000 ∧
      (((withMax 20000).records [8192, 16384, 1]).record 1).next = 8192 ∧
      Noted (withMax 20000) [8192, 16384, 1] 20000 := by
  have capped : ((withMax 20000).records [8192, 16384, 1]).next = 20000 := by decide
  have least : 8192 ≤ 20000 := by decide
  have adaptive := records_adaptive least (by decide) [8192, 16384, 1] 1
  refine ⟨capped, by decide, ?_⟩
  have noted := (adaptive.2.2.2.2.2.2 (by decide)).2.1
  rw [capped] at noted
  exact noted

end ReadStrategy

end Hwire.Http1
