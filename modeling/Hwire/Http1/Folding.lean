import Hwire.Http1.Role

/-!
# Obsolete line folding

A folded value is rebuilt in place: its lines without the white space around them, with single spaces between them.
-/

namespace Hwire.Http1
open Lib Client

/-! ### The text of a value -/

/-- The value that takes the place of `value`. -/
def unfoldValue (value : Bytes) : Bytes :=
  match value.findIdx? (· == LF) with
  | none => value
  | some firstNl => unfoldLines value firstNl

/-- What is written for the lines of a text that stands behind a line end. -/
def laterLines (text : Bytes) : Bytes := (text.splitOn LF).flatMap fun line => SP :: trimStart (trimEnd line)

/-- What is written for a text whose first line is the first one of the value. -/
def allLines (text : Bytes) : Bytes :=
  match text.splitOn LF with
  | [] => []
  | first :: later => trimEnd first ++ later.flatMap fun line => SP :: trimStart (trimEnd line)

def content (text : Bytes) : Bytes := text.filter fun b => !isAsciiWhitespace b

/-- Each carriage return stands directly before a line feed. -/
def CrBeforeLf (text : Bytes) : Prop := ∀ before after, text = before ++ CR :: after → after.head? = some LF

theorem laterLines_append (text rest : Bytes) :
    laterLines (text ++ LF :: rest) = laterLines text ++ laterLines rest := by
  rw [laterLines, List.splitOn_append_cons_self, List.flatMap_append]
  rfl

theorem laterLines_line {line : Bytes} (plain : LF ∉ line) : laterLines line = SP :: trimStart (trimEnd line) := by
  rw [laterLines, List.splitOn_eq_singleton plain]
  simp

theorem allLines_append (text rest : Bytes) : allLines (text ++ LF :: rest) = allLines text ++ laterLines rest := by
  unfold allLines
  rw [List.splitOn_append_cons_self]
  cases lines : text.splitOn LF with
  | nil => exact absurd lines (List.splitOn_ne_nil _ _)
  | cons first later =>
    rw [List.cons_append]
    dsimp only
    rw [List.flatMap_append, List.append_assoc]
    rfl

theorem allLines_line {line : Bytes} (plain : LF ∉ line) : allLines line = trimEnd line := by
  rw [allLines, List.splitOn_eq_singleton plain]
  simp

theorem unfoldValue_plain {value : Bytes} (plain : LF ∉ value) : unfoldValue value = value := by
  have none : value.findIdx? (· == LF) = none := by
    rw [List.findIdx?_eq_none_iff]
    intro b member
    rw [beq_eq_false_iff_ne]
    rintro rfl
    exact plain member
  rw [unfoldValue, none]

theorem findIdx?_line {first : Bytes} (plain : LF ∉ first) (later : Bytes) :
    (first ++ LF :: later).findIdx? (· == LF) = some first.length := by
  have before : first.findIdx? (· == LF) = none := by
    rw [List.findIdx?_eq_none_iff]
    intro b member
    rw [beq_eq_false_iff_ne]
    rintro rfl
    exact plain member
  rw [List.findIdx?_append, before]
  simp [List.findIdx?_cons]

theorem unfoldLines_line (first later : Bytes) :
    unfoldLines (first ++ LF :: later) first.length = trimEnd first ++ laterLines later := by
  simp [unfoldLines, laterLines]

theorem unfoldValue_folded {value : Bytes} (folded : LF ∈ value) : unfoldValue value = allLines value := by
  obtain ⟨first, later, rfl, plain⟩ := List.eq_append_cons_of_mem folded
  rw [unfoldValue, findIdx?_line plain, allLines_append, allLines_line plain]
  exact unfoldLines_line first later

/-- Every text is its last line, or a line in front of a text. -/
theorem lines_induction {P : Bytes → Prop} (last : ∀ line, LF ∉ line → P line)
    (step : ∀ line rest, LF ∉ line → P rest → P (line ++ LF :: rest)) (text : Bytes) : P text := by
  induction length : text.length using Nat.strong_induction_on generalizing text with
  | _ n ih =>
    by_cases folded : LF ∈ text
    · obtain ⟨line, rest, rfl, plain⟩ := List.eq_append_cons_of_mem folded
      refine step line rest plain (ih rest.length ?_ rest rfl)
      simp only [List.length_append, List.length_cons] at length
      omega
    · exact last text folded

/-! ### White space -/

theorem content_append (a b : Bytes) : content (a ++ b) = content a ++ content b := List.filter_append ..

theorem content_blank {text : Bytes} (blank : text.all isAsciiWhitespace = true) : content text = [] := by
  rw [content, List.filter_eq_nil_iff]
  intro b member
  simp [List.all_eq_true.mp blank b member]

theorem trimStart_split (text : Bytes) : ∃ front, text = front ++ trimStart text ∧ front.all isAsciiWhitespace = true :=
  ⟨text.takeWhile isAsciiWhitespace, List.takeWhile_append_dropWhile.symm,
    List.all_eq_true.mpr fun _ member => List.mem_takeWhile_imp member⟩

theorem trimEnd_split (text : Bytes) : ∃ back, text = trimEnd text ++ back ∧ back.all isAsciiWhitespace = true :=
  ⟨text.rtakeWhile isAsciiWhitespace, (List.rdropWhile_append_rtakeWhile ..).symm,
    List.all_eq_true.mpr fun _ member => List.mem_rtakeWhile_imp member⟩

theorem content_trimStart (text : Bytes) : content (trimStart text) = content text := by
  obtain ⟨front, split, blank⟩ := trimStart_split text
  conv_rhs => rw [split, content_append, content_blank blank, List.nil_append]

theorem content_trimEnd (text : Bytes) : content (trimEnd text) = content text := by
  obtain ⟨back, split, blank⟩ := trimEnd_split text
  conv_rhs => rw [split, content_append, content_blank blank, List.append_nil]

theorem trimStart_length (text : Bytes) : (trimStart text).length ≤ text.length :=
  (List.dropWhile_suffix _).length_le

theorem trimEnd_length (text : Bytes) : (trimEnd text).length ≤ text.length := (List.rdropWhile_prefix _ _).length_le

theorem trimStart_blank {front rest : Bytes} (blank : front.all isAsciiWhitespace = true) :
    trimStart (front ++ rest) = trimStart rest := by
  rw [trimStart, List.dropWhile_append, List.dropWhile_eq_nil_iff.mpr (List.all_eq_true.mp blank)]
  rfl

theorem trimEnd_blank {rest back : Bytes} (blank : back.all isAsciiWhitespace = true) :
    trimEnd (rest ++ back) = trimEnd rest := by
  have reversed : ∀ b ∈ back.reverse, isAsciiWhitespace b = true := by
    intro b member
    exact List.all_eq_true.mp blank b (List.mem_reverse.mp member)
  rw [trimEnd, List.rdropWhile, List.reverse_append, List.dropWhile_append, List.dropWhile_eq_nil_iff.mpr reversed]
  rfl

theorem trimEnd_white {blank : Bytes} (white : blank.all isAsciiWhitespace = true) : trimEnd blank = [] := by
  have whole : trimEnd ([] ++ blank) = trimEnd [] := trimEnd_blank white
  exact whole

theorem trimStart_full {x : UInt8} (full : isAsciiWhitespace x = false) (front rest : Bytes) :
    trimStart (front ++ x :: rest) = trimStart front ++ x :: rest := by
  rw [trimStart, List.dropWhile_append]
  split
  · next empty =>
    rw [List.isEmpty_iff] at empty
    rw [trimStart, empty, List.dropWhile_cons_of_neg (by simp [full])]
    rfl
  · rfl

theorem trimEnd_full {x : UInt8} (full : isAsciiWhitespace x = false) (rest back : Bytes) :
    trimEnd (rest ++ x :: back) = rest ++ x :: trimEnd back := by
  have reversed : (rest ++ x :: back).reverse = back.reverse ++ x :: rest.reverse := by simp
  have flipped := trimStart_full full back.reverse rest.reverse
  unfold trimStart at flipped
  rw [trimEnd, List.rdropWhile, reversed, flipped]
  simp [trimEnd, List.rdropWhile]

/-! ### Length and content -/

theorem laterLines_length (text : Bytes) : (laterLines text).length ≤ text.length + 1 := by
  induction text using lines_induction with
  | last line plain =>
    have trimmed := (trimStart_length (trimEnd line)).trans (trimEnd_length line)
    rw [laterLines_line plain, List.length_cons]
    omega
  | step line rest plain ih =>
    have trimmed := (trimStart_length (trimEnd line)).trans (trimEnd_length line)
    rw [laterLines_append, laterLines_line plain]
    simp only [List.length_append, List.length_cons]
    omega

theorem unfoldValue_length (value : Bytes) : (unfoldValue value).length ≤ value.length := by
  by_cases folded : LF ∈ value
  · obtain ⟨first, later, rfl, plain⟩ := List.eq_append_cons_of_mem folded
    have trimmed := trimEnd_length first
    have written := laterLines_length later
    rw [unfoldValue_folded folded, allLines_append, allLines_line plain]
    simp only [List.length_append, List.length_cons]
    omega
  · rw [unfoldValue_plain folded]

theorem content_laterLines (text : Bytes) : content (laterLines text) = content text := by
  have space (rest : Bytes) : content (SP :: rest) = content rest := rfl
  induction text using lines_induction with
  | last line plain => rw [laterLines_line plain, space, content_trimStart, content_trimEnd]
  | step line rest plain ih =>
    have lineEnd : content (LF :: rest) = content rest := rfl
    rw [laterLines_append, laterLines_line plain, content_append, content_append, space, content_trimStart,
      content_trimEnd, ih, lineEnd]

theorem content_unfoldValue (value : Bytes) : content (unfoldValue value) = content value := by
  by_cases folded : LF ∈ value
  · obtain ⟨first, later, rfl, plain⟩ := List.eq_append_cons_of_mem folded
    have lineEnd : content (LF :: later) = content later := rfl
    rw [unfoldValue_folded folded, allLines_append, allLines_line plain, content_append, content_append,
      content_trimEnd, content_laterLines, lineEnd]
  · rw [unfoldValue_plain folded]

/-! ### Line ends -/

theorem CrBeforeLf.later {line rest : Bytes} (ends : CrBeforeLf (line ++ LF :: rest)) : CrBeforeLf rest := by
  intro before after split
  apply ends (line ++ LF :: before) after
  rw [split]
  simp

/-- A carriage return ends a line, and goes with the white space there. -/
theorem CrBeforeLf.cr_not_mem {line rest : Bytes} (ends : CrBeforeLf (line ++ rest)) (plain : LF ∉ line) :
    CR ∉ trimEnd line := by
  intro member
  obtain ⟨back, split, -⟩ := trimEnd_split line
  obtain ⟨before, after, found⟩ := List.append_of_mem member
  have follows := ends before (after ++ back ++ rest) (by
    conv_lhs => rw [split, found]
    simp)
  cases after with
  | nil =>
    have nonempty : trimEnd line ≠ [] := List.ne_nil_of_mem member
    have last := List.rdropWhile_last_not isAsciiWhitespace line nonempty
    have final : (trimEnd line).getLast nonempty = CR := by simp [found]
    apply last
    show isAsciiWhitespace ((trimEnd line).getLast nonempty) = true
    rw [final]
    rfl
  | cons b after =>
    rw [List.cons_append, List.cons_append, List.head?_cons, Option.some.injEq] at follows
    apply plain
    rw [split, found, follows]
    simp

theorem mem_trimEnd {b : UInt8} {line : Bytes} (member : b ∈ trimEnd line) : b ∈ line :=
  (List.rdropWhile_prefix isAsciiWhitespace line).subset member

theorem mem_trimStart {b : UInt8} {line : Bytes} (member : b ∈ trimStart line) : b ∈ line :=
  (List.dropWhile_suffix isAsciiWhitespace).subset member

/-- No line end is in the text. -/
def OneLine (text : Bytes) : Prop := CR ∉ text ∧ LF ∉ text

theorem OneLine.append {a b : Bytes} (left : OneLine a) (right : OneLine b) : OneLine (a ++ b) := by
  refine ⟨?_, ?_⟩
  · rw [List.mem_append]
    exact not_or.mpr ⟨left.1, right.1⟩
  · rw [List.mem_append]
    exact not_or.mpr ⟨left.2, right.2⟩

theorem oneLine_trimEnd {line rest : Bytes} (ends : CrBeforeLf (line ++ rest)) (plain : LF ∉ line) :
    OneLine (trimEnd line) := ⟨ends.cr_not_mem plain, fun member => plain (mem_trimEnd member)⟩

theorem oneLine_line {line rest : Bytes} (ends : CrBeforeLf (line ++ rest)) (plain : LF ∉ line) :
    OneLine (laterLines line) := by
  obtain ⟨noCr, noLf⟩ := oneLine_trimEnd ends plain
  have space : OneLine [SP] := by
    unfold OneLine
    decide
  rw [laterLines_line plain]
  exact space.append ⟨fun member => noCr (mem_trimStart member), fun member => noLf (mem_trimStart member)⟩

theorem CrBeforeLf.laterLines {text : Bytes} (ends : CrBeforeLf text) : OneLine (laterLines text) := by
  induction text using lines_induction with
  | last line plain => exact oneLine_line (by rwa [List.append_nil]) plain
  | step line rest plain ih =>
    rw [laterLines_append]
    exact (oneLine_line ends plain).append (ih ends.later)

theorem CrBeforeLf.unfoldValue {value : Bytes} (ends : CrBeforeLf value) : OneLine (unfoldValue value) := by
  by_cases folded : LF ∈ value
  · rw [unfoldValue_folded folded]
    obtain ⟨first, later, rfl, plain⟩ := List.eq_append_cons_of_mem folded
    rw [allLines_append, allLines_line plain]
    exact (oneLine_trimEnd ends plain).append ends.later.laterLines
  · rw [unfoldValue_plain folded]
    refine ⟨?_, folded⟩
    intro member
    obtain ⟨before, after, split⟩ := List.append_of_mem member
    have follows := ends before after split
    apply folded
    rw [split]
    cases after with
    | nil => cases follows
    | cons b after =>
      rw [List.head?_cons, Option.some.injEq] at follows
      simp [follows]

/-! ### Folds -/

/-- A text that ends in `x` and blanks is written up to `x`. -/
theorem laterLines_last {x : UInt8} (full : isAsciiWhitespace x = false) {blank : Bytes}
    (white : blank.all isAsciiWhitespace = true) (plain : LF ∉ blank) (text : Bytes) :
    ∃ front, laterLines (text ++ x :: blank) = front ++ [x] ∧ content front = content text := by
  have notLf : LF ≠ x := by
    rintro rfl
    cases full
  induction text using lines_induction with
  | last line alone =>
    have single : LF ∉ line ++ x :: blank := by simp [alone, notLf, plain]
    refine ⟨SP :: trimStart line, ?_, ?_⟩
    · rw [laterLines_line single, trimEnd_full full, trimEnd_white white, trimStart_full full]
      rfl
    · exact content_trimStart line
  | step line rest alone ih =>
    obtain ⟨front, written, same⟩ := ih
    refine ⟨laterLines line ++ front, ?_, ?_⟩
    · rw [List.append_assoc, List.cons_append, laterLines_append, written, List.append_assoc]
    · have lineEnd : content (LF :: rest) = content rest := rfl
      rw [content_append, content_append, content_laterLines, same, lineEnd]

theorem allLines_last {x : UInt8} (full : isAsciiWhitespace x = false) {blank : Bytes}
    (white : blank.all isAsciiWhitespace = true) (plain : LF ∉ blank) (text : Bytes) :
    ∃ front, allLines (text ++ x :: blank) = front ++ [x] ∧ content front = content text := by
  have notLf : LF ≠ x := by
    rintro rfl
    cases full
  by_cases folded : LF ∈ text
  · obtain ⟨first, later, rfl, alone⟩ := List.eq_append_cons_of_mem folded
    obtain ⟨front, written, same⟩ := laterLines_last full white plain later
    refine ⟨trimEnd first ++ front, ?_, ?_⟩
    · rw [List.append_assoc, List.cons_append, allLines_append, written, allLines_line alone, List.append_assoc]
    · have lineEnd : content (LF :: later) = content later := rfl
      rw [content_append, content_append, content_trimEnd, same, lineEnd]
  · have single : LF ∉ text ++ x :: blank := by simp [folded, notLf, plain]
    exact ⟨text, by rw [allLines_line single, trimEnd_full full, trimEnd_white white], rfl⟩

/-- A text that starts with blanks and `y` is written from `y` on, behind one space. -/
theorem laterLines_first {y : UInt8} (full : isAsciiWhitespace y = false) {blank : Bytes}
    (white : blank.all isAsciiWhitespace = true) (plain : LF ∉ blank) (text : Bytes) :
    ∃ back, laterLines (blank ++ y :: text) = SP :: y :: back ∧ content back = content text := by
  have notLf : LF ≠ y := by
    rintro rfl
    cases full
  have first {line : Bytes} (alone : LF ∉ line) :
      laterLines (blank ++ y :: line) = SP :: y :: trimEnd line := by
    have single : LF ∉ blank ++ y :: line := by simp [alone, notLf, plain]
    rw [laterLines_line single, trimEnd_full full, trimStart_blank white, trimStart, List.dropWhile_cons_of_neg (by simp [full])]
  by_cases folded : LF ∈ text
  · obtain ⟨line, later, rfl, alone⟩ := List.eq_append_cons_of_mem folded
    refine ⟨trimEnd line ++ laterLines later, ?_, ?_⟩
    · have split : blank ++ y :: (line ++ LF :: later) = (blank ++ y :: line) ++ LF :: later := by simp
      rw [split, laterLines_append, first alone]
      rfl
    · have lineEnd : content (LF :: later) = content later := rfl
      rw [content_append, content_append, content_trimEnd, content_laterLines, lineEnd]
  · exact ⟨trimEnd text, first folded, content_trimEnd text⟩

/-- A fold between two lines with text in them: the last byte of the one, blanks, the line end, blanks, and the first
byte of the other. -/
theorem unfoldValue_fold {x y : UInt8} (fullX : isAsciiWhitespace x = false) (fullY : isAsciiWhitespace y = false)
    {before after : Bytes} (whiteX : before.all isAsciiWhitespace = true) (plainX : LF ∉ before)
    (whiteY : after.all isAsciiWhitespace = true) (plainY : LF ∉ after) (a b : Bytes) :
    ∃ front back, unfoldValue (a ++ x :: (before ++ LF :: (after ++ y :: b))) = front ++ x :: SP :: y :: back ∧
      content front = content a ∧ content back = content b := by
  have folded : LF ∈ a ++ x :: (before ++ LF :: (after ++ y :: b)) := by simp
  have split : a ++ x :: (before ++ LF :: (after ++ y :: b)) = (a ++ x :: before) ++ LF :: (after ++ y :: b) := by simp
  obtain ⟨front, first, sameFront⟩ := allLines_last fullX whiteX plainX a
  obtain ⟨back, second, sameBack⟩ := laterLines_first fullY whiteY plainY b
  refine ⟨front, back, ?_, sameFront, sameBack⟩
  rw [unfoldValue_folded folded, split, allLines_append, first, second]
  simp

/-! ### In place -/

def InBuffer (all : Bytes) (idx : HeaderIndices) : Prop := idx.value.1 ≤ idx.value.2 ∧ idx.value.2 ≤ all.length

/-- Where a byte of the value stands in the buffer. -/
theorem getElem?_slice (all : Bytes) (range : Nat × Nat) (i : Nat) :
    (slice all range)[i]? = if range.1 + i < range.2 then all[range.1 + i]? else none := by
  rw [slice, List.getElem?_drop, List.getElem?_take]

theorem slice_length {all : Bytes} {idx : HeaderIndices} (inside : InBuffer all idx) :
    (slice all idx.value).length = idx.value.2 - idx.value.1 := by
  obtain ⟨-, fits⟩ := inside
  rw [slice, List.length_drop, List.length_take]
  omega

theorem slice_congr {a b : Bytes} {range : Nat × Nat} (same : ∀ i, range.1 ≤ i → i < range.2 → a[i]? = b[i]?) :
    slice a range = slice b range := by
  apply List.ext_getElem?
  intro i
  rw [getElem?_slice, getElem?_slice]
  split
  · next within => exact same _ (Nat.le_add_right _ _) within
  · rfl

def newRange (all : Bytes) (idx : HeaderIndices) : Nat × Nat :=
  (idx.value.1, idx.value.1 + (unfoldValue (slice all idx.value)).length)

theorem splice_slice {all : Bytes} {idx : HeaderIndices} (inside : InBuffer all idx) :
    all.take idx.value.1 ++ slice all idx.value ++ all.drop idx.value.2 = all := by
  obtain ⟨order, -⟩ := inside
  have front : (all.take idx.value.2).take idx.value.1 = all.take idx.value.1 := by
    rw [List.take_take, Nat.min_eq_left order]
  rw [slice, ← front, List.take_append_drop, List.take_append_drop]

theorem obsFoldLine_eq {all : Bytes} {idx : HeaderIndices} (inside : InBuffer all idx) :
    obsFoldLine all idx =
      (all.take idx.value.1 ++ unfoldValue (slice all idx.value) ++ all.drop (newRange all idx).2,
        { idx with value := newRange all idx }) := by
  unfold newRange unfoldValue
  cases first : (slice all idx.value).findIdx? (· == LF) with
  | none =>
    have stop : idx.value.1 + (slice all idx.value).length = idx.value.2 := by
      have order := inside.1
      rw [slice_length inside]
      omega
    have same : obsFoldLine all idx = (all, idx) := by
      rw [slice] at first
      rw [obsFoldLine, first]
    dsimp only
    rw [same, stop, splice_slice inside]
  | some firstNl =>
    have same := first
    rw [slice] at same
    rw [obsFoldLine, same]
    rfl

theorem newRange_le {all : Bytes} {idx : HeaderIndices} (inside : InBuffer all idx) :
    (newRange all idx).2 ≤ idx.value.2 := by
  have order := inside.1
  have shorter := unfoldValue_length (slice all idx.value)
  rw [slice_length inside] at shorter
  unfold newRange
  omega

/-- The buffer after the call, byte by byte. -/
theorem getElem?_obsFoldLine {all : Bytes} {idx : HeaderIndices} (inside : InBuffer all idx) (i : Nat) :
    (obsFoldLine all idx).1[i]? =
      if idx.value.1 ≤ i ∧ i < (newRange all idx).2 then (unfoldValue (slice all idx.value))[i - idx.value.1]?
      else all[i]? := by
  have start : (all.take idx.value.1).length = idx.value.1 := by
    rw [List.length_take]
    exact Nat.min_eq_left (inside.1.trans inside.2)
  rw [obsFoldLine_eq inside]
  dsimp only
  rw [List.append_assoc, List.getElem?_append, start]
  by_cases early : i < idx.value.1
  · rw [if_pos early, if_neg (by omega), List.getElem?_take, if_pos early]
  · rw [if_neg early, List.getElem?_append, List.getElem?_drop]
    by_cases within : i - idx.value.1 < (unfoldValue (slice all idx.value)).length
    · rw [if_pos within, if_pos]
      unfold newRange
      dsimp only
      omega
    · have reach : (newRange all idx).2 + (i - idx.value.1 - (unfoldValue (slice all idx.value)).length) = i := by
        unfold newRange
        dsimp only
        omega
      rw [if_neg within, reach, if_neg]
      unfold newRange
      dsimp only
      omega

theorem obsFoldLine_length {all : Bytes} {idx : HeaderIndices} (inside : InBuffer all idx) :
    (obsFoldLine all idx).1.length = all.length := by
  have shorter := newRange_le inside
  obtain ⟨order, fits⟩ := inside
  rw [obsFoldLine_eq ⟨order, fits⟩]
  simp only [List.length_append, List.length_take, List.length_drop]
  unfold newRange at shorter ⊢
  dsimp only at shorter ⊢
  omega

theorem slice_obsFoldLine {all : Bytes} {idx : HeaderIndices} (inside : InBuffer all idx) :
    slice (obsFoldLine all idx).1 (obsFoldLine all idx).2.value = unfoldValue (slice all idx.value) := by
  have range : (obsFoldLine all idx).2.value = newRange all idx := by rw [obsFoldLine_eq inside]
  rw [range]
  apply List.ext_getElem?
  intro i
  have start : (newRange all idx).1 = idx.value.1 := rfl
  have stop : (newRange all idx).2 = idx.value.1 + (unfoldValue (slice all idx.value)).length := rfl
  rw [getElem?_slice, getElem?_obsFoldLine inside, start]
  split
  · next within => rw [if_pos ⟨Nat.le_add_right _ _, within⟩, Nat.add_sub_cancel_left]
  · next beyond => rw [List.getElem?_eq_none (by omega)]

/-- What a call does to a value that stands in the buffer. -/
structure Unfolds (all : Bytes) (idx : HeaderIndices) (all' : Bytes) (idx' : HeaderIndices) : Prop where
  /-- The ranges that the call takes of the value are in it. -/
  inRange : ∀ firstNl, (slice all idx.value).findIdx? (· == LF) = some firstNl →
    firstNl + 1 ≤ (slice all idx.value).length ∧
    (unfoldLines (slice all idx.value) firstNl).length ≤ (slice all idx.value).length
  length : all'.length = all.length
  outside : ∀ i, i < idx.value.1 ∨ idx.value.2 ≤ i → all'[i]? = all[i]?
  name : idx'.name = idx.name
  start : idx'.value.1 = idx.value.1
  stop : idx'.value.1 ≤ idx'.value.2 ∧ idx'.value.2 ≤ idx.value.2
  oneLine : OneLine (slice all' idx'.value)
  content : content (slice all' idx'.value) = content (slice all idx.value)
  plain : LF ∉ slice all idx.value → slice all' idx'.value = slice all idx.value
  /-- A fold between lines with text in them is one space. -/
  folds : ∀ a x before after y b, slice all idx.value = a ++ x :: (before ++ LF :: (after ++ y :: b)) →
    isAsciiWhitespace x = false → before.all isAsciiWhitespace = true → LF ∉ before →
    isAsciiWhitespace y = false → after.all isAsciiWhitespace = true → LF ∉ after →
    ∃ front back, slice all' idx'.value = front ++ x :: SP :: y :: back ∧
      Http1.content front = Http1.content a ∧ Http1.content back = Http1.content b

theorem obsFoldLine_unfolds {all : Bytes} {idx : HeaderIndices} (inside : InBuffer all idx)
    (ends : CrBeforeLf (slice all idx.value)) : Unfolds all idx (obsFoldLine all idx).1 (obsFoldLine all idx).2 := by
  have range : (obsFoldLine all idx).2 = { idx with value := newRange all idx } := by rw [obsFoldLine_eq inside]
  have value := slice_obsFoldLine inside
  refine ⟨?_, obsFoldLine_length inside, ?_, ?_, ?_, ?_, ?_, ?_, ?_, ?_⟩
  · intro firstNl first
    have shorter := unfoldValue_length (slice all idx.value)
    rw [unfoldValue, first] at shorter
    obtain ⟨within, -⟩ := List.findIdx?_eq_some_iff_getElem.mp first
    exact ⟨within, shorter⟩
  · intro i apart
    have shorter := newRange_le inside
    rw [getElem?_obsFoldLine inside, if_neg (by omega)]
  · rw [range]
  · rw [range]
    rfl
  · rw [range]
    exact ⟨Nat.le_add_right _ _, newRange_le inside⟩
  · rw [value]
    exact ends.unfoldValue
  · rw [value]
    exact content_unfoldValue _
  · intro plain
    rw [value]
    exact unfoldValue_plain plain
  · intro a x before after y b split fullX whiteX plainX fullY whiteY plainY
    rw [value, split]
    exact unfoldValue_fold fullX fullY whiteX plainX whiteY plainY a b

/-! ### All values of a head -/

/-- No byte is in both values. -/
def Apart (a b : HeaderIndices) : Prop :=
  ∀ i, a.value.1 ≤ i → i < a.value.2 → i < b.value.1 ∨ b.value.2 ≤ i

/-- A call does not touch a value that stands apart. -/
theorem slice_apart {all : Bytes} {idx other : HeaderIndices} (inside : InBuffer all idx) (apart : Apart idx other) :
    slice (obsFoldLine all idx).1 other.value = slice all other.value := by
  apply slice_congr
  intro i after before
  have shorter := newRange_le inside
  have elsewhere := apart i
  rw [getElem?_obsFoldLine inside, if_neg (by omega)]

theorem range_apart {all : Bytes} {idx other : HeaderIndices} (inside : InBuffer all idx) (other_ : InBuffer all other)
    (apart : Apart idx other) :
    (obsFoldLine (obsFoldLine all idx).1 other).2 = (obsFoldLine all other).2 := by
  have kept : InBuffer (obsFoldLine all idx).1 other := by
    rw [InBuffer, obsFoldLine_length inside]
    exact other_
  rw [obsFoldLine_eq kept, obsFoldLine_eq other_, newRange, newRange, slice_apart inside apart]

/-- After all calls, every value is what a call for it alone makes of it. -/
theorem obsFoldAll_spec {all : Bytes} {indices : List HeaderIndices} (inside : ∀ idx ∈ indices, InBuffer all idx)
    (apart : indices.Pairwise Apart) :
    (obsFoldAll all indices).2 = indices.map (fun idx => (obsFoldLine all idx).2) ∧
    (∀ i, (∀ idx ∈ indices, i < idx.value.1 ∨ idx.value.2 ≤ i) → (obsFoldAll all indices).1[i]? = all[i]?) ∧
    ∀ idx ∈ indices, slice (obsFoldAll all indices).1 (obsFoldLine all idx).2.value =
      slice (obsFoldLine all idx).1 (obsFoldLine all idx).2.value := by
  induction indices generalizing all with
  | nil => exact ⟨rfl, fun _ _ => rfl, fun _ member => absurd member List.not_mem_nil⟩
  | cons idx indices ih =>
    obtain ⟨here, later⟩ := List.forall_mem_cons.mp inside
    obtain ⟨alone, rest⟩ := List.pairwise_cons.mp apart
    have kept : ∀ other ∈ indices, InBuffer (obsFoldLine all idx).1 other := by
      intro other member
      rw [InBuffer, obsFoldLine_length here]
      exact later other member
    obtain ⟨ranges, outside, values⟩ := ih kept rest
    have whole : obsFoldAll all (idx :: indices) =
        ((obsFoldAll (obsFoldLine all idx).1 indices).1,
          (obsFoldLine all idx).2 :: (obsFoldAll (obsFoldLine all idx).1 indices).2) := rfl
    rw [whole]
    dsimp only
    have shorter := newRange_le here
    refine ⟨?_, ?_, ?_⟩
    · rw [ranges, List.map_cons, List.map_congr_left]
      intro other member
      exact range_apart here (later other member) (alone other member)
    · intro i away
      obtain ⟨first, others⟩ := List.forall_mem_cons.mp away
      rw [outside i others, getElem?_obsFoldLine here, if_neg (by omega)]
    · intro other member
      rcases List.mem_cons.mp member with rfl | member
      · apply slice_congr
        intro i after before
        apply outside
        intro next member
        rw [obsFoldLine_eq here] at after before
        exact alone next member i after (Nat.lt_of_lt_of_le before shorter)
      · rw [← range_apart here (later other member) (alone other member), values other member,
          slice_obsFoldLine (kept other member), range_apart here (later other member) (alone other member),
          slice_obsFoldLine (later other member), slice_apart here (alone other member)]

/-- Every value of a head is unfolded in place, and independently of the others. -/
theorem obsFoldAll_unfolds {all : Bytes} {indices : List HeaderIndices} (inside : ∀ idx ∈ indices, InBuffer all idx)
    (ends : ∀ idx ∈ indices, CrBeforeLf (slice all idx.value)) (apart : indices.Pairwise Apart) :
    (∀ idx ∈ indices, Unfolds all idx (obsFoldLine all idx).1 (obsFoldLine all idx).2) ∧
    (obsFoldAll all indices).2 = indices.map (fun idx => (obsFoldLine all idx).2) ∧
    (∀ i, (∀ idx ∈ indices, i < idx.value.1 ∨ idx.value.2 ≤ i) → (obsFoldAll all indices).1[i]? = all[i]?) ∧
    ∀ idx ∈ indices, slice (obsFoldAll all indices).1 (obsFoldLine all idx).2.value =
      slice (obsFoldLine all idx).1 (obsFoldLine all idx).2.value :=
  ⟨fun idx member => obsFoldLine_unfolds (inside idx member) (ends idx member), obsFoldAll_spec inside apart⟩

theorem crBeforeLf_iff (text : Bytes) :
    CrBeforeLf text ↔ ∀ i < text.length, text[i]? = some CR → text[i + 1]? = some LF := by
  constructor
  · intro ends i within cr
    have here := (List.getElem?_eq_some_iff.mp cr).2
    have split : text = text.take i ++ CR :: text.drop (i + 1) := by
      rw [← here, ← List.drop_eq_getElem_cons within, List.take_append_drop]
    have follows := ends _ _ split
    rwa [List.head?_drop] at follows
  · rintro all before after rfl
    have follows := all before.length (by simp) (by simp)
    rw [List.getElem?_append_right (by omega)] at follows
    simpa [List.head?_eq_getElem?] using follows

instance (text : Bytes) : Decidable (CrBeforeLf text) := decidable_of_iff _ (crBeforeLf_iff text).symm

/-- A head with a folded value and a plain one. -/
def foldedHead : Bytes := ascii "a: x\r\n  y\r\nb: z\r\n"

def foldedIndices : List HeaderIndices := [⟨(0, 1), (3, 9)⟩, ⟨(11, 12), (14, 15)⟩]

theorem obsFoldAll_unfolds_foldedHead :
    (∀ idx ∈ foldedIndices, Unfolds foldedHead idx (obsFoldLine foldedHead idx).1 (obsFoldLine foldedHead idx).2) ∧
    (obsFoldAll foldedHead foldedIndices).2 = [⟨(0, 1), (3, 6)⟩, ⟨(11, 12), (14, 15)⟩] := by
  have inside : ∀ idx ∈ foldedIndices, InBuffer foldedHead idx := by
    unfold InBuffer
    decide
  have apart : foldedIndices.Pairwise Apart := by
    refine List.pairwise_pair.mpr ?_
    intro i _ before
    exact .inl (Nat.lt_of_lt_of_le before (by decide))
  obtain ⟨unfolds, ranges, -⟩ := obsFoldAll_unfolds inside (by decide) apart
  refine ⟨unfolds, ?_⟩
  rw [ranges]
  decide

end Hwire.Http1
