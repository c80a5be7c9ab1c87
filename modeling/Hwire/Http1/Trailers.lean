import Hwire.Http1.Declared

/-!
# Outgoing trailers

The trailer fields of a request are filtered by the names that its `Trailer` fields have declared and by the names that
may stand in a trailer at all. The filtered fields go through a second map before they are written.
-/

namespace Hwire.Http1
open Lib LawfulBuf

/-! ### Field lines -/

abbrev Field := HeaderName × HeaderValue

def fieldLines (fields : List Field) : Bytes := fields.flatMap fun f => fieldLine f.1.bytes f.2

def valuesOf (name : HeaderName) (fields : List Field) : List HeaderValue :=
  fields.filterMap fun f => if f.1 = name then some f.2 else none

theorem colon_not_mem_name (name : HeaderName) : (58 : UInt8) ∉ name.bytes := by
  intro member
  exact absurd (List.all_eq_true.mp name.valid.2.2 _ member) (by decide)

/-- Two texts that are cut at the same mark, which stands in neither of the first parts. -/
theorem append_mark_inj {mark : UInt8} {a b rest rest' : Bytes} (noneA : mark ∉ a) (noneB : mark ∉ b)
    (same : a ++ mark :: rest = b ++ mark :: rest') : a = b ∧ rest = rest' := by
  induction a generalizing b with
  | nil =>
    cases b with
    | nil => exact ⟨rfl, (List.cons.inj same).2⟩
    | cons y b => exact absurd ((List.cons.inj same).1 ▸ List.mem_cons_self) noneB
  | cons x a ih =>
    cases b with
    | nil => exact absurd ((List.cons.inj same).1 ▸ List.mem_cons_self) noneA
    | cons y b =>
      obtain ⟨rfl, tail⟩ := List.cons.inj same
      obtain ⟨rfl, rest⟩ := ih (List.not_mem_of_not_mem_cons noneA) (List.not_mem_of_not_mem_cons noneB) tail
      exact ⟨rfl, rest⟩

theorem fieldLine_eq (f : Field) (rest : Bytes) :
    fieldLine f.1.bytes f.2 ++ rest = f.1.bytes ++ 58 :: ([SP] ++ (f.2.bytes ++ CR :: ([LF] ++ rest))) := by
  have separator : ascii ": " = 58 :: [SP] := by decide
  simp [fieldLine, separator, crlf]

/-- The first line of a text can be read back. -/
theorem fieldLine_inj {f g : Field} {rest rest' : Bytes}
    (same : fieldLine f.1.bytes f.2 ++ rest = fieldLine g.1.bytes g.2 ++ rest') : f = g ∧ rest = rest' := by
  rw [fieldLine_eq, fieldLine_eq] at same
  obtain ⟨name, same⟩ := append_mark_inj (colon_not_mem_name _) (colon_not_mem_name _) same
  rw [List.append_cancel_left_eq] at same
  obtain ⟨value, same⟩ := append_mark_inj (cr_not_mem_value _) (cr_not_mem_value _) same
  rw [List.append_cancel_left_eq] at same
  refine ⟨Prod.ext ?_ ?_, same⟩
  · obtain ⟨⟨_, _⟩, _⟩ := f
    obtain ⟨⟨_, _⟩, _⟩ := g
    cases name
    rfl
  · obtain ⟨_, ⟨_, _⟩⟩ := f
    obtain ⟨_, ⟨_, _⟩⟩ := g
    cases value
    rfl

theorem fieldLine_ne_nil (f : Field) : fieldLine f.1.bytes f.2 ≠ [] := by
  unfold fieldLine
  exact List.append_ne_nil_of_right_ne_nil _ (show crlf ≠ [] by decide)

/-- A text of field lines has one reading. -/
theorem fieldLines_inj {fields others : List Field} (same : fieldLines fields = fieldLines others) : fields = others := by
  induction fields generalizing others with
  | nil =>
    cases others with
    | nil => rfl
    | cons g others =>
      have empty := (List.append_eq_nil_iff.mp (same.symm.trans (by rfl))).1
      exact absurd empty (fieldLine_ne_nil g)
  | cons f fields ih =>
    cases others with
    | nil =>
      have empty := (List.append_eq_nil_iff.mp (same.trans (by rfl))).1
      exact absurd empty (fieldLine_ne_nil f)
    | cons g others =>
      obtain ⟨rfl, rest⟩ := fieldLine_inj same
      rw [ih rest]

/-! ### The filter -/

/-- A name that was declared and may stand in a trailer. -/
def MayTrail (declared : List HeaderName) (name : HeaderName) : Prop := name ∈ declared ∧ isValidTrailerField name = true

instance (declared : List HeaderName) (name : HeaderName) : Decidable (MayTrail declared name) :=
  inferInstanceAs (Decidable (_ ∧ _))

namespace Encoder

/-- One round of the loop over the trailers. -/
def keepTrailer (declared : List HeaderName) (out : HeaderMap) (field : Field) : HeaderMap :=
  if MayTrail declared field.1 then out.insert field.1 field.2 else out

theorem allowedTrailers_eq (declared : List HeaderName) (fields : HeaderMap) :
    allowedTrailers declared fields = fields.iter.foldl (keepTrailer declared) .empty := by
  unfold allowedTrailers
  congr 1
  funext out field
  unfold keepTrailer MayTrail
  by_cases named : field.1 ∈ declared
  · by_cases valid : isValidTrailerField field.1 = true
    · simp [named, valid]
    · simp [named, valid]
  · simp [named]

/-- `insert` replaces, so the loop leaves the last value of every name. -/
theorem getAll_keepTrailers (declared : List HeaderName) (fields : List Field) (out : HeaderMap) (name : HeaderName) :
    (fields.foldl (keepTrailer declared) out).getAll name =
      match (valuesOf name fields).getLast? with
      | some value => if MayTrail declared name then [value] else out.getAll name
      | none => out.getAll name := by
  induction fields using List.reverseRecOn with
  | nil => rfl
  | append_singleton fields field ih =>
    rw [List.foldl_append, List.foldl_cons, List.foldl_nil, valuesOf, List.filterMap_append]
    by_cases same : field.1 = name
    · subst same
      simp only [List.filterMap_cons, if_true, List.filterMap_nil, List.getLast?_concat]
      by_cases may : MayTrail declared field.1
      · simp [keepTrailer, may]
      · rw [if_neg may, keepTrailer, if_neg may, ih]
        split
        · rw [if_neg may]
        · rfl
    · simp only [List.filterMap_cons, if_neg same, List.filterMap_nil, List.append_nil]
      refine Eq.trans ?_ ih
      unfold keepTrailer
      split
      · rw [MultiMap.getAll_insert, if_neg (Ne.symm same)]
      · rfl

theorem getAll_allowedTrailers (declared : List HeaderName) (fields : HeaderMap) (name : HeaderName) :
    (allowedTrailers declared fields).getAll name =
      if MayTrail declared name then (fields.getAll name).getLast?.toList else [] := by
  rw [allowedTrailers_eq, getAll_keepTrailers, valuesOf, fields.filterMap_iter]
  cases (fields.getAll name).getLast? with
  | none => simp
  | some value => simp

theorem iter_eq_nil_iff (m : HeaderMap) : m.iter = [] ↔ ∀ name, m.getAll name = [] := by
  constructor
  · intro empty name
    rw [← m.filterMap_iter, empty]
    rfl
  · intro absent
    by_contra some
    obtain ⟨f, rest, there⟩ := List.exists_cons_of_ne_nil some
    have present := m.filterMap_iter f.1
    rw [absent, there] at present
    simp at present

theorem writeHeaders_eq_nil_iff (m : HeaderMap) : writeHeaders m = [] ↔ m.iter = [] := by
  constructor
  · intro empty
    have none : fieldLines m.iter = fieldLines [] := empty
    exact fieldLines_inj none
  · intro empty
    rw [writeHeaders, empty]
    rfl

/-! ### What is written -/

/-- Every value of every field that may trail stands on one line, and nothing else does. -/
def AllTrail (declared : List HeaderName) (fields : HeaderMap) (lines : List Field) : Prop :=
  ∀ name, valuesOf name lines = if MayTrail declared name then fields.getAll name else []

/-- Trailers that are filtered and not damaged. -/
structure FiltersTrailers (declared : List HeaderName) (fields : HeaderMap) (made : Option (EncodedBuf Bytes)) : Prop where
  none_iff : made = none ↔ ∀ name, MayTrail declared name → fields.getAll name = []
  written : ∀ buf, made = some buf →
    ∃ lines, bytes buf = ascii "0\r\n" ++ fieldLines lines ++ crlf ∧ AllTrail declared fields lines

theorem encodeTrailers_none_iff {e : Encoder} {declared : List HeaderName} (kind : e.kind = .chunked (some declared))
    (fields : HeaderMap) :
    e.encodeTrailers (B := Bytes) fields = none ↔ ∀ name, MayTrail declared name → fields.getAll name = [] := by
  have made : e.encodeTrailers (B := Bytes) fields = none ↔ writeHeaders (allowedTrailers declared fields) = [] := by
    simp only [encodeTrailers, kind]
    split
    · next empty => simp [empty]
    · next some => simp [some]
  rw [made, writeHeaders_eq_nil_iff, iter_eq_nil_iff]
  apply forall_congr'
  intro name
  rw [getAll_allowedTrailers]
  by_cases may : MayTrail declared name
  · simp [may, Option.toList_eq_nil_iff, List.getLast?_eq_none_iff]
  · simp [may]

theorem encodeTrailers_bytes {e : Encoder} {declared : List HeaderName} (kind : e.kind = .chunked (some declared))
    {fields : HeaderMap} {buf : EncodedBuf Bytes} (made : e.encodeTrailers fields = some buf) :
    bytes buf = ascii "0\r\n" ++ fieldLines (allowedTrailers declared fields).iter ++ crlf := by
  simp only [encodeTrailers, kind] at made
  split at made
  · cases made
  · cases made
    rfl

/-- Nothing is lost exactly where no field that may trail has a second value. -/
theorem encodeTrailers_filters_iff {e : Encoder} {declared : List HeaderName} (kind : e.kind = .chunked (some declared))
    (fields : HeaderMap) :
    FiltersTrailers declared fields (e.encodeTrailers fields) ↔
      ∀ name, MayTrail declared name → (fields.getAll name).length ≤ 1 := by
  have none_iff := encodeTrailers_none_iff kind fields
  have kept (name : HeaderName) : valuesOf name (allowedTrailers declared fields).iter =
      if MayTrail declared name then (fields.getAll name).getLast?.toList else [] := by
    rw [valuesOf, MultiMap.filterMap_iter, getAll_allowedTrailers]
  constructor
  · intro filters name may
    cases made : e.encodeTrailers (B := Bytes) fields with
    | none =>
      rw [none_iff.mp made name may]
      exact Nat.zero_le 1
    | some buf =>
      obtain ⟨lines, text, all⟩ := filters.written buf made
      rw [encodeTrailers_bytes kind made, List.append_cancel_right_eq, List.append_cancel_left_eq] at text
      have there := kept name
      rw [fieldLines_inj text, all name, if_pos may, if_pos may] at there
      rw [there]
      cases (fields.getAll name).getLast? with
      | none => exact Nat.zero_le 1
      | some value => exact Nat.le_refl 1
  · intro single
    refine ⟨none_iff, fun buf made => ⟨_, encodeTrailers_bytes kind made, ?_⟩⟩
    intro name
    rw [kept name]
    by_cases may : MayTrail declared name
    · rw [if_pos may, if_pos may]
      have short := single name may
      match values : fields.getAll name with
      | [] => rfl
      | [value] => rfl
      | first :: second :: rest =>
        rw [values, List.length_cons, List.length_cons] at short
        omega
    · rw [if_neg may, if_neg may]

def chunkyTrailers : List HeaderName := [headerName "chunky-trailer", headerName "chunky-trailer-2"]

def chunkyEncoder : Encoder := chunked.intoChunkedWithTrailingFields chunkyTrailers

def chunkyFields : HeaderMap :=
  (MultiMap.empty.append (headerName "chunky-trailer") (.fromStatic "header data")).append
    (headerName "chunky-trailer-2") (.fromStatic "more header data")

theorem encodeTrailers_filters_chunky :
    FiltersTrailers chunkyTrailers chunkyFields (chunkyEncoder.encodeTrailers chunkyFields) := by
  have single : ∀ name ∈ chunkyTrailers, (chunkyFields.getAll name).length ≤ 1 := by decide +kernel
  apply (encodeTrailers_filters_iff rfl chunkyFields).mpr
  intro name may
  exact single name may.1

def twiceFields : HeaderMap :=
  (MultiMap.empty.append (headerName "chunky-trailer") (.fromStatic "one")).append (headerName "chunky-trailer")
    (.fromStatic "two")

/-- The second value takes the place of the first. -/
theorem encodeTrailers_twice :
    (chunkyEncoder.encodeTrailers (B := Bytes) twiceFields).map bytes = some (ascii "0\r\nchunky-trailer: two\r\n\r\n") ∧
      ¬ FiltersTrailers chunkyTrailers twiceFields (chunkyEncoder.encodeTrailers twiceFields) := by
  refine ⟨by decide +kernel, ?_⟩
  intro filters
  cases made : chunkyEncoder.encodeTrailers (B := Bytes) twiceFields with
  | none => exact absurd (congrArg Option.isSome made) (by decide +kernel)
  | some buf =>
    obtain ⟨lines, text, all⟩ := filters.written buf made
    rw [encodeTrailers_bytes rfl made, List.append_cancel_right_eq, List.append_cancel_left_eq] at text
    have values := all (headerName "chunky-trailer")
    rw [← fieldLines_inj text] at values
    exact absurd values (by decide +kernel)

end Encoder

end Hwire.Http1
