import Hwire.Message
import Mathlib.Data.List.DropRight

/-!
# Reading header values

The helpers that decide message framing and keep-alive from header values.
-/

namespace Hwire.Headers
open Lib

def isOws (b : UInt8) : Bool := b == SP || b == HTAB

/-- `str::trim` on visible ASCII, where only space and tab are white space. -/
def trim (s : Bytes) : Bytes := (s.dropWhile isOws).rdropWhile isOws

def splitComma (s : Bytes) : List Bytes := s.splitOn COMMA

def connectionHas (value : HeaderValue) (needle : Bytes) : Bool :=
  match value.toStr with
  | some s => (splitComma s).any fun val => eqIgnoreAsciiCase (trim val) needle
  | none => false

def connectionKeepAlive (value : HeaderValue) : Bool := connectionHas value (ascii "keep-alive")

def connectionClose (value : HeaderValue) : Bool := connectionHas value (ascii "close")

def digitValue (b : UInt8) : Nat := (b - 48).toNat

def fromDigits (bytes : Bytes) : Option Nat :=
  if bytes = [] then none
  else bytes.foldlM (fun result b => if isDigit b then pushDigit 10 (2 ^ 64) result (digitValue b) else none) 0

/-- One comma-separated element. The outer `none` is the early return. -/
def parseElement (contentLength : Option Nat) (v : Bytes) : Option (Option Nat) :=
  match fromDigits (trim v) with
  | some n =>
    match contentLength with
    | none => some (some n)
    | some m => if m = n then some contentLength else none
  | none => none

def parseValue (contentLength : Option Nat) (h : HeaderValue) : Option (Option Nat) :=
  match h.toStr with
  | some line => (splitComma line).foldlM parseElement contentLength
  | none => none

/-- If multiple Content-Length headers were sent, they must all hold the same value and all parse. -/
def contentLengthParseAllValues (values : List HeaderValue) : Option Nat :=
  (values.foldlM parseValue none).join

def contentLengthParseAll (headers : HeaderMap) : Option Nat :=
  contentLengthParseAllValues (headers.getAll .contentLength)

def chunked : Bytes := ascii "chunked"

/-- `chunked` must always be the last encoding, according to spec. -/
def isChunked (encodings : List HeaderValue) : Bool :=
  match encodings.getLast? with
  | some line =>
    match line.toStr with
    | some s =>
      match (splitComma s).getLast? with
      | some encoding => eqIgnoreAsciiCase (trim encoding) chunked
      | none => false
    | none => false
  | none => false

def transferEncodingIsChunked (headers : HeaderMap) : Bool := isChunked (headers.getAll .transferEncoding)

theorem chunked_valid : (ascii "chunked").all isValueByte = true := by decide

theorem close_valid : (ascii "close").all isValueByte = true := by decide

theorem comma_chunked_valid : (ascii ", " ++ chunked).all isValueByte = true := by decide

def withChunked (line : HeaderValue) : HeaderValue where
  bytes := line.bytes ++ (ascii ", " ++ chunked)
  valid := by rw [List.all_append, line.valid, comma_chunked_valid]; rfl

/-- `add_chunked` on the occupied entry of `name` -/
def addChunked (headers : HeaderMap) (name : HeaderName) : HeaderMap :=
  headers.modifyLast name (.fromStatic "chunked" chunked_valid) withChunked

def methodHasDefinedPayloadSemantics (method : Method) : Bool :=
  match method with
  | .get | .head | .delete | .connect | .options => false
  | _ => true

def setContentLengthIfMissing (headers : HeaderMap) (len : Nat) : HeaderMap :=
  if headers.contains .contentLength then headers else headers.insert .contentLength (.ofNat len)

/-! ### Digit strings -/

theorem digitValue_decimalDigit {d : Nat} (h : d < 10) : digitValue (decimalDigit d) = d := by
  interval_cases d <;> decide

theorem fromDigits_go {bytes : Bytes} {acc n : Nat} (h : acc < 2 ^ 64) :
    bytes.foldlM (fun result b => if isDigit b then pushDigit 10 (2 ^ 64) result (digitValue b) else none) acc =
        some n ↔
      bytes.all isDigit = true ∧ readDigits 10 acc (bytes.map digitValue) = n ∧ n < 2 ^ 64 := by
  induction bytes generalizing acc with
  | nil => simp; omega
  | cons b rest ih =>
    simp only [List.foldlM_cons, Option.bind_eq_bind, Option.bind_eq_some_iff, List.all_cons, Bool.and_eq_true,
      List.map_cons, readDigits_cons]
    by_cases hb : isDigit b = true
    · simp only [hb, if_true, pushDigit_eq_some, true_and]
      constructor
      · rintro ⟨w, ⟨rfl, hw⟩, hr⟩
        exact (ih hw).mp hr
      · rintro ⟨hd, rfl, hn⟩
        have grows : acc * 10 + digitValue b ≤ readDigits 10 (acc * 10 + digitValue b) (rest.map digitValue) :=
          le_readDigits (by decide) _ _
        have fits := grows.trans_lt hn
        exact ⟨_, ⟨rfl, fits⟩, (ih fits).mpr ⟨hd, rfl, hn⟩⟩
    · simp [hb]

theorem fromDigits_eq_some {bytes : Bytes} {n : Nat} :
    fromDigits bytes = some n ↔
      bytes ≠ [] ∧ bytes.all isDigit = true ∧ readDigits 10 0 (bytes.map digitValue) = n ∧ n < 2 ^ 64 := by
  unfold fromDigits
  split
  · next h => simp [h]
  · next h => rw [fromDigits_go (by decide)]; simp [h]

theorem fromDigits_decimal {n : Nat} (h : n < 2 ^ 64) : fromDigits (decimal n) = some n := by
  have digits : (decimal n).map digitValue = bigDigits 10 n := by
    rw [decimal, List.map_map]
    conv_rhs => rw [← List.map_id (bigDigits 10 n)]
    exact List.map_congr_left fun d hd => digitValue_decimalDigit (bigDigits_lt (by decide) hd)
  rw [fromDigits_eq_some, digits, readDigits_bigDigits]
  refine ⟨?_, List.all_eq_true.mpr fun b hb => decimal_isDigit hb, rfl, h⟩
  simpa [decimal] using bigDigits_ne_nil n

/-! ### Lists of values -/

def elements (values : List HeaderValue) : List Bytes := values.flatMap fun v => splitComma v.bytes

theorem splitComma_ne_nil (s : Bytes) : splitComma s ≠ [] := List.splitOn_ne_nil _ _

theorem elements_eq_nil {values : List HeaderValue} : elements values = [] ↔ values = [] := by
  cases values with
  | nil => simp [elements]
  | cons v rest => simp [elements, splitComma_ne_nil]

theorem toStr_eq_some {v : HeaderValue} {s : Bytes} :
    v.toStr = some s ↔ v.bytes.all isVisibleAscii = true ∧ s = v.bytes := by
  unfold HeaderValue.toStr
  split
  · next h => simp [h, eq_comm]
  · next h => simp [h]

theorem parseElement_eq_some {acc : Option Nat} {v : Bytes} {r : Option Nat} :
    parseElement acc v = some r ↔ ∃ n, fromDigits (trim v) = some n ∧ r = some n ∧ (acc = none ∨ acc = some n) := by
  unfold parseElement
  cases fromDigits (trim v) with
  | none => simp
  | some n =>
    cases acc with
    | none => simp [eq_comm]
    | some m =>
      by_cases h : m = n
      · simp [h, eq_comm]
      · simp [h]

/-- A run of elements parses when they all hold one number, which is also the number found so far. -/
theorem foldlM_parseElement {vs : List Bytes} {acc r : Option Nat} (ne : vs ≠ []) :
    vs.foldlM parseElement acc = some r ↔
      ∃ n, (∀ v ∈ vs, fromDigits (trim v) = some n) ∧ r = some n ∧ (acc = none ∨ acc = some n) := by
  induction vs generalizing acc with
  | nil => exact absurd rfl ne
  | cons v rest ih =>
    simp only [List.foldlM_cons, Option.bind_eq_bind, Option.bind_eq_some_iff, parseElement_eq_some]
    by_cases hr : rest = []
    · subst hr
      simp only [List.foldlM_nil, Option.pure_def, Option.some.injEq, List.mem_singleton, forall_eq]
      constructor
      · rintro ⟨_, ⟨n, hn, rfl, ha⟩, rfl⟩
        exact ⟨n, hn, rfl, ha⟩
      · rintro ⟨n, hn, rfl, ha⟩
        exact ⟨_, ⟨n, hn, rfl, ha⟩, rfl⟩
    · constructor
      · rintro ⟨_, ⟨n, hn, rfl, ha⟩, h⟩
        obtain ⟨m, hm, rfl, h | h⟩ := (ih hr).mp h
        · exact absurd h (by simp)
        · obtain rfl := Option.some.inj h
          exact ⟨n, by simpa [hn] using hm, rfl, ha⟩
      · rintro ⟨n, hn, rfl, ha⟩
        refine ⟨some n, ⟨n, hn v (by simp), rfl, ha⟩, (ih hr).mpr ⟨n, ?_, rfl, Or.inr rfl⟩⟩
        intro w hw
        exact hn w (List.mem_cons_of_mem _ hw)

theorem parseValue_eq_some {acc r : Option Nat} {h : HeaderValue} :
    parseValue acc h = some r ↔ h.bytes.all isVisibleAscii = true ∧
      ∃ n, (∀ v ∈ splitComma h.bytes, fromDigits (trim v) = some n) ∧ r = some n ∧ (acc = none ∨ acc = some n) := by
  unfold parseValue
  cases hs : h.toStr with
  | none =>
    have : ¬ h.bytes.all isVisibleAscii = true := fun e => by simp [HeaderValue.toStr, e] at hs
    simp [this]
  | some s =>
    obtain ⟨visible, rfl⟩ := toStr_eq_some.mp hs
    simp only [visible, true_and]
    exact foldlM_parseElement (splitComma_ne_nil _)

theorem foldlM_parseValue {values : List HeaderValue} {acc r : Option Nat} (ne : values ≠ []) :
    values.foldlM parseValue acc = some r ↔
      (∀ h ∈ values, h.bytes.all isVisibleAscii = true) ∧
      ∃ n, (∀ v ∈ elements values, fromDigits (trim v) = some n) ∧ r = some n ∧ (acc = none ∨ acc = some n) := by
  induction values generalizing acc with
  | nil => exact absurd rfl ne
  | cons h rest ih =>
    simp only [List.foldlM_cons, Option.bind_eq_bind, Option.bind_eq_some_iff, parseValue_eq_some]
    by_cases hr : rest = []
    · subst hr
      simp only [List.foldlM_nil, Option.pure_def, Option.some.injEq, List.mem_singleton, forall_eq, elements,
        List.flatMap_cons, List.flatMap_nil, List.append_nil]
      constructor
      · rintro ⟨_, p, rfl⟩
        exact p
      · intro p
        exact ⟨_, p, rfl⟩
    · constructor
      · rintro ⟨_, ⟨vis, n, hn, rfl, ha⟩, h⟩
        obtain ⟨visRest, m, hm, rfl, h | h⟩ := (ih hr).mp h
        · exact absurd h (by simp)
        · obtain rfl := Option.some.inj h
          refine ⟨List.forall_mem_cons.mpr ⟨vis, visRest⟩, n, ?_, rfl, ha⟩
          intro v hv
          rcases List.mem_append.mp hv with hv | hv
          · exact hn v hv
          · exact hm v hv
      · rintro ⟨vis, n, hn, rfl, ha⟩
        refine ⟨some n, ⟨vis h (by simp), n, ?_, rfl, ha⟩, (ih hr).mpr ⟨?_, n, ?_, rfl, Or.inr rfl⟩⟩
        · intro v hv
          exact hn v (List.mem_append_left _ hv)
        · intro w hw
          exact vis w (List.mem_cons_of_mem _ hw)
        · intro v hv
          exact hn v (List.mem_append_right _ hv)

/-- All values parse to `n`: at least one value, visible ASCII, every element a digit string of value `n`. -/
theorem contentLengthParseAllValues_eq_some {values : List HeaderValue} {n : Nat} :
    contentLengthParseAllValues values = some n ↔
      values ≠ [] ∧ (∀ h ∈ values, h.bytes.all isVisibleAscii = true) ∧
      ∀ v ∈ elements values, fromDigits (trim v) = some n := by
  unfold contentLengthParseAllValues
  by_cases ne : values = []
  · subst ne; simp
  · simp only [Option.join_eq_some_iff, foldlM_parseValue ne, ne_eq, ne, not_false_eq_true, true_and]
    constructor
    · rintro ⟨vis, m, hm, h, -⟩
      obtain rfl := Option.some.inj h
      exact ⟨vis, hm⟩
    · rintro ⟨vis, hn⟩
      exact ⟨vis, n, hn, rfl, Or.inl trivial⟩

end Hwire.Headers
