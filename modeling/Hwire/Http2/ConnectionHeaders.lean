import Hwire.Http2.Client

/-!
# Connection-specific fields

A request over HTTP/2 carries no field that is meant for one connection. The function that strips such fields looks at
the first value of `Connection` and at the first value of `TE` only.
-/

namespace Hwire.Http2
open Lib Headers

def TRAILERS : Bytes := ascii "trailers"

/-! ### Fields that must not be sent -/

def connectionSpecific : List HeaderName := .connection :: connectionHeaders

/-- A value of visible ASCII lists the name, without regard to case and to white space around it. -/
def Listed (values : List HeaderValue) (name : HeaderName) : Prop :=
  ∃ value ∈ values, value.bytes.all isVisibleAscii = true ∧
    ∃ element ∈ splitComma value.bytes, eqIgnoreAsciiCase (trim element) name.bytes = true

instance (values : List HeaderValue) (name : HeaderName) : Decidable (Listed values name) :=
  inferInstanceAs (Decidable (∃ value ∈ values, _ ∧ ∃ element ∈ _, _))

/-- What a request over HTTP/2 keeps of its fields. -/
structure Stripped (before after : HeaderMap) : Prop where
  specific : ∀ name ∈ connectionSpecific, after.getAll name = []
  listed : ∀ name, Listed (before.getAll .connection) name → after.getAll name = []
  te : ∀ value ∈ after.getAll .te, value.bytes = TRAILERS
  others : ∀ name, name ∉ connectionSpecific → ¬ Listed (before.getAll .connection) name → name ≠ .te →
    after.getAll name = before.getAll name

/-- `TE` whose first value is not `trailers`. -/
def OtherTe (headers : HeaderMap) : Prop := ∃ value, headers.get .te = some value ∧ value.bytes ≠ TRAILERS

/-- The name goes: as a connection field, by the first `Connection` value, or as a `TE` that starts with another
value than `trailers`. -/
def Removed (headers : HeaderMap) (name : HeaderName) : Prop :=
  name ∈ connectionSpecific ∨ Listed (headers.get .connection).toList name ∨ name = .te ∧ OtherTe headers

/-- A field that only a later `Connection` value lists. -/
def OnlyListedLater (headers : HeaderMap) (name : HeaderName) : Prop :=
  headers.contains name = true ∧ Listed (headers.getAll .connection).tail name ∧ ¬ Removed headers name

/-- `TE` with the first value `trailers`, another value after it, and no mention in the first `Connection` value. -/
def MixedTe (headers : HeaderMap) : Prop :=
  (∃ value ∈ headers.getAll .te, value.bytes ≠ TRAILERS) ∧ ¬ Removed headers .te

/-! ### What is stripped -/

/-- The part of the function that looks at `TE`. -/
def stripTe (headers : HeaderMap) : HeaderMap :=
  if (headers.get .te).any fun te => te.bytes != ascii "trailers" then headers.remove .te else headers

theorem stripTe_cases (headers : HeaderMap) (name : HeaderName) :
    (stripTe headers).getAll name = [] ∧ name = .te ∧ OtherTe headers ∨
      (stripTe headers).getAll name = headers.getAll name ∧ ¬ (name = .te ∧ OtherTe headers) := by
  have other : (headers.get .te).any (fun te => te.bytes != ascii "trailers") = true ↔ OtherTe headers := by
    simp [OtherTe, TRAILERS, Option.any_eq_true]
  unfold stripTe
  split
  · next removed =>
    rw [MultiMap.getAll_remove]
    by_cases same : name = .te
    · exact .inl ⟨if_pos same, same, other.mp removed⟩
    · exact .inr ⟨if_neg same, fun both => same both.1⟩
  · next kept => exact .inr ⟨rfl, fun both => kept (other.mpr both.2)⟩

theorem getAll_removeNamed (headers : HeaderMap) (text : Bytes) (name : HeaderName) :
    (removeNamed headers text).getAll name =
      if eqIgnoreAsciiCase text name.bytes = true then [] else headers.getAll name := by
  unfold removeNamed
  cases found : HeaderName.fromBytes text with
  | none =>
    have unspelled : ¬ eqIgnoreAsciiCase text name.bytes = true := by
      rw [← HeaderName.fromBytes_eq_some, found]
      simp
    rw [if_neg unspelled]
    rfl
  | some removed =>
    have spelled : eqIgnoreAsciiCase text name.bytes = true ↔ name = removed := by
      rw [← HeaderName.fromBytes_eq_some, found, Option.some.injEq, eq_comm]
    simp only [Option.elim_some, MultiMap.getAll_remove, spelled]

theorem getAll_removeListed (headers : HeaderMap) (elements : List Bytes) (name : HeaderName) :
    (elements.foldl (fun headers name => removeNamed headers (trim name)) headers).getAll name =
      if ∃ element ∈ elements, eqIgnoreAsciiCase (trim element) name.bytes = true then []
      else headers.getAll name := by
  induction elements generalizing headers with
  | nil => simp
  | cons element elements ih =>
    rw [List.foldl_cons, ih, getAll_removeNamed]
    by_cases same : eqIgnoreAsciiCase (trim element) name.bytes = true
    · simp [same]
    · simp [same]

theorem listed_singleton {value : HeaderValue} {name : HeaderName} :
    Listed [value] name ↔ value.bytes.all isVisibleAscii = true ∧
      ∃ element ∈ splitComma value.bytes, eqIgnoreAsciiCase (trim element) name.bytes = true := by
  simp [Listed]

/-- The part of the function that looks at `Connection`. -/
def stripConnection (headers : HeaderMap) : HeaderMap :=
  match headers.get .connection with
  | some header =>
    match header.toStr with
    | some contents =>
      (splitComma contents).foldl (fun headers name => removeNamed headers (trim name)) (headers.remove .connection)
    | none => headers.remove .connection
  | none => headers

theorem getAll_stripConnection (headers : HeaderMap) (name : HeaderName) :
    (stripConnection headers).getAll name =
      if name = .connection ∨ Listed (headers.get .connection).toList name then [] else headers.getAll name := by
  unfold stripConnection
  cases first : headers.get .connection with
  | none =>
    have absent : headers.getAll .connection = [] := List.head?_eq_none_iff.mp first
    by_cases same : name = .connection
    · simp [same, absent]
    · simp [same, Listed]
  | some header =>
    simp only [Option.toList_some, listed_singleton]
    cases contents : header.toStr with
    | none =>
      have hidden : ¬ header.bytes.all isVisibleAscii = true := by
        intro visible
        simp [HeaderValue.toStr, visible] at contents
      simp [hidden]
    | some s =>
      obtain ⟨visible, rfl⟩ := toStr_eq_some.mp contents
      dsimp only
      rw [getAll_removeListed, MultiMap.getAll_remove]
      by_cases same : name = .connection
      · simp [same]
      · simp only [same, visible, if_false, false_or, true_and]

theorem get_congr {a b : HeaderMap} {name : HeaderName} (same : a.getAll name = b.getAll name) :
    a.get name = b.get name := by
  rw [MultiMap.get, same]
  rfl

theorem stripConnectionHeaders_cases (headers : HeaderMap) (name : HeaderName) :
    (stripConnectionHeaders headers true).getAll name = [] ∧ Removed headers name ∨
      (stripConnectionHeaders headers true).getAll name = headers.getAll name ∧ ¬ Removed headers name := by
  let plain := connectionHeaders.foldl MultiMap.remove headers
  have kept (name : HeaderName) : plain.getAll name = if name ∈ connectionHeaders then [] else headers.getAll name :=
    MultiMap.getAll_foldl_remove _ _ _
  have parts : stripConnectionHeaders headers true = stripConnection (stripTe plain) := by
    rw [stripConnectionHeaders, if_pos rfl]
    rfl
  have connection : (stripTe plain).get .connection = headers.get .connection := by
    apply get_congr
    rcases stripTe_cases plain .connection with ⟨-, other, -⟩ | ⟨same, -⟩
    · exact absurd other (by decide)
    · rw [same, kept, if_neg (by decide)]
  have te : OtherTe plain ↔ OtherTe headers := by
    have same : plain.get .te = headers.get .te := get_congr (by rw [kept, if_neg (by decide)])
    rw [OtherTe, OtherTe, same]
  have whole : (stripConnectionHeaders headers true).getAll name =
      if name = .connection ∨ Listed (headers.get .connection).toList name then [] else (stripTe plain).getAll name := by
    rw [parts, getAll_stripConnection, connection]
  rw [whole]
  unfold Removed connectionSpecific
  rw [List.mem_cons, or_assoc]
  split
  · next gone =>
    refine .inl ⟨rfl, ?_⟩
    tauto
  · next stays =>
    rcases stripTe_cases plain name with ⟨empty, other⟩ | ⟨same, other⟩
    · rw [te] at other
      exact .inl ⟨empty, .inr (.inr (.inr other))⟩
    · rw [same, kept]
      rw [te] at other
      split
      · next specific => exact .inl ⟨rfl, .inr (.inl specific)⟩
      · next specific =>
        refine .inr ⟨rfl, ?_⟩
        tauto

theorem stripConnectionHeaders_removed {headers : HeaderMap} {name : HeaderName} (removed : Removed headers name) :
    (stripConnectionHeaders headers true).getAll name = [] := by
  rcases stripConnectionHeaders_cases headers name with ⟨empty, -⟩ | ⟨-, kept⟩
  · exact empty
  · exact absurd removed kept

theorem stripConnectionHeaders_kept {headers : HeaderMap} {name : HeaderName} (kept : ¬ Removed headers name) :
    (stripConnectionHeaders headers true).getAll name = headers.getAll name := by
  rcases stripConnectionHeaders_cases headers name with ⟨-, removed⟩ | ⟨same, -⟩
  · exact absurd removed kept
  · exact same

theorem listed_split {headers : HeaderMap} {name : HeaderName} :
    Listed (headers.getAll .connection) name ↔
      Listed (headers.get .connection).toList name ∨ Listed (headers.getAll .connection).tail name := by
  unfold MultiMap.get Listed
  cases headers.getAll .connection with
  | nil => simp
  | cons first later => simp

/-- Nothing that is meant for one connection is left, unless a later value of `Connection` or `TE` says what the first
one does not. -/
theorem stripConnectionHeaders_stripped (headers : HeaderMap) :
    Stripped headers (stripConnectionHeaders headers true) ↔
      (∀ name, ¬ OnlyListedLater headers name) ∧ ¬ MixedTe headers := by
  constructor
  · intro stripped
    constructor
    · rintro name ⟨present, later, kept⟩
      have gone := stripped.listed name (listed_split.mpr (.inr later))
      rw [stripConnectionHeaders_kept kept] at gone
      exact (MultiMap.contains_iff _ _).mp present gone
    · rintro ⟨⟨value, member, other⟩, kept⟩
      have same := stripped.te value
      rw [stripConnectionHeaders_kept kept] at same
      exact other (same member)
  · rintro ⟨first, uniform⟩
    refine ⟨?_, ?_, ?_, ?_⟩
    · intro name specific
      exact stripConnectionHeaders_removed (.inl specific)
    · intro name listed
      by_cases removed : Removed headers name
      · exact stripConnectionHeaders_removed removed
      · rw [stripConnectionHeaders_kept removed]
        rcases listed_split.mp listed with now | later
        · exact absurd (.inr (.inl now)) removed
        · rw [← MultiMap.contains_eq_false, ← Bool.not_eq_true]
          intro present
          exact first name ⟨present, later, removed⟩
    · intro value member
      by_cases removed : Removed headers .te
      · rw [stripConnectionHeaders_removed removed] at member
        cases member
      · rw [stripConnectionHeaders_kept removed] at member
        by_contra other
        exact uniform ⟨⟨value, member, other⟩, removed⟩
    · intro name ordinary unlisted notTe
      apply stripConnectionHeaders_kept
      rintro (specific | listed | ⟨te, -⟩)
      · exact ordinary specific
      · exact unlisted (listed_split.mpr (.inl listed))
      · exact notTe te

/-- Two `Connection` fields, where the second one lists the field that stays. -/
def twoConnections : HeaderMap :=
  ((MultiMap.empty.append .connection (.fromStatic "close" close_valid)).append .connection
    (.fromStatic "max-forwards" (by decide))).append .maxForwards (.ofNat 7)

theorem twoConnections_kept : ¬ Stripped twoConnections (stripConnectionHeaders twoConnections true) := by
  intro stripped
  have listed : Listed (twoConnections.getAll .connection) .maxForwards := by decide +kernel
  have gone := stripped.listed .maxForwards listed
  have stays : (stripConnectionHeaders twoConnections true).getAll .maxForwards ≠ [] := by decide +kernel
  exact stays gone

end Hwire.Http2
