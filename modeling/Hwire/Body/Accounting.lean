import Hwire.Body.Delivery

/-!
# What is left of a body

A body counts down its length with every frame that it returns. What it has returned and what is on its way are the bytes
that the sender has put into the channel, unless the user has given up.
-/

namespace Hwire.Body
open Lib Http1

theorem framesData_shown (frames : List Frame) : framesData (shown frames) = framesData frames := by
  induction frames with
  | nil => rfl
  | cons frame frames ih =>
    have one : framesData (shown [frame]) = framesData [frame] := by
      by_cases empty : frame = .data []
      · subst empty
        rfl
      · simp [shown, empty]
    rw [← List.singleton_append, shown_append, framesData_append, framesData_append, one, ih]

theorem framesData_isPrefix {frames more : List Frame} (h : frames <+: more) : framesData frames <+: framesData more := by
  obtain ⟨rest, rfl⟩ := h
  rw [framesData_append]
  exact List.prefix_append _ _

/-- The bytes of the data frames. -/
def dataOf (stream : List (Except Error Frame)) : Bytes := framesData (stream.filterMap Except.toOption)

theorem dataOf_append (stream more : List (Except Error Frame)) : dataOf (stream ++ more) = dataOf stream ++ dataOf more := by
  rw [dataOf, List.filterMap_append, framesData_append]
  rfl

theorem dataOf_ok (frames : List Frame) : dataOf (frames.map .ok) = framesData frames := by
  have same : (frames.map Except.ok : List (Except Error Frame)).filterMap Except.toOption = frames := by
    rw [List.filterMap_map]
    exact List.filterMap_some
  rw [dataOf, same]

namespace Incoming

/-- The bytes that `poll_frame` has returned. -/
def returned (b : Incoming) : Bytes := dataOf (b.observed.filterMap id)

/-- The bytes that are in the channel. -/
def underway (b : Incoming) : Bytes := dataOf (b.items.map (·.map .data))

theorem dataOf_stream (b : Incoming) : dataOf b.stream = b.returned ++ b.underway := by
  have trailers : dataOf (b.trailers.toList.map (.ok <| .trailers ·)) = [] := by
    cases b.trailers with
    | none => rfl
    | some t => rfl
  rw [stream, dataOf_append, dataOf_append, trailers, List.append_nil]
  rfl

theorem subIf_subIf (len : DecodedLength) (m n : Nat) : subIf (subIf len m) n = subIf len (m + n) := by
  cases len with
  | length known => exact congrArg DecodedLength.length (Nat.sub_sub known m n)
  | closeDelimited => rfl
  | chunked => rfl

/-- The length of a body, less what it has returned. -/
def Counts (b : Incoming) (decode : DecodedLength) : Prop := b.contentLength = subIf decode b.returned.length

theorem Counts.exact {b : Incoming} {n : Nat} (h : b.Counts (.length n)) (bounded : b.returned.length ≤ n) :
    (∃ m, b.contentLength = .length m ∧ m + b.returned.length = n) ∧ (b.isEndStream = true ↔ b.returned.length = n) := by
  have left : b.contentLength = .length (n - b.returned.length) := h
  refine ⟨⟨_, left, by omega⟩, ?_⟩
  rw [isEndStream, decide_eq_true_eq, left, DecodedLength.ZERO, DecodedLength.length.injEq]
  omega

theorem h1_counts (decode : DecodedLength) (wanter : Bool) : (h1 decode wanter).Counts decode := by
  cases decode with
  | length n => rfl
  | closeDelimited => rfl
  | chunked => rfl

theorem observe_returned (b : Incoming) (res : Option (Except Error Frame)) :
    (b.observe res).returned = b.returned ++ dataOf res.toList := by
  rw [returned, observe, List.filterMap_append, dataOf_append]
  cases res with
  | none => rfl
  | some res => rfl

/-- Only data is counted. -/
theorem Counts.observe {b : Incoming} {decode : DecodedLength} (h : b.Counts decode) {res : Option (Except Error Frame)}
    (empty : dataOf res.toList = []) : (b.observe res).Counts decode := by
  rw [Counts, observe_returned, empty, List.append_nil]
  exact h

theorem Counts.observe_data {b b' : Incoming} {decode : DecodedLength} (h : b.Counts decode) {chunk : Bytes}
    (length : b'.contentLength = subIf b.contentLength chunk.length) (returned : b'.returned = b.returned) :
    (b'.observe (some (.ok (.data chunk)))).Counts decode := by
  have more : dataOf (some (.ok (.data chunk)) : Option (Except Error Frame)).toList = chunk := by
    simp [dataOf, framesData, Except.toOption]
  rw [Counts, observe_returned, more, returned, List.length_append, ← subIf_subIf, ← h]
  exact length

theorem pollFrame_counts {b : Incoming} {decode : DecodedLength} (h : b.Counts decode) : b.pollFrame.Counts decode := by
  unfold pollFrame
  split
  · exact h
  dsimp only
  split
  · exact h.observe_data rfl rfl
  · refine Counts.observe ?_ rfl
    exact h
  · split
    · exact h
    split
    · refine Counts.observe ?_ rfl
      exact h
    split
    · exact h
    · refine Counts.observe ?_ rfl
      exact h

/-- What happens to a body when nothing is sent: no bytes come to be on its way, and a body whose sender is gone stays as it
is for a user who is there. -/
structure Moves (b b' : Incoming) : Prop where
  counts : ∀ decode, b.Counts decode → b'.Counts decode
  bytes : b'.returned ++ b'.underway <+: b.returned ++ b.underway
  closed : b.txAlive = false → b'.txAlive = false ∧ (b'.rxAlive = true → b.rxAlive = true ∧ b'.stream = b.stream)

theorem Moves.refl (b : Incoming) : b.Moves b := ⟨fun _ => id, List.prefix_rfl, fun gone => ⟨gone, fun alive => ⟨alive, rfl⟩⟩⟩

theorem Moves.trans {b₁ b₂ b₃ : Incoming} (h : b₁.Moves b₂) (h' : b₂.Moves b₃) : b₁.Moves b₃ := by
  refine ⟨fun decode counts => h'.counts decode (h.counts decode counts), h'.bytes.trans h.bytes, ?_⟩
  intro gone
  obtain ⟨gone₂, there₂⟩ := h.closed gone
  obtain ⟨gone₃, there₃⟩ := h'.closed gone₂
  refine ⟨gone₃, ?_⟩
  intro alive
  obtain ⟨alive₂, same₂⟩ := there₃ alive
  obtain ⟨alive₁, same₁⟩ := there₂ alive₂
  exact ⟨alive₁, same₂.trans same₁⟩

theorem pollFrame_moves (b : Incoming) : b.Moves b.pollFrame := by
  obtain ⟨tx, rx, -, -⟩ := b.pollFrame_same
  refine ⟨fun _ => pollFrame_counts, ?_, ?_⟩
  · rw [← dataOf_stream, ← dataOf_stream, pollFrame_stream]
  · intro gone
    exact ⟨tx.trans gone, fun alive => ⟨rx ▸ alive, b.pollFrame_stream⟩⟩

theorem dropReceiver_moves (b : Incoming) : b.Moves b.dropReceiver := by
  refine ⟨fun _ => id, ?_, fun gone => ⟨gone, nofun⟩⟩
  show b.returned ++ [] <+: _
  rw [List.append_nil]
  exact List.prefix_append _ _

theorem dropSender_moves (b : Incoming) : b.Moves b.dropSender :=
  ⟨fun _ => id, List.prefix_rfl, fun _ => ⟨rfl, fun alive => ⟨alive, rfl⟩⟩⟩

/-- A sender that is there sends an error and goes. -/
theorem abort_moves {b : Incoming} (tx : b.txAlive = true) (err : Error) : b.Moves (b.sendError err).dropSender := by
  refine ⟨?_, ?_, fun gone => absurd (tx.symm.trans gone) nofun⟩
  · unfold sendError
    split
    · exact fun _ => id
    · exact fun _ => id
  · unfold sendError
    split
    · exact List.prefix_rfl
    · have none : underway { b with items := b.items ++ [.error err], txAlive := false, trailersTx := false } = b.underway := by
        rw [underway, List.map_append, dataOf_append]
        exact List.append_nil _
      show b.returned ++ underway { b with items := b.items ++ [.error err], txAlive := false, trailersTx := false } <+: _
      rw [none]

/-! ### A channel whose sender is there -/

/-- What a sender has put into the channel was read before. -/
theorem Open.dataOf_stream {b : Incoming} {r : Received} {inflight : List Frame} (h : b.Open r inflight)
    (alive : b.rxAlive = true) : dataOf b.stream ++ framesData inflight = framesData r.frames := by
  rw [← dataOf_ok inflight, ← dataOf_append, h.stream alive, dataOf_ok, framesData_shown]

/-- What a body without a sender has to give, where it has no error. -/
theorem Closed.bytes {b : Incoming} {r : Received} (h : b.Closed r) (there : b.rxAlive = true ∨ none ∈ b.observed) :
    r.eof = true ∧ b.returned ++ b.underway = framesData r.frames ∨ ∃ err, .error err ∈ b.stream := by
  refine (h.settled there).imp_left ?_
  rintro ⟨ended, stream⟩
  refine ⟨ended, ?_⟩
  rw [← Incoming.dataOf_stream, stream, dataOf_ok, framesData_shown]

theorem Open.sendData_bytes {b : Incoming} {r : Received} {chunk : Bytes} (h : b.Open r [.data chunk])
    (before : b.returned ++ b.underway <+: framesData r.frames) :
    (b.sendData chunk).2.returned ++ (b.sendData chunk).2.underway <+: framesData r.frames := by
  unfold Incoming.sendData
  split
  · exact before
  · next sent =>
    have alive : b.rxAlive = true := by
      cases alive : b.rxAlive with
      | true => rfl
      | false => exact absurd (by simp [alive]) sent
    have more : underway { b with items := b.items ++ [.ok chunk], parked := true } = b.underway ++ chunk := by
      rw [underway, List.map_append, dataOf_append]
      simp [underway, dataOf, framesData, Except.map, Except.toOption]
    have whole := h.dataOf_stream alive
    rw [Incoming.dataOf_stream] at whole
    show b.returned ++ underway { b with items := b.items ++ [.ok chunk], parked := true } <+: _
    rw [more, ← List.append_assoc, ← whole]
    simp [framesData]

end Incoming

end Hwire.Body
