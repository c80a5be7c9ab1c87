import Hwire.Http1.Dispatch
import Hwire.Http1.Recipient

/-!
# What bodies yield

The polls of a user's body up to the one that ends it, the data and the trailers in them, and what an encoder makes of
them: a body that was sent to its end carries all the data, or as much of it as its length counts.
-/

namespace Hwire.Http1
open Lib LawfulBuf

/-! ### What a body yields -/

abbrev BodyPoll : Type := BodyEvent × Bool

namespace BodyPoll

def chunks : BodyPoll → List Bytes
  | (.frame (.data chunk), _) => if chunk = [] then [] else [chunk]
  | _ => []

/-- Whether the dispatcher looks no further after this poll. -/
def ends : BodyPoll → Bool
  | (.frame (.data _), eos) => eos
  | (.frame (.trailers _), _) => true
  | (.none, _) => true
  | _ => false

def trailers : BodyPoll → Option HeaderMap
  | (.frame (.trailers t), _) => some t
  | _ => none

end BodyPoll

/-- The polls up to the first one that ends the body. -/
def untilEnd : List BodyPoll → List BodyPoll
  | [] => []
  | poll :: rest => if BodyPoll.ends poll then [poll] else poll :: untilEnd rest

def chunksOf (polls : List BodyPoll) : List Bytes := polls.flatMap BodyPoll.chunks

@[simp] theorem chunksOf_append (polls later : List BodyPoll) : chunksOf (polls ++ later) = chunksOf polls ++ chunksOf later :=
  List.flatMap_append

theorem untilEnd_append {polls : List BodyPoll} (going : ∀ poll ∈ polls, BodyPoll.ends poll = false) (later : List BodyPoll) :
    untilEnd (polls ++ later) = polls ++ untilEnd later := by
  induction polls with
  | nil => rfl
  | cons poll polls ih =>
    obtain ⟨first, rest⟩ := List.forall_mem_cons.mp going
    rw [List.cons_append, untilEnd, if_neg (by simp [first]), ih rest]
    rfl

theorem untilEnd_cons_of_ends {poll : BodyPoll} (ends : BodyPoll.ends poll = true) (rest : List BodyPoll) :
    untilEnd (poll :: rest) = [poll] := by
  rw [untilEnd, if_pos ends]

/-! ### What an encoder makes of it -/

namespace Encoder

/-- A counted body takes no more than its length. -/
def limit (e : Encoder) (data : Bytes) : Bytes :=
  match e.kind with
  | .chunked _ => data
  | .length n => data.take n

/-- The trailers that are sent behind these polls. -/
def sentTrailers (e : Encoder) (polls : List BodyPoll) : HeaderMap :=
  match e.kind, polls.getLast?.bind BodyPoll.trailers with
  | .chunked (some allowed), some t =>
    if writeHeaders (allowedTrailers allowed t) = [] then .empty else allowedTrailers allowed t
  | _, _ => .empty

end Encoder

/-- A body that was sent to its end carries what these polls have yielded. -/
def SentWhole (e : Encoder) (sent : Bytes) (polls : List BodyPoll) : Prop :=
  EncodedAs e sent (e.limit (chunksOf polls).flatten) (e.sentTrailers polls)

/-- What an encoder that is now `e` has sent of a body, after these chunks. -/
inductive Uploading : Encoder → Encoder → Bytes → List Bytes → Prop where
  | length {m : Nat} {chunks : List Bytes} :
      Uploading (.length (chunks.flatten.length + m)) (.length m) chunks.flatten chunks
  | chunked {trailers : Option (List HeaderName)} {chunks : List Bytes} : ChunksOk chunks →
      Uploading { kind := .chunked trailers } { kind := .chunked trailers } (chunks.flatMap chunkBytes) chunks

/-- A counted body is complete once as much as its length was yielded, whatever follows. -/
theorem sentWhole_length {data : Bytes} {n : Nat} {polls : List BodyPoll} (enough : n ≤ data.length)
    (within : data <+: (chunksOf polls).flatten) : SentWhole (.length n) (data.take n) polls := by
  obtain ⟨later, whole⟩ := within
  have same : (chunksOf polls).flatten.take n = data.take n := by
    rw [← whole, List.take_append_of_le_length enough]
  have count : (data.take n).length = n := by rw [List.length_take]; omega
  show EncodedAs (.length n) (data.take n) ((chunksOf polls).flatten.take n) .empty
  rw [same]
  have encoded := EncodedAs.length (data.take n)
  rwa [count] at encoded

theorem sentWhole_chunked {trailers : Option (List HeaderName)} {polls : List BodyPoll} (ok : ChunksOk (chunksOf polls))
    (none : Encoder.sentTrailers { kind := .chunked trailers } polls = .empty) :
    SentWhole { kind := .chunked trailers } ((chunksOf polls).flatMap chunkBytes ++ lastChunk) polls := by
  unfold SentWhole
  rw [none]
  exact .chunked ok

theorem sentTrailers_of_none {trailers : Option (List HeaderName)} {polls : List BodyPoll} {poll : BodyPoll}
    (plain : BodyPoll.trailers poll = none) :
    Encoder.sentTrailers { kind := .chunked trailers } (polls ++ [poll]) = .empty := by
  unfold Encoder.sentTrailers
  rw [List.getLast?_concat, Option.bind_some, plain]
  cases trailers with
  | none => rfl
  | some allowed => rfl

namespace Uploading

theorem start {e : Encoder} (h : Encoding e e []) : Uploading e e [] [] := by
  generalize nil : ([] : Bytes) = sent at h
  cases h with
  | @length n m _ count =>
    subst nil
    have same := @Uploading.length n []
    rwa [List.flatten_nil, List.length_nil, Nat.zero_add] at same
  | @chunked trailers chunks ok =>
    rw [← nil]
    exact @Uploading.chunked trailers [] (by simp [ChunksOk])

/-- Where there is nothing to send, all has been sent. -/
theorem nothing {e₀ e : Encoder} {polls : List BodyPoll} (h : Uploading e₀ e [] []) (eof : e.isEof = true) :
    SentWhole e₀ [] polls := by
  generalize nil : ([] : List Bytes) = chunks at h
  generalize none : ([] : Bytes) = sent at h ⊢
  cases h with
  | @length m =>
    cases m with
    | zero =>
      subst nil
      exact @sentWhole_length [] 0 polls (Nat.zero_le 0) List.nil_prefix
    | succ m => cases eof
  | chunked => cases eof

theorem isLast {e₀ e : Encoder} {sent : Bytes} {chunks : List Bytes} (h : Uploading e₀ e sent chunks) : e.isLast = false := by
  cases h with
  | length => rfl
  | chunked => rfl

variable {e₀ e : Encoder} {sent chunk : Bytes} {polls later : List BodyPoll} {poll : BodyPoll}

theorem encode_isLast {chunks : List Bytes} (h : Uploading e₀ e sent chunks) (chunk : Bytes) :
    (e.encode chunk).2.isLast = false := by
  cases h with
  | @length m => rw [(Encoder.bytes_encode_length (e := .length m) (n := m) rfl chunk).2]; rfl
  | @chunked trailers =>
    rw [(Encoder.bytes_encode_chunked (e := { kind := .chunked trailers }) (t := trailers) rfl chunk).2]

theorem sentTrailers_of_plain {chunks : List Bytes} (h : Uploading e₀ e sent chunks)
    (plain : BodyPoll.trailers poll = none) : e₀.sentTrailers (polls ++ [poll]) = .empty := by
  cases h with
  | length => rfl
  | chunked => exact sentTrailers_of_none plain

/-- A chunk that the encoder does not end with. -/
theorem encode {chunks : List Bytes} (h : Uploading e₀ e sent chunks) (ne : chunk ≠ []) (small : chunk.length < 2 ^ 64)
    (more : (e.encode chunk).2.isEof = false) :
    Uploading e₀ (e.encode chunk).2 (sent ++ bytes (e.encode chunk).1) (chunks ++ [chunk]) := by
  cases h with
  | @length m =>
    obtain ⟨made, next⟩ := Encoder.bytes_encode_length (e := .length m) (n := m) rfl chunk
    rw [next] at more ⊢
    rw [made]
    have fits : chunk.length < m := by
      by_contra beyond
      rw [show m - chunk.length = 0 by omega] at more
      cases more
    have sum : chunks.flatten.length + m = (chunks ++ [chunk]).flatten.length + (m - chunk.length) := by
      simp only [List.flatten_append, List.flatten_singleton, List.length_append]
      omega
    have all : chunks.flatten ++ chunk.take m = (chunks ++ [chunk]).flatten := by
      rw [List.take_of_length_le (by omega), List.flatten_append, List.flatten_singleton]
    rw [sum, all]
    exact .length
  | @chunked trailers _ ok =>
    obtain ⟨made, next⟩ := Encoder.bytes_encode_chunked (e := { kind := .chunked trailers }) (t := trailers) rfl chunk
    rw [next, made]
    have added := @Uploading.chunked trailers _ (ok.concat ne small)
    rwa [List.flatMap_append, List.flatMap_singleton] at added

/-- A chunk that completes a counted body. -/
theorem encode_last (h : Uploading e₀ e sent (chunksOf polls)) (yields : BodyPoll.chunks poll = [chunk])
    (eof : (e.encode chunk).2.isEof = true) :
    SentWhole e₀ (sent ++ bytes (e.encode chunk).1) (polls ++ poll :: later) := by
  generalize made : chunksOf polls = chunks at h
  cases h with
  | @length m =>
    obtain ⟨bytes_eq, next⟩ := Encoder.bytes_encode_length (e := .length m) (n := m) rfl chunk
    rw [next] at eof
    have beyond : m ≤ chunk.length := by
      by_contra fits
      obtain ⟨k, rest⟩ : ∃ k, m - chunk.length = k + 1 := ⟨m - chunk.length - 1, by omega⟩
      rw [rest] at eof
      cases eof
    have taken : chunks.flatten ++ chunk.take m = (chunks.flatten ++ chunk).take (chunks.flatten.length + m) := by
      rw [List.take_length_add_append]
    rw [bytes_eq, taken]
    refine sentWhole_length (by simp; omega) ⟨(chunksOf later).flatten, ?_⟩
    rw [chunksOf_append, made, chunksOf, chunksOf, List.flatMap_cons, yields]
    simp
  | @chunked trailers =>
    obtain ⟨-, next⟩ := Encoder.bytes_encode_chunked (e := { kind := .chunked trailers }) (t := trailers) rfl chunk
    rw [next] at eof
    cases eof

/-- The last chunk, where the encoder says that the connection can be kept alive. -/
theorem encodeAndEnd {dst : WriteBuf (EncodedBuf Bytes)} (h : Uploading e₀ e sent (chunksOf polls)) (ne : chunk ≠ [])
    (small : chunk.length < 2 ^ 64) (yields : BodyPoll.chunks poll = [chunk]) (plain : BodyPoll.trailers poll = none)
    (keeps : (e.encodeAndEnd chunk dst).1 = true) :
    SentWhole e₀ (sent ++ bytes (Conn.lastBuf e chunk)) (polls ++ [poll]) := by
  have added : chunksOf (polls ++ [poll]) = chunksOf polls ++ [chunk] := by
    rw [chunksOf_append, chunksOf, chunksOf, List.flatMap_singleton, yields]
  generalize made : chunksOf polls = chunks at h added
  cases h with
  | @length m =>
    have beyond : m ≤ chunk.length := by
      simp only [Encoder.encodeAndEnd, Encoder.length, remaining_list] at keeps
      split at keeps
      · omega
      split at keeps
      · omega
      · cases keeps
    have last : bytes (Conn.lastBuf (.length m) chunk) = chunk.take m := by
      simp only [Conn.lastBuf, Encoder.length]
      split
      · rfl
      · show chunk = _
        rw [List.take_of_length_le (by omega)]
    have taken : chunks.flatten ++ chunk.take m = (chunks.flatten ++ chunk).take (chunks.flatten.length + m) := by
      rw [List.take_length_add_append]
    rw [last, taken]
    refine sentWhole_length (by simp; omega) ⟨[], ?_⟩
    rw [added]
    simp
  | @chunked trailers _ ok =>
    have whole := @sentWhole_chunked trailers (polls ++ [poll]) (added ▸ ok.concat ne small) (sentTrailers_of_none plain)
    rw [added, List.flatMap_append, List.flatMap_singleton, List.append_assoc] at whole
    rw [bytes_lastBuf_chunked rfl]
    exact whole

/-- The end of a body after its last chunk. -/
theorem «end» {buf : Option (EncodedBuf Bytes)} (h : Uploading e₀ e sent (chunksOf polls)) (live : e.isEof = false)
    (none : e₀.sentTrailers polls = .empty) (ends : e.end = .ok buf) :
    SentWhole e₀ (sent ++ (buf.map bytes).getD []) polls := by
  generalize made : chunksOf polls = chunks at h
  cases h with
  | @length m =>
    cases m with
    | zero => cases live
    | succ m => cases ends
  | chunked ok =>
    cases ends
    rw [← made] at ok ⊢
    exact sentWhole_chunked ok none

/-- Trailers behind the last chunk. -/
theorem encodeTrailers {t : HeaderMap} {buf : EncodedBuf Bytes} (h : Uploading e₀ e sent (chunksOf polls))
    (yields : BodyPoll.trailers poll = some t) (none : BodyPoll.chunks poll = []) (made : e.encodeTrailers t = some buf) :
    SentWhole e₀ (sent ++ bytes buf) (polls ++ [poll]) := by
  have same : chunksOf (polls ++ [poll]) = chunksOf polls := by
    rw [chunksOf_append, chunksOf, chunksOf, List.flatMap_singleton, none, List.append_nil]
  unfold SentWhole
  rw [same]
  generalize chunksOf polls = chunks at h
  cases h with
  | length => cases made
  | @chunked trailers _ ok =>
    cases trailers with
    | none => cases made
    | some allowed =>
      simp only [Encoder.encodeTrailers] at made
      split at made
      · cases made
      · next some_ =>
        cases made
        have fields : Encoder.sentTrailers { kind := .chunked (some allowed) } (polls ++ [poll]) =
            Encoder.allowedTrailers allowed t := by
          unfold Encoder.sentTrailers
          rw [List.getLast?_concat, Option.bind_some, yields]
          exact if_neg some_
        rw [fields]
        exact .trailers _ ok

/-- Trailers that may not be sent. -/
theorem sentTrailers_of_dropped {t : HeaderMap} (h : Uploading e₀ e sent (chunksOf polls))
    (yields : BodyPoll.trailers poll = some t) (dropped : e.encodeTrailers (B := Bytes) t = none) :
    e₀.sentTrailers (polls ++ [poll]) = .empty := by
  generalize chunksOf polls = chunks at h
  unfold Encoder.sentTrailers
  rw [List.getLast?_concat, Option.bind_some, yields]
  cases h with
  | length => rfl
  | @chunked trailers _ ok =>
    cases trailers with
    | none => rfl
    | some allowed =>
      simp only [Encoder.encodeTrailers] at dropped
      split at dropped
      · next empty => exact if_pos empty
      · cases dropped

end Uploading

end Hwire.Http1
