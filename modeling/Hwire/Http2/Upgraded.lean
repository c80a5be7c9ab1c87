import Hwire.Io

/-!
# Tunnels over an HTTP/2 stream

The read half of an upgraded `CONNECT` stream. What the stream of the `http2` crate goes through is a script, and
`isEndStream` is what the crate says about the rest of it.
-/

namespace Hwire.Http2
open Lib

/-! ### The stream -/

inductive Reason where
  | noError | cancel | streamClosed
  | other (code : Nat)
  deriving DecidableEq

/-- An error of the `http2` crate, with its reason if it has one. -/
structure StreamError where
  reason : Option Reason
  io : Option IoError := none
  text : String

inductive RecvEvent where
  | pending
  | data (bytes : Bytes)
  | endOfStream
  | reset (e : StreamError)

abbrev RecvStream : Type := List RecvEvent

namespace RecvStream

/-- The end of the stream and a reset stay. -/
def pollData : RecvStream → Poll (Option (Except StreamError Bytes)) × RecvStream
  | [] => (.pending, [])
  | .pending :: rest => (.pending, rest)
  | .data bytes :: rest => (.ready (some (.ok bytes)), rest)
  | .endOfStream :: rest => (.ready none, .endOfStream :: rest)
  | .reset e :: rest => (.ready (some (.error e)), .reset e :: rest)

/-- The loop over `poll_data`. An empty frame is passed over unless the stream ends with it. -/
def pollFrame (isEndStream : RecvStream → Bool) : RecvStream → Poll (Option (Except StreamError Bytes)) × RecvStream
  | .data bytes :: rest =>
    if bytes = [] ∧ !isEndStream rest then pollFrame isEndStream rest else (.ready (some (.ok bytes)), rest)
  | stream => pollData stream

/-- The payloads of the frames up to the end of the stream. -/
def payload : RecvStream → Bytes
  | [] => []
  | .pending :: rest => payload rest
  | .data bytes :: rest => bytes ++ payload rest
  | .endOfStream :: _ => []
  | .reset _ :: _ => []

/-- Nothing follows, and nothing is wrong. -/
def Closed (stream : RecvStream) : Prop :=
  stream.head? = some .endOfStream ∨
    ∃ e, stream.head? = some (.reset e) ∧ (e.reason = some .noError ∨ e.reason = some .cancel)

end RecvStream

def h2ToIoError (e : StreamError) : IoError := e.io.getD ⟨.other, e.text⟩

/-! ### The tunnel -/

/-- `recorded` and `released` list the calls of `record_data` and `release_capacity`. -/
structure H2Upgraded where
  recvStream : RecvStream
  buf : Bytes := []
  recorded : List Nat := []
  released : List Nat := []

namespace H2Upgraded

/-- What fits is copied, and its capacity is given back. -/
def copyOut (u : H2Upgraded) (room : Nat) : Poll (Except IoError Bytes) × H2Upgraded :=
  let cnt := min u.buf.length room
  (.ready (.ok (u.buf.take cnt)), { u with buf := u.buf.drop cnt, released := u.released ++ [cnt] })

def ofReset (e : StreamError) : Except IoError Bytes :=
  match e.reason with
  | some .noError | some .cancel => .ok []
  | some .streamClosed => .error ⟨.brokenPipe, e.text⟩
  | _ => .error (h2ToIoError e)

/-- `poll_read` into a buffer with room for so many bytes -/
def pollRead (isEndStream : RecvStream → Bool) (u : H2Upgraded) (room : Nat) : Poll (Except IoError Bytes) × H2Upgraded :=
  if u.buf = [] then
    match u.recvStream.pollFrame isEndStream with
    | (.pending, stream) => (.pending, { u with recvStream := stream })
    | (.ready none, stream) => (.ready (.ok []), { u with recvStream := stream })
    | (.ready (some (.ok buf)), stream) =>
      { u with recvStream := stream, buf := buf, recorded := u.recorded ++ [buf.length] }.copyOut room
    | (.ready (some (.error e)), stream) => (.ready (ofReset e), { u with recvStream := stream })
  else u.copyOut room

/-- The bytes that a call has put into the caller's buffer. -/
def copied : Poll (Except IoError Bytes) → Bytes
  | .ready (.ok bytes) => bytes
  | _ => []

/-- One call after the other, with the room of each: all bytes that were copied out, and what is left. -/
def pollReads (isEndStream : RecvStream → Bool) (u : H2Upgraded) : List Nat → Bytes × H2Upgraded
  | [] => ([], u)
  | room :: rooms =>
    let call := u.pollRead isEndStream room
    let later := call.2.pollReads isEndStream rooms
    (copied call.1 ++ later.1, later.2)

end H2Upgraded

/-! ### What a call finds -/

namespace RecvStream

/-- The loop as it is written: another round after an empty frame. -/
theorem pollFrame_eq (isEndStream : RecvStream → Bool) (stream : RecvStream) :
    stream.pollFrame isEndStream =
      match stream.pollData with
      | (.ready (some (.ok buf)), rest) =>
        if buf = [] ∧ !isEndStream rest then pollFrame isEndStream rest else (.ready (some (.ok buf)), rest)
      | other => other := by
  cases stream with
  | nil => rfl
  | cons event rest => cases event <;> rfl

/-- The result of the loop, by what stands first in the stream. -/
inductive Found (isEndStream : RecvStream → Bool) (stream : RecvStream) :
    Poll (Option (Except StreamError Bytes)) → RecvStream → Prop where
  | pending {rest : RecvStream} (same : rest.payload = stream.payload)
      (fewer : rest.length < stream.length ∨ rest.payload = []) : Found isEndStream stream .pending rest
  | frame {bytes : Bytes} {rest : RecvStream} (split : stream.payload = bytes ++ rest.payload)
      (last : bytes = [] → isEndStream rest = true) (fewer : rest.length < stream.length) :
      Found isEndStream stream (.ready (some (.ok bytes))) rest
  | ended {rest : RecvStream} (nothing : stream.payload = []) (first : rest.head? = some .endOfStream) :
      Found isEndStream stream (.ready none) rest
  | reset {e : StreamError} {rest : RecvStream} (nothing : stream.payload = []) (first : rest.head? = some (.reset e)) :
      Found isEndStream stream (.ready (some (.error e))) rest

theorem Found.skip {isEndStream : RecvStream → Bool} {stream rest : RecvStream}
    {res : Poll (Option (Except StreamError Bytes))} (h : Found isEndStream stream res rest) :
    Found isEndStream (.data [] :: stream) res rest := by
  cases h with
  | pending same fewer => exact .pending same (fewer.imp_left Nat.lt_succ_of_lt)
  | frame split last fewer => exact .frame split last (Nat.lt_succ_of_lt fewer)
  | ended nothing first => exact .ended nothing first
  | reset nothing first => exact .reset nothing first

theorem pollFrame_found (isEndStream : RecvStream → Bool) (stream : RecvStream) :
    Found isEndStream stream (stream.pollFrame isEndStream).1 (stream.pollFrame isEndStream).2 := by
  induction stream with
  | nil => exact .pending rfl (.inr rfl)
  | cons event rest ih =>
    cases event with
    | pending => exact .pending rfl (.inl (Nat.lt_succ_self _))
    | endOfStream => exact .ended rfl rfl
    | reset e => exact .reset rfl rfl
    | data bytes =>
      rw [pollFrame]
      split
      · next skipped =>
        rw [skipped.1]
        exact ih.skip
      · next kept =>
        refine .frame rfl ?_ (Nat.lt_succ_self _)
        intro empty
        simpa [empty] using kept

theorem payload_of_first {stream : RecvStream} (h : stream.head? = some .endOfStream ∨ ∃ e, stream.head? = some (.reset e)) :
    stream.payload = [] := by
  cases stream with
  | nil => rfl
  | cons event rest =>
    obtain first | ⟨e, first⟩ := h
    · rw [Option.some.inj first]
      rfl
    · rw [Option.some.inj first]
      rfl

theorem first_of_none {stream : RecvStream} (h : stream.pollData.1 = .ready none) : stream.head? = some .endOfStream := by
  cases stream with
  | nil => cases h
  | cons event rest =>
    cases event with
    | endOfStream => rfl
    | pending => cases h
    | data bytes => cases h
    | reset e => cases h

end RecvStream

namespace H2Upgraded
open RecvStream

/-- The bytes that are still to be copied out. -/
def unread (u : H2Upgraded) : Bytes := u.buf ++ u.recvStream.payload

/-- Bytes and events that are still to come. -/
def weight (u : H2Upgraded) : Nat := u.unread.length + u.recvStream.length

/-- What a call does to the tunnel. -/
structure Read (u : H2Upgraded) (room : Nat) (res : Poll (Except IoError Bytes)) (u' : H2Upgraded) : Prop where
  unread : u.unread = copied res ++ u'.unread
  released : u'.released.sum = u.released.sum + (copied res).length
  /-- A frame is recorded when it is taken from the stream. -/
  recorded : u'.recorded.sum + u.buf.length = u.recorded.sum + (copied res).length + u'.buf.length
  closed : 0 < room → res = .ready (.ok []) → u'.recvStream.Closed ∧ u'.unread = []
  onwards : 0 < room → u'.weight < u.weight ∨ u'.unread = []

theorem copyOut_read {u : H2Upgraded} {room : Nat} (last : u.buf = [] → u.recvStream.head? = some .endOfStream) :
    Read u room (u.copyOut room).1 (u.copyOut room).2 := by
  have all : u.unread = u.buf.take (min u.buf.length room) ++ (u.copyOut room).2.unread := by
    rw [H2Upgraded.unread, H2Upgraded.unread, copyOut, ← List.append_assoc, List.take_append_drop]
  have count : (u.buf.take (min u.buf.length room)).length = min u.buf.length room := by
    rw [List.length_take]
    omega
  have ended : u.buf = [] → u.recvStream.Closed ∧ (u.copyOut room).2.unread = [] := by
    intro empty
    refine ⟨.inl (last empty), ?_⟩
    rw [H2Upgraded.unread, copyOut, empty, payload_of_first (.inl (last empty)), List.drop_nil]
    rfl
  refine ⟨all, ?_, ?_, ?_, ?_⟩
  · show (u.released ++ [min u.buf.length room]).sum = u.released.sum + (u.buf.take (min u.buf.length room)).length
    rw [count, List.sum_append, List.sum_singleton]
  · show u.recorded.sum + u.buf.length =
      u.recorded.sum + (u.buf.take (min u.buf.length room)).length + (u.buf.drop (min u.buf.length room)).length
    rw [count, List.length_drop]
    omega
  · intro pos res
    apply ended
    have nothing : u.buf.take (min u.buf.length room) = [] := Except.ok.inj (Poll.ready.inj res)
    rw [nothing, List.length_nil] at count
    exact List.length_eq_zero_iff.mp (by omega)
  · intro pos
    by_cases empty : u.buf = []
    · exact .inr (ended empty).2
    · left
      have there := List.length_pos_iff.mpr empty
      have size := congrArg List.length all
      rw [List.length_append, count] at size
      show (u.copyOut room).2.unread.length + u.recvStream.length < u.unread.length + u.recvStream.length
      omega

/-- A call that copies nothing and takes no frame. -/
theorem Read.nothing {u : H2Upgraded} {room : Nat} {res : Poll (Except IoError Bytes)} {rest : RecvStream}
    (empty : u.buf = []) (none : copied res = []) (same : rest.payload = u.recvStream.payload)
    (closed : res = .ready (.ok []) → rest.Closed ∧ rest.payload = [])
    (fewer : rest.length < u.recvStream.length ∨ rest.payload = []) :
    Read u room res { u with recvStream := rest } := by
  refine ⟨?_, ?_, ?_, ?_, ?_⟩
  · rw [none, H2Upgraded.unread, H2Upgraded.unread, same]
    rfl
  · rw [none]
    rfl
  · rw [none]
    rfl
  · intro _ ok
    rw [H2Upgraded.unread, empty]
    exact closed ok
  · intro _
    rw [weight, weight, H2Upgraded.unread, H2Upgraded.unread, empty, same]
    obtain fewer | nothing := fewer
    · left
      show u.recvStream.payload.length + rest.length < u.recvStream.payload.length + u.recvStream.length
      omega
    · exact .inr (same ▸ nothing)

/-- A frame goes into the buffer, which was empty, and is copied out from there. -/
theorem Read.frame {u u' : H2Upgraded} {room : Nat} {res : Poll (Except IoError Bytes)} {bytes : Bytes} {rest : RecvStream}
    (empty : u.buf = []) (split : u.recvStream.payload = bytes ++ rest.payload) (fewer : rest.length < u.recvStream.length)
    (read : Read { u with recvStream := rest, buf := bytes, recorded := u.recorded ++ [bytes.length] } room res u') :
    Read u room res u' := by
  have same : u.unread = bytes ++ rest.payload := by
    rw [H2Upgraded.unread, empty, split]
    rfl
  refine ⟨?_, read.released, ?_, read.closed, ?_⟩
  · rw [same]
    exact read.unread
  · have recorded : u'.recorded.sum + bytes.length =
        (u.recorded ++ [bytes.length]).sum + (copied res).length + u'.buf.length := read.recorded
    rw [List.sum_append, List.sum_singleton] at recorded
    rw [empty, List.length_nil]
    omega
  · intro pos
    refine (read.onwards pos).imp_left fun less => ?_
    have less : u'.weight < (bytes ++ rest.payload).length + rest.length := less
    rw [weight.eq_1 u, same]
    omega

theorem ofReset_copied (e : StreamError) : copied (.ready (ofReset e)) = [] := by
  unfold ofReset
  split
  · rfl
  · rfl
  · rfl
  · rfl

theorem ofReset_ok {e : StreamError} (h : ofReset e = .ok []) : e.reason = some .noError ∨ e.reason = some .cancel := by
  unfold ofReset at h
  split at h
  · next reason => exact .inl reason
  · next reason => exact .inr reason
  · cases h
  · cases h

theorem pollRead_read {isEndStream : RecvStream → Bool}
    (told : ∀ stream, isEndStream stream = true → stream.pollData.1 = .ready none) (u : H2Upgraded) (room : Nat) :
    Read u room (u.pollRead isEndStream room).1 (u.pollRead isEndStream room).2 := by
  unfold pollRead
  split
  · next empty =>
    have found := pollFrame_found isEndStream u.recvStream
    revert found
    generalize u.recvStream.pollFrame isEndStream = call
    obtain ⟨res, rest⟩ := call
    intro found
    cases found with
    | pending same fewer =>
      apply Read.nothing empty rfl same ?_ fewer
      intro ok
      cases ok
    | ended nothing first =>
      have gone := payload_of_first (.inl first)
      exact .nothing empty rfl (gone.trans nothing.symm) (fun _ => ⟨.inl first, gone⟩) (.inr gone)
    | reset nothing first =>
      next e =>
      have gone := payload_of_first (.inr ⟨e, first⟩)
      refine .nothing empty (ofReset_copied e) (gone.trans nothing.symm) (fun ok => ⟨.inr ⟨e, first, ?_⟩, gone⟩) (.inr gone)
      exact ofReset_ok (Poll.ready.inj ok)
    | frame split last fewer =>
      apply Read.frame empty split fewer
      apply copyOut_read
      intro none
      exact first_of_none (told _ (last none))
  · next some =>
    apply copyOut_read
    intro empty
    exact absurd empty some

/-! ### Runs -/

theorem pollReads_read {isEndStream : RecvStream → Bool}
    (told : ∀ stream, isEndStream stream = true → stream.pollData.1 = .ready none) (u : H2Upgraded) (rooms : List Nat) :
    u.unread = (u.pollReads isEndStream rooms).1 ++ (u.pollReads isEndStream rooms).2.unread ∧
      (u.pollReads isEndStream rooms).2.released.sum = u.released.sum + (u.pollReads isEndStream rooms).1.length ∧
      (u.pollReads isEndStream rooms).2.recorded.sum + u.buf.length =
        u.recorded.sum + (u.pollReads isEndStream rooms).1.length + (u.pollReads isEndStream rooms).2.buf.length := by
  induction rooms generalizing u with
  | nil => exact ⟨rfl, rfl, rfl⟩
  | cons room rooms ih =>
    have read := u.pollRead_read told room
    obtain ⟨bytes, released, recorded⟩ := ih (u.pollRead isEndStream room).2
    rw [pollReads]
    refine ⟨?_, ?_, ?_⟩
    · rw [read.unread, bytes, List.append_assoc]
    · rw [released, read.released, List.length_append, Nat.add_assoc]
    · have first := read.recorded
      rw [List.length_append]
      dsimp only
      omega

/-- Enough calls with room leave nothing. -/
theorem pollReads_all {isEndStream : RecvStream → Bool}
    (told : ∀ stream, isEndStream stream = true → stream.pollData.1 = .ready none) {u : H2Upgraded} {rooms : List Nat}
    (pos : ∀ room ∈ rooms, 0 < room) (enough : u.weight ≤ rooms.length) : (u.pollReads isEndStream rooms).2.unread = [] := by
  induction rooms generalizing u with
  | nil =>
    apply List.length_eq_zero_iff.mp
    rw [weight, List.length_nil] at enough
    show u.unread.length = 0
    omega
  | cons room rooms ih =>
    obtain ⟨first, later⟩ := List.forall_mem_cons.mp pos
    obtain less | nothing := (u.pollRead_read told room).onwards first
    · apply ih later
      rw [List.length_cons] at enough
      omega
    · have all := (pollReads_read told (u.pollRead isEndStream room).2 rooms).1
      rw [nothing] at all
      exact (List.append_eq_nil_iff.mp all.symm).2

end H2Upgraded

/-- The tunnel of a `CONNECT` response. -/
def RecvStream.upgraded (stream : RecvStream) : H2Upgraded := { recvStream := stream }

namespace H2Upgraded

/-- For every stream and all rooms, what was copied out and what is still held are the payloads in their order, and the
capacity of every byte is given back as it is copied. Nothing is copied into a buffer with room only when the stream has
ended or was reset without an error, and everything was copied before. Enough calls copy everything. -/
theorem pollReads_lossless {isEndStream : RecvStream → Bool}
    (told : ∀ stream, isEndStream stream = true → stream.pollData.1 = .ready none) (stream : RecvStream) (rooms : List Nat) :
    let run := stream.upgraded.pollReads isEndStream rooms
    run.1 ++ (run.2.buf ++ run.2.recvStream.payload) = stream.payload ∧
      run.2.released.sum = run.1.length ∧ run.2.recorded.sum = run.1.length + run.2.buf.length ∧
      (∀ room, 0 < room → (run.2.pollRead isEndStream room).1 = .ready (.ok []) →
        (run.2.pollRead isEndStream room).2.recvStream.Closed ∧ run.1 = stream.payload) ∧
      ((∀ room ∈ rooms, 0 < room) → stream.payload.length + stream.length ≤ rooms.length → run.1 = stream.payload) := by
  intro run
  obtain ⟨bytes, released, recorded⟩ := pollReads_read told stream.upgraded rooms
  have bytes : stream.payload = run.1 ++ run.2.unread := bytes
  refine ⟨bytes.symm, ?_, ?_, ?_, ?_⟩
  · rw [released]
    exact Nat.zero_add _
  · have recorded : run.2.recorded.sum + 0 = 0 + run.1.length + run.2.buf.length := recorded
    omega
  · intro room pos ok
    have read := run.2.pollRead_read told room
    obtain ⟨closed, nothing⟩ := read.closed pos ok
    have all := read.unread
    rw [ok, nothing] at all
    rw [bytes, all]
    exact ⟨closed, (List.append_nil _).symm⟩
  · intro pos enough
    have nothing := pollReads_all told pos (u := stream.upgraded) enough
    rw [bytes, nothing, List.append_nil]

/-- The rest of a stream that is at its end. -/
def atEnd : RecvStream → Bool
  | .endOfStream :: _ => true
  | _ => false

theorem atEnd_told {stream : RecvStream} (h : atEnd stream = true) : stream.pollData.1 = .ready none := by
  unfold atEnd at h
  split at h
  · rfl
  · cases h

/-- An empty frame, a frame that is larger than the first buffer, and an empty one with which the stream ends. -/
def bread : RecvStream := [.data [], .data (ascii "Bread?"), .pending, .data [], .endOfStream]

theorem pollReads_lossless_bread :
    (bread.upgraded.pollReads atEnd [4, 9, 9, 9]).1 = ascii "Bread?" ∧
      (bread.upgraded.pollReads atEnd [4, 9, 9, 9]).2.released = [4, 2, 0] ∧
      ((bread.upgraded.pollReads atEnd [4, 9, 9, 9]).2.pollRead atEnd 9).2.recvStream.Closed := by
  have lossless := pollReads_lossless (fun _ => atEnd_told) bread [4, 9, 9, 9]
  refine ⟨by decide, by decide, ?_⟩
  exact (lossless.2.2.2.1 9 (by decide) (by rfl)).1

end H2Upgraded

end Hwire.Http2
