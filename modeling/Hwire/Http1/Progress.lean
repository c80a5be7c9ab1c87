import Hwire.Http1.Conn
import Hwire.Http1.Framing

/-!
# Progress

What single calls do to a connection: how its states close, how far an encoder has come, and when a parsed head or a
decoded frame is the last of its kind.
-/

namespace Hwire.Http1
open Lib LawfulBuf

/-! ### Closing -/

/-- Between two states nothing happened but closing. Writing is never closed alone. -/
structure State.Closes (s s' : State) : Prop where
  reading : s'.reading = s.reading ∨ s'.reading = .closed
  writing : s'.writing = s.writing ∨ s'.writing = .closed ∧ s'.reading = .closed
  keepAlive : s'.keepAlive = s.keepAlive ∨ s'.keepAlive = .disabled

/-- What is closed or disabled stays so, and without keep-alive writing does not become idle again. -/
structure State.Keeps (s s' : State) : Prop where
  reading : s.reading = .closed → s'.reading = .closed
  writing : s.writing = .closed → s'.writing = .closed
  keepAlive : s.keepAlive = .disabled → s'.keepAlive = .disabled
  idle : s.keepAlive = .disabled → s'.writing = .init → s.writing = .init

namespace State

theorem Closes.refl (s : State) : s.Closes s := ⟨.inl rfl, .inl rfl, .inl rfl⟩

theorem Closes.of_same {s s' : State} (reading : s'.reading = s.reading) (writing : s'.writing = s.writing)
    (keepAlive : s'.keepAlive = s.keepAlive) : s.Closes s' := ⟨.inl reading, .inl writing, .inl keepAlive⟩

theorem Closes.trans {s₁ s₂ s₃ : State} (a : s₁.Closes s₂) (b : s₂.Closes s₃) : s₁.Closes s₃ := by
  obtain ⟨ar, aw, ak⟩ := a
  obtain ⟨br, bw, bk⟩ := b
  refine ⟨?_, ?_, ?_⟩
  · grind
  · grind
  · grind

theorem close_closes (s : State) : s.Closes s.close := ⟨.inr rfl, .inr ⟨rfl, rfl⟩, .inr rfl⟩

theorem closeRead_closes (s : State) : s.Closes s.closeRead := ⟨.inr rfl, .inl rfl, .inr rfl⟩

theorem Keeps.refl (s : State) : s.Keeps s := ⟨id, id, id, fun _ => id⟩

theorem Keeps.trans {s₁ s₂ s₃ : State} (a : s₁.Keeps s₂) (b : s₂.Keeps s₃) : s₁.Keeps s₃ :=
  ⟨b.reading ∘ a.reading, b.writing ∘ a.writing, b.keepAlive ∘ a.keepAlive,
    fun disabled => a.idle disabled ∘ b.idle (a.keepAlive disabled)⟩

theorem Closes.keeps {s s' : State} (h : s.Closes s') : s.Keeps s' := by
  obtain ⟨hr, hw, hk⟩ := h
  exact ⟨by grind, by grind, by grind, by grind⟩

@[simp] theorem busy_reading (s : State) : s.busy.reading = s.reading := by unfold busy; split <;> rfl

@[simp] theorem busy_writing (s : State) : s.busy.writing = s.writing := by unfold busy; split <;> rfl

@[simp] theorem andKeepAlive_writing (s : State) (enabled : Bool) : (s.andKeepAlive enabled).writing = s.writing := by
  unfold andKeepAlive; split <;> rfl

theorem busy_cachedHeaders (s : State) : s.busy.cachedHeaders = s.cachedHeaders := by unfold busy; split <;> rfl

theorem andKeepAlive_cachedHeaders (s : State) (enabled : Bool) :
    (s.andKeepAlive enabled).cachedHeaders = s.cachedHeaders := by
  unfold andKeepAlive; split <;> rfl

theorem busy_disabled {s : State} : s.busy.keepAlive = .disabled ↔ s.keepAlive = .disabled := by
  unfold busy
  split
  · rfl
  · next h => simp [h]

theorem andKeepAlive_disabled {s : State} {enabled : Bool} :
    (s.andKeepAlive enabled).keepAlive = .disabled ↔ enabled = false ∨ s.keepAlive = .disabled := by
  cases enabled <;> simp [andKeepAlive]

/-- `try_keep_alive` goes idle or closes. -/
theorem tryKeepAlive_cases (s : State) :
    s.reading = .keepAlive ∧ s.writing = .keepAlive ∧ s.keepAlive = .busy ∧ s.tryKeepAlive = s.idle ∨
      s.Closes s.tryKeepAlive := by
  unfold tryKeepAlive
  split
  · next reading writing =>
    split
    · next busy => exact .inl ⟨reading, writing, busy, rfl⟩
    · exact .inr s.close_closes
  · exact .inr s.close_closes
  · exact .inr s.close_closes
  · exact .inr (.refl s)

theorem tryKeepAlive_keeps (s : State) : s.Keeps s.tryKeepAlive := by
  obtain ⟨reading, writing, busy, eq⟩ | closes := s.tryKeepAlive_cases
  · rw [eq]
    exact ⟨by simp [reading], by simp [writing], by simp [busy], by simp [busy]⟩
  · exact closes.keeps

end State

def Buffered.writes {B : Type} (b : Buffered B) : WriteBuf B × Bool := (b.writeBuf, b.flushPipeline)

/-- Between two connections nothing happened but reading and closing. -/
structure Conn.Closes (c c' : Conn) : Prop where
  log : c'.log = c.log
  state : c.state.Closes c'.state
  cached : c'.state.cachedHeaders = c.state.cachedHeaders
  writes : c'.io.writes = c.io.writes

theorem Conn.Closes.refl (c : Conn) : c.Closes c := ⟨rfl, .refl _, rfl, rfl⟩

theorem Conn.Closes.trans {c₁ c₂ c₃ : Conn} (a : c₁.Closes c₂) (b : c₂.Closes c₃) : c₁.Closes c₃ :=
  ⟨b.log.trans a.log, a.state.trans b.state, b.cached.trans a.cached, b.writes.trans a.writes⟩

theorem Buffered.pollReadFromIo_writes {B : Type} (b : Buffered B) : b.pollReadFromIo.2.writes = b.writes := by
  unfold pollReadFromIo
  split
  · rfl
  · rfl
  · rfl

theorem Buffered.readMem_writes {B : Type} (b : Buffered B) (len : Nat) : (b.readMem len).2.writes = b.writes := by
  have writes := b.pollReadFromIo_writes
  unfold readMem
  split
  · rfl
  split
  · next read => rw [read] at writes; exact writes
  · next read => rw [read] at writes; exact writes
  · next read => rw [read] at writes; exact writes

/-! ### Encoding in progress -/

/-- Chunks that the dispatcher passes on: no empty ones, and of a length that the machine can hold. -/
def ChunksOk (chunks : List Bytes) : Prop := ∀ c ∈ chunks, c ≠ [] ∧ c.length < 2 ^ 64

/-- An encoder at the start and later, with the bytes that it has made in between. -/
inductive Encoding : Encoder → Encoder → Bytes → Prop where
  | length {n m : Nat} {sent : Bytes} : sent.length + m = n → Encoding (.length n) (.length m) sent
  | chunked {trailers : Option (List HeaderName)} {chunks : List Bytes} : ChunksOk chunks →
      Encoding { kind := .chunked trailers } { kind := .chunked trailers } (chunks.flatMap chunkBytes)

/-- The bytes of a body that an encoder has brought to its end. -/
inductive Encoded : Encoder → Bytes → Prop where
  | length {n : Nat} {sent : Bytes} : sent.length = n → Encoded (.length n) sent
  | chunked {trailers : Option (List HeaderName)} {chunks : List Bytes} : ChunksOk chunks →
      Encoded { kind := .chunked trailers } (chunks.flatMap chunkBytes ++ lastChunk)
  | trailers {allowed : List HeaderName} {chunks : List Bytes} {fields : HeaderMap} : ChunksOk chunks →
      Encoded { kind := .chunked (some allowed) }
        (chunks.flatMap chunkBytes ++ (ascii "0\r\n" ++ writeHeaders fields ++ crlf))

theorem ChunksOk.concat {chunks : List Bytes} (ok : ChunksOk chunks) {chunk : Bytes} (ne : chunk ≠ [])
    (small : chunk.length < 2 ^ 64) : ChunksOk (chunks ++ [chunk]) := by
  intro c member
  rcases List.mem_append.mp member with h | h
  · exact ok c h
  · obtain rfl := List.mem_singleton.mp h
    exact ⟨ne, small⟩

theorem Encoding.isLast {e₀ e : Encoder} {sent : Bytes} (h : Encoding e₀ e sent) : e.isLast = false := by
  cases h with
  | length _ => rfl
  | chunked _ => rfl

theorem Encoding.encode {e₀ e : Encoder} {sent chunk : Bytes} (h : Encoding e₀ e sent) (ne : chunk ≠ [])
    (small : chunk.length < 2 ^ 64) :
    Encoding e₀ (e.encode chunk).2 (sent ++ bytes (e.encode chunk).1) ∧
      ((e.encode chunk).2.isEof = true → Encoded e₀ (sent ++ bytes (e.encode chunk).1)) := by
  cases h with
  | @length n m sent count =>
    obtain ⟨made, next⟩ := Encoder.bytes_encode_length (e := .length m) (n := m) rfl chunk
    rw [made, next]
    have total : (sent ++ chunk.take m).length + (m - chunk.length) = n := by
      rw [List.length_append, List.length_take]; omega
    refine ⟨.length total, fun eof => .length ?_⟩
    have zero : m - chunk.length = 0 := by
      generalize m - chunk.length = k at eof
      cases k with
      | zero => rfl
      | succ k => exact absurd eof (by simp [Encoder.isEof])
    omega
  | @chunked trailers chunks ok =>
    obtain ⟨made, next⟩ := Encoder.bytes_encode_chunked (e := { kind := .chunked trailers }) (t := trailers) rfl chunk
    rw [made, next]
    have more := @Encoding.chunked trailers _ (ok.concat ne small)
    rw [List.flatMap_append, List.flatMap_singleton] at more
    exact ⟨more, fun eof => absurd eof (by simp [Encoder.isEof])⟩

theorem bytes_lastBuf_chunked {e : Encoder} {trailers : Option (List HeaderName)} (h : e.kind = .chunked trailers)
    (chunk : Bytes) : bytes (Conn.lastBuf e chunk) = chunkBytes chunk ++ lastChunk := by
  simp only [Conn.lastBuf, h]
  simp [bytes, EncodedBuf.contents, ChunkSize.chunk, ChunkSize.new, chunkBytes, lastChunk]
  rfl

/-- The last chunk, where the encoder says that the connection can be kept alive. -/
theorem Encoding.encodeAndEnd {e₀ e : Encoder} {sent chunk : Bytes} {dst : WriteBuf (EncodedBuf Bytes)}
    (h : Encoding e₀ e sent) (ne : chunk ≠ []) (small : chunk.length < 2 ^ 64)
    (keeps : (e.encodeAndEnd chunk dst).1 = true) : Encoded e₀ (sent ++ bytes (Conn.lastBuf e chunk)) := by
  cases h with
  | @length n m sent count =>
    simp only [Encoder.encodeAndEnd, Encoder.length, remaining_list] at keeps
    apply Encoded.length
    simp only [Conn.lastBuf, Encoder.length]
    split at keeps
    · next same =>
      rw [if_neg (by omega)]
      show (sent ++ chunk).length = n
      rw [List.length_append]; omega
    split at keeps
    · next longer =>
      rw [if_pos longer]
      show (sent ++ chunk.take m).length = n
      rw [List.length_append, List.length_take]; omega
    · exact absurd keeps (by simp)
  | @chunked trailers chunks ok =>
    rw [bytes_lastBuf_chunked rfl, ← List.append_assoc]
    have more := @Encoded.chunked trailers _ (ok.concat ne small)
    rwa [List.flatMap_append, List.flatMap_singleton] at more

theorem Encoding.end {e₀ e : Encoder} {sent : Bytes} {buf : Option (EncodedBuf Bytes)} (h : Encoding e₀ e sent)
    (ends : e.end = .ok buf) : Encoded e₀ (sent ++ (buf.map bytes).getD []) := by
  cases h with
  | @length n m sent count =>
    cases m with
    | zero =>
      cases ends
      exact .length (by simpa using count)
    | succ m => cases ends
  | @chunked trailers chunks ok =>
    cases ends
    exact .chunked ok

theorem Encoding.encodeTrailers {e₀ e : Encoder} {sent : Bytes} {trailers : HeaderMap} {buf : EncodedBuf Bytes}
    (h : Encoding e₀ e sent) (made : e.encodeTrailers trailers = some buf) : Encoded e₀ (sent ++ bytes buf) := by
  cases h with
  | length count => cases made
  | @chunked allowed chunks ok =>
    cases allowed with
    | none => cases made
    | some allowed =>
      simp only [Encoder.encodeTrailers] at made
      split at made
      · cases made
      · cases made
        exact .trailers ok

/-! ### Parsed heads -/

/-- A client never sees an expectation, and keeps no connection alive that is to be upgraded. -/
def ParsedMessage.Plain (msg : ParsedMessage) : Prop :=
  msg.expectContinue = false ∧ (msg.keepAlive = true → msg.wantsUpgrade = false)

/-- A head that parsing has found. The cached map has become its headers, and nobody has put an upgrade into it yet. -/
structure ParsedMessage.Found (msg : ParsedMessage) (cachedHeaders : Option HeaderMap) : Prop where
  plain : msg.Plain
  taken : cachedHeaders = none
  upgrade : msg.head.extensions.onUpgrade = false

section Parsing

variable [Httparse]

theorem Client.parseRound_found {ctx : ParseContext} {s s' : ParseState} {msg : ParsedMessage}
    (h : Client.parseRound ctx s = .inl (.ok (some msg), s')) : msg.Found s'.cachedHeaders := by
  unfold Client.parseRound at h
  split at h
  · cases h
  · cases h
  dsimp only at h
  split at h
  · cases h
  split at h
  · cases h
  · cases h
    exact ⟨⟨rfl, by simp⟩, rfl, rfl⟩
  · split at h
    · cases h
    · cases h

theorem Client.parseLoop_found {ctx : ParseContext} {fuel : Nat} {s s' : ParseState} {msg : ParsedMessage}
    (h : Client.parseLoop ctx fuel s = (.ok (some msg), s')) : msg.Found s'.cachedHeaders := by
  induction fuel generalizing s with
  | zero => cases h
  | succ fuel ih =>
    rw [Client.parseLoop] at h
    split at h
    · next res round =>
      subst h
      exact Client.parseRound_found round
    · exact ih h

theorem parseHeaders_found {bytes : Bytes} {prevLen : Option Nat} {ctx : ParseContext} {msg : ParsedMessage}
    {s' : ParseState} (h : parseHeaders bytes prevLen ctx = (.ok (some msg), s')) : msg.Found s'.cachedHeaders := by
  unfold parseHeaders at h
  split at h
  · cases h
  split at h
  · split at h
    · cases h
    · exact Client.parseLoop_found h
  · exact Client.parseLoop_found h

theorem Buffered.parseLoop_found {fuel : Nat} {ctx : ParseContext} {informed : List ResponseHead}
    {b : Buffered (EncodedBuf Bytes)} {msg : ParsedMessage}
    (h : (b.parseLoop fuel ctx informed).res = .ready (.ok msg)) :
    msg.Found (b.parseLoop fuel ctx informed).cachedHeaders := by
  induction fuel generalizing ctx informed b with
  | zero => cases h
  | succ fuel ih =>
    rw [Buffered.parseLoop] at h ⊢
    split at h
    · cases h
    · next found =>
      cases h
      exact parseHeaders_found found
    · dsimp only at h ⊢
      split at h
      · cases h
      next small =>
      rw [if_neg small]
      split at h
      · cases h
      · cases h
      · split at h
        · cases h
        next someBytes =>
        rw [if_neg someBytes]
        exact ih h

end Parsing

/-! ### What reading leaves alone -/

section Reads

variable {R α : Type} [MemRead R] {S : R → R → Prop} {f : R → α}

theorem Chunked.step_along (refl : ∀ r, S r r) (read : ∀ r len, S r (MemRead.readMem r len).2) (c : Chunked) (r : R) :
    S r (c.step r).2 := by
  unfold Chunked.step
  split
  · exact refl r
  · have along := read r c.chunkLen
    unfold Chunked.stepBody
    split
    · next h => rw [h] at along; exact along
    · next h => rw [h] at along; exact along
    · next h => rw [h] at along; exact along
  · have along := read r 1
    unfold Chunked.stepByte
    split
    · next h => rw [h] at along; exact along
    · next h => rw [h] at along; exact along
    · next h => rw [h] at along; exact along
    · next h => rw [h] at along; exact along

theorem Chunked.step_same (read : ∀ r len, f (MemRead.readMem r len).2 = f r) (c : Chunked) (r : R) :
    f (c.step r).2 = f r :=
  Chunked.step_along (S := fun r r' => f r' = f r) (fun _ => rfl) read c r

variable [Httparse]

theorem Chunked.decode_along (refl : ∀ r, S r r) (trans : ∀ r₁ r₂ r₃, S r₁ r₂ → S r₂ r₃ → S r₁ r₃)
    (read : ∀ r len, S r (MemRead.readMem r len).2) (fuel : Nat) (c : Chunked) (r : R) : S r (c.decode fuel r).2.2 := by
  induction fuel generalizing c r with
  | zero => exact refl r
  | succ fuel ih =>
    have along := Chunked.step_along refl read c r
    rw [Chunked.decode]
    split
    · next h => rw [h] at along; exact along
    · next h => rw [h] at along; exact along
    · next h =>
      rw [h] at along
      split
      · exact along
      split
      · exact along
      · exact trans _ _ _ along (ih _ _)

/-- A decoder moves its reader only as `read_mem` does. -/
theorem Decoder.decode_along (refl : ∀ r, S r r) (trans : ∀ r₁ r₂ r₃, S r₁ r₂ → S r₂ r₃ → S r₁ r₃)
    (read : ∀ r len, S r (MemRead.readMem r len).2) (d : Decoder) (r : R) : S r (d.decode r).2.2 := by
  unfold Decoder.decode
  split
  · next remaining =>
    split
    · exact refl r
    · have along := read r remaining
      split
      · next h => rw [h] at along; exact along
      · next h => rw [h] at along; exact along
      · next h =>
        rw [h] at along
        split
        · exact along
        split
        · exact along
        · exact along
  · exact Chunked.decode_along refl trans read _ _ _
  · split
    · exact refl r
    · have along := read r 8192
      split
      · next h => rw [h] at along; exact along
      · next h => rw [h] at along; exact along
      · next h => rw [h] at along; exact along

/-- A decoder changes only what `read_mem` changes. -/
theorem Decoder.decode_same (read : ∀ r len, f (MemRead.readMem r len).2 = f r) (d : Decoder) (r : R) :
    f (d.decode r).2.2 = f r :=
  Decoder.decode_along (S := fun r r' => f r' = f r) (fun _ => rfl) (fun _ _ _ a b => b.trans a) read d r

variable {g : Buffered (EncodedBuf Bytes) → α}

/-- `parse` changes only what reading changes, and the bytes that it has parsed. -/
theorem Buffered.parseLoop_same (read : ∀ b, g b.pollReadFromIo.2 = g b)
    (buf : ∀ b readBuf partialLen, g { b with readBuf, partialLen } = g b) (fuel : Nat) (ctx : ParseContext)
    (informed : List ResponseHead) (b : Buffered (EncodedBuf Bytes)) : g (b.parseLoop fuel ctx informed).io = g b := by
  induction fuel generalizing ctx informed b with
  | zero => rfl
  | succ fuel ih =>
    rw [parseLoop]
    split
    · exact buf b _ b.partialLen
    · exact buf b _ none
    · next s _ =>
      dsimp only
      split
      · exact buf b _ b.partialLen
      · have start := buf b s.buf (if s.buf.length > 0 then some s.buf.length else none)
        generalize ({ b with
            readBuf := s.buf
            partialLen := if s.buf.length > 0 then some s.buf.length else none } : Buffered (EncodedBuf Bytes)) = b₁
          at start ⊢
        have same := (read b₁).trans start
        split
        · next h => rw [h] at same; exact same
        · next h => rw [h] at same; exact same
        · next h =>
          rw [h] at same
          split
          · exact same
          · exact (ih _ _ _).trans same

end Reads

/-! ### Frames at the end of a body -/

section Decoding

variable {R : Type} [MemRead R]

theorem Chunked.readBody_data {c c' : Chunked} {slice data : Bytes} (h : c.readBody slice = .ok (c', some data)) :
    data ≠ [] := by
  unfold Chunked.readBody at h
  split at h
  · cases h
  · next ne =>
    cases h
    exact ne

theorem Chunked.step_data {c c' : Chunked} {r r' : R} {data : Bytes}
    (h : c.step r = (.ready (.ok (c', some data)), r')) : data ≠ [] := by
  have byte : c.stepByte r ≠ (.ready (.ok (c', some data)), r') := by
    unfold Chunked.stepByte
    split
    · simp
    · simp
    · simp
    · next b _ _ _ => cases c.onByte b <;> simp [Except.map]
  unfold Chunked.step at h
  split at h
  · cases h
  · unfold Chunked.stepBody at h
    split at h
    · cases h
    · cases h
    · exact Chunked.readBody_data (congrArg (fun p => p.1) h |> Poll.ready.inj)
  · exact absurd h byte

variable [Httparse]

/-- A chunked decoder that returns no data, or trailers, is at its end. -/
theorem Chunked.decode_last {fuel : Nat} {c c' : Chunked} {r r' : R} {frame : Frame}
    (h : c.decode fuel r = (.ready (.ok frame), c', r')) (last : frame = .data [] ∨ ∃ t, frame = .trailers t) :
    c'.state = .end := by
  induction fuel generalizing c r with
  | zero => cases h
  | succ fuel ih =>
    rw [Chunked.decode] at h
    split at h
    · cases h
    · cases h
    · next c₁ buf r₁ stepped =>
      split at h
      · next ended =>
        obtain ⟨-, h⟩ := Prod.mk.inj h
        obtain ⟨rfl, -⟩ := Prod.mk.inj h
        rw [Decoder.finish_state, ended]
      · split at h
        · next data =>
          cases h
          obtain h | ⟨t, h⟩ := last
          · exact absurd (Frame.data.inj h) (Chunked.step_data stepped)
          · cases h
        · exact ih h

/-- All three decoders are at their end when they return no data, or trailers. -/
theorem Decoder.decode_last {d d' : Decoder} {r r' : R} {frame : Frame}
    (h : d.decode r = (.ready (.ok frame), d', r')) (last : frame = .data [] ∨ ∃ t, frame = .trailers t) :
    d'.isEof = true := by
  unfold Decoder.decode at h
  split at h
  · split at h
    · next zero =>
      cases h
      rw [zero]; rfl
    · split at h
      · cases h
      · cases h
      · next buf _ _ =>
        split at h
        · cases h; rfl
        split at h
        · cases h
        · next some_bytes =>
          cases h
          obtain h | ⟨t, h⟩ := last
          · exact absurd (congrArg List.length (Frame.data.inj h)) some_bytes
          · cases h
  · next c =>
    dsimp only at h
    generalize decoded : c.decode (MemRead.budget r + 2) r = out at h
    obtain ⟨res, c', r₁⟩ := out
    cases h
    simpa [Decoder.isEof] using Chunked.decode_last decoded last
  · split at h
    · next ended =>
      cases h
      rw [ended]; rfl
    · split at h
      · cases h
      · cases h
      · cases h
        obtain h | ⟨t, h⟩ := last
        · rw [Frame.data.inj h]; rfl
        · cases h

/-- What `poll_read_body` makes of a frame: it goes on with data, or the body is complete. -/
theorem Conn.onFrame_cases {d d' : Decoder} {r r' : R} {frame : Frame}
    (h : d.decode r = (.ready (.ok frame), d', r')) :
    d'.isEof = true ∧ (Conn.onFrame d' frame).1 = some .keepAlive ∨
      (∃ data, frame = .data data ∧ data ≠ []) ∧ d'.isEof = false ∧ Conn.onFrame d' frame = (none, some frame) := by
  unfold Conn.onFrame
  cases frame with
  | trailers t => exact .inl ⟨Decoder.decode_last h (.inr ⟨t, rfl⟩), rfl⟩
  | data data =>
    dsimp only
    cases ended : d'.isEof with
    | true => exact .inl ⟨rfl, rfl⟩
    | false =>
      have ne : data ≠ [] := by
        rintro rfl
        exact absurd (Decoder.decode_last h (.inl rfl)) (by simp [ended])
      exact .inr ⟨⟨data, rfl, ne⟩, rfl, by simp [ne]⟩

end Decoding

end Hwire.Http1
