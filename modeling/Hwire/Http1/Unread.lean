import Hwire.Http1.EndOfFile
import Hwire.Http1.HeadEnd

/-!
# What is unread

The bytes of the transport that nobody has taken yet: in the read buffer, or still to come. Reads move them from the
transport into the buffer. Only the parser of heads and the decoder of a body take them out.
-/

namespace Hwire.Http1
open Lib

/-! ### Buffers -/

namespace Buffered

variable {B : Type}

theorem pollReadFromIo_unread (b : Buffered B) : b.pollReadFromIo.2.unread = b.unread := by
  unfold pollReadFromIo Transport.pollRead unread
  split
  · next read =>
    split at read
    · cases read
      rw [List.append_nil]
    · split at read
      · cases read
      · cases read
      · cases read
      · next events =>
        cases read
        simp [events, ReadEvent.bytes]
  · next read =>
    split at read
    · cases read
    · split at read
      · cases read
        rfl
      · next events =>
        cases read
        simp [events, ReadEvent.bytes]
      · cases read
      · cases read
  · next read =>
    split at read
    · cases read
    · split at read
      · cases read
      · cases read
      · next events =>
        cases read
        simp [events, ReadEvent.bytes]
      · cases read

theorem readMem_unread (b : Buffered B) (len : Nat) : (b.readMem len).2.unread <:+ b.unread := by
  have taken (b : Buffered B) (n : Nat) : Buffered.unread { b with readBuf := b.readBuf.drop n } <:+ b.unread := by
    refine ⟨b.readBuf.take n, ?_⟩
    rw [unread, unread, ← List.append_assoc, List.take_append_drop]
  unfold readMem
  split
  · exact taken b _
  · have read := b.pollReadFromIo_unread
    split
    · next h =>
      rw [h] at read
      exact read ▸ List.suffix_rfl
    · next h =>
      rw [h] at read
      exact read ▸ List.suffix_rfl
    · next b' h =>
      rw [h] at read
      exact read ▸ taken b' _

theorem pollFlush_unread [Buf B] (b : Buffered B) : b.pollFlush.2.unread = b.unread :=
  (unwritten_reads fun reads _ _ readBuf _ => readBuf ++ reads.flatMap ReadEvent.bytes).flush b

end Buffered

/-! ### Heads -/

section Heads

variable [Httparse]

/-- Informational heads at the front of some bytes, each as long as the parser says, and what follows them. -/
inductive Skips (ctx : ParseContext) : Bytes → Bytes → Prop where
  | none (bytes : Bytes) : Skips ctx bytes bytes
  | head {buf later rest : Bytes} {len status : Nat} {reason : Option Bytes} {version : Version}
      {indices : List HeaderIndices} (raw : Client.parseRaw ctx buf = .ok (some (len, status, reason, version, indices)))
      (informational : 100 ≤ status ∧ status ≤ 199) (skips : Skips ctx (buf.drop len ++ later) rest) :
      Skips ctx (buf ++ later) rest

theorem Skips.trans {ctx : ParseContext} {bytes₁ bytes₂ bytes₃ : Bytes} (h : Skips ctx bytes₁ bytes₂)
    (h' : Skips ctx bytes₂ bytes₃) : Skips ctx bytes₁ bytes₃ := by
  induction h with
  | none => exact h'
  | head raw informational _ ih => exact .head raw informational (ih h')

theorem Skips.append {ctx : ParseContext} {bytes rest : Bytes} (h : Skips ctx bytes rest) (more : Bytes) :
    Skips ctx (bytes ++ more) (rest ++ more) := by
  induction h with
  | none => exact .none _
  | head raw informational _ ih =>
    rw [List.append_assoc] at ih ⊢
    exact .head raw informational ih

theorem Skips.suffix {ctx : ParseContext} {bytes rest : Bytes} (h : Skips ctx bytes rest) : rest <:+ bytes := by
  induction h with
  | none => exact List.suffix_rfl
  | @head buf later rest len _ _ _ _ _ _ _ ih =>
    refine ih.trans ⟨buf.take len, ?_⟩
    rw [← List.append_assoc, List.take_append_drop]

/-- Where the head of a message ends in what was unread: behind the informational heads, and behind as many bytes as the
parser says. -/
structure EndsHead (ctx : ParseContext) (unread : Bytes) (msg : ParsedMessage) (after : Bytes) : Prop where
  decided : Client.decoder msg.head ctx.reqMethod = .ok (some (msg.decode, msg.wantsUpgrade))
  found : ∃ buf later len reason version indices, Skips ctx unread (buf ++ later) ∧
    Client.parseRaw ctx buf = .ok (some (len, msg.head.subject, reason, version, indices)) ∧ after = buf.drop len ++ later

theorem EndsHead.skip {ctx : ParseContext} {bytes unread after : Bytes} {msg : ParsedMessage} (skips : Skips ctx bytes unread)
    (h : EndsHead ctx unread msg after) : EndsHead ctx bytes msg after := by
  obtain ⟨buf, later, len, reason, version, indices, before, raw, rfl⟩ := h.found
  exact ⟨h.decided, buf, later, len, reason, version, indices, skips.trans before, raw, rfl⟩

theorem EndsHead.append {ctx : ParseContext} {unread after : Bytes} {msg : ParsedMessage} (h : EndsHead ctx unread msg after)
    (more : Bytes) : EndsHead ctx (unread ++ more) msg (after ++ more) := by
  obtain ⟨buf, later, len, reason, version, indices, before, raw, rfl⟩ := h.found
  refine ⟨h.decided, buf, later ++ more, len, reason, version, indices, ?_, raw, List.append_assoc ..⟩
  rw [← List.append_assoc]
  exact before.append more

omit [Httparse] in
/-- Only `101 Switching Protocols`, or a success of CONNECT, is an upgrade, and it has no body. -/
theorem Client.decoder_upgrade {head : ResponseHead} {method : Option Method} {decode : DecodedLength}
    (h : Client.decoder head method = .ok (some (decode, true))) :
    decode = .ZERO ∧ (head.subject = 101 ∨ method = some .connect ∧ 200 ≤ head.subject ∧ head.subject ≤ 299) := by
  obtain ⟨switching, res⟩ | ⟨-, res⟩ | ⟨connect, res⟩ | ⟨decode, res, -⟩ := Client.decoder_cases h
  · cases res
    exact ⟨rfl, .inl switching⟩
  · cases res
  · cases res
    exact ⟨rfl, .inr connect⟩
  · cases res

theorem EndsHead.zero_of_wantsUpgrade {ctx : ParseContext} {unread after : Bytes} {msg : ParsedMessage}
    (h : EndsHead ctx unread msg after) (wants : msg.wantsUpgrade = true) : msg.decode = .ZERO :=
  (Client.decoder_upgrade (wants ▸ h.decided)).1

/-- The map that is kept for the headers is not looked at. -/
theorem Skips.recached {ctx : ParseContext} {cachedHeaders : Option HeaderMap} {bytes rest : Bytes}
    (h : Skips { ctx with cachedHeaders } bytes rest) : Skips ctx bytes rest := by
  induction h with
  | none => exact .none _
  | head raw informational _ ih => exact .head raw informational ih

theorem EndsHead.recached {ctx : ParseContext} {cachedHeaders : Option HeaderMap} {unread after : Bytes}
    {msg : ParsedMessage} (h : EndsHead { ctx with cachedHeaders } unread msg after) : EndsHead ctx unread msg after := by
  obtain ⟨buf, later, len, reason, version, indices, before, raw, rfl⟩ := h.found
  exact ⟨h.decided, buf, later, len, reason, version, indices, before.recached, raw, rfl⟩

/-- What parsing leaves of the bytes, whatever it has found. -/
structure Parsed (ctx : ParseContext) (bytes : Bytes) (res : Except Parse (Option ParsedMessage)) (rest : Bytes) : Prop where
  suffix : rest <:+ bytes
  skips : res = .ok none → Skips ctx bytes rest
  ends : ∀ msg, res = .ok (some msg) → EndsHead ctx bytes msg rest

theorem Parsed.failed {ctx : ParseContext} {bytes rest : Bytes} {e : Parse} (suffix : rest <:+ bytes) :
    Parsed ctx bytes (.error e) rest :=
  ⟨suffix, fun none => (by cases none), fun _ found => by cases found⟩

theorem Parsed.skipped {ctx : ParseContext} {bytes rest : Bytes} (skips : Skips ctx bytes rest) :
    Parsed ctx bytes (.ok none) rest :=
  ⟨skips.suffix, fun _ => skips, fun _ found => by cases found⟩

namespace Client

/-- One head at the front of the buffer. -/
theorem skips_head {ctx : ParseContext} {buf : Bytes} {len status : Nat} {reason : Option Bytes} {version : Version}
    {indices : List HeaderIndices} (raw : parseRaw ctx buf = .ok (some (len, status, reason, version, indices)))
    {inc : ResponseHead} {method : Option Method} (skipped : decoder inc method = .ok none) (same : inc.subject = status) :
    Skips ctx buf (buf.drop len) := by
  have one : Skips ctx (buf ++ []) (buf.drop len) := by
    refine .head raw (same ▸ informational_of_skipped skipped) ?_
    rw [List.append_nil]
    exact .none _
  rwa [List.append_nil] at one

theorem parseRound_parsed {ctx : ParseContext} {s s' : ParseState} {res : Except Parse (Option ParsedMessage)}
    (h : parseRound ctx s = .inl (res, s')) : Parsed ctx s.buf res s'.buf := by
  unfold parseRound at h
  split at h
  · cases h
    exact .failed List.suffix_rfl
  · cases h
    exact .skipped (.none _)
  next len status reason version indices raw =>
  dsimp only at h
  split at h
  · cases h
    exact .failed (List.drop_suffix _ _)
  split at h
  · cases h
    exact .failed (List.drop_suffix _ _)
  · next decided =>
    cases h
    refine ⟨List.drop_suffix _ _, fun none => (by cases none), ?_⟩
    intro msg found
    cases found
    refine ⟨decided, s.buf, [], len, reason, version, indices, ?_, raw, (List.append_nil _).symm⟩
    rw [List.append_nil]
    exact .none _
  · next skipped =>
    split at h
    · cases h
      exact .skipped (skips_head raw skipped rfl)
    · cases h

theorem parseRound_skips {ctx : ParseContext} {s s' : ParseState} (h : parseRound ctx s = .inr s') :
    Skips ctx s.buf s'.buf := by
  unfold parseRound at h
  split at h
  · cases h
  · cases h
  next raw =>
  dsimp only at h
  split at h
  · cases h
  split at h
  · cases h
  · cases h
  next skipped =>
  split at h
  · cases h
  · cases h
    exact skips_head raw skipped rfl

theorem parseLoop_parsed {ctx : ParseContext} {fuel : Nat} {s s' : ParseState} {res : Except Parse (Option ParsedMessage)}
    (h : parseLoop ctx fuel s = (res, s')) : Parsed ctx s.buf res s'.buf := by
  induction fuel generalizing s with
  | zero =>
    cases h
    exact .skipped (.none _)
  | succ fuel ih =>
    rw [parseLoop] at h
    split at h
    · next round =>
      subst h
      exact parseRound_parsed round
    · next round =>
      have skips := parseRound_skips round
      have later := ih h
      exact ⟨later.suffix.trans skips.suffix, fun none => skips.trans (later.skips none),
        fun msg found => (later.ends msg found).skip skips⟩

end Client

theorem parseHeaders_parsed {bytes : Bytes} {prevLen : Option Nat} {ctx : ParseContext} {s : ParseState}
    {res : Except Parse (Option ParsedMessage)} (h : parseHeaders bytes prevLen ctx = (res, s)) :
    Parsed ctx bytes res s.buf := by
  unfold parseHeaders at h
  split at h
  · cases h
    exact .skipped (.none _)
  split at h
  · split at h
    · cases h
      exact .skipped (.none _)
    · exact Client.parseLoop_parsed h
  · exact Client.parseLoop_parsed h

/-- The same for everything that is unread, over all reads of a call of `parse`. -/
structure HeadParse.Reads (ctx : ParseContext) (unread : Bytes) (h : HeadParse) : Prop where
  suffix : h.io.unread <:+ unread
  skips : h.res = .pending → Skips ctx unread h.io.unread
  ends : ∀ msg, h.res = .ready (.ok msg) → EndsHead ctx unread msg h.io.unread

theorem HeadParse.Reads.failed {ctx : ParseContext} {unread : Bytes} {h : HeadParse} {e : Error}
    (res : h.res = .ready (.error e)) (suffix : h.io.unread <:+ unread) : h.Reads ctx unread := by
  refine ⟨suffix, ?_, ?_⟩
  · intro pending
    rw [res] at pending
    cases pending
  · intro msg found
    rw [res] at found
    cases found

theorem Buffered.parseLoop_reads {fuel : Nat} {ctx : ParseContext} {informed : List ResponseHead}
    {b : Buffered (EncodedBuf Bytes)} : (b.parseLoop fuel ctx informed).Reads ctx b.unread := by
  induction fuel generalizing ctx informed b with
  | zero => exact ⟨List.suffix_rfl, fun _ => .none _, fun _ found => by cases found⟩
  | succ fuel ih =>
    rw [parseLoop]
    cases round : parseHeaders b.readBuf b.partialLen ctx with
    | mk res s =>
      have parsed := parseHeaders_parsed round
      have rest : s.buf ++ b.io.reads.flatMap ReadEvent.bytes <:+ b.unread := by
        obtain ⟨skipped, eq⟩ := parsed.suffix
        exact ⟨skipped, by rw [unread, ← eq, List.append_assoc]⟩
      cases res with
      | error e => exact .failed rfl rest
      | ok found =>
        cases found with
        | some msg =>
          refine ⟨rest, fun pending => (by cases pending), ?_⟩
          intro msg' same
          cases same
          exact (parsed.ends msg rfl).append _
        | none =>
          have skips := (parsed.skips rfl).append (b.io.reads.flatMap ReadEvent.bytes)
          dsimp only
          split
          · exact .failed rfl rest
          generalize marked : ({ b with readBuf := s.buf, partialLen := if s.buf.length > 0 then some s.buf.length else none } :
            Buffered (EncodedBuf Bytes)) = b₁
          have moved : b₁.pollReadFromIo.2.unread = s.buf ++ b.io.reads.flatMap ReadEvent.bytes := by
            rw [pollReadFromIo_unread, ← marked]
            rfl
          rw [← moved] at skips rest
          cases read : b₁.pollReadFromIo with
          | mk res b₂ =>
            rw [read] at skips rest
            cases res with
            | pending => exact ⟨rest, fun _ => skips, fun _ found => by cases found⟩
            | ready res =>
              cases res with
              | error e => exact .failed rfl rest
              | ok n =>
                by_cases eof : n = 0
                · simp only [eof, if_true]
                  exact .failed rfl rest
                · simp only [eof, if_false]
                  have later := @ih { ctx with cachedHeaders := s.cachedHeaders } (informed ++ s.informed) b₂
                  refine ⟨later.suffix.trans rest, ?_, ?_⟩
                  · intro pending
                    exact Skips.trans skips (later.skips pending).recached
                  · intro msg found
                    exact (later.ends msg found).recached.skip skips

end Heads

/-! ### Connections -/

namespace Conn

def unread (c : Conn) : Bytes := c.io.unread

/-- What is read once, if at all, is still unread. -/
theorem unread_of_io {c c' : Conn} (io : c'.io = c.io ∨ c'.io = c.io.pollReadFromIo.2) : c'.unread = c.unread := by
  unfold unread
  obtain same | read := io
  · rw [same]
  · rw [read, Buffered.pollReadFromIo_unread]

theorem tryKeepAlive_unread (c : Conn) : c.tryKeepAlive.unread = c.unread :=
  unread_of_io (maybeNotify_io { c with state := c.state.tryKeepAlive })

theorem Looked.unread {c c' : Conn} (looked : c.Looked c') : c'.unread = c.unread := unread_of_io looked.io

theorem pollReadKeepAlive_unread (c : Conn) : c.pollReadKeepAlive.2.unread = c.unread := c.pollReadKeepAlive_looked.unread

theorem pollFlush_unread (c : Conn) : c.pollFlush.2.unread = c.unread := by
  have flushed : unread { c with io := c.io.pollFlush.2 } = c.unread := c.io.pollFlush_unread
  obtain ⟨-, eq⟩ | ⟨-, eq⟩ := c.pollFlush_eq
  · rw [eq]
    exact (tryKeepAlive_unread _).trans flushed
  · rw [eq]
    exact flushed

theorem pollShutdown_unread (c : Conn) : c.pollShutdown.2.unread = c.unread := by
  have same : c.io.io.pollShutdown.2.reads = c.io.io.reads := by
    unfold Transport.pollShutdown
    split
    · rfl
    · rfl
  exact congrArg (fun reads : List ReadEvent => c.io.readBuf ++ reads.flatMap ReadEvent.bytes) same

theorem onReadHeadError_unread (c : Conn) (e : Error) : (c.onReadHeadError e).2.unread <:+ c.unread := by
  have skipped : c.io.consumeLeadingLines.unread <:+ c.unread := by
    obtain ⟨lines, eq⟩ := List.dropWhile_suffix (l := c.io.readBuf) fun x => x == CR || x == LF
    refine ⟨lines, ?_⟩
    rw [unread, Buffered.unread, Buffered.unread, ← List.append_assoc]
    exact congrArg (· ++ c.io.io.reads.flatMap ReadEvent.bytes) eq
  unfold onReadHeadError
  dsimp only
  split
  · exact skipped
  · exact skipped

section Calls

variable [Httparse]

theorem pollReadHead_unread (c : Conn) : c.pollReadHead.2.unread <:+ c.unread := by
  have parsed : c.withParse.unread <:+ c.unread := Buffered.parseLoop_reads.suffix
  obtain ⟨-, eq⟩ | ⟨e, -, eq⟩ | ⟨msg, trailers, -, -, -, eq⟩ := c.pollReadHead_cases
  · rw [eq]
    exact parsed
  · rw [eq]
    exact (onReadHeadError_unread _ e).trans parsed
  · rw [eq]
    dsimp only
    split
    · have kept := tryKeepAlive_unread (c.withParse.withHead msg)
      exact kept ▸ parsed
    · exact parsed

/-- A head that was found is behind what was skipped, and is noted as the answer of its exchange. -/
theorem pollReadHead_ends {c : Conn} {msg : ParsedMessage} (found : c.pollReadHead.1 = .ready (some (.ok msg))) :
    EndsHead (parseContext c.state) c.unread msg c.pollReadHead.2.unread ∧
      c.pollReadHead.2.log = (c.note fun x => { x with answer := some ⟨msg.keepAlive, msg.wantsUpgrade, msg.decode⟩ }).log := by
  obtain ⟨-, eq⟩ | ⟨e, -, eq⟩ | ⟨msg', trailers, -, parsed, res, eq⟩ := c.pollReadHead_cases
  · rw [eq] at found
    cases found
  · rw [eq] at found
    generalize (c.withParse.onReadHeadError e).1 = err at found
    cases err with
    | none => cases found
    | some err => cases found
  · obtain rfl : msg' = msg := by
      rw [res] at found
      cases found
      rfl
    have ends := Buffered.parseLoop_reads.ends msg' parsed
    rw [eq]
    dsimp only
    split
    · have kept := tryKeepAlive_unread (c.withParse.withHead msg')
      exact ⟨kept ▸ ends, tryKeepAlive_log _⟩
    · exact ⟨ends, rfl⟩

theorem pollReadBodyWith_unread (c : Conn) (d : Decoder) : (c.pollReadBodyWith d).2.unread <:+ c.unread := by
  have decoded : (d.decode c.io).2.2.unread <:+ c.unread :=
    Decoder.decode_along (S := fun b b' : Buffered (EncodedBuf Bytes) => b'.unread <:+ b.unread) (fun _ => List.suffix_rfl)
      (fun _ _ _ a b => b.trans a) Buffered.readMem_unread d c.io
  obtain ⟨d', io, out, eq⟩ | ⟨e, d', io, out, eq⟩ | ⟨frame, d', io, out, -, eq⟩ | ⟨data, d', io, out, -, -, eq⟩ :=
    c.pollReadBodyWith_cases d
  · rw [out] at decoded
    rw [eq]
    exact decoded
  · rw [out] at decoded
    rw [eq]
    have kept := tryKeepAlive_unread { c with io, state := { c.state with reading := .closed } }
    exact kept ▸ decoded
  · rw [out] at decoded
    rw [eq]
    have kept := tryKeepAlive_unread (c.withFrame io d' frame .keepAlive)
    exact kept ▸ decoded
  · rw [out] at decoded
    rw [eq]
    exact decoded

theorem Call.unread {c c' : Conn} (call : c.Call c') (inv : c.Inv) : c'.unread <:+ c.unread := by
  have same (eq : c'.unread = c.unread) : c'.unread <:+ c.unread := eq ▸ List.suffix_rfl
  have read (can : c.canReadBody = true) : c.pollReadBody.2.unread <:+ c.unread := by
    obtain ⟨d, reading⟩ := inv.reading_of_canReadBody can
    rw [pollReadBody_of_reading reading]
    exact c.pollReadBodyWith_unread d
  have sent {c' : Conn} (sends : c.Sends c') : c'.unread <:+ c.unread := by
    obtain rfl | ⟨writeBuf, more, next, -, rfl⟩ := sends
    · exact List.suffix_rfl
    · exact List.suffix_rfl
  cases call with
  | readHead => exact c.pollReadHead_unread
  | readBody can => exact read can
  | drain can =>
    obtain ⟨d, reading⟩ := inv.reading_of_canReadBody can
    rcases pollDrainOrCloseRead_eq reading with eq | eq
    · rw [eq]
      exact read can
    · rw [eq]
      exact read can
  | readKeepAlive => exact same c.pollReadKeepAlive_unread
  | flush => exact same c.pollFlush_unread
  | shutdown => exact same c.pollShutdown_unread
  | writeBody can => exact sent (writeBody_sends can _)
  | writeTrailers can => exact sent (writeTrailers_sends can _)
  | writeBodyAndEnd can => exact sent (writeBodyAndEnd_sends can _)
  | endBody can => exact sent (endBody_sends can)
  | readAgain | closeRead | close | takeError | pendingUpgrade | onUpgrade => exact List.suffix_rfl

theorem Step.unread {c c' : Conn} (step : c.Step c') (inv : c.Inv) : c'.unread <:+ c.unread := by
  cases step with
  | call call => exact call.unread inv
  | writeHead _ _ wrote =>
    unfold Conn.writeHead at wrote
    obtain ⟨_, -, rfl⟩ := Option.map_eq_some_iff.mp wrote
    exact List.suffix_rfl

/-- What is unread later is the end of what was unread before. -/
theorem Steps.unread {c c' : Conn} (steps : c.Steps c') (inv : c.Inv) : c'.unread <:+ c.unread := by
  induction steps with
  | refl => exact List.suffix_rfl
  | tail earlier step ih => exact (step.unread (Steps.inv earlier inv).1).trans ih

omit [Httparse] in
theorem handshake_unread (opts : Http1Options) (io : Transport) :
    (handshake opts io).unread = io.reads.flatMap ReadEvent.bytes := by
  unfold handshake
  cases opts.h1Writev <;> cases opts.h1ReadBufExactSize <;> cases opts.h1MaxBufSize <;> rfl

end Calls

end Conn

end Hwire.Http1
