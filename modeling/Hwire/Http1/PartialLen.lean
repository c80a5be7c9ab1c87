import Hwire.Http1.HeadEnd
import Hwire.Http1.Runs

/-!
# The length of a partial head

The scan for the end of a head goes on where the last one stopped, three bytes early. The length up to which a head was
parsed is set anew whenever heads of status 1xx have taken bytes, so that it stays inside of the read buffer.
-/

namespace Hwire.Http1
open Lib

/-! ### The scan -/

/-- Either of the ends that the scan knows. -/
def EndsIn (bytes : Bytes) : Prop := [CR, LF, CR, LF] <:+: bytes ∨ [LF, LF] <:+: bytes

theorem infix_iff_occurs (pattern bytes : Bytes) : pattern <:+: bytes ↔ ∃ i, Occurs pattern bytes i := by
  rw [List.infix_iff_prefix_suffix]
  constructor
  · rintro ⟨rest, starts, ends⟩
    rw [List.suffix_iff_eq_drop] at ends
    exact ⟨_, ends ▸ starts⟩
  · rintro ⟨i, found⟩
    exact ⟨bytes.drop i, found, List.drop_suffix i bytes⟩

theorem Occurs.infix_take {pattern bytes : Bytes} {i n : Nat} (found : Occurs pattern bytes i)
    (early : i + pattern.length ≤ n) : pattern <:+: bytes.take n := by
  rw [infix_iff_occurs]
  refine ⟨i, ?_⟩
  rw [Occurs, List.drop_take, List.prefix_take_iff]
  exact ⟨found, by omega⟩

/-- Nothing before the three bytes can be the beginning of a new end. -/
theorem isCompleteFast_iff_endsIn {bytes : Bytes} {prevLen : Nat} (before : ¬ EndsIn (bytes.take prevLen)) :
    isCompleteFast bytes prevLen = true ↔ EndsIn bytes := by
  rw [isCompleteFast_iff]
  constructor
  · rintro ⟨i, -, found | found⟩
    · exact .inr ((infix_iff_occurs _ _).mpr ⟨i, found⟩)
    · exact .inl ((infix_iff_occurs _ _).mpr ⟨i, found⟩)
  · rintro (whole | bare)
    · obtain ⟨i, found⟩ := (infix_iff_occurs _ _).mp whole
      refine ⟨i, ?_, .inr found⟩
      by_contra late
      have early : i + [CR, LF, CR, LF].length ≤ prevLen := by
        show i + 4 ≤ prevLen
        omega
      exact before (.inl (found.infix_take early))
    · obtain ⟨i, found⟩ := (infix_iff_occurs _ _).mp bare
      refine ⟨i, ?_, .inl found⟩
      by_contra late
      have early : i + [LF, LF].length ≤ prevLen := by
        show i + 2 ≤ prevLen
        omega
      exact before (.inr (found.infix_take early))

/-- `&bytes[start..]` -/
def sliceFrom (bytes : Bytes) (start : Nat) : Option Bytes :=
  if start ≤ bytes.length then some (bytes.drop start) else none

/-- The loop of `is_complete_fast`, with the bytes from `i` on. -/
def scanChecked (bytes : Bytes) : Nat → Bytes → Option Bool
  | _, [] => some false
  | i, b :: rest =>
    if b = CR then
      (sliceFrom bytes (i + 1)).bind fun later =>
        if later.take 3 = [LF, CR, LF] then some true else scanChecked bytes (i + 1) rest
    else if b = LF && bytes[i + 1]? = some LF then some true
    else scanChecked bytes (i + 1) rest

/-- `is_complete_fast` with the slices that may panic. -/
def isCompleteFastChecked (bytes : Bytes) (prevLen : Nat) : Option Bool :=
  (sliceFrom bytes (prevLen - 3)).bind fun bytes => scanChecked bytes 0 bytes

theorem scanChecked_eq {bytes rest : Bytes} {i : Nat} (here : bytes.drop i = rest) :
    scanChecked bytes i rest = some (scanComplete rest) := by
  induction rest generalizing i with
  | nil => rfl
  | cons b rest ih =>
    have later : bytes.drop (i + 1) = rest := by
      rw [← List.drop_drop, here]
      rfl
    have inside : i + 1 ≤ bytes.length := by
      have size := congrArg List.length here
      rw [List.length_drop, List.length_cons] at size
      omega
    have next : bytes[i + 1]? = rest.head? := by rw [← later, List.head?_drop]
    have slice : sliceFrom bytes (i + 1) = some rest := by rw [sliceFrom, if_pos inside, later]
    rw [scanChecked, scanComplete, ih later, next, slice]
    dsimp only [Option.bind_some]
    split
    · split
      · rfl
      · rfl
    · split
      · rfl
      · rfl

theorem isCompleteFastChecked_eq {bytes : Bytes} {prevLen : Nat} (inside : prevLen ≤ bytes.length) :
    isCompleteFastChecked bytes prevLen = some (isCompleteFast bytes prevLen) := by
  rw [isCompleteFastChecked, sliceFrom, if_pos (by omega), Option.bind_some, scanChecked_eq (List.drop_zero ..)]
  rfl

/-! ### Calls of `parse` -/

namespace Buffered

variable {B : Type}

/-- The stored length is inside of the read buffer. It was stored when there was room in the buffer. -/
def Marked (b : Buffered B) : Prop :=
  ∀ p, b.partialLen = some p → p ≤ b.readBuf.length ∧ p < b.readBufStrategy.max

theorem Marked.of_none {b : Buffered B} (none : b.partialLen = none) : b.Marked := by
  intro p same
  rw [none] at same
  cases same

/-- Bytes are only put behind those that are there. -/
structure Fills (b b' : Buffered B) : Prop where
  partialLen : b'.partialLen = b.partialLen
  readBuf : b.readBuf <+: b'.readBuf
  max : b'.readBufStrategy.max = b.readBufStrategy.max

theorem Fills.refl (b : Buffered B) : b.Fills b := ⟨rfl, List.prefix_rfl, rfl⟩

theorem Fills.trans {b₁ b₂ b₃ : Buffered B} (a : b₁.Fills b₂) (b : b₂.Fills b₃) : b₁.Fills b₃ :=
  ⟨b.partialLen.trans a.partialLen, a.readBuf.trans b.readBuf, b.max.trans a.max⟩

theorem Marked.fills {b b' : Buffered B} (marked : b.Marked) (fills : b.Fills b') : b'.Marked := by
  intro p same
  obtain ⟨inside, room⟩ := marked p (fills.partialLen ▸ same)
  have longer := fills.readBuf.length_le
  rw [fills.max]
  omega

theorem pollReadFromIo_fills (b : Buffered B) : b.Fills b.pollReadFromIo.2 := by
  unfold pollReadFromIo
  split
  · exact ⟨rfl, List.prefix_append _ _, ReadStrategy.record_max _ _⟩
  · exact ⟨rfl, List.prefix_rfl, rfl⟩
  · exact ⟨rfl, List.prefix_rfl, rfl⟩

theorem pollFlush_fills [Buf B] (b : Buffered B) : b.Fills b.pollFlush.2 := by
  have same : Unwritten fun b : Buffered B => (b.partialLen, b.readBuf, b.readBufStrategy) :=
    ⟨fun _ _ => rfl, fun _ _ => rfl, fun _ => rfl⟩
  obtain ⟨partialLen, rest⟩ := Prod.mk.inj (same.flush b)
  obtain ⟨readBuf, strategy⟩ := Prod.mk.inj rest
  exact ⟨partialLen, readBuf ▸ List.prefix_rfl, by rw [strategy]⟩

theorem readMem_partialLen (b : Buffered B) (len : Nat) : (b.readMem len).2.partialLen = b.partialLen := by
  have read := b.pollReadFromIo_fills.partialLen
  unfold readMem
  split
  · rfl
  · split
    · next h =>
      rw [h] at read
      exact read
    · next h =>
      rw [h] at read
      exact read
    · next h =>
      rw [h] at read
      exact read

variable [Httparse]

/-- The calls of `parse_headers` in a call of `parse`. -/
def headCalls : Nat → ParseContext → Buffered (EncodedBuf Bytes) → List (ParseContext × Buffered (EncodedBuf Bytes))
  | 0, _, _ => []
  | fuel + 1, ctx, b =>
    (ctx, b) ::
      match parseHeaders b.readBuf b.partialLen ctx with
      | (.ok none, s) =>
        let currLen := s.buf.length
        if currLen ≥ b.readBufStrategy.max then []
        else
          let b := { b with readBuf := s.buf, partialLen := if currLen > 0 then some currLen else none }
          match b.pollReadFromIo with
          | (.ready (.ok n), b) => if n = 0 then [] else headCalls fuel { ctx with cachedHeaders := s.cachedHeaders } b
          | _ => []
      | _ => []

/-- What a call of `parse` leaves, with the calls of `parse_headers` that it made. -/
structure Marks (tried : List (ParseContext × Buffered (EncodedBuf Bytes))) (h : HeadParse) : Prop where
  calls : ∀ call ∈ tried, call.2.Marked
  pending : h.res = .pending → h.io.Marked
  found : ∀ msg, h.res = .ready (.ok msg) → h.io.partialLen = none
  /-- Only the parser leaves the old length when it fails. -/
  left : h.io.Marked ∨ ∃ call ∈ tried, ∃ e, (parseHeaders call.2.readBuf call.2.partialLen call.1).1 = .error e

theorem Marks.failed {ctx : ParseContext} {b : Buffered (EncodedBuf Bytes)}
    {later : List (ParseContext × Buffered (EncodedBuf Bytes))} {h : HeadParse} {e : Error} (marked : b.Marked)
    (later_marked : ∀ call ∈ later, call.2.Marked) (res : h.res = .ready (.error e))
    (left : h.io.Marked ∨ ∃ e, (parseHeaders b.readBuf b.partialLen ctx).1 = .error e) : Marks ((ctx, b) :: later) h := by
  refine ⟨List.forall_mem_cons.mpr ⟨marked, later_marked⟩, ?_, ?_, ?_⟩
  · intro pending
    rw [res] at pending
    cases pending
  · intro msg found
    rw [res] at found
    cases found
  · exact left.imp_right fun failed => ⟨_, List.mem_cons_self, failed⟩

theorem parseLoop_marks {fuel : Nat} {ctx : ParseContext} {informed : List ResponseHead} {b : Buffered (EncodedBuf Bytes)}
    (marked : b.Marked) : Marks (headCalls fuel ctx b) (b.parseLoop fuel ctx informed) := by
  induction fuel generalizing ctx informed b with
  | zero => exact ⟨fun _ member => (by cases member), fun _ => marked, fun _ found => (by cases found), .inl marked⟩
  | succ fuel ih =>
    have nothing : ∀ call ∈ ([] : List (ParseContext × Buffered (EncodedBuf Bytes))), call.2.Marked := by
      intro _ member
      cases member
    have one : ∀ call ∈ [(ctx, b)], call.2.Marked := List.forall_mem_cons.mpr ⟨marked, nothing⟩
    rw [parseLoop, headCalls]
    cases round : parseHeaders b.readBuf b.partialLen ctx with
    | mk res s =>
      cases res with
      | error e => exact .failed marked nothing rfl (.inr ⟨e, congrArg Prod.fst round⟩)
      | ok found =>
        cases found with
        | some msg => exact ⟨one, fun pending => (by cases pending), fun _ _ => rfl, .inl (.of_none rfl)⟩
        | none =>
          dsimp only
          by_cases full : s.buf.length ≥ b.readBufStrategy.max
          · rw [if_pos full, if_pos full]
            refine .failed marked nothing rfl (.inl ?_)
            intro p same
            have room := (marked p same).2
            exact ⟨by show p ≤ s.buf.length; omega, room⟩
          · rw [if_neg full, if_neg full]
            -- The length is taken from what is left after the skipped heads.
            generalize based : ({ b with readBuf := s.buf, partialLen := if s.buf.length > 0 then some s.buf.length else none } :
              Buffered (EncodedBuf Bytes)) = b₁
            have marked₁ : b₁.Marked := by
              subst based
              intro p same
              dsimp only at same ⊢
              split at same
              · obtain rfl := Option.some.inj same
                exact ⟨Nat.le_refl _, Nat.lt_of_not_le full⟩
              · cases same
            have filled := marked₁.fills b₁.pollReadFromIo_fills
            cases read : b₁.pollReadFromIo with
            | mk res b₂ =>
              rw [read] at filled
              cases res with
              | pending => exact ⟨one, fun _ => filled, fun _ found => (by cases found), .inl filled⟩
              | ready res =>
                cases res with
                | error e => exact .failed marked nothing rfl (.inl filled)
                | ok n =>
                  dsimp only
                  by_cases eof : n = 0
                  · rw [if_pos eof, if_pos eof]
                    exact .failed marked nothing rfl (.inl filled)
                  · rw [if_neg eof, if_neg eof]
                    obtain ⟨calls, pending, found, left⟩ := @ih { ctx with cachedHeaders := s.cachedHeaders }
                      (informed ++ s.informed) b₂ filled
                    refine ⟨List.forall_mem_cons.mpr ⟨marked, calls⟩, pending, found, left.imp_right ?_⟩
                    rintro ⟨call, member, failed⟩
                    exact ⟨call, List.mem_cons_of_mem _ member, failed⟩

/-- The calls of `parse_headers` in the call of `parse` that the connection would make. -/
def parseCalls (b : Buffered (EncodedBuf Bytes)) (ctx : ParseContext) : List (ParseContext × Buffered (EncodedBuf Bytes)) :=
  headCalls (b.io.reads.length + 1) ctx b

theorem parse_marks {b : Buffered (EncodedBuf Bytes)} (ctx : ParseContext) (marked : b.Marked) :
    Marks (b.parseCalls ctx) (b.parse ctx) := parseLoop_marks marked

end Buffered

/-! ### Connections -/

namespace Conn

/-- While a head may still be read, the stored length is inside of the buffer; while a body is read, there is none. -/
def Marked (c : Conn) : Prop :=
  c.state.reading = .closed ∨ c.state.reading = .init ∧ c.io.Marked ∨ c.io.partialLen = none

theorem Marked.of_opened {c : Conn} (marked : c.Marked) (opened : c.isReadClosed = false) : c.io.Marked := by
  obtain closed | ⟨-, marked⟩ | none := marked
  · rw [isReadClosed, State.isReadClosed, closed] at opened
    cases opened
  · exact marked
  · exact .of_none none

theorem Marked.none_of_canReadBody {c : Conn} (marked : c.Marked) (can : c.canReadBody = true) : c.io.partialLen = none := by
  unfold canReadBody at can
  obtain closed | ⟨init, -⟩ | none := marked
  · rw [closed] at can
    cases can
  · rw [init] at can
    cases can
  · exact none

theorem handshake_marked (opts : Http1Options) (io : Transport) : (handshake opts io).Marked := by
  refine .inr (.inr ?_)
  unfold handshake
  cases opts.h1Writev <;> cases opts.h1ReadBufExactSize <;> cases opts.h1MaxBufSize <;> rfl

/-- Nothing is taken out of the buffer, and a head may be read only where it might have been before, or after a message. -/
structure Onward (c c' : Conn) : Prop where
  fills : c.io.Fills c'.io
  reading : c'.state.reading = c.state.reading ∨ c'.state.reading = .closed ∨ c.state.reading = .keepAlive

theorem Onward.of_io {c c' : Conn} (io : c'.io = c.io)
    (reading : c'.state.reading = c.state.reading ∨ c'.state.reading = .closed) : c.Onward c' :=
  ⟨io ▸ .refl _, reading.imp_right .inl⟩

theorem Marked.onward {c c' : Conn} (marked : c.Marked) (onward : c.Onward c') : c'.Marked := by
  obtain ⟨fills, reading⟩ := onward
  obtain closed | ⟨init, inside⟩ | none := marked
  · obtain same | closed' | idle := reading
    · exact .inl (same.trans closed)
    · exact .inl closed'
    · rw [closed] at idle
      cases idle
  · obtain same | closed' | idle := reading
    · exact .inr (.inl ⟨same.trans init, inside.fills fills⟩)
    · exact .inl closed'
    · rw [init] at idle
      cases idle
  · exact .inr (.inr (fills.partialLen.trans none))

theorem fills_of_io {c c' : Conn} (io : c'.io = c.io ∨ c'.io = c.io.pollReadFromIo.2) : c.io.Fills c'.io := by
  obtain same | read := io
  · rw [same]
    exact .refl _
  · rw [read]
    exact c.io.pollReadFromIo_fills

theorem tryKeepAlive_fills (c : Conn) : c.io.Fills c.tryKeepAlive.io :=
  fills_of_io (maybeNotify_io { c with state := c.state.tryKeepAlive })

theorem tryKeepAlive_onward (c : Conn) : c.Onward c.tryKeepAlive := by
  refine ⟨c.tryKeepAlive_fills, ?_⟩
  have looked := (maybeNotify_closes { c with state := c.state.tryKeepAlive }).state.reading
  obtain ⟨reading, -⟩ | closes := c.state.tryKeepAlive_cases
  · exact .inr (.inr reading)
  · obtain same | closed := looked
    · exact closes.reading.elim (fun still => .inl (same.trans still)) fun closed => .inr (.inl (same.trans closed))
    · exact .inr (.inl closed)

theorem Looked.onward {c c' : Conn} (looked : c.Looked c') : c.Onward c' :=
  ⟨fills_of_io looked.io, looked.closes.state.reading.imp_right .inl⟩

theorem pollFlush_onward (c : Conn) : c.Onward c.pollFlush.2 := by
  have flushed : c.Onward { c with io := c.io.pollFlush.2 } := ⟨c.io.pollFlush_fills, .inl rfl⟩
  obtain ⟨-, eq⟩ | ⟨-, eq⟩ := c.pollFlush_eq
  · rw [eq]
    have kept := tryKeepAlive_onward { c with io := c.io.pollFlush.2 }
    exact ⟨flushed.fills.trans kept.fills, kept.reading⟩
  · rw [eq]
    exact flushed

variable [Httparse]

theorem pollReadHead_marked {c : Conn} (can : c.canReadHead = true) (marked : c.Marked) : c.pollReadHead.2.Marked := by
  obtain ⟨init, -⟩ := canReadHead_iff.mp can
  have opened : c.isReadClosed = false := by
    rw [isReadClosed, State.isReadClosed, init]
    rfl
  have marks := Buffered.parse_marks (parseContext c.state) (marked.of_opened opened)
  obtain ⟨pending, eq⟩ | ⟨e, -, eq⟩ | ⟨msg, trailers, -, parsed, -, eq⟩ := c.pollReadHead_cases
  · rw [eq]
    exact .inr (.inl ⟨init, marks.pending pending⟩)
  · rw [eq]
    exact .inl (c.withParse.onReadHeadError_closes e).2
  · rw [eq]
    have none : (c.withParse.withHead msg).io.partialLen = none := marks.found msg parsed
    dsimp only
    split
    · exact .inr (.inr ((tryKeepAlive_fills _).partialLen.trans none))
    · exact .inr (.inr none)

theorem pollReadBodyWith_partialLen (c : Conn) (d : Decoder) : (c.pollReadBodyWith d).2.io.partialLen = c.io.partialLen := by
  have decoded : (d.decode c.io).2.2.partialLen = c.io.partialLen :=
    Decoder.decode_same (f := Buffered.partialLen) Buffered.readMem_partialLen d c.io
  obtain ⟨d', io, out, eq⟩ | ⟨e, d', io, out, eq⟩ | ⟨frame, d', io, out, -, eq⟩ | ⟨data, d', io, out, -, -, eq⟩ :=
    c.pollReadBodyWith_cases d
  · rw [out] at decoded
    rw [eq]
    exact decoded
  · rw [out] at decoded
    rw [eq]
    exact (tryKeepAlive_fills _).partialLen.trans decoded
  · rw [out] at decoded
    rw [eq]
    exact (tryKeepAlive_fills _).partialLen.trans decoded
  · rw [out] at decoded
    rw [eq]
    exact decoded

theorem pollReadBody_marked {c : Conn} (inv : c.Inv) (can : c.canReadBody = true) (marked : c.Marked) :
    c.pollReadBody.2.Marked := by
  obtain ⟨d, reading⟩ := inv.reading_of_canReadBody can
  rw [pollReadBody_of_reading reading]
  exact .inr (.inr ((c.pollReadBodyWith_partialLen d).trans (marked.none_of_canReadBody can)))

/-- Calls that read neither a head nor a body. -/
theorem Call.onward {c c' : Conn} (call : c.Call c') :
    c.canReadHead = true ∧ c' = c.pollReadHead.2 ∨
      c.canReadBody = true ∧ (c' = c.pollReadBody.2 ∨ c' = c.pollDrainOrCloseRead) ∨ c.Onward c' := by
  have same {c' : Conn} (io : c.io.Fills c'.io) (reading : c'.state.reading = c.state.reading) :
      c.canReadHead = true ∧ c' = c.pollReadHead.2 ∨
        c.canReadBody = true ∧ (c' = c.pollReadBody.2 ∨ c' = c.pollDrainOrCloseRead) ∨ c.Onward c' :=
    .inr (.inr ⟨io, .inl reading⟩)
  have sent {c' : Conn} (sends : c.Sends c') :
      c.canReadHead = true ∧ c' = c.pollReadHead.2 ∨
        c.canReadBody = true ∧ (c' = c.pollReadBody.2 ∨ c' = c.pollDrainOrCloseRead) ∨ c.Onward c' := by
    obtain rfl | ⟨writeBuf, more, next, -, rfl⟩ := sends
    · exact same (.refl _) rfl
    · exact same ⟨rfl, List.prefix_rfl, rfl⟩ rfl
  cases call with
  | readHead can => exact .inl ⟨can, rfl⟩
  | readBody can => exact .inr (.inl ⟨can, .inl rfl⟩)
  | drain can => exact .inr (.inl ⟨can, .inr rfl⟩)
  | readKeepAlive => exact .inr (.inr c.pollReadKeepAlive_looked.onward)
  | flush => exact .inr (.inr c.pollFlush_onward)
  | closeRead => exact .inr (.inr (.of_io rfl (.inr rfl)))
  | close => exact .inr (.inr (.of_io rfl (.inr rfl)))
  | shutdown => exact same ⟨rfl, List.prefix_rfl, rfl⟩ rfl
  | writeBody can => exact sent (writeBody_sends can _)
  | writeTrailers can => exact sent (writeTrailers_sends can _)
  | writeBodyAndEnd can => exact sent (writeBodyAndEnd_sends can _)
  | endBody can => exact sent (endBody_sends can)
  | readAgain | takeError | pendingUpgrade | onUpgrade => exact same (.refl _) rfl

theorem Call.marked {c c' : Conn} (call : c.Call c') (inv : c.Inv) (marked : c.Marked) : c'.Marked := by
  obtain ⟨can, rfl⟩ | ⟨can, rfl | rfl⟩ | onward := call.onward
  · exact pollReadHead_marked can marked
  · exact pollReadBody_marked inv can marked
  · have read := pollReadBody_marked inv can marked
    obtain ⟨d, reading⟩ := inv.reading_of_canReadBody can
    obtain eq | eq := pollDrainOrCloseRead_eq reading
    · rw [eq]
      exact read
    · rw [eq]
      exact read.onward (.of_io rfl (.inr rfl))
  · exact marked.onward onward

theorem Step.marked {c c' : Conn} (step : c.Step c') (inv : c.Inv) (marked : c.Marked) : c'.Marked := by
  cases step with
  | call call => exact call.marked inv marked
  | writeHead _ _ wrote =>
    obtain ⟨x, wrote⟩ := writeHead_spec wrote
    refine marked.onward ⟨?_, .inl wrote.reading⟩
    rw [wrote.reads]
    exact ⟨rfl, List.prefix_rfl, rfl⟩

theorem Steps.marked {c c' : Conn} (steps : c.Steps c') (inv : c.Inv) (marked : c.Marked) : c'.Marked := by
  induction steps with
  | refl => exact marked
  | tail earlier step ih => exact step.marked (Steps.inv earlier inv).1 ih

end Conn

theorem World.run_marked [Httparse] (opts : Http1Options) (io : Transport) (actions : List Action) :
    ((new opts io).run actions).conn.Marked :=
  Conn.Steps.marked (run_steps _ actions) (Conn.handshake_inv opts io) (Conn.handshake_marked opts io)

/-- The scan from the stored length finds what a scan of the whole buffer finds, and none of its slices is out of range.
The stored length is inside of the buffer at every call of `parse_headers`, after every call of `parse` in which the parser
has not failed, and on a connection as long as it is not closed for reading. -/
theorem isCompleteFast_incremental [Httparse] :
    (∀ bytes prevLen, prevLen ≤ bytes.length → ¬ EndsIn (bytes.take prevLen) →
      (isCompleteFast bytes prevLen = true ↔ EndsIn bytes)) ∧
    (∀ bytes prevLen, prevLen ≤ bytes.length →
      isCompleteFastChecked bytes prevLen = some (isCompleteFast bytes prevLen)) ∧
    (∀ (b : Buffered (EncodedBuf Bytes)) (ctx : ParseContext), b.Marked →
      (∀ call ∈ b.parseCalls ctx, ∀ p, call.2.partialLen = some p → p ≤ call.2.readBuf.length) ∧
        ((b.parse ctx).io.Marked ∨
          ∃ call ∈ b.parseCalls ctx, ∃ e, (parseHeaders call.2.readBuf call.2.partialLen call.1).1 = .error e)) ∧
    ∀ (opts : Http1Options) (io : Transport) (actions : List World.Action),
      ((World.new opts io).run actions).conn.isReadClosed = false →
        ((World.new opts io).run actions).conn.io.Marked := by
  refine ⟨fun _ _ _ before => isCompleteFast_iff_endsIn before, fun _ _ => isCompleteFastChecked_eq, ?_, ?_⟩
  · intro b ctx marked
    have marks := Buffered.parse_marks ctx marked
    exact ⟨fun call member p same => (marks.calls call member p same).1, marks.left⟩
  · intro opts io actions opened
    exact (World.run_marked opts io actions).of_opened opened

/-! ### A head that fails behind another -/

def hints : Bytes := ascii "HTTP/1.1 103 Early Hints\r\n\r\n"

/-- A parser that knows one informational head, and that nothing else begins like a response. It skips empty lines before
the head. -/
@[reducible] def onlyHints : Httparse where
  parseResponse _ bytes _ :=
    let head := bytes.dropWhile fun b => b = CR || b = LF
    let skipped := bytes.length - head.length
    if hints.isPrefixOf head then
      .ok (some { len := skipped + hints.length, version := 1, code := 103, reason := ascii "Early Hints", headers := [] })
    else if head.isPrefixOf hints then .ok none
    else .error .version
  parseHeaders _ _ := .ok none
  canonicalReason _ := some (ascii "Early Hints")

/-- The hints in two reads, with bytes behind them. -/
def hintsThen (after : Bytes) : Buffered (EncodedBuf Bytes) :=
  .new { reads := [.data (hints.take 20), .data (hints.drop 20 ++ after)] }

/-- The head behind the hints begins in the same read, and the length is set anew. -/
theorem isCompleteFast_incremental_hints :
    (@Buffered.parse onlyHints (hintsThen (ascii "HTTP")) {}).io.partialLen = some 4 ∧
      (@Buffered.parse onlyHints (hintsThen (ascii "HTTP")) {}).io.readBuf = ascii "HTTP" ∧
      (∀ call ∈ @Buffered.parseCalls onlyHints (hintsThen (ascii "HTTP")) {}, ∀ p,
        call.2.partialLen = some p → p ≤ call.2.readBuf.length) ∧
      isCompleteFast hints 25 = true ∧ (@World.run onlyHints World.thenEof (World.writesGet .empty)).conn.io.Marked := by
  obtain ⟨fast, -, parses, runs⟩ := @isCompleteFast_incremental onlyHints
  refine ⟨by decide +kernel, by decide +kernel, ?_, ?_, ?_⟩
  · exact (parses (hintsThen (ascii "HTTP")) {} (.of_none rfl)).1
  · exact (fast hints 25 (by decide +kernel) (by unfold EndsIn; decide +kernel)).mpr (by unfold EndsIn; decide +kernel)
  · exact runs {} _ (World.writesGet .empty) (by rfl)

/-- A head that begins behind an empty line. -/
def emptyLines : Buffered (EncodedBuf Bytes) := .new { reads := [.data (ascii "\r\n\r\nHTTP")] }

/-- The hints are taken, what follows is no head, and the length of the part of them is still there. Empty lines before a
head are an end within the length that is stored. -/
theorem parse_leaves_partialLen :
    ((@Buffered.parse onlyHints (hintsThen (ascii "?")) {}).io.partialLen = some 20 ∧
      (@Buffered.parse onlyHints (hintsThen (ascii "?")) {}).io.readBuf = ascii "?" ∧
      (@Buffered.parse onlyHints (hintsThen (ascii "?")) {}).io.readBuf.length < 20 ∧
      isCompleteFastChecked (ascii "?") 20 = none) ∧
    (@Buffered.parse onlyHints emptyLines {}).io.partialLen = some 8 ∧
      EndsIn ((@Buffered.parse onlyHints emptyLines {}).io.readBuf.take 8) := by
  refine ⟨⟨by decide +kernel, by decide +kernel, by decide +kernel, by decide +kernel⟩, by decide +kernel, ?_⟩
  unfold EndsIn
  decide +kernel

end Hwire.Http1
