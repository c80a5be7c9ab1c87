import Hwire.Http1.Lifecycle

/-!
# The end of file

Where a connection stands once a read has returned no bytes, over a transport that keeps returning none.
-/

namespace Hwire.Http1
open Lib

/-! ### Reads that see the end -/

section Reads

variable {B : Type}

theorem Transport.pollRead_sticky (t : Transport) : t.pollRead.2.sticky = t.sticky := by
  unfold Transport.pollRead
  split
  · rfl
  split
  · rfl
  · rfl
  · rfl
  · rfl

theorem Transport.pollRead_sawEof {t : Transport} (sticky : t.sticky = true) (seen : t.pollRead.2.sawEof = true) :
    t.pollRead.1 = .ready (.ok []) := by
  unfold Transport.pollRead at seen ⊢
  split
  · rfl
  · next before =>
    have unseen : t.sawEof = false := by simpa [sticky] using before
    rw [if_neg before] at seen
    split at seen
    · exact absurd (seen.symm.trans unseen) nofun
    · exact absurd (seen.symm.trans unseen) nofun
    · exact absurd (seen.symm.trans unseen) nofun
    · next bytes _ _ =>
      have empty : bytes = [] := by simpa [unseen] using seen
      rw [empty]

namespace Buffered

theorem pollReadFromIo_sticky (b : Buffered B) : b.pollReadFromIo.2.io.sticky = b.io.sticky := by
  have same := b.io.pollRead_sticky
  unfold pollReadFromIo
  split
  · next h => rw [h] at same; exact same
  · next h => rw [h] at same; exact same
  · next h => rw [h] at same; exact same

theorem pollReadFromIo_sawEof {b : Buffered B} (sticky : b.io.sticky = true)
    (seen : b.pollReadFromIo.2.io.sawEof = true) :
    b.pollReadFromIo.1 = .ready (.ok 0) ∧ b.pollReadFromIo.2.readBuf = b.readBuf ∧
      b.pollReadFromIo.2.readBlocked = false := by
  have ended := Transport.pollRead_sawEof (t := b.io) sticky
  unfold pollReadFromIo at seen ⊢
  split
  · next bytes io h =>
    rw [h] at seen ended
    have empty : bytes = [] := by simpa using ended seen
    subst empty
    exact ⟨rfl, List.append_nil _, rfl⟩
  · next h =>
    rw [h] at seen ended
    exact absurd (ended seen) nofun
  · next h =>
    rw [h] at seen ended
    exact absurd (ended seen) nofun

/-- The end of file is found again. -/
theorem pollReadFromIo_io {b : Buffered B} (sticky : b.io.sticky = true) (seen : b.io.sawEof = true) :
    b.pollReadFromIo.2.io = b.io := by
  simp [pollReadFromIo, Transport.pollRead, sticky, seen]

theorem readMem_sticky (b : Buffered B) (len : Nat) : (b.readMem len).2.io.sticky = b.io.sticky := by
  have same := b.pollReadFromIo_sticky
  unfold readMem
  split
  · rfl
  split
  · next h => rw [h] at same; exact same
  · next h => rw [h] at same; exact same
  · next h => rw [h] at same; exact same

/-- A read that first sees the end of file returns nothing and leaves nothing in the buffer. -/
theorem readMem_sawEof {b : Buffered B} {len : Nat} (sticky : b.io.sticky = true) (before : b.io.sawEof = false)
    (seen : (b.readMem len).2.io.sawEof = true) :
    (b.readMem len).1 = .ready (.ok []) ∧ (b.readMem len).2.readBuf = [] ∧ (b.readMem len).2.readBlocked = false := by
  have ended := pollReadFromIo_sawEof (b := b) sticky
  unfold readMem at seen ⊢
  split
  · next buffered =>
    rw [if_pos buffered] at seen
    exact absurd (seen.symm.trans before) nofun
  · next empty =>
    rw [if_neg empty] at seen
    have nothing : b.readBuf = [] := by simpa using empty
    split
    · next h =>
      rw [h] at seen ended
      exact absurd (ended seen).1 nofun
    · next h =>
      rw [h] at seen ended
      exact absurd (ended seen).1 nofun
    · next n b' h =>
      rw [h] at seen ended
      obtain ⟨zero, same, blocked⟩ := ended seen
      have readBuf : b'.readBuf = [] := same.trans nothing
      refine ⟨?_, ?_, blocked⟩
      · simp [readBuf]
      · simp [readBuf]

end Buffered

end Reads

/-! ### Decoders that see the end -/

section Decoders

variable {B : Type}

theorem Chunked.step_sawEof {c : Chunked} {b : Buffered B} (sticky : b.io.sticky = true) (before : b.io.sawEof = false)
    (seen : (c.step b).2.io.sawEof = true) : ∃ e, (c.step b).1 = .ready (.error e) := by
  have read (len : Nat) (h : (MemRead.readMem b len).2.io.sawEof = true) : (MemRead.readMem b len).1 = .ready (.ok []) :=
    (Buffered.readMem_sawEof sticky before h).1
  unfold Chunked.step at seen ⊢
  split
  · next h =>
    rw [h] at seen
    exact absurd (seen.symm.trans before) nofun
  · next h =>
    rw [h] at seen
    have ended := read c.chunkLen
    unfold Chunked.stepBody at seen ⊢
    split
    · next h =>
      rw [h] at seen ended
      exact absurd (ended seen) nofun
    · next e _ _ => exact ⟨e, rfl⟩
    · next slice _ h =>
      rw [h] at seen ended
      have empty : slice = [] := by simpa using ended seen
      exact ⟨Chunked.incompleteBody, by rw [empty]; rfl⟩
  · next notEnd notBody =>
    have ended := read 1
    have byte : (c.stepByte b).2.io.sawEof = true := by
      revert seen
      split
      · next h => exact absurd h notEnd
      · next h => exact absurd h notBody
      · exact id
    unfold Chunked.stepByte at byte ⊢
    split
    · next h =>
      rw [h] at byte ended
      exact absurd (ended byte) nofun
    · next e _ _ => exact ⟨e, rfl⟩
    · exact ⟨_, rfl⟩
    · next h =>
      rw [h] at byte ended
      exact absurd (ended byte) nofun

variable [Httparse]

theorem Chunked.decode_sawEof {fuel : Nat} {c : Chunked} {b : Buffered B} (sticky : b.io.sticky = true)
    (before : b.io.sawEof = false) (seen : (c.decode fuel b).2.2.io.sawEof = true) :
    ∃ e, (c.decode fuel b).1 = .ready (.error e) := by
  induction fuel generalizing c b with
  | zero => cases seen.symm.trans before
  | succ fuel ih =>
    have same := Chunked.step_same (f := fun b : Buffered B => b.io.sticky) Buffered.readMem_sticky c b
    have ended := Chunked.step_sawEof (c := c) sticky before
    rw [Chunked.decode] at seen ⊢
    split
    · next h =>
      rw [h] at seen ended
      obtain ⟨e, he⟩ := ended seen
      cases he
    · next e _ _ => exact ⟨e, rfl⟩
    · next c' buf b' h =>
      rw [h] at seen ended same
      -- The step itself has not seen the end, or it would have failed.
      have still : b'.io.sawEof = false := by
        cases now : b'.io.sawEof with
        | false => rfl
        | true =>
          obtain ⟨e, he⟩ := ended now
          cases he
      dsimp only at seen ⊢
      split
      · next finished =>
        rw [if_pos finished] at seen
        cases seen.symm.trans still
      · next going =>
        rw [if_neg going] at seen
        cases buf with
        | some data => cases seen.symm.trans still
        | none => exact ih (same.trans sticky) still seen

/-- A decoder that sees the end of file fails, or it was waiting for just that. -/
theorem Decoder.decode_sawEof {d : Decoder} {b : Buffered B} (sticky : b.io.sticky = true) (before : b.io.sawEof = false)
    (seen : (d.decode b).2.2.io.sawEof = true) :
    (∃ e, (d.decode b).1 = .ready (.error e)) ∨
      (d.decode b).1 = .ready (.ok (.data [])) ∧ (d.decode b).2.1.isEof = true ∧ (d.decode b).2.2.readBuf = [] ∧
        (d.decode b).2.2.readBlocked = false := by
  have read (len : Nat) (h : (MemRead.readMem b len).2.io.sawEof = true) :
      (MemRead.readMem b len).1 = .ready (.ok []) ∧ (MemRead.readMem b len).2.readBuf = [] ∧
        (MemRead.readMem b len).2.readBlocked = false :=
    Buffered.readMem_sawEof sticky before h
  cases d with
  | length remaining =>
    have ended := read remaining
    simp only [Decoder.decode] at seen ⊢
    split
    · next zero =>
      rw [if_pos zero] at seen
      cases seen.symm.trans before
    · next more =>
      rw [if_neg more] at seen
      split
      · next h =>
        rw [h] at seen ended
        cases (ended seen).1
      · next e _ _ => exact .inl ⟨e, rfl⟩
      · next buf b' h =>
        have seen' : b'.io.sawEof = true := by
          rw [h] at seen
          revert seen
          dsimp only
          split
          · exact id
          split
          · exact id
          · exact id
        rw [h] at ended
        have empty : buf = [] := by simpa using (ended seen').1
        subst empty
        exact .inl ⟨_, rfl⟩
  | chunked c =>
    have failed : ∃ e, (c.decode (MemRead.budget b + 2) b).1 = .ready (.error e) :=
      Chunked.decode_sawEof sticky before seen
    exact .inl failed
  | eof isEof =>
    have ended := read 8192
    simp only [Decoder.decode] at seen ⊢
    split
    · next done =>
      rw [if_pos done] at seen
      cases seen.symm.trans before
    · next more =>
      rw [if_neg more] at seen
      split
      · next h =>
        rw [h] at seen ended
        cases (ended seen).1
      · next e _ _ => exact .inl ⟨e, rfl⟩
      · next slice b' h =>
        rw [h] at seen ended
        obtain ⟨nothing, readBuf, blocked⟩ := ended seen
        have empty : slice = [] := by simpa using nothing
        subst empty
        exact .inr ⟨rfl, rfl, readBuf, blocked⟩

end Decoders

/-! ### Heads that see the end -/

section Heads

variable [Httparse]

namespace Buffered

theorem parseLoop_sawEof {fuel : Nat} {ctx : ParseContext} {informed : List ResponseHead}
    {b : Buffered (EncodedBuf Bytes)} (sticky : b.io.sticky = true) (before : b.io.sawEof = false)
    (seen : (b.parseLoop fuel ctx informed).io.io.sawEof = true) :
    ∃ e, (b.parseLoop fuel ctx informed).res = .ready (.error e) := by
  induction fuel generalizing ctx informed b with
  | zero => cases seen.symm.trans before
  | succ fuel ih =>
    rw [parseLoop] at seen ⊢
    split
    · next e _ _ => exact ⟨_, rfl⟩
    · next h =>
      rw [h] at seen
      cases seen.symm.trans before
    · next s h =>
      rw [h] at seen
      dsimp only at seen ⊢
      split
      · exact ⟨_, rfl⟩
      · next small =>
        rw [if_neg small] at seen
        generalize reads : ({ b with
            readBuf := s.buf
            partialLen := if s.buf.length > 0 then some s.buf.length else none } : Buffered (EncodedBuf Bytes)) = b₁
          at seen ⊢
        have start : b₁.io = b.io := by rw [← reads]
        have same := b₁.pollReadFromIo_sticky
        have ended := pollReadFromIo_sawEof (b := b₁) (start ▸ sticky)
        split
        · next h =>
          rw [h] at seen ended
          cases (ended seen).1
        · exact ⟨_, rfl⟩
        · next n b₂ h =>
          rw [h] at seen ended same
          split
          · exact ⟨_, rfl⟩
          · next some_bytes =>
            dsimp only at seen
            rw [if_neg some_bytes] at seen
            have still : b₂.io.sawEof = false := by
              cases now : b₂.io.sawEof with
              | false => rfl
              | true => exact absurd (by simpa using (ended now).1) some_bytes
            exact ih (by rw [show b₂.io.sticky = b₁.io.sticky from same, start]; exact sticky) still seen

end Buffered

end Heads

/-! ### Flushes -/

namespace Buffered

variable {B : Type}

structure SameReads (b b' : Buffered B) : Prop where
  readBuf : b'.readBuf = b.readBuf
  readBlocked : b'.readBlocked = b.readBlocked
  sticky : b'.io.sticky = b.io.sticky
  sawEof : b'.io.sawEof = b.io.sawEof

theorem SameReads.refl (b : Buffered B) : SameReads b b := ⟨rfl, rfl, rfl, rfl⟩

/-- Parts of a buffer that a flush does not look at: neither what is to be written nor the scripts of writes and flushes. -/
structure Unwritten {α : Type} (g : Buffered B → α) : Prop where
  writeBuf : ∀ (b : Buffered B) (w : WriteBuf B), g { b with writeBuf := w } = g b
  pollWrite : ∀ (b : Buffered B) (offered : Bytes), g { b with io := (b.io.pollWrite offered).2 } = g b
  pollFlush : ∀ b : Buffered B, g { b with io := b.io.pollFlush.2 } = g b

section Unwritten

variable {α : Type} {g : Buffered B → α}

theorem Unwritten.pollWriteHeaders (frame : Unwritten g) (b : Buffered B) : g b.pollWriteHeaders.2 = g b := by
  have wrote := frame.pollWrite b b.writeBuf.headers.chunk
  unfold Buffered.pollWriteHeaders
  split
  · next h =>
    rw [h] at wrote
    exact (frame.writeBuf _ _).trans wrote
  · next h =>
    rw [h] at wrote
    exact wrote

theorem flushWith_keeps {write : Buffered B → Poll (Except IoError Nat) × Buffered B}
    {left : Buffered B → Nat} {finish : Buffered B → Poll (Except IoError Unit) × Buffered B}
    (wrote : ∀ b, g (write b).2 = g b) (finished : ∀ b, g (finish b).2 = g b) {fuel : Nat} {b : Buffered B}
    {out : Poll (Except IoError Unit) × Buffered B} (run : flushWith write left finish fuel b = some out) :
    g out.2 = g b := by
  have round {b b' res} (call : write b = (res, b')) : g b' = g b := by
    rw [← wrote b, call]
  refine flushWith_induct (P := fun b out => g out.2 = g b) ?_ ?_ ?_ ?_ ?_ run
  · intro b b' call
    exact round call
  · intro b b' e call
    exact round call
  · intro b b' n call _
    exact (finished b').trans (round call)
  · intro b b' call _
    exact round call
  · intro b b' n out call _ _ later
    exact later.trans (round call)

variable [Buf B]

theorem Unwritten.pollWriteBuf (frame : Unwritten g) (b : Buffered B) : g b.pollWriteBuf.2 = g b := by
  have wrote : ∀ out, (if b.io.isWriteVectored then b.io.pollWriteVectored (b.writeBuf.chunksVectored MAX_BUFS)
      else b.io.pollWrite b.writeBuf.chunk) = out → g { b with io := out.2 } = g b := by
    rintro out rfl
    split
    · exact frame.pollWrite _ _
    · exact frame.pollWrite _ _
  unfold Buffered.pollWriteBuf
  split
  · rfl
  · dsimp only
    generalize (if b.io.isWriteVectored then b.io.pollWriteVectored (b.writeBuf.chunksVectored MAX_BUFS)
      else b.io.pollWrite b.writeBuf.chunk) = out at wrote
    split
    · exact (frame.writeBuf _ _).trans (wrote out rfl)
    · exact wrote out rfl

theorem Unwritten.flush (frame : Unwritten g) (b : Buffered B) : g b.pollFlush.2 = g b := by
  unfold Buffered.pollFlush
  split
  · rfl
  split
  · exact frame.pollFlush b
  · cases run : b.flushLoop with
    | none => rfl
    | some out =>
      unfold Buffered.flushLoop at run
      split at run
      · refine flushWith_keeps frame.pollWriteHeaders ?_ run
        intro b
        exact (frame.pollFlush _).trans (frame.writeBuf _ _)
      · exact flushWith_keeps frame.pollWriteBuf frame.pollFlush run

end Unwritten

/-- A function of the fields that only reads change. -/
theorem unwritten_reads {α : Type} (f : List ReadEvent → Bool → Bool → Bytes → Bool → α) :
    Unwritten fun b : Buffered B => f b.io.reads b.io.sticky b.io.sawEof b.readBuf b.readBlocked := by
  refine ⟨fun _ _ => rfl, ?_, ?_⟩
  · intro b offered
    unfold Transport.pollWrite
    split
    · rfl
    · rfl
    · rfl
    · rfl
  · intro b
    unfold Transport.pollFlush
    split
    · rfl
    · rfl

theorem pollFlush_same [Buf B] (b : Buffered B) : SameReads b b.pollFlush.2 :=
  ⟨(unwritten_reads fun _ _ _ readBuf _ => readBuf).flush b,
    (unwritten_reads fun _ _ _ _ readBlocked => readBlocked).flush b,
    (unwritten_reads fun _ sticky _ _ _ => sticky).flush b,
    (unwritten_reads fun _ _ sawEof _ _ => sawEof).flush b⟩

end Buffered

/-! ### Connections -/

namespace Conn

/-- Over a transport that stays at its end: once the end was seen, reading is closed, or a body has just ended there
and the next look at the transport will close. No head was written after the end was seen. -/
structure EofInv (c : Conn) : Prop where
  sticky : c.io.io.sticky = true
  seen : c.io.io.sawEof = true → c.state.reading = .closed ∨
    c.state.reading = .keepAlive ∧ c.io.readBuf = [] ∧ c.io.readBlocked = false
  heads : ∀ x ∈ c.log, x.eofSeen = false

theorem handshake_eof {opts : Http1Options} {io : Transport} (sticky : io.sticky = true) (fresh : io.sawEof = false) :
    (handshake opts io).EofInv := by
  have same : (handshake opts io).io.io = io := by
    unfold handshake
    cases opts.h1Writev <;> cases opts.h1ReadBufExactSize <;> cases opts.h1MaxBufSize <;> rfl
  refine ⟨by rw [same]; exact sticky, ?_, by simp [handshake]⟩
  intro seen
  rw [same, fresh] at seen
  cases seen

theorem EofInv.unseen {c : Conn} (eof : c.EofInv) (opened : c.state.reading ≠ .closed)
    (going : c.state.reading ≠ .keepAlive) : c.io.io.sawEof = false := by
  cases now : c.io.io.sawEof with
  | false => rfl
  | true =>
    rcases eof.seen now with h | ⟨h, -⟩
    · exact absurd h opened
    · exact absurd h going

/-- The reading side is as it was, apart from closing. -/
theorem EofInv.closes {c c' : Conn} (eof : c.EofInv) (log : c'.log = c.log) (same : c.io.SameReads c'.io)
    (reading : c'.state.reading = c.state.reading ∨ c'.state.reading = .closed) : c'.EofInv := by
  refine ⟨same.sticky.trans eof.sticky, ?_, log ▸ eof.heads⟩
  intro seen
  rw [same.readBuf, same.readBlocked]
  have := eof.seen (same.sawEof ▸ seen)
  grind

theorem reading_of_mayNotify {s : State} (may : mayNotify s = true) : s.reading = .init := by
  unfold mayNotify at may
  split at may
  · cases may
  · next h _ => exact h
  · cases may

/-- `maybe_notify` closes at the end of file, even where the connection has just become idle. -/
theorem maybeNotify_eof {c : Conn} (sticky : c.io.io.sticky = true)
    (seen : c.io.io.sawEof = true → c.state.reading = .closed ∨
      (c.state.reading = .keepAlive ∨ mayNotify c.state = true) ∧ c.io.readBuf = [] ∧ c.io.readBlocked = false)
    (heads : ∀ x ∈ c.log, x.eofSeen = false) : c.maybeNotify.EofInv := by
  have kept := c.io.pollReadFromIo_sticky
  have ended := Buffered.pollReadFromIo_sawEof (b := c.io) sticky
  have rest (may : mayNotify c.state = true) (now : c.io.io.sawEof = true) : c.io.readBuf = [] ∧ c.io.readBlocked = false := by
    rcases seen now with closed | ⟨-, rest⟩
    · exact absurd ((reading_of_mayNotify may).symm.trans closed) nofun
    · exact rest
  generalize c.maybeNotify = c', c.maybeNotify_notified = notified
  cases notified with
  | left busy =>
    refine ⟨sticky, fun now => ?_, heads⟩
    rcases seen now with closed | ⟨keepAlive | may, empty, unblocked⟩
    · exact .inl closed
    · exact .inr ⟨keepAlive, empty, unblocked⟩
    · rcases busy with cannot | blocked
      · exact absurd (may.symm.trans cannot) nofun
      · exact absurd (unblocked.symm.trans blocked) nofun
  | buffered may unread => exact ⟨sticky, fun now => absurd (rest may now).1 unread, heads⟩
  | waited _ pending =>
    exact ⟨kept.trans sticky, fun now => absurd (pending.symm.trans (ended now).1) nofun, heads⟩
  | woken _ some_ read =>
    refine ⟨kept.trans sticky, fun now => absurd ?_ some_, heads⟩
    simpa using read.symm.trans (ended now).1
  | ended _ _ closed =>
    refine ⟨kept.trans sticky, fun _ => .inl ?_, heads⟩
    rcases closed with rfl | rfl
    · rfl
    · rfl
  | failed _ read => exact ⟨kept.trans sticky, fun now => absurd (read.symm.trans (ended now).1) nofun, heads⟩

theorem EofInv.tryKeepAlive {c : Conn} (eof : c.EofInv) : c.tryKeepAlive.EofInv := by
  refine maybeNotify_eof eof.sticky (fun now => ?_) eof.heads
  obtain ⟨reading, writing, busy, eq⟩ | closes := c.state.tryKeepAlive_cases
  · rcases eof.seen now with closed | ⟨-, rest⟩
    · exact absurd (reading.symm.trans closed) nofun
    · exact .inr ⟨.inr (by rw [eq]; rfl), rest⟩
  · have := eof.seen now
    have := closes.reading
    grind

theorem forceIoRead_eof {c : Conn} (eof : c.EofInv) :
    c.forceIoRead.2.io.io.sticky = true ∧ (∀ x ∈ c.forceIoRead.2.log, x.eofSeen = false) ∧
      (c.forceIoRead.2.io.io.sawEof = true → c.forceIoRead.1 = .ready (.ok 0)) := by
  have kept := c.io.pollReadFromIo_sticky
  have ended := Buffered.pollReadFromIo_sawEof (b := c.io) eof.sticky
  unfold forceIoRead
  split
  · next h =>
    rw [h] at kept ended
    exact ⟨kept.trans eof.sticky, eof.heads, fun now => absurd (ended now).1 nofun⟩
  · next h =>
    rw [h] at kept ended
    exact ⟨kept.trans eof.sticky, eof.heads, fun now => (ended now).1⟩

theorem Looked.eof {c c' : Conn} (looked : c.Looked c') (eof : c.EofInv) : c'.EofInv := by
  obtain ⟨sticky, heads, ended⟩ := forceIoRead_eof eof
  cases looked with
  | skipped => exact eof
  | read more => exact ⟨sticky, fun now => absurd (ended now) more, heads⟩
  | ended => exact ⟨sticky, fun _ => .inl rfl, heads⟩

theorem heads_note {c : Conn} {f : Exchange → Exchange} (frame : ∀ x, (f x).eofSeen = x.eofSeen)
    (heads : ∀ x ∈ c.log, x.eofSeen = false) : ∀ x ∈ (c.note f).log, x.eofSeen = false := by
  intro y member
  rcases mem_note member with old | ⟨x, last, rfl⟩
  · exact heads y (List.mem_of_mem_dropLast old)
  · rw [frame]
    exact heads x (List.mem_of_getLast? last)

theorem EofInv.sendMore {c : Conn} (eof : c.EofInv) (writeBuf : WriteBuf (EncodedBuf Bytes)) (more : Bytes)
    (next : Writing) : (c.sendMore writeBuf more next).EofInv := by
  refine ⟨eof.sticky, eof.seen, ?_⟩
  rw [sendMore_log]
  exact heads_note (fun _ => rfl) eof.heads

theorem writeHead_eof {c c' : Conn} {head : RequestHead} {body : Option BodyLength} (inv : c.Inv)
    (can : c.canWriteHead = true) (h : c.writeHead head body = some c') (eof : c.EofInv) : c'.EofInv := by
  obtain ⟨opened, init, -⟩ := canWriteHead_iff.mp can
  have reading : c.state.reading = .init := (inv.idle init).2.resolve_right opened
  have before : c.io.io.sawEof = false := eof.unseen (by simp [reading]) (by simp [reading])
  obtain ⟨x, wrote⟩ := writeHead_spec h
  have io : c'.io.io = c.io.io := by rw [wrote.reads]
  refine ⟨io ▸ eof.sticky, fun now => absurd ((io ▸ now).symm.trans before) nofun, ?_⟩
  rw [wrote.log]
  intro y member
  rcases List.mem_append.mp member with old | new
  · exact eof.heads y old
  · rw [List.mem_singleton.mp new, wrote.eofSeen, before]

/-- Reading once more, if at all, finds the end again. -/
theorem sawEof_of_io {c c' : Conn} (io : c'.io = c.io ∨ c'.io = c.io.pollReadFromIo.2) (sticky : c.io.io.sticky = true)
    (seen : c.io.io.sawEof = true) : c'.io.io.sawEof = true := by
  obtain same | read := io
  · rw [same]
    exact seen
  · rw [read, Buffered.pollReadFromIo_io sticky seen]
    exact seen

/-- Nothing is parsed and no head is written once the end was seen. -/
theorem EofInv.stuck {c : Conn} (eof : c.EofInv) (inv : c.Inv) (seen : c.io.io.sawEof = true) :
    c.canReadHead = false ∧ c.canReadBody = false ∧ c.canWriteHead = false := by
  have never {can : Bool} (h : can = true → c.state.reading ≠ .closed ∧ c.state.reading ≠ .keepAlive) : can = false := by
    cases can with
    | false => rfl
    | true => exact absurd ((eof.unseen (h rfl).1 (h rfl).2).symm.trans seen) nofun
  refine ⟨never ?_, never ?_, never ?_⟩
  · intro can
    obtain ⟨init, -⟩ := canReadHead_iff.mp can
    simp [init]
  · intro can
    obtain ⟨d, body⟩ := inv.reading_of_canReadBody can
    simp [body]
  · intro can
    obtain ⟨opened, init, -⟩ := canWriteHead_iff.mp can
    simp [(inv.idle init).2.resolve_right opened]

variable [Httparse]

theorem pollReadHead_eof {c : Conn} (can : c.canReadHead = true) (eof : c.EofInv) : c.pollReadHead.2.EofInv := by
  obtain ⟨init, -⟩ := canReadHead_iff.mp can
  have before : c.io.io.sawEof = false := eof.unseen (by simp [init]) (by simp [init])
  have sticky : c.withParse.io.io.sticky = true :=
    (Buffered.parseLoop_same (g := fun b => b.io.sticky) Buffered.pollReadFromIo_sticky (fun _ _ _ => rfl) _ _ _ _).trans
      eof.sticky
  have ended (now : c.withParse.io.io.sawEof = true) :
      ∃ e, (c.io.parse (parseContext c.state)).res = .ready (.error e) :=
    Buffered.parseLoop_sawEof eof.sticky before now
  obtain ⟨res, eq⟩ | ⟨e, res, eq⟩ | ⟨msg, trailers, -, res, -, eq⟩ := c.pollReadHead_cases
  · rw [eq]
    refine ⟨sticky, ?_, eof.heads⟩
    intro now
    obtain ⟨e, res'⟩ := ended now
    exact absurd (res.symm.trans res') nofun
  · rw [eq]
    obtain ⟨⟨log, -, -, -⟩, closed⟩ := c.withParse.onReadHeadError_closes e
    refine ⟨?_, fun _ => .inl closed, log ▸ eof.heads⟩
    unfold onReadHeadError
    dsimp only
    split
    · exact sticky
    · exact sticky
  · rw [eq]
    have headed : (c.withParse.withHead msg).EofInv := by
      refine ⟨sticky, ?_, heads_note (fun _ => rfl) eof.heads⟩
      intro now
      obtain ⟨e, res'⟩ := ended now
      exact absurd (res.symm.trans res') nofun
    dsimp only
    split
    · have idle := headed.tryKeepAlive
      exact ⟨idle.sticky, idle.seen, idle.heads⟩
    · exact ⟨headed.sticky, headed.seen, headed.heads⟩

theorem pollReadBodyWith_eof {c : Conn} {d : Decoder} (reading : c.state.reading = .body d) (eof : c.EofInv) :
    (c.pollReadBodyWith d).2.EofInv := by
  have before : c.io.io.sawEof = false := eof.unseen (by simp [reading]) (by simp [reading])
  have kept := Decoder.decode_same (f := fun b : Buffered (EncodedBuf Bytes) => b.io.sticky) Buffered.readMem_sticky d c.io
  have ended := Decoder.decode_sawEof (d := d) eof.sticky before
  obtain ⟨d', io, decoded, eq⟩ | ⟨e, d', io, decoded, eq⟩ | ⟨frame, d', io, decoded, finished, eq⟩ |
    ⟨data, d', io, decoded, -, more, eq⟩ := c.pollReadBodyWith_cases d
  · rw [decoded] at kept ended
    rw [eq]
    refine ⟨kept.trans eof.sticky, ?_, eof.heads⟩
    intro now
    rcases ended now with ⟨e, failed⟩ | ⟨returned, -⟩
    · cases failed
    · cases returned
  · rw [decoded] at kept ended
    rw [eq]
    exact EofInv.tryKeepAlive ⟨kept.trans eof.sticky, fun _ => .inl rfl, eof.heads⟩
  · rw [decoded] at kept ended
    rw [eq]
    refine EofInv.tryKeepAlive ⟨kept.trans eof.sticky, fun now => ?_, heads_note (fun _ => rfl) eof.heads⟩
    rcases ended now with ⟨e, failed⟩ | ⟨-, -, rest⟩
    · cases failed
    · exact .inr ⟨rfl, rest⟩
  · rw [decoded] at kept ended
    rw [eq]
    refine ⟨kept.trans eof.sticky, ?_, heads_note (fun _ => rfl) eof.heads⟩
    intro now
    rcases ended now with ⟨e, failed⟩ | ⟨-, whole, -⟩
    · cases failed
    · exact absurd (whole.symm.trans more) nofun

theorem pollReadBody_eof {c : Conn} (inv : c.Inv) (can : c.canReadBody = true) (eof : c.EofInv) :
    c.pollReadBody.2.EofInv := by
  obtain ⟨d, reading⟩ := inv.reading_of_canReadBody can
  rw [pollReadBody_of_reading reading]
  exact pollReadBodyWith_eof reading eof

theorem Call.eof {c c' : Conn} (call : c.Call c') (inv : c.Inv) (eof : c.EofInv) : c'.EofInv := by
  have sent {c' : Conn} (sends : c.Sends c') : c'.EofInv := by
    obtain rfl | ⟨writeBuf, more, next, -, rfl⟩ := sends
    · exact eof
    · exact eof.sendMore _ _ _
  cases call with
  | readHead can => exact pollReadHead_eof can eof
  | readBody can => exact pollReadBody_eof inv can eof
  | drain can =>
    obtain ⟨d, reading⟩ := inv.reading_of_canReadBody can
    have read := pollReadBody_eof inv can eof
    rcases pollDrainOrCloseRead_eq reading with eq | eq
    · rw [eq]
      exact read
    · rw [eq]
      exact read.closes rfl (.refl _) (.inr rfl)
  | readKeepAlive => exact c.pollReadKeepAlive_looked.eof eof
  | readAgain => exact eof.closes rfl (.refl _) (.inl rfl)
  | closeRead => exact eof.closes rfl (.refl _) (.inr rfl)
  | close => exact eof.closes rfl (.refl _) (.inr rfl)
  | writeBody can => exact sent (writeBody_sends can _)
  | writeTrailers can => exact sent (writeTrailers_sends can _)
  | writeBodyAndEnd can => exact sent (writeBodyAndEnd_sends can _)
  | endBody can => exact sent (endBody_sends can)
  | flush =>
    have flushed : EofInv { c with io := c.io.pollFlush.2 } := eof.closes rfl c.io.pollFlush_same (.inl rfl)
    obtain ⟨-, eq⟩ | ⟨-, eq⟩ := c.pollFlush_eq
    · rw [eq]
      exact flushed.tryKeepAlive
    · rw [eq]
      exact flushed
  | shutdown =>
    have same : c.io.io.pollShutdown.2.sticky = c.io.io.sticky ∧ c.io.io.pollShutdown.2.sawEof = c.io.io.sawEof := by
      unfold Transport.pollShutdown
      split
      · exact ⟨rfl, rfl⟩
      · exact ⟨rfl, rfl⟩
    exact eof.closes rfl ⟨rfl, rfl, same.1, same.2⟩ (.inl rfl)
  | takeError => exact eof.closes rfl (.refl _) (.inl rfl)
  | pendingUpgrade => exact eof.closes rfl (.refl _) (.inl rfl)
  | onUpgrade => exact eof.closes rfl (.refl _) (.inl rfl)

theorem Step.eof {c c' : Conn} (step : c.Step c') (inv : c.Inv) (eof : c.EofInv) : c'.EofInv := by
  cases step with
  | call call => exact call.eof inv eof
  | writeHead can _ wrote => exact writeHead_eof inv can wrote eof

theorem Steps.eof {c c' : Conn} (steps : c.Steps c') (inv : c.Inv) (eof : c.EofInv) : c'.EofInv := by
  induction steps with
  | refl => exact eof
  | tail earlier step ih => exact step.eof (Steps.inv earlier inv).1 ih

theorem Call.sawEof {c c' : Conn} (call : c.Call c') (inv : c.Inv) (eof : c.EofInv) (seen : c.io.io.sawEof = true) :
    c'.io.io.sawEof = true := by
  obtain ⟨noHead, noBody, -⟩ := eof.stuck inv seen
  have sent {c' : Conn} (sends : c.Sends c') : c'.io.io.sawEof = true := by
    obtain rfl | ⟨writeBuf, more, next, -, rfl⟩ := sends
    · exact seen
    · exact seen
  cases call with
  | readHead can => exact absurd (noHead.symm.trans can) nofun
  | readBody can => exact absurd (noBody.symm.trans can) nofun
  | drain can => exact absurd (noBody.symm.trans can) nofun
  | readKeepAlive => exact sawEof_of_io c.pollReadKeepAlive_looked.io eof.sticky seen
  | writeBody can => exact sent (writeBody_sends can _)
  | writeTrailers can => exact sent (writeTrailers_sends can _)
  | writeBodyAndEnd can => exact sent (writeBodyAndEnd_sends can _)
  | endBody can => exact sent (endBody_sends can)
  | flush =>
    have same := c.io.pollFlush_same
    obtain ⟨-, eq⟩ | ⟨-, eq⟩ := c.pollFlush_eq
    · rw [eq]
      exact sawEof_of_io (maybeNotify_io _) (same.sticky.trans eof.sticky) (same.sawEof.trans seen)
    · rw [eq]
      exact same.sawEof.trans seen
  | shutdown =>
    show c.io.io.pollShutdown.2.sawEof = true
    unfold Transport.pollShutdown
    split
    · exact seen
    · exact seen
  | readAgain | closeRead | close | takeError | pendingUpgrade | onUpgrade => exact seen

theorem Step.sawEof {c c' : Conn} (step : c.Step c') (inv : c.Inv) (eof : c.EofInv) (seen : c.io.io.sawEof = true) :
    c'.io.io.sawEof = true := by
  cases step with
  | call call => exact call.sawEof inv eof seen
  | writeHead can => exact absurd ((eof.stuck inv seen).2.2.symm.trans can) nofun

theorem Steps.sawEof {c c' : Conn} (steps : c.Steps c') (inv : c.Inv) (eof : c.EofInv) (seen : c.io.io.sawEof = true) :
    c'.io.io.sawEof = true := by
  induction steps with
  | refl => exact seen
  | tail earlier step ih => exact step.sawEof (Steps.inv earlier inv).1 (Steps.eof earlier inv eof) ih

end Conn

end Hwire.Http1
