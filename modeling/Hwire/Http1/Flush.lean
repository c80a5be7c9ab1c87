import Hwire.Http1.Io

/-!
# Writing in order

What was accepted by the transport, followed by what is still buffered, is everything that was buffered, in the
order of the calls. The write loops end because every round that does not return shrinks the buffer.
-/

namespace Hwire.Http1.Buffered
open Lib LawfulBuf

variable {B : Type} [Buf B] [LawfulBuf B]

/-- Everything buffered so far: on the wire, or still to be written. -/
def wire (b : Buffered B) : Bytes := b.io.written ++ b.writeBuf.contents

/-- The write side as the constructors leave it. Nothing in the client turns the flush pipeline on. -/
structure WriteOk (b : Buffered B) : Prop where
  buf : b.writeBuf.Ok
  pipeline : b.flushPipeline = false

/-! ### One write -/

theorem pollWrite_ready {t t' : Transport} {offered : Bytes} {n : Nat}
    (h : t.pollWrite offered = (.ready (.ok n), t')) :
    n ≤ offered.length ∧ t'.written = t.written ++ offered.take n := by
  unfold Transport.pollWrite at h
  split at h
  · simp at h
  · simp at h
  · simp at h
  · obtain ⟨hn, rfl⟩ := Prod.mk.inj h
    obtain rfl := Except.ok.inj (Poll.ready.inj hn)
    exact ⟨Nat.min_le_right _ _, by simp [List.take_eq_take_min]⟩

theorem pollWrite_other {t t' : Transport} {offered : Bytes} {res : Poll (Except IoError Nat)}
    (h : t.pollWrite offered = (res, t')) (other : ∀ n, res ≠ .ready (.ok n)) : t'.written = t.written := by
  unfold Transport.pollWrite at h
  split at h
  · obtain ⟨-, rfl⟩ := Prod.mk.inj h; rfl
  · obtain ⟨-, rfl⟩ := Prod.mk.inj h; rfl
  · obtain ⟨-, rfl⟩ := Prod.mk.inj h; rfl
  · obtain ⟨hr, -⟩ := Prod.mk.inj h
    exact absurd hr.symm (other _)

/-- How many bytes a write has taken. -/
def accepted : Poll (Except IoError Nat) → Nat
  | .ready (.ok n) => n
  | _ => 0

theorem accepted_of_other {res : Poll (Except IoError Nat)} (other : ∀ n, res ≠ .ready (.ok n)) : accepted res = 0 := by
  unfold accepted
  split
  · exact absurd rfl (other _)
  · rfl

/-- What any round of a write loop does: it keeps the wire, and takes what was accepted out of the buffer. -/
structure Wrote (b b' : Buffered B) (accepted : Nat) : Prop where
  ok : b'.WriteOk
  wire : b'.wire = b.wire
  strategy : b'.writeBuf.strategy = b.writeBuf.strategy
  remaining : b'.writeBuf.remaining + accepted = b.writeBuf.remaining

theorem Wrote.of_isPrefix {b : Buffered B} (ok : b.WriteOk) {io : Transport} {offered : Bytes} {n : Nat}
    (h : b.io.pollWrite offered = (.ready (.ok n), io)) (pre : offered <+: b.writeBuf.contents) {w : WriteBuf B}
    (advanced : w.contents = b.writeBuf.contents.drop n) (wok : w.Ok) (strategy : w.strategy = b.writeBuf.strategy) :
    Wrote b { b with io, writeBuf := w } n := by
  obtain ⟨hn, hw⟩ := pollWrite_ready h
  have hle : n ≤ b.writeBuf.contents.length := hn.trans pre.length_le
  refine ⟨⟨wok, ok.pipeline⟩, ?_, strategy, ?_⟩
  · obtain ⟨tail, ht⟩ := pre
    have taken : offered.take n = b.writeBuf.contents.take n := by
      rw [← ht, List.take_append_of_le_length hn]
    show io.written ++ w.contents = _
    rw [hw, advanced, taken, List.append_assoc, List.take_append_drop]; rfl
  · show w.remaining + n = _
    rw [wok.remaining, ok.buf.remaining, advanced, List.length_drop]; omega

theorem Wrote.of_other {b : Buffered B} (ok : b.WriteOk) {io : Transport} (same : io.written = b.io.written) :
    Wrote b { b with io } 0 :=
  ⟨⟨ok.buf, ok.pipeline⟩, by simp [Buffered.wire, same], rfl, rfl⟩

theorem pollWriteBuf_wrote {b b' : Buffered B} (ok : b.WriteOk) {res : Poll (Except IoError Nat)}
    (h : b.pollWriteBuf = (res, b')) : Wrote b b' (accepted res) := by
  unfold pollWriteBuf at h
  split at h
  · obtain ⟨rfl, rfl⟩ := Prod.mk.inj h
    exact ⟨ok, rfl, rfl, rfl⟩
  · -- Either way the transport is offered a prefix of what is buffered.
    obtain ⟨offered, pre, polled⟩ : ∃ offered, offered <+: b.writeBuf.contents ∧
        (if b.io.isWriteVectored then b.io.pollWriteVectored (b.writeBuf.chunksVectored MAX_BUFS)
          else b.io.pollWrite b.writeBuf.chunk) = b.io.pollWrite offered := by
      split
      · exact ⟨_, b.writeBuf.chunksVectored_isPrefix _, rfl⟩
      · exact ⟨_, WriteBuf.chunk_isPrefix, rfl⟩
    rw [polled] at h
    cases hp : b.io.pollWrite offered with
    | mk res' io =>
      rw [hp] at h
      dsimp only at h
      split at h
      · next n =>
        obtain ⟨rfl, rfl⟩ := Prod.mk.inj h
        have hn : n ≤ b.writeBuf.remaining := by
          rw [ok.buf.remaining]
          exact (pollWrite_ready hp).1.trans pre.length_le
        obtain ⟨contents, advanced⟩ := WriteBuf.contents_advance ok.buf hn
        have strategy : (b.writeBuf.advance n).strategy = b.writeBuf.strategy := by
          unfold WriteBuf.advance
          dsimp only
          split
          · rfl
          split
          · rfl
          · rfl
        exact .of_isPrefix ok hp pre contents advanced strategy
      · next other =>
        obtain ⟨rfl, rfl⟩ := Prod.mk.inj h
        rw [accepted_of_other other]
        exact .of_other ok (pollWrite_other hp other)

theorem pollWriteHeaders_wrote {b b' : Buffered B} (ok : b.WriteOk) (flat : b.writeBuf.strategy = .flatten)
    {res : Poll (Except IoError Nat)} (h : b.pollWriteHeaders = (res, b')) : Wrote b b' (accepted res) := by
  have empty := ok.buf.flattened flat
  have contents := WriteBuf.contents_eq_headers empty
  unfold pollWriteHeaders at h
  split at h
  · next n io hp =>
    obtain ⟨rfl, rfl⟩ := Prod.mk.inj h
    have hn : n ≤ b.writeBuf.headers.remaining := by
      rw [Cursor.remaining_eq_length_chunk]; exact (pollWrite_ready hp).1
    refine .of_isPrefix ok hp (by rw [contents]) ?_ ⟨.advance hn ok.buf.headers, ok.buf.queue, ok.buf.flattened⟩ rfl
    rw [contents, WriteBuf.contents_eq_headers (by exact empty)]
    exact Cursor.chunk_advance _ _
  · next res' io other hp =>
    obtain ⟨rfl, rfl⟩ := Prod.mk.inj h
    rw [accepted_of_other other]
    exact .of_other ok (pollWrite_other hp other)

/-! ### The script of the writes -/

theorem contents_eq_nil {b : Buffered B} (ok : b.WriteOk) (h : b.writeBuf.remaining = 0) : b.writeBuf.contents = [] :=
  List.length_eq_zero_iff.mp (ok.buf.remaining.symm.trans h)

theorem headers_remaining_of_flatten {b : Buffered B} (ok : b.WriteOk) (flat : b.writeBuf.strategy = .flatten) :
    b.writeBuf.remaining = b.writeBuf.headers.remaining := by
  rw [ok.buf.remaining, WriteBuf.contents_eq_headers (ok.buf.flattened flat), Cursor.remaining_eq_length_chunk]

omit [LawfulBuf B] in
/-- What the next write of a flush is given. -/
def offers (vectored : Bool) (w : WriteBuf B) : Bytes :=
  match w.strategy with
  | .flatten => w.headers.chunk
  | .queue => if vectored then (w.chunksVectored MAX_BUFS).flatten else w.chunk

omit [LawfulBuf B] in
/-- The writes that come before the next `Pending` of the script take all of the buffer, or one of them fails or takes
nothing. -/
def takenBy (vectored : Bool) : List WriteEvent → WriteBuf B → Bool
  | [], w => w.remaining == 0
  | .pending :: _, w => w.remaining == 0
  | .error _ :: _, _ => true
  | .accept n :: rest, w =>
    let taken := min n (offers vectored w).length
    taken == 0 || takenBy vectored rest (w.advance taken)

omit [LawfulBuf B] in
def takesRest (b : Buffered B) : Bool := takenBy b.io.isWriteVectored b.io.writes b.writeBuf

theorem offers_isPrefix (vectored : Bool) (w : WriteBuf B) : offers vectored w <+: w.contents := by
  unfold offers
  split
  · exact List.prefix_append _ _
  split
  · exact w.chunksVectored_isPrefix _
  · exact WriteBuf.chunk_isPrefix

theorem takenBy_of_empty (vectored : Bool) {w : WriteBuf B} (empty : w.contents = []) (none : w.remaining = 0)
    (script : List WriteEvent) : takenBy vectored script w = true := by
  have nothing : offers vectored w = [] := List.prefix_nil.mp (empty ▸ offers_isPrefix vectored w)
  cases script with
  | nil => simp [takenBy, none]
  | cons event rest =>
    cases event with
    | pending => simp [takenBy, none]
    | error e => rfl
    | accept n => simp [takenBy, nothing]

theorem takesRest_of_empty {b : Buffered B} (ok : b.WriteOk) (empty : b.writeBuf.remaining = 0) : b.takesRest = true :=
  takenBy_of_empty _ (contents_eq_nil ok empty) empty _

/-- What one write says about the script. -/
structure Tells (b : Buffered B) (res : Poll (Except IoError Nat)) (b' : Buffered B) : Prop where
  pending : res = .pending → b.takesRest = false
  failed : ∀ e, res = .ready (.error e) → b.takesRest = true
  took : ∀ n, res = .ready (.ok n) → b.takesRest = (n == 0 || b'.takesRest)

omit [LawfulBuf B] in
theorem Tells.of_pollWrite {b : Buffered B} (more : b.writeBuf.remaining ≠ 0) {io : Transport}
    {res : Poll (Except IoError Nat)} (call : b.io.pollWrite (offers b.io.isWriteVectored b.writeBuf) = (res, io))
    {b' : Buffered B} (advanced : ∀ n, res = .ready (.ok n) →
      b'.takesRest = takenBy b.io.isWriteVectored io.writes (b.writeBuf.advance n)) : b.Tells res b' := by
  unfold Transport.pollWrite at call
  split at call
  · next script =>
    obtain ⟨rfl, rfl⟩ := Prod.mk.inj call
    exact ⟨fun _ => by simp [takesRest, script, takenBy, more], nofun, nofun⟩
  · next script =>
    obtain ⟨rfl, rfl⟩ := Prod.mk.inj call
    exact ⟨fun _ => by simp [takesRest, script, takenBy, more], nofun, nofun⟩
  · next script =>
    obtain ⟨rfl, rfl⟩ := Prod.mk.inj call
    exact ⟨nofun, fun _ _ => by simp [takesRest, script, takenBy], nofun⟩
  · next n rest script =>
    obtain ⟨rfl, rfl⟩ := Prod.mk.inj call
    refine ⟨nofun, nofun, ?_⟩
    intro taken same
    obtain rfl := Except.ok.inj (Poll.ready.inj same)
    rw [advanced _ rfl, takesRest, script, takenBy]

theorem pollWrite_isWriteVectored {t t' : Transport} {offered : Bytes} {res : Poll (Except IoError Nat)}
    (call : t.pollWrite offered = (res, t')) : t'.isWriteVectored = t.isWriteVectored := by
  unfold Transport.pollWrite at call
  split at call
  · obtain ⟨-, rfl⟩ := Prod.mk.inj call; rfl
  · obtain ⟨-, rfl⟩ := Prod.mk.inj call; rfl
  · obtain ⟨-, rfl⟩ := Prod.mk.inj call; rfl
  · obtain ⟨-, rfl⟩ := Prod.mk.inj call; rfl

omit [LawfulBuf B] in
theorem pollWriteBuf_tells {b b' : Buffered B} (queue : b.writeBuf.strategy = .queue)
    (more : b.writeBuf.remaining ≠ 0) {res : Poll (Except IoError Nat)} (call : b.pollWriteBuf = (res, b')) :
    b.Tells res b' := by
  unfold pollWriteBuf at call
  rw [if_neg more] at call
  have offered : (if b.io.isWriteVectored then b.io.pollWriteVectored (b.writeBuf.chunksVectored MAX_BUFS)
      else b.io.pollWrite b.writeBuf.chunk) = b.io.pollWrite (offers b.io.isWriteVectored b.writeBuf) := by
    unfold offers
    rw [queue]
    split
    · rfl
    · rfl
  rw [offered] at call
  cases polled : b.io.pollWrite (offers b.io.isWriteVectored b.writeBuf) with
  | mk res' io =>
    have vectored := pollWrite_isWriteVectored polled
    rw [polled] at call
    dsimp only at call
    split at call
    · obtain ⟨rfl, rfl⟩ := Prod.mk.inj call
      refine .of_pollWrite more polled ?_
      intro n same
      obtain rfl := Except.ok.inj (Poll.ready.inj same)
      rw [takesRest, ← vectored]
    · next other =>
      obtain ⟨rfl, rfl⟩ := Prod.mk.inj call
      exact .of_pollWrite more polled fun n same => absurd same (other n)

theorem pollWriteHeaders_tells {b b' : Buffered B} (ok : b.WriteOk) (flat : b.writeBuf.strategy = .flatten)
    (more : b.writeBuf.remaining ≠ 0) {res : Poll (Except IoError Nat)} (call : b.pollWriteHeaders = (res, b')) :
    b.Tells res b' := by
  have wrote := pollWriteHeaders_wrote ok flat call
  have all := headers_remaining_of_flatten ok flat
  have offered : offers b.io.isWriteVectored b.writeBuf = b.writeBuf.headers.chunk := by rw [offers, flat]
  unfold pollWriteHeaders at call
  rw [← offered] at call
  split at call
  · next n io polled =>
    have vectored := pollWrite_isWriteVectored polled
    obtain ⟨rfl, rfl⟩ := Prod.mk.inj call
    refine .of_pollWrite more polled ?_
    intro n' same
    obtain rfl := Except.ok.inj (Poll.ready.inj same)
    have rest : _ + n = _ := wrote.remaining
    by_cases whole : b.writeBuf.headers.remaining = n
    · -- Only here do the two sides differ: one of them has reset its cursor.
      have inside : n ≤ b.writeBuf.remaining := by omega
      have advanced := WriteBuf.contents_advance ok.buf inside
      have gone : (b.writeBuf.advance n).contents = [] := by
        rw [advanced.1, ← whole, ← all, ok.buf.remaining, List.drop_length]
      rw [takesRest_of_empty wrote.ok (by omega),
        takenBy_of_empty _ gone (by rw [advanced.2.remaining, gone]; rfl)]
    · rw [takesRest, ← vectored, WriteBuf.advance, if_neg whole, if_pos (by omega)]
  · next other polled =>
    obtain ⟨rfl, rfl⟩ := Prod.mk.inj call
    exact .of_pollWrite more polled fun n same => (other n same).elim

/-- The write step of the loop for a strategy, and its test of what is left. -/
structure Writer (strategy : WriteStrategy) (write : Buffered B → Poll (Except IoError Nat) × Buffered B)
    (left : Buffered B → Nat) : Prop where
  counts : ∀ {b : Buffered B}, b.WriteOk → b.writeBuf.strategy = strategy → left b = b.writeBuf.remaining
  wrote : ∀ {b b' res}, b.WriteOk → b.writeBuf.strategy = strategy → write b = (res, b') →
    Wrote b b' (accepted res)
  tells : ∀ {b b' res}, b.WriteOk → b.writeBuf.strategy = strategy → b.writeBuf.remaining ≠ 0 →
    write b = (res, b') → b.Tells res b'

theorem pollWriteBuf_writer : Writer (B := B) .queue pollWriteBuf fun b => b.writeBuf.remaining where
  counts _ _ := rfl
  wrote ok _ call := pollWriteBuf_wrote ok call
  tells _ queue more call := pollWriteBuf_tells queue more call

theorem pollWriteHeaders_writer : Writer (B := B) .flatten pollWriteHeaders fun b => b.writeBuf.headers.remaining where
  counts ok flat := (headers_remaining_of_flatten ok flat).symm
  wrote ok flat call := pollWriteHeaders_wrote ok flat call
  tells ok flat more call := pollWriteHeaders_tells ok flat more call

/-! ### The loops -/

/-- What a flush does: the wire is kept, and success leaves nothing behind. -/
structure Flushed (b : Buffered B) (res : Poll (Except IoError Unit)) (b' : Buffered B) : Prop where
  ok : b'.WriteOk
  wire : b'.wire = b.wire
  strategy : b'.writeBuf.strategy = b.writeBuf.strategy
  drained : res = .ready (.ok ()) → b'.writeBuf.contents = []

theorem Flushed.trans_wrote {b b₁ b₂ : Buffered B} {n : Nat} {res : Poll (Except IoError Unit)} (w : Wrote b b₁ n)
    (f : Flushed b₁ res b₂) : Flushed b res b₂ :=
  ⟨f.ok, f.wire.trans w.wire, f.strategy.trans w.strategy, f.drained⟩

/-- A flush that stops after a write, without success. -/
theorem Wrote.stopped {b b' : Buffered B} {n : Nat} {res : Poll (Except IoError Unit)} (wrote : Wrote b b' n)
    (unfinished : res ≠ .ready (.ok ())) : Flushed b res b' :=
  ⟨wrote.ok, wrote.wire, wrote.strategy, fun done => absurd done unfinished⟩

theorem pollFlushIo_flushed {b : Buffered B} (ok : b.WriteOk) (empty : b.writeBuf.contents = []) :
    Flushed b b.pollFlushIo.1 b.pollFlushIo.2 := by
  have written : b.io.pollFlush.2.written = b.io.written := by
    unfold Transport.pollFlush
    split
    · rfl
    · rfl
  exact ⟨⟨ok.buf, ok.pipeline⟩, congrArg (· ++ b.writeBuf.contents) written, rfl, fun _ => empty⟩

theorem reset_wrote {b : Buffered B} (ok : b.WriteOk) (empty : b.writeBuf.contents = []) :
    Wrote b { b with writeBuf := { b.writeBuf with headers := b.writeBuf.headers.reset } } 0 ∧
      ({ b.writeBuf with headers := b.writeBuf.headers.reset } : WriteBuf B).contents = [] := by
  obtain ⟨headers, queue⟩ := List.append_eq_nil_iff.mp empty
  have reset : ({ b.writeBuf with headers := b.writeBuf.headers.reset } : WriteBuf B).contents = [] := by
    show b.writeBuf.headers.reset.chunk ++ b.writeBuf.queue.contents = []
    rw [Cursor.chunk_reset, queue]; rfl
  have wok : ({ b.writeBuf with headers := b.writeBuf.headers.reset } : WriteBuf B).Ok :=
    ⟨.reset _, ok.buf.queue, ok.buf.flattened⟩
  refine ⟨⟨⟨wok, ok.pipeline⟩, ?_, rfl, ?_⟩, reset⟩
  · simp only [Buffered.wire, reset, empty]
  · rw [wok.remaining, ok.buf.remaining, reset, empty]; rfl

/-- A loop that finishes with nothing left keeps the wire, and ends. -/
theorem flushWith_flushed {write : Buffered B → Poll (Except IoError Nat) × Buffered B} {left : Buffered B → Nat}
    {finish : Buffered B → Poll (Except IoError Unit) × Buffered B} {strategy : WriteStrategy}
    (writer : Writer strategy write left)
    (finishes : ∀ {b : Buffered B}, b.WriteOk → b.writeBuf.contents = [] → Flushed b (finish b).1 (finish b).2)
    {fuel : Nat} {b : Buffered B} (ok : b.WriteOk) (same : b.writeBuf.strategy = strategy)
    (enough : b.writeBuf.remaining < fuel) :
    ∃ res b', flushWith write left finish fuel b = some (res, b') ∧ Flushed b res b' := by
  obtain ⟨out, run⟩ : ∃ out, flushWith write left finish fuel b = some out := by
    refine flushWith_ends (I := fun b => b.WriteOk ∧ b.writeBuf.strategy = strategy) ?_ ⟨ok, same⟩ enough
    rintro b b' n ⟨ok, same⟩ call
    have step := writer.wrote ok same call
    exact ⟨⟨step.ok, step.strategy.trans same⟩, step.remaining⟩
  refine ⟨out.1, out.2, run, ?_⟩
  refine flushWith_induct (P := fun b out => b.WriteOk → b.writeBuf.strategy = strategy → Flushed b out.1 out.2)
    ?_ ?_ ?_ ?_ ?_ run ok same
  · intro b b' call ok same
    have step := writer.wrote ok same call
    exact step.stopped (by simp)
  · intro b b' e call ok same
    have step := writer.wrote ok same call
    exact step.stopped (by simp)
  · intro b b' n call none ok same
    have step := writer.wrote ok same call
    have empty := (writer.counts step.ok (step.strategy.trans same)).symm.trans none
    exact .trans_wrote step (finishes step.ok (contents_eq_nil step.ok empty))
  · intro b b' call _ ok same
    have step := writer.wrote ok same call
    exact step.stopped (by simp)
  · intro b b' n out call _ _ later ok same
    have step := writer.wrote ok same call
    exact .trans_wrote step (later step.ok (step.strategy.trans same))

theorem flushLoop_flushed {b : Buffered B} (ok : b.WriteOk) :
    ∃ res b', b.flushLoop = some (res, b') ∧ Flushed b res b' := by
  unfold flushLoop
  split
  · next flat =>
    refine flushWith_flushed pollWriteHeaders_writer ?_ ok flat (Nat.lt_succ_self _)
    intro b ok empty
    obtain ⟨reset, drained⟩ := reset_wrote ok empty
    exact .trans_wrote reset (pollFlushIo_flushed reset.ok drained)
  · next queue => exact flushWith_flushed pollWriteBuf_writer pollFlushIo_flushed ok queue (Nat.lt_succ_self _)

theorem pollFlush_flushed {b : Buffered B} (ok : b.WriteOk) : Flushed b b.pollFlush.1 b.pollFlush.2 := by
  unfold pollFlush
  rw [ok.pipeline, Bool.false_and, if_neg (by decide)]
  split
  · next empty => exact pollFlushIo_flushed ok (contents_eq_nil ok empty)
  · obtain ⟨res, b', run, flushed⟩ := flushLoop_flushed ok
    rw [run]
    exact flushed

/-- A flush leaves something behind without an error exactly if the script of the writes says so. -/
structure Decided (b : Buffered B) (res : Poll (Except IoError Unit)) (b' : Buffered B) : Prop where
  taken : b.takesRest = true → b'.writeBuf.remaining = 0 ∨ ∃ e, res = .ready (.error e)
  held : b.takesRest = false → res = .pending ∧ b'.writeBuf.remaining ≠ 0

theorem flushWith_decided {write : Buffered B → Poll (Except IoError Nat) × Buffered B} {left : Buffered B → Nat}
    {finish : Buffered B → Poll (Except IoError Unit) × Buffered B} {strategy : WriteStrategy}
    (writer : Writer strategy write left)
    (finishes : ∀ {b : Buffered B}, b.WriteOk → b.writeBuf.contents = [] → (finish b).2.writeBuf.remaining = 0)
    {fuel : Nat} {b : Buffered B} {out : Poll (Except IoError Unit) × Buffered B}
    (run : flushWith write left finish fuel b = some out) (ok : b.WriteOk) (same : b.writeBuf.strategy = strategy)
    (more : b.writeBuf.remaining ≠ 0) : Decided b out.1 out.2 := by
  refine flushWith_induct (P := fun b out => b.WriteOk → b.writeBuf.strategy = strategy → b.writeBuf.remaining ≠ 0 →
    Decided b out.1 out.2) ?_ ?_ ?_ ?_ ?_ run ok same more
  · intro b b' call ok same more
    have step := writer.wrote ok same call
    have told := (writer.tells ok same more call).pending rfl
    refine ⟨fun taken => absurd (told.symm.trans taken) Bool.false_ne_true, fun _ => ⟨rfl, ?_⟩⟩
    exact fun empty => more (step.remaining.symm.trans empty)
  · intro b b' e call ok same more
    have told := (writer.tells ok same more call).failed e rfl
    exact ⟨fun _ => .inr ⟨e, rfl⟩, fun held => absurd (held.symm.trans told) Bool.false_ne_true⟩
  · intro b b' n call none ok same more
    have step := writer.wrote ok same call
    have empty := (writer.counts step.ok (step.strategy.trans same)).symm.trans none
    have told := (writer.tells ok same more call).took n rfl
    rw [takesRest_of_empty step.ok empty, Bool.or_true] at told
    refine ⟨fun _ => .inl (finishes step.ok (contents_eq_nil step.ok empty)), ?_⟩
    exact fun held => absurd (held.symm.trans told) Bool.false_ne_true
  · intro b b' call _ ok same more
    have told := (writer.tells ok same more call).took 0 rfl
    exact ⟨fun _ => .inr ⟨_, rfl⟩, fun held => absurd (held.symm.trans told) Bool.false_ne_true⟩
  · intro b b' n out call left some_bytes later ok same more
    have step := writer.wrote ok same call
    have same' := step.strategy.trans same
    have told := (writer.tells ok same more call).took n rfl
    obtain ⟨taken, held⟩ := later step.ok same' fun empty => left ((writer.counts step.ok same').trans empty)
    rw [beq_false_of_ne some_bytes, Bool.false_or] at told
    exact ⟨fun all => taken (told.symm.trans all), fun not_all => held (told.symm.trans not_all)⟩

theorem flushLoop_decided {b : Buffered B} (ok : b.WriteOk) (more : b.writeBuf.remaining ≠ 0)
    {out : Poll (Except IoError Unit) × Buffered B} (run : b.flushLoop = some out) : Decided b out.1 out.2 := by
  unfold flushLoop at run
  split at run
  · next flat =>
    refine flushWith_decided pollWriteHeaders_writer ?_ run ok flat more
    intro b ok empty
    obtain ⟨reset, drained⟩ := reset_wrote ok empty
    have flushed := pollFlushIo_flushed reset.ok drained
    rw [flushed.ok.buf.remaining]
    exact congrArg List.length drained
  · next queue =>
    refine flushWith_decided pollWriteBuf_writer ?_ run ok queue more
    intro b ok empty
    rw [(pollFlushIo_flushed ok empty).ok.buf.remaining]
    exact congrArg List.length empty

theorem pollFlush_decided {b : Buffered B} (ok : b.WriteOk) : Decided b b.pollFlush.1 b.pollFlush.2 := by
  unfold pollFlush
  rw [ok.pipeline, Bool.false_and, if_neg (by decide)]
  split
  · next empty =>
    refine ⟨fun _ => .inl empty, ?_⟩
    intro held
    exact absurd (held.symm.trans (takesRest_of_empty ok empty)) Bool.false_ne_true
  · next more =>
    obtain ⟨res, b', run, -⟩ := flushLoop_flushed ok
    rw [run]
    exact flushLoop_decided ok more run

/-! ### Whole runs -/

inductive WriteOp (B : Type) where
  | head (data : Bytes)
  | buffer (buf : B)
  | flush

def WriteOp.bytes : WriteOp B → Bytes
  | .head data => data
  | .buffer buf => LawfulBuf.bytes buf
  | .flush => []

omit [LawfulBuf B] in
/-- One call. Heads are only encoded when `can_headers_buf` holds, and no empty buffer is queued. -/
def writeStep (b : Buffered B) : WriteOp B → Option (Buffered B)
  | .head data => if b.canHeadersBuf then some (b.extendHeaders data) else none
  | .buffer buf => if 0 < Buf.remaining buf then some (b.buffer buf) else none
  | .flush => some b.pollFlush.2

omit [LawfulBuf B] in
def writeRun (b : Buffered B) (ops : List (WriteOp B)) : Option (Buffered B) := ops.foldlM writeStep b

omit [Buf B] [LawfulBuf B] in
/-- A connection that has written nothing, over a transport with any behaviour. -/
def fresh (io : Transport) (strategy : WriteStrategy) (maxBufSize : Nat) : Buffered B where
  io := { io with written := [] }
  writeBuf := { strategy, maxBufSize }

theorem fresh_ok (io : Transport) (strategy : WriteStrategy) (maxBufSize : Nat) :
    (fresh io strategy maxBufSize : Buffered B).WriteOk ∧ (fresh io strategy maxBufSize : Buffered B).wire = [] :=
  ⟨⟨⟨Nat.zero_le _, .empty, fun _ => rfl⟩, rfl⟩, rfl⟩

theorem writeStep_wire {b b' : Buffered B} {op : WriteOp B} (ok : b.WriteOk) (h : writeStep b op = some b') :
    b'.WriteOk ∧ b'.wire = b.wire ++ op.bytes := by
  cases op with
  | head data =>
    obtain ⟨empty, h⟩ := Option.ite_none_right_eq_some.mp h
    obtain rfl := Option.some.inj h
    refine ⟨⟨ok.buf.extendHeaders data, ok.pipeline⟩, ?_⟩
    show b.io.written ++ (b.writeBuf.extendHeaders data).contents = _
    rw [WriteBuf.contents_extendHeaders ok.buf (by simpa [canHeadersBuf] using empty), ← List.append_assoc]
    rfl
  | buffer buf =>
    obtain ⟨nonempty, h⟩ := Option.ite_none_right_eq_some.mp h
    obtain rfl := Option.some.inj h
    refine ⟨⟨ok.buf.buffer nonempty, ok.pipeline⟩, ?_⟩
    show b.io.written ++ (b.writeBuf.buffer buf).contents = _
    rw [WriteBuf.contents_buffer ok.buf, ← List.append_assoc]
    rfl
  | flush =>
    obtain rfl := Option.some.inj h
    have flushed := pollFlush_flushed ok
    exact ⟨flushed.ok, by rw [flushed.wire, WriteOp.bytes, List.append_nil]⟩

theorem writeRun_wire {b b' : Buffered B} {ops : List (WriteOp B)} (ok : b.WriteOk) (h : writeRun b ops = some b') :
    b'.WriteOk ∧ b'.wire = b.wire ++ ops.flatMap WriteOp.bytes := by
  induction ops generalizing b with
  | nil =>
    obtain rfl := Option.some.inj h
    exact ⟨ok, by simp⟩
  | cons op ops ih =>
    obtain ⟨b₁, first, rest⟩ := Option.bind_eq_some_iff.mp h
    obtain ⟨ok₁, wire₁⟩ := writeStep_wire ok first
    obtain ⟨ok', wire'⟩ := ih ok₁ rest
    exact ⟨ok', by rw [wire', wire₁, List.flatMap_cons, List.append_assoc]⟩

/-- Writing is first in, first out under both strategies and every transport, every flush ends and succeeds only with
an empty buffer, and the two strategies put the same bytes on the wire. -/
theorem writeRun_fifo (ops : List (WriteOp B)) (maxBufSize : Nat) :
    (∀ io strategy b, writeRun (fresh io strategy maxBufSize) ops = some b →
      b.io.written ++ b.writeBuf.contents = ops.flatMap WriteOp.bytes ∧
      (∃ res b', b.flushLoop = some (res, b')) ∧
      (b.pollFlush.1 = .ready (.ok ()) → b.pollFlush.2.writeBuf.remaining = 0)) ∧
    (∀ b : Buffered B, b.WriteOk →
      (∀ n b', b.pollWriteBuf = (.ready (.ok n), b') → b'.writeBuf.remaining + n = b.writeBuf.remaining) ∧
      (∀ n b', b.writeBuf.strategy = .flatten → b.pollWriteHeaders = (.ready (.ok n), b') →
        b'.writeBuf.remaining + n = b.writeBuf.remaining)) ∧
    (∀ io₁ io₂ b₁ b₂, writeRun (fresh io₁ .flatten maxBufSize) ops = some b₁ →
      writeRun (fresh io₂ .queue maxBufSize) ops = some b₂ →
      (b₁.io.written <+: b₂.io.written ∨ b₂.io.written <+: b₁.io.written) ∧
      (b₁.writeBuf.remaining = 0 → b₂.writeBuf.remaining = 0 → b₁.io.written = b₂.io.written)) := by
  have runs : ∀ io strategy (b : Buffered B), writeRun (fresh io strategy maxBufSize) ops = some b →
      b.WriteOk ∧ b.wire = ops.flatMap WriteOp.bytes := by
    intro io strategy b h
    obtain ⟨ok, start⟩ := fresh_ok (B := B) io strategy maxBufSize
    obtain ⟨ok', wire⟩ := writeRun_wire ok h
    exact ⟨ok', by rw [wire, start, List.nil_append]⟩
  refine ⟨?_, ?_, ?_⟩
  · intro io strategy b h
    obtain ⟨ok, wire⟩ := runs io strategy b h
    obtain ⟨res, b', run, -⟩ := flushLoop_flushed ok
    have flushed := pollFlush_flushed ok
    refine ⟨wire, ⟨res, b', run⟩, ?_⟩
    intro success
    rw [flushed.ok.buf.remaining, flushed.drained success]; rfl
  · intro b ok
    refine ⟨?_, ?_⟩
    · intro n b' h
      exact (pollWriteBuf_wrote ok h).remaining
    · intro n b' flat h
      exact (pollWriteHeaders_wrote ok flat h).remaining
  · intro io₁ io₂ b₁ b₂ h₁ h₂
    obtain ⟨ok₁, wire₁⟩ := runs _ _ _ h₁
    obtain ⟨ok₂, wire₂⟩ := runs _ _ _ h₂
    have left : b₁.io.written <+: ops.flatMap WriteOp.bytes := ⟨_, wire₁⟩
    have right : b₂.io.written <+: ops.flatMap WriteOp.bytes := ⟨_, wire₂⟩
    refine ⟨List.prefix_or_prefix_of_prefix left right, ?_⟩
    intro empty₁ empty₂
    rw [wire, contents_eq_nil ok₁ empty₁, List.append_nil] at wire₁
    rw [wire, contents_eq_nil ok₂ empty₂, List.append_nil] at wire₂
    exact wire₁.trans wire₂.symm

/-- Two buffers of one byte behind a head of one byte, flushed one byte at a time. -/
def threeBytes : List (WriteOp Bytes) := [.head [1], .buffer [2], .flush, .buffer [3], .flush]

theorem writeRun_fifo_threeBytes :
    ∃ b₁ b₂, writeRun (fresh { writes := [.accept 1, .pending, .accept 1, .accept 1] } .flatten 8192) threeBytes = some b₁ ∧
      writeRun (fresh { writes := [.accept 2, .accept 1], isWriteVectored := true } .queue 8192) threeBytes =
        some b₂ ∧
      b₁.io.written ++ b₁.writeBuf.contents = [1, 2, 3] ∧ b₁.io.written = b₂.io.written :=
  ⟨_, _, rfl, rfl, ((writeRun_fifo threeBytes 8192).1 _ _ _ rfl).1,
    ((writeRun_fifo threeBytes 8192).2.2 _ _ _ _ rfl rfl).2 rfl rfl⟩

end Hwire.Http1.Buffered
