import Hwire.Http1.LengthFraming
import Hwire.Http1.Uploads
import Hwire.Lib.Halting

/-!
# Every poll returns

A poll of the dispatcher goes through a bounded number of rounds, and within a round no loop turns without taking
something: bytes that were read, a request, a frame of a body, or a flush of the transport. What is left to take brings
every poll to its end, whatever the others do meanwhile.
-/

namespace Hwire.Dispatch.Channel

variable {T U : Type}

/-! ### Requests to come -/

/-- The requests that have been sent and not received, and the one that may be sent before the receiver asks again. -/
def coming (ch : Channel T U) : Nat :=
  ch.queue.length + ch.pushing.toList.length + (ch.wanting || !ch.bufferedOnce).toNat

theorem coming_give (ch : Channel T U) (val : T) : (ch.give val).coming ≤ ch.coming := by
  unfold give
  split
  · exact Nat.le_refl _
  · next free =>
    have none : ch.pushing = none := by
      cases pushing : ch.pushing with
      | none => rfl
      | some val => simp [pushing] at free
    split
    · next may =>
      unfold coming
      rw [may, none]
      exact Nat.le_refl _
    · exact Nat.le_refl _

theorem coming_push (ch : Channel T U) : ch.push.coming ≤ ch.coming := by
  unfold push
  split
  · next val pushing =>
    unfold send
    split
    · unfold coming
      rw [pushing]
      exact Nat.add_le_add_right (Nat.le_add_right _ 1) _
    · unfold coming
      rw [pushing, List.length_append]
      exact Nat.le_refl _
  · exact Nat.le_refl _

theorem coming_dropSender (ch : Channel T U) : ch.dropSender.coming = ch.coming := by
  unfold dropSender
  split
  · rfl
  · rfl

theorem coming_take {ch : Channel T U} {env : Nat × T} {rest : List (Nat × T)} (front : ch.queue = env :: rest) :
    coming { ch with queue := rest } < ch.coming := by
  unfold coming
  rw [front, List.length_cons]
  dsimp only
  omega

end Hwire.Dispatch.Channel

namespace Hwire.Http1
open Lib Body LawfulBuf Dispatch.Channel

/-! ### What reading takes -/

section Decoding

variable {B : Type}

theorem Buffered.readMem_shorter {b b' : Buffered B} {len : Nat} {slice : Bytes}
    (read : b.readMem len = (.ready (.ok slice), b')) (ne : slice ≠ []) : b'.unread.length < b.unread.length := by
  obtain ⟨slice', b'', eq, -, split⟩ | ⟨other, -⟩ := b.readMem_take len
  · rw [read] at eq
    cases eq
    have some_bytes := List.length_pos_iff.mpr ne
    rw [split, List.length_append]
    omega
  · exact absurd (congrArg Prod.fst read) (other slice)

theorem Chunked.step_shorter {c c' : Chunked} {b b' : Buffered B} {data : Bytes}
    (stepped : c.step b = (.ready (.ok (c', some data)), b')) : b'.unread.length < b.unread.length := by
  have ne := Chunked.step_data stepped
  unfold Chunked.step at stepped
  split at stepped
  · cases stepped
  · unfold Chunked.stepBody at stepped
    split at stepped
    · cases stepped
    · cases stepped
    · next slice b₁ read =>
      obtain ⟨body, rfl⟩ := Prod.mk.inj stepped
      have body := Poll.ready.inj body
      unfold Chunked.readBody at body
      split at body
      · cases body
      · cases body
        exact Buffered.readMem_shorter read ne
  · unfold Chunked.stepByte at stepped
    split at stepped
    · cases stepped
    · cases stepped
    · cases stepped
    · next x _ _ _ =>
      obtain ⟨byte, -⟩ := Prod.mk.inj stepped
      have byte := Poll.ready.inj byte
      cases made : c.onByte x with
      | error e =>
        rw [made] at byte
        cases byte
      | ok c₁ =>
        rw [made] at byte
        cases byte

variable [Httparse]

theorem Chunked.finish_ne_data (c : Chunked) {data : Bytes} (ne : data ≠ []) : c.finish.1 ≠ .ok (.data data) := by
  unfold Chunked.finish
  intro same
  split at same
  · split at same
    · cases same
    · next buf _ _ =>
      cases decoded : decodeTrailers buf c.trailersCnt with
      | error e =>
        rw [decoded] at same
        cases same
      | ok trailers =>
        rw [decoded] at same
        cases same
  · cases same
    exact ne rfl

theorem Chunked.decode_shorter {fuel : Nat} {c c' : Chunked} {b b' : Buffered B} {data : Bytes}
    (decoded : c.decode fuel b = (.ready (.ok (.data data)), c', b')) (ne : data ≠ []) :
    b'.unread.length < b.unread.length := by
  induction fuel generalizing c b with
  | zero => cases decoded
  | succ fuel ih =>
    rw [Chunked.decode] at decoded
    split at decoded
    · cases decoded
    · cases decoded
    · next c₁ buf b₁ stepped =>
      split at decoded
      · exact absurd (Poll.ready.inj (congrArg Prod.fst decoded)) (c₁.finish_ne_data ne)
      · split at decoded
        · cases decoded
          exact Chunked.step_shorter stepped
        · have along := Chunked.step_along (S := fun b b' : Buffered B => b'.unread.length ≤ b.unread.length)
            (fun _ => Nat.le_refl _) (fun b len => (b.readMem_unread len).length_le) c b
          rw [stepped] at along
          exact Nat.lt_of_lt_of_le (ih decoded) along

/-- A frame with data is taken from what was unread. -/
theorem Decoder.decode_shorter {d d' : Decoder} {b b' : Buffered B} {data : Bytes}
    (decoded : d.decode b = (.ready (.ok (.data data)), d', b')) (ne : data ≠ []) :
    b'.unread.length < b.unread.length := by
  unfold Decoder.decode at decoded
  split at decoded
  · split at decoded
    · cases decoded
      exact absurd rfl ne
    · split at decoded
      · cases decoded
      · cases decoded
      · next read =>
        split at decoded
        · cases decoded
          exact Buffered.readMem_shorter read ne
        split at decoded
        · cases decoded
        · cases decoded
          exact Buffered.readMem_shorter read ne
  · next c =>
    dsimp only at decoded
    generalize out : c.decode (MemRead.budget b + 2) b = result at decoded
    obtain ⟨res, c₁, b₁⟩ := result
    cases decoded
    exact Chunked.decode_shorter out ne
  · split at decoded
    · cases decoded
      exact absurd rfl ne
    · split at decoded
      · cases decoded
      · cases decoded
      · next read =>
        cases decoded
        exact Buffered.readMem_shorter read ne

end Decoding

namespace Conn

/-- What a poll of the read loop can still take, with what it holds in its hands: a head, the rest of a body, and the
bytes for it. -/
def readsLeft (c : Conn) (held : Nat) : ℕ ×ₗ ℕ ×ₗ ℕ ×ₗ ℕ :=
  toLex (c.canReadHead.toNat, toLex (c.canReadBody.toNat, toLex (c.unread.length, held)))

theorem readsLeft_of_head {c c' : Conn} {held held' : Nat} (can : c.canReadHead = true) (read : c'.canReadHead = false) :
    c'.readsLeft held' < c.readsLeft held := by
  apply Prod.Lex.toLex_lt_toLex.mpr
  left
  simp [can, read]

theorem readsLeft_of_body {c c' : Conn} {held held' : Nat} (none : c'.canReadHead = false) (can : c.canReadBody = true)
    (ended : c'.canReadBody = false) : c'.readsLeft held' < c.readsLeft held := by
  apply Prod.Lex.toLex_strictMono
  refine Prod.mk_lt_mk_of_le_of_lt ?_ ?_
  · simp [none]
  · apply Prod.Lex.toLex_lt_toLex.mpr
    left
    simp [can, ended]

theorem readsLeft_of_data {c c' : Conn} {held held' : Nat} (none : c'.canReadHead = false) (can : c.canReadBody = true)
    (shorter : c'.unread.length < c.unread.length) : c'.readsLeft held' < c.readsLeft held := by
  apply Prod.Lex.toLex_strictMono
  refine Prod.mk_lt_mk_of_le_of_lt ?_ (Prod.Lex.toLex_strictMono (Prod.mk_lt_mk_of_le_of_lt ?_ ?_))
  · simp [none]
  · simpa [can] using Bool.toNat_le _
  · exact Prod.Lex.toLex_lt_toLex.mpr (.inl shorter)

/-- Nothing more can be read, and less is held. -/
theorem readsLeft_of_held {c c' : Conn} {held held' : Nat} (head : c'.canReadHead = true → c.canReadHead = true)
    (body : c'.canReadBody = true → c.canReadBody = true) (unread : c'.unread.length ≤ c.unread.length)
    (fewer : held' < held) : c'.readsLeft held' < c.readsLeft held := by
  have fewer : (toLex (c'.unread.length, held') : ℕ ×ₗ ℕ) < toLex (c.unread.length, held) :=
    Prod.Lex.toLex_strictMono (Prod.mk_lt_mk_of_le_of_lt unread fewer)
  apply Prod.Lex.toLex_strictMono
  refine Prod.mk_lt_mk_of_le_of_lt ?_ (Prod.Lex.toLex_strictMono (Prod.mk_lt_mk_of_le_of_lt ?_ fewer))
  · exact Bool.toNat_le_toNat head
  · exact Bool.toNat_le_toNat body

variable [Httparse]

/-- A head is read once. -/
theorem pollReadHead_once {c : Conn} (can : c.canReadHead = true) (ready : c.pollReadHead.1 ≠ .pending) :
    c.pollReadHead.2.canReadHead = false := by
  obtain ⟨-, other⟩ | ⟨_, -, read, -⟩ := pollReadHead_received can
  · obtain ⟨-, eq⟩ | ⟨e, -, eq⟩ | ⟨msg, _, -, -, found, -⟩ := c.pollReadHead_cases
    · rw [eq] at ready
      exact absurd rfl ready
    · rw [eq]
      have closed := (c.withParse.onReadHeadError_closes e).2
      simp [canReadHead, closed]
    · exact absurd found (other msg)
  · exact read

theorem pollReadBody_noHead {c : Conn} (inv : c.Inv) (can : c.canReadBody = true) :
    c.pollReadBody.2.canReadHead = false := by
  obtain ⟨-, aside⟩ | ⟨_, -, -, -, none⟩ | ⟨_, _, -, -, -, none, -⟩ := pollReadBody_received inv can
  · rw [← Bool.not_eq_true]
    intro head
    cases (not_canReadBody_of_canReadHead (aside.head head)).symm.trans can
  · exact none
  · exact none

/-- A frame of a body that goes on is taken from what was unread. -/
theorem pollReadBody_shorter {c : Conn} (inv : c.Inv) (can : c.canReadBody = true) {frame : Frame}
    (read : c.pollReadBody.1 = .ready (some (.ok frame))) (more : c.pollReadBody.2.canReadBody = true) :
    c.pollReadBody.2.unread.length < c.unread.length := by
  obtain ⟨d, reading⟩ := inv.reading_of_canReadBody can
  rw [pollReadBody_of_reading reading] at read more ⊢
  obtain ⟨d', io, -, eq⟩ | ⟨e, d', io, -, eq⟩ | ⟨frame', d', io, -, -, eq⟩ | ⟨data, d', io, out, ne, -, eq⟩ :=
    c.pollReadBodyWith_cases d
  · rw [eq] at read
    cases read
  · rw [eq] at read
    cases read
  · rw [eq] at more
    have kept := tryKeepAlive_aside (c.withFrame io d' frame' .keepAlive)
    cases kept.body.symm.trans more
  · rw [eq]
    exact Decoder.decode_shorter out ne

theorem pollReadBody_readsLeft {c : Conn} (inv : c.Inv) (can : c.canReadBody = true) {frame : Frame}
    (read : c.pollReadBody.1 = .ready (some (.ok frame))) (held held' : Nat) :
    c.pollReadBody.2.readsLeft held' < c.readsLeft held := by
  have none := pollReadBody_noHead inv can
  by_cases more : c.pollReadBody.2.canReadBody = true
  · exact readsLeft_of_data none can (pollReadBody_shorter inv can read more)
  · exact readsLeft_of_body none can (by simpa using more)

end Conn

/-! ### What writing takes -/

namespace Buffered

variable {B : Type} [Buf B]

omit [Buf B] in
theorem pollReadFromIo_flushes (b : Buffered B) : b.pollReadFromIo.2.io.flushes = b.io.flushes := by
  have read : b.io.pollRead.2.flushes = b.io.flushes := by
    unfold Transport.pollRead
    split
    · rfl
    split
    · rfl
    · rfl
    · rfl
    · rfl
  unfold pollReadFromIo
  split
  · next h =>
    rw [h] at read
    exact read
  · next h =>
    rw [h] at read
    exact read
  · next h =>
    rw [h] at read
    exact read

theorem pollWrite_flushes (t : Transport) (offered : Bytes) : (t.pollWrite offered).2.flushes = t.flushes := by
  unfold Transport.pollWrite
  split
  · rfl
  · rfl
  · rfl
  · rfl

omit [Buf B] in
theorem pollFlushIo_shorter {b : Buffered B} (flushed : b.pollFlushIo.1 = .ready (.ok ())) :
    b.pollFlushIo.2.io.flushes.length < b.io.flushes.length := by
  unfold pollFlushIo Transport.pollFlush at flushed ⊢
  cases script : b.io.flushes with
  | nil =>
    rw [script] at flushed
    cases flushed
  | cons res rest => exact Nat.lt_succ_self _

theorem pollWriteBuf_flushes (b : Buffered B) : b.pollWriteBuf.2.io.flushes = b.io.flushes := by
  unfold pollWriteBuf
  split
  · rfl
  · dsimp only
    have offered : (if b.io.isWriteVectored then b.io.pollWriteVectored (b.writeBuf.chunksVectored MAX_BUFS)
        else b.io.pollWrite b.writeBuf.chunk).2.flushes = b.io.flushes := by
      split
      · exact pollWrite_flushes _ _
      · exact pollWrite_flushes _ _
    split
    · exact offered
    · exact offered

omit [Buf B] in
theorem pollWriteHeaders_flushes (b : Buffered B) : b.pollWriteHeaders.2.io.flushes = b.io.flushes := by
  have wrote := pollWrite_flushes b.io b.writeBuf.headers.chunk
  unfold pollWriteHeaders
  split
  · next h =>
    rw [h] at wrote
    exact wrote
  · next h =>
    rw [h] at wrote
    exact wrote

omit [Buf B] in
theorem flushWith_shorter {write : Buffered B → Poll (Except IoError Nat) × Buffered B} {left : Buffered B → Nat}
    {finish : Buffered B → Poll (Except IoError Unit) × Buffered B}
    (wrote : ∀ b, (write b).2.io.flushes = b.io.flushes)
    (finished : ∀ b, (finish b).1 = .ready (.ok ()) → (finish b).2.io.flushes.length < b.io.flushes.length)
    {fuel : Nat} {b : Buffered B} {out : Poll (Except IoError Unit) × Buffered B}
    (run : flushWith write left finish fuel b = some out) (flushed : out.1 = .ready (.ok ())) :
    out.2.io.flushes.length < b.io.flushes.length := by
  have round {b b' res} (call : write b = (res, b')) : b'.io.flushes = b.io.flushes := by
    rw [← wrote b, call]
  refine flushWith_induct (P := fun b out => out.1 = .ready (.ok ()) → out.2.io.flushes.length < b.io.flushes.length)
    ?_ ?_ ?_ ?_ ?_ run flushed
  · intro b b' _ flushed
    cases flushed
  · intro b b' e _ flushed
    cases flushed
  · intro b b' n call _ flushed
    rw [← round call]
    exact finished b' flushed
  · intro b b' _ _ flushed
    cases flushed
  · intro b b' n out call _ _ later flushed
    rw [← round call]
    exact later flushed

/-- Without the flush pipeline, a flush that succeeds has flushed the transport. -/
theorem pollFlush_shorter {b : Buffered B} (pipeline : b.flushPipeline = false) (flushed : b.pollFlush.1 = .ready (.ok ())) :
    b.pollFlush.2.io.flushes.length < b.io.flushes.length := by
  unfold pollFlush at flushed ⊢
  rw [pipeline, Bool.false_and, if_neg Bool.false_ne_true] at flushed ⊢
  split
  · next empty =>
    rw [if_pos empty] at flushed
    exact pollFlushIo_shorter flushed
  · next more =>
    rw [if_neg more] at flushed
    cases run : b.flushLoop with
    | none =>
      rw [run] at flushed
      cases flushed
    | some out =>
      obtain ⟨res, b'⟩ := out
      rw [run] at flushed
      obtain rfl : res = .ready (.ok ()) := flushed
      unfold flushLoop at run
      split at run
      · refine flushWith_shorter pollWriteHeaders_flushes ?_ run rfl
        intro b
        exact pollFlushIo_shorter
      · exact flushWith_shorter pollWriteBuf_flushes (fun _ => pollFlushIo_shorter) run rfl

end Buffered

namespace Conn

theorem tryKeepAlive_flushes (c : Conn) : c.tryKeepAlive.io.io.flushes = c.io.io.flushes := by
  rcases maybeNotify_io { c with state := c.state.tryKeepAlive } with same | read
  · rw [tryKeepAlive, same]
  · rw [tryKeepAlive, read]
    exact Buffered.pollReadFromIo_flushes c.io

theorem pollFlush_shorter {c : Conn} (ok : c.io.WriteOk) (flushed : c.pollFlush.1 = .ready (.ok ())) :
    c.pollFlush.2.io.io.flushes.length < c.io.io.flushes.length := by
  obtain ⟨done, eq⟩ | ⟨other, eq⟩ := c.pollFlush_eq
  · rw [eq]
    dsimp only
    rw [tryKeepAlive_flushes]
    exact Buffered.pollFlush_shorter ok.pipeline done
  · rw [eq] at flushed
    exact absurd flushed other

theorem Sends.io {c c' : Conn} (sends : c.Sends c') : c'.io.io = c.io.io := by
  obtain rfl | ⟨writeBuf, more, next, -, rfl⟩ := sends
  · rfl
  · rfl

theorem endBody_canWriteBody (c : Conn) : c.endBody.2.canWriteBody = false := by
  by_cases can : c.canWriteBody = true
  · obtain ⟨e, writing⟩ := canWriteBody_iff.mp can
    obtain ⟨buf, -, -, eq⟩ | ⟨err, eq⟩ := endBody_eq writing
    · rw [eq]
      show canWriteBody { c with state := { c.state with writing := endWriting e } } = false
      unfold canWriteBody endWriting
      cases e.isLast
      · rfl
      · rfl
    · rw [eq]
      rfl
  · have none : c.endBody.2 = c := by
      unfold canWriteBody at can
      unfold endBody
      split
      · next e writing => simp [writing] at can
      · rfl
    rw [none]
    simpa using can

end Conn

theorem UserBody.pollFrame_fewer {body : UserBody} (ready : body.pollFrame.1 ≠ .pending) :
    body.pollFrame.2.2.polls.length < body.polls.length := by
  obtain ⟨-, eq⟩ | ⟨poll, body', polls, eq⟩ := World.pollFrame_cases body
  · rw [eq] at ready
    exact absurd rfl ready
  · rw [eq, polls]
    exact Nat.lt_succ_self _

/-- How far a poll has still to go through its rounds. -/
def Phase.stage : Phase → Nat
  | .reading left | .sending left _ _ => left * 10 + 9
  | .writing left again => left * 10 + if again then 3 else 7
  | .wanting left again => left * 10 + if again then 2 else 6
  | .flushing left _ => left * 10 + 5
  | .inner => 1
  | .parked | .finished _ | .gone => 0

/-- The task is not being polled. -/
def Phase.atRest : Phase → Bool
  | .parked | .finished _ | .gone => true
  | _ => false

namespace World

/-- What is left of a user's body: its polls, and its end. -/
def bodyLeft (w : World) : ℕ ×ₗ ℕ := toLex (w.bodyRx.elim 0 fun body => body.polls.length + 1, w.conn.canWriteBody.toNat)

/-- What the write loop can still take: requests that have been sent or may be, flushes of the transport, and frames of
the body. -/
def writesLeft (w : World) : ℕ ×ₗ ℕ ×ₗ ℕ ×ₗ ℕ := toLex (w.chan.coming, toLex (w.conn.io.io.flushes.length, w.bodyLeft))

/-- What is left of the loop that the task is in. -/
def loopLeft (w : World) : ℕ ×ₗ ℕ ×ₗ ℕ ×ₗ ℕ :=
  match w.phase with
  | .sending .. => w.conn.readsLeft 2
  | .reading _ => w.conn.readsLeft w.bodyTx.isSome.toNat
  | _ => w.writesLeft

def rank (w : World) : ℕ ×ₗ ℕ ×ₗ ℕ ×ₗ ℕ ×ₗ ℕ := toLex (w.phase.stage, w.loopLeft)

theorem rank_of_stage {w v : World} (later : v.phase.stage < w.phase.stage) : v.rank < w.rank :=
  Prod.Lex.toLex_lt_toLex.mpr (.inl later)

theorem rank_of_loop {w v : World} (same : v.phase.stage = w.phase.stage) (less : v.loopLeft < w.loopLeft) :
    v.rank < w.rank :=
  Prod.Lex.toLex_lt_toLex.mpr (.inr ⟨same, less⟩)

theorem fail_rank {w : World} (busy : 0 < w.phase.stage) (v : World) (e : Error) : (v.fail e).rank < w.rank := by
  obtain ⟨_, _, _, _, eq⟩ := v.fail_eq e
  apply rank_of_stage
  rw [eq]
  exact busy

/-! ### The read loop -/

variable {w v : World} {left : Nat}

theorem reading_rank (phase : w.phase = .reading left) (phase' : v.phase = .reading left)
    (less : v.conn.readsLeft v.bodyTx.isSome.toNat < w.conn.readsLeft w.bodyTx.isSome.toNat) : v.rank < w.rank := by
  apply rank_of_loop
  · rw [phase, phase']
  · unfold loopLeft
    rw [phase, phase']
    exact less

/-- The loop is left for the one that writes. -/
theorem reading_done (phase : w.phase = .reading left) (phase' : v.phase = .writing left false) : v.rank < w.rank := by
  apply rank_of_stage
  rw [phase, phase']
  exact Nat.add_lt_add_left (by decide) _

theorem reading_busy (phase : w.phase = .reading left) : 0 < w.phase.stage := by
  rw [phase]
  exact Nat.succ_pos _

theorem recvHead_rank (phase : w.phase = .reading left) (can : w.conn.canReadHead = true)
    (read : v.conn.canReadHead = false) (msg : ParsedMessage) : (v.recvHead left msg).rank < w.rank := by
  obtain ⟨bodyTx, bodies, bodyOf, eq⟩ := v.openBody_eq msg
  unfold recvHead
  rw [eq]
  dsimp only
  split
  · apply reading_rank phase rfl
    apply Conn.readsLeft_of_head can
    dsimp only
    split
    · exact read
    · exact read
  · exact fail_rank (reading_busy phase) _ _

section Reading

variable [Httparse]

theorem pollReadHead_rank (phase : w.phase = .reading left) (can : w.conn.canReadHead = true) :
    (w.pollReadHead left).rank < w.rank := by
  have closed (v : World) : World.rank { v.close with phase := .reading left } < w.rank :=
    reading_rank phase rfl (Conn.readsLeft_of_head can rfl)
  unfold pollReadHead
  split
  · exact closed w
  split
  · exact closed w
  · dsimp only
    split
    · exact reading_done phase rfl
    · next msg found => exact recvHead_rank phase can (Conn.pollReadHead_once can (by rw [found]; exact nofun)) msg
    · split
      · exact closed _
      · exact fail_rank (reading_busy phase) _ _
    · next none =>
      split
      · exact closed _
      · apply reading_rank phase rfl
        exact Conn.readsLeft_of_head can (Conn.pollReadHead_once can (by rw [none]; exact nofun))

/-- The sender of a body was taken out of its guard. -/
theorem pollReadStream_rank (inv : w.conn.Inv) (phase : w.phase = .reading left) (none : w.conn.canReadHead = false)
    {j : Nat} (held : w.bodyTx = some j) : (pollReadStream { w with bodyTx := .none } left j).rank < w.rank := by
  have dropped {v : World} (phase' : v.phase = .reading left) (bodyTx : v.bodyTx = .none)
      (head : v.conn.canReadHead = false) (body : v.conn.canReadBody = true → w.conn.canReadBody = true)
      (unread : v.conn.unread.length ≤ w.conn.unread.length) : v.rank < w.rank := by
    apply reading_rank phase phase'
    apply Conn.readsLeft_of_held ?_ body unread
    · rw [bodyTx, held]
      exact Nat.one_pos
    · rw [head]
      exact nofun
  unfold pollReadStream
  split
  · next can =>
    have can : w.conn.canReadBody = true := can
    have unread := ((Conn.Call.readBody can).unread inv).length_le
    split
    · exact reading_done phase rfl
    · obtain ⟨-, head, -⟩ := Conn.pollDrainOrCloseRead_received inv can
      apply dropped rfl rfl head (fun _ => can)
      exact ((Conn.Call.drain can).unread inv).length_le
    · have head := Conn.pollReadBody_noHead inv can
      dsimp only
      split
      · next frame read =>
        apply rank_of_loop
        · rw [phase]
          rfl
        · unfold loopLeft
          rw [phase]
          exact Conn.pollReadBody_readsLeft inv can read _ _
      · exact dropped rfl rfl head (fun _ => can) unread
      · exact reading_done phase rfl
      · exact dropped rfl rfl head (fun _ => can) unread
  · exact dropped rfl rfl none id (Nat.le_refl _)

theorem stepReading_rank (inv : w.conn.Inv) (phase : w.phase = .reading left) : (w.stepReading left).rank < w.rank := by
  unfold stepReading
  split
  · exact reading_done phase rfl
  split
  · next can => exact pollReadHead_rank phase can
  · next no =>
    split
    · next j held => exact pollReadStream_rank inv phase (by simpa using no) held
    · dsimp only
      split
      · exact fail_rank (reading_busy phase) _ _
      · exact reading_done phase rfl

end Reading

theorem stepSending_rank {j : Nat} {frame : Frame} (phase : w.phase = .sending left j frame) :
    (w.stepSending left j frame).rank < w.rank := by
  have sent {v : World} (phase' : v.phase = .reading left) (head : v.conn.canReadHead = true → w.conn.canReadHead = true)
      (body : v.conn.canReadBody = true → w.conn.canReadBody = true)
      (unread : v.conn.unread.length ≤ w.conn.unread.length) : v.rank < w.rank := by
    apply rank_of_loop
    · rw [phase, phase']
      rfl
    · unfold loopLeft
      rw [phase, phase']
      apply Conn.readsLeft_of_held head body unread
      exact Nat.lt_succ_of_le (Bool.toNat_le _)
  unfold stepSending
  dsimp only
  split
  · exact sent rfl id id (Nat.le_refl _)
  split
  · exact sent rfl nofun nofun (Nat.le_refl _)
  · exact sent rfl id id (Nat.le_refl _)

/-! ### The write loop -/

variable {again : Bool}

theorem writing_busy (place : w.InWrite left again) : 0 < w.phase.stage := by
  rcases place with phase | phase
  · rw [phase]
    cases again
    · exact Nat.succ_pos _
    · exact Nat.succ_pos _
  · rw [phase]
    cases again
    · exact Nat.succ_pos _
    · exact Nat.succ_pos _

theorem endWrite_rank (place : w.InWrite left again) (v : World) (ready : Bool) :
    (v.endWrite left again ready).rank < w.rank := by
  apply rank_of_stage
  have room : left * 10 + (if again then 2 else 6) ≤ w.phase.stage := by
    rcases place with phase | phase
    · rw [phase]
      cases again
      · exact Nat.le_succ _
      · exact Nat.le_succ _
    · rw [phase]
      exact Nat.le_refl _
  refine Nat.lt_of_lt_of_le ?_ room
  unfold endWrite
  split
  · cases ready
    · show 1 < _
      omega
    · cases left with
      | zero => exact Nat.succ_pos _
      | succ left =>
        show left * 10 + 9 < _
        omega
  · show left * 10 + 5 < _
    omega

/-- A round of the loop is over, and there is less left to write. -/
theorem writing_rank (place : w.phase = .writing left again) (place' : v.phase = .writing left again)
    (less : v.writesLeft < w.writesLeft) : v.rank < w.rank := by
  apply rank_of_loop
  · rw [place, place']
  · unfold loopLeft
    rw [place, place']
    exact less

theorem writesLeft_of_flushes (chan : v.chan = w.chan) (fewer : v.conn.io.io.flushes.length < w.conn.io.io.flushes.length) :
    v.writesLeft < w.writesLeft := by
  apply Prod.Lex.toLex_strictMono
  rw [chan]
  exact Prod.mk_lt_mk_of_le_of_lt (Nat.le_refl _) (Prod.Lex.toLex_lt_toLex.mpr (.inl fewer))

theorem writesLeft_of_body (chan : v.chan = w.chan) (io : v.conn.io.io = w.conn.io.io)
    (less : v.bodyLeft < w.bodyLeft) : v.writesLeft < w.writesLeft := by
  unfold writesLeft
  rw [chan, io]
  apply Prod.Lex.toLex_strictMono
  exact Prod.mk_lt_mk_of_le_of_lt (Nat.le_refl _) (Prod.Lex.toLex_strictMono (Prod.mk_lt_mk_of_le_of_lt (Nat.le_refl _) less))

theorem orFail_rank (phase : w.phase = .writing left again) (less : v.writesLeft < w.writesLeft) (res : Except Error Unit) :
    (v.orFail left again res).rank < w.rank := by
  cases res with
  | ok => exact writing_rank phase rfl less
  | error e => exact fail_rank (writing_busy (.inl phase)) v e

theorem endBody_rank (phase : w.phase = .writing left again) (chan : v.chan = w.chan) (conn : v.conn = w.conn)
    (none : v.bodyRx = none) (can : w.conn.canWriteBody = true) : (v.endBody left again).rank < w.rank := by
  apply orFail_rank phase
  apply writesLeft_of_body
  · exact chan
  · dsimp only
    rw [conn]
    exact (Conn.endBody_sends can).io
  · unfold bodyLeft
    dsimp only
    rw [none, Conn.endBody_canWriteBody, can]
    exact Prod.Lex.toLex_strictMono (Prod.mk_lt_mk_of_le_of_lt (Nat.zero_le _) Nat.one_pos)

theorem bodyLeft_of_polls {body : UserBody} (rx : w.bodyRx = some body)
    (fewer : v.bodyRx.elim 0 (fun body => body.polls.length + 1) < body.polls.length + 1) : v.bodyLeft < w.bodyLeft := by
  apply Prod.Lex.toLex_lt_toLex.mpr
  left
  rw [rx]
  exact fewer

theorem writeChunk_rank (phase : w.phase = .writing left again) {body : UserBody} (rx : w.bodyRx = some body)
    (can : w.conn.canWriteBody = true) (chan : v.chan = w.chan) (conn : v.conn = w.conn)
    (fewer : v.bodyRx.elim 0 (fun body => body.polls.length + 1) < body.polls.length + 1) (chunk : Bytes) (eos : Bool) :
    (v.writeChunk left again chunk eos).rank < w.rank := by
  unfold writeChunk
  split
  · dsimp only
    split
    · exact endBody_rank phase chan conn rfl can
    · refine writing_rank phase rfl (writesLeft_of_body ?_ ?_ (bodyLeft_of_polls rx ?_))
      · exact chan
      · dsimp only
        rw [conn]
        exact (Conn.writeBodyAndEnd_sends can chunk).io
      · exact Nat.succ_pos _
  · split
    · refine writing_rank phase rfl (writesLeft_of_body ?_ ?_ (bodyLeft_of_polls rx ?_))
      · exact chan
      · exact congrArg (fun c : Conn => c.io.io) conn
      · exact fewer
    · refine writing_rank phase rfl (writesLeft_of_body ?_ ?_ (bodyLeft_of_polls rx ?_))
      · exact chan
      · dsimp only
        rw [conn]
        exact (Conn.writeBody_sends can chunk).io
      · exact fewer

theorem writeUserBody_rank (phase : w.phase = .writing left again) {body : UserBody} (rx : w.bodyRx = some body) :
    (w.writeUserBody left again body).rank < w.rank := by
  unfold writeUserBody
  split
  · apply writing_rank phase rfl
    exact writesLeft_of_body rfl rfl (bodyLeft_of_polls rx (Nat.succ_pos _))
  · next can =>
    have can : w.conn.canWriteBody = true := by simpa using can
    dsimp only
    split
    · exact endWrite_rank (.inl phase) _ _
    · exact fail_rank (writing_busy (.inl phase)) _ _
    · exact endBody_rank phase rfl rfl rfl can
    · next chunk polled =>
      refine writeChunk_rank phase rx can ?_ ?_ ?_ chunk _
      · rfl
      · rfl
      · apply Nat.succ_lt_succ
        exact UserBody.pollFrame_fewer (by rw [polled]; exact nofun)
    · refine writing_rank phase rfl (writesLeft_of_body ?_ ?_ (bodyLeft_of_polls rx ?_))
      · rfl
      · exact (Conn.writeTrailers_sends can _).io
      · exact Nat.succ_pos _

section Steps

variable [Httparse]

theorem takeRequest_rank (phase : w.phase = .writing left again) {id : Nat} {req : Request} {rest : List (Nat × Request)}
    (front : w.chan.queue = (id, req) :: rest) : (w.takeRequest left again id req rest).rank < w.rank := by
  obtain ⟨_, -, -, phase', chan⟩ | ⟨-, gone, -⟩ := w.takeRequest_cases left again id req rest
  · apply writing_rank phase phase'
    apply Prod.Lex.toLex_lt_toLex.mpr
    left
    have fewer := coming_take front
    rwa [← chan] at fewer
  · apply rank_of_stage
    rw [gone]
    exact writing_busy (.inl phase)

theorem PolledMsg.rank_lt {v : World} (polled : w.PolledMsg left again v) (phase : w.phase = .writing left again) :
    v.rank < w.rank := by
  have place : w.InWrite left again := .inl phase
  cases polled with
  | canceled => exact endWrite_rank place _ _
  | taken front => exact takeRequest_rank phase front
  | ended => exact endWrite_rank place _ _
  | waits =>
    apply rank_of_stage
    rw [phase]
    cases again
    · exact Nat.lt_succ_self _
    · exact Nat.lt_succ_self _

theorem stepWriting_rank (ok : w.conn.io.WriteOk) (phase : w.phase = .writing left again) :
    (w.stepWriting left again).rank < w.rank := by
  have place : w.InWrite left again := .inl phase
  generalize w.stepWriting left again = v, w.stepWriting_round left again = round
  cases round with
  | closing => exact endWrite_rank place _ _
  | polled _ _ _ _ polled => exact polled.rank_lt phase
  | blocked => exact endWrite_rank place _ _
  | @flushed _ res flushed =>
    cases res with
    | error e => exact fail_rank (writing_busy place) _ _
    | ok =>
      apply orFail_rank phase
      exact writesLeft_of_flushes rfl (Conn.pollFlush_shorter ok flushed)
  | userBody rx => exact writeUserBody_rank phase rx
  | bodyDone none can => exact endBody_rank phase rfl rfl none can
  | nothing => exact endWrite_rank place _ _

omit [Httparse] in
theorem stepFlushing_rank {writeReady : Bool} (phase : w.phase = .flushing left writeReady) :
    (w.stepFlushing left writeReady).rank < w.rank := by
  have busy : w.phase.stage = left * 10 + 5 := by
    rw [phase]
    rfl
  unfold stepFlushing
  dsimp only
  split
  · exact fail_rank (by omega) _ _
  split
  · apply rank_of_stage
    rw [busy]
    show 1 < _
    omega
  split
  · apply rank_of_stage
    rw [busy]
    exact Nat.add_lt_add_left (by decide) _
  · apply rank_of_stage
    rw [busy]
    cases left with
    | zero => exact Nat.succ_pos _
    | succ left =>
      show left * 10 + 9 < _
      omega

omit [Httparse] in
theorem complete_rank (busy : 0 < w.phase.stage) (v : World) (res : Dispatched) : (v.complete res).rank < w.rank := by
  unfold complete
  dsimp only
  split
  · exact fail_rank busy _ _
  · exact rank_of_stage busy

omit [Httparse] in
theorem stepInner_rank (phase : w.phase = .inner) : w.stepInner.rank < w.rank := by
  have busy : 0 < w.phase.stage := by
    rw [phase]
    exact Nat.one_pos
  unfold stepInner
  split
  · dsimp only
    split
    · exact complete_rank busy _ _
    split
    · split
      · exact rank_of_stage busy
      · exact fail_rank busy _ _
      · exact complete_rank busy _ _
    · exact complete_rank busy _ _
  · exact rank_of_stage busy

/-- Every step of the task leaves less to do. -/
theorem step_rank (inv : w.conn.Inv) (ok : w.conn.io.WriteOk) (busy : w.phase.atRest = false) : w.step.rank < w.rank := by
  unfold step
  split
  · next phase => exact stepReading_rank inv phase
  · next phase => exact stepSending_rank phase
  · next phase => exact stepWriting_rank ok phase
  · next phase => exact endWrite_rank (.inr phase) _ _
  · next phase => exact stepFlushing_rank phase
  · next phase => exact stepInner_rank phase
  · next phase =>
    rw [phase] at busy
    cases busy
  · next phase =>
    rw [phase] at busy
    cases busy
  · next phase =>
    rw [phase] at busy
    cases busy

/-- What the others do leaves no more. -/
theorem act_rank (busy : w.phase.atRest = false) {a : Action} (other : a ≠ .step) : (w.act a).rank ≤ w.rank := by
  have same {v : World} (phase : v.phase = w.phase) (conn : v.conn = w.conn) (bodyTx : v.bodyTx = w.bodyTx)
      (bodyRx : v.bodyRx = w.bodyRx) (chan : v.chan.coming ≤ w.chan.coming) : v.rank ≤ w.rank := by
    have loop : v.loopLeft ≤ w.loopLeft := by
      unfold loopLeft writesLeft bodyLeft
      rw [phase, conn, bodyTx, bodyRx]
      split
      · exact le_rfl
      · exact le_rfl
      · exact Prod.Lex.toLex_mono (Prod.mk_le_mk.mpr ⟨chan, le_rfl⟩)
    apply Prod.Lex.toLex_mono
    exact Prod.mk_le_mk.mpr ⟨Nat.le_of_eq (congrArg _ phase), loop⟩
  cases a with
  | step => exact absurd rfl other
  | poll =>
    rw [act]
    split
    · next parked =>
      rw [parked] at busy
      cases busy
    · exact le_rfl
  | drop =>
    rw [act]
    split
    · next parked =>
      rw [parked] at busy
      cases busy
    · next finished =>
      rw [finished] at busy
      cases busy
    · exact le_rfl
  | give req => exact same rfl rfl rfl rfl (coming_give _ _)
  | push => exact same rfl rfl rfl rfl (coming_push _)
  | dropSender => exact same rfl rfl rfl rfl (coming_dropSender _).le
  | cancel => exact same rfl rfl rfl rfl le_rfl
  | pollFrame | dropBody => exact same rfl rfl rfl rfl le_rfl

theorem act_settles : Settles act (· = .step) (fun w => w.conn.Inv ∧ w.conn.Sound) (fun w => w.phase.atRest = true) rank where
  keeps {w} a inv := by
    have steps := w.act_steps a
    exact ⟨(Conn.Steps.inv steps inv.1).1, Conn.Steps.sound steps inv.1 inv.2⟩
  lowers {w a} inv busy own := by
    rw [own]
    exact step_rank inv.1 inv.2.writes (by simpa using busy)
  others _ busy other := act_rank (by simpa using busy) other

/-- However the steps of the task are mixed with what callers and the users of bodies do, every poll comes to its end,
as long as the task is given steps. -/
theorem run_returns (opts : Http1Options) (io : Transport) (schedule : ℕ → Action) (turns : Recurs (· = .step) schedule)
    (n : ℕ) : ∃ m ≥ n, ((new opts io).run ((List.range m).map schedule)).phase.atRest = true := by
  have start : (new opts io).conn.Inv ∧ (new opts io).conn.Sound :=
    ⟨Conn.handshake_inv opts io, Conn.handshake_sound opts io⟩
  obtain ⟨m, later, rests⟩ := act_settles.rests start turns n
  rw [trace_eq_foldl] at rests
  exact ⟨m, later, rests⟩

/-- A request is given and the task is polled once, and from then on given steps. -/
def onePoll (n : ℕ) : Action := [Action.give (sampleGet .empty), .push, .poll true][n]?.getD .step

omit [Httparse] in
theorem run_returns_onePoll : onePoll 2 = .poll true ∧
    ∃ m ≥ 3, (@run onlyEmptyResponse thenEof ((List.range m).map onePoll)).phase.atRest = true := by
  refine ⟨rfl, @run_returns onlyEmptyResponse {} _ onePoll ?_ 3⟩
  intro n
  refine ⟨n + 3, Nat.le_add_right n 3, ?_⟩
  unfold onePoll
  rw [List.getElem?_eq_none (Nat.le_add_left 3 n)]
  rfl

end Steps

end World

end Hwire.Http1
