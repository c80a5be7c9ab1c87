import Hwire.Http1.Runs

/-!
# Responses in order

When the read buffer is empty at every `write_head`, so that no response is matched with a later request. The look at the
transport before a connection is idle lies in the read loop, but a connection can also become idle in the write loop; what
keeps a request from being written there is that the channel lets no second request in before the receiver asks for it.
-/

namespace Hwire.Http1
open Lib Dispatch

/-! ### Reads -/

namespace Buffered

variable {B : Type}

theorem pollReadFromIo_readBuf (b : Buffered B) :
    match b.pollReadFromIo.1 with
    | .ready (.ok n) => ∃ bytes, n = bytes.length ∧ b.pollReadFromIo.2.readBuf = b.readBuf ++ bytes
    | _ => b.pollReadFromIo.2.readBuf = b.readBuf := by
  unfold pollReadFromIo
  obtain ⟨res, io⟩ := b.io.pollRead
  cases res with
  | pending => rfl
  | ready res =>
    cases res with
    | error e => rfl
    | ok bytes => exact ⟨bytes, rfl, rfl⟩

theorem pollReadFromIo_blocked (b : Buffered B) (pending : b.pollReadFromIo.1 = .pending) :
    b.pollReadFromIo.2.readBlocked = true := by
  unfold pollReadFromIo at pending ⊢
  split
  · next h =>
    rw [h] at pending
    cases pending
  · rfl
  · next h =>
    rw [h] at pending
    cases pending

end Buffered

/-! ### Connections -/

def State.Busy (s : State) : Prop := (∃ e, s.writing = .body e) ∨ s.writing = .keepAlive

theorem State.Closes.busy {s s' : State} (closes : s.Closes s') (busy : s'.Busy) : s.Busy := by
  rcases closes.writing with same | ⟨closed, -⟩
  · simpa only [State.Busy, same] using busy
  · rcases busy with ⟨e, h⟩ | h
    · exact absurd (closed.symm.trans h) nofun
    · exact absurd (closed.symm.trans h) nofun

theorem State.Closes.init {s s' : State} (closes : s.Closes s') (reading : s'.reading = .init)
    (writing : s'.writing = .init) : s.reading = .init ∧ s.writing = .init := by
  obtain ⟨hr, hw, -⟩ := closes
  constructor
  · rcases hr with h | h
    · exact h.symm.trans reading
    · exact absurd (reading.symm.trans h) nofun
  · rcases hw with h | ⟨h, -⟩
    · exact h.symm.trans writing
    · exact absurd (writing.symm.trans h) nofun

theorem State.Busy.ne_init {s : State} (busy : s.Busy) : s.writing ≠ .init := by
  rcases busy with ⟨e, h⟩ | h
  · simp [h]
  · simp [h]

namespace Conn

theorem tryKeepAlive_busy {c : Conn} (busy : c.tryKeepAlive.state.Busy) : c.state.Busy := by
  have tried := (maybeNotify_closes { c with state := c.state.tryKeepAlive }).state.busy busy
  obtain ⟨-, -, -, eq⟩ | closes := c.state.tryKeepAlive_cases
  · exact absurd rfl (eq ▸ tried).ne_init
  · exact closes.busy tried

/-- A connection that is idle has nothing buffered and knows that nothing is there. -/
def Swept (c : Conn) : Prop :=
  c.state.reading = .init → c.state.writing = .init → c.io.readBuf = [] ∧ c.io.readBlocked = true

theorem swept_of_writing {c : Conn} (busy : c.state.writing ≠ .init) : c.Swept := fun _ init => absurd init busy

theorem swept_of_reading {c : Conn} (going : c.state.reading ≠ .init) : c.Swept := fun init => absurd init going

theorem tryKeepAlive_of_blocked {c : Conn} (reading : c.state.reading = .init) (writing : c.state.writing = .init)
    (blocked : c.io.readBlocked = true) : c.tryKeepAlive = c := by
  have same : c.state.tryKeepAlive = c.state := by simp [State.tryKeepAlive, reading, writing]
  unfold tryKeepAlive
  rw [same]
  simp [maybeNotify, mayNotify, reading, writing, blocked]

theorem Swept.pollFlush {c : Conn} (swept : c.Swept) (free : ¬ c.state.Busy) : c.pollFlush.2.Swept := by
  have same := c.io.pollFlush_same
  have flushed : Swept { c with io := c.io.pollFlush.2 } := by
    intro reading writing
    rw [same.readBuf, same.readBlocked]
    exact swept reading writing
  obtain ⟨-, eq⟩ | ⟨-, eq⟩ := c.pollFlush_eq
  · rw [eq]
    intro reading writing
    obtain ⟨-, busy, -⟩ | closes := c.state.tryKeepAlive_cases
    · exact absurd (.inr busy) free
    · -- The connection was idle before, so it has not looked at the transport again.
      have closes := closes.trans (maybeNotify_closes { c with io := c.io.pollFlush.2, state := c.state.tryKeepAlive }).state
      obtain ⟨reading₀, writing₀⟩ := closes.init reading writing
      have blocked := (flushed reading₀ writing₀).2
      rw [tryKeepAlive_of_blocked (c := { c with io := c.io.pollFlush.2 }) reading₀ writing₀ blocked]
      exact flushed reading₀ writing₀
  · rw [eq]
    exact flushed

theorem requireEmptyRead_swept {c : Conn} (fine : ∀ e, c.requireEmptyRead.1 ≠ .ready (.error e)) :
    c.requireEmptyRead.2.Swept := by
  unfold requireEmptyRead at fine ⊢
  split
  · next some_bytes =>
    rw [if_pos some_bytes] at fine
    exact absurd rfl (fine _)
  · next nothing =>
    rw [if_neg nothing] at fine
    have empty : c.io.readBuf = [] := by simpa using nothing
    have grown := c.io.pollReadFromIo_readBuf
    unfold forceIoRead at fine ⊢
    cases read : c.io.pollReadFromIo with
    | mk res io =>
      rw [read] at fine
      cases res with
      | pending =>
        have blocked := c.io.pollReadFromIo_blocked
        rw [read] at grown blocked
        intro _ _
        exact ⟨grown.trans empty, blocked rfl⟩
      | ready res =>
        cases res with
        | error e => exact absurd rfl (fine _)
        | ok n =>
          dsimp only at fine ⊢
          split
          · exact swept_of_reading nofun
          · next some_bytes =>
            rw [if_neg some_bytes] at fine
            exact absurd rfl (fine _)

/-- Bytes that are there, before or after the look at the transport, are an error. -/
theorem requireEmptyRead_unexpected {c : Conn} (unread : c.requireEmptyRead.2.io.readBuf ≠ []) :
    c.requireEmptyRead.1 = .ready (.error .newUnexpectedMessage) := by
  unfold requireEmptyRead at unread ⊢
  split
  · rfl
  · next nothing =>
    rw [if_neg nothing] at unread
    have empty : c.io.readBuf = [] := by simpa using nothing
    have grown := c.io.pollReadFromIo_readBuf
    unfold forceIoRead at unread ⊢
    cases read : c.io.pollReadFromIo with
    | mk res io =>
      rw [read] at unread grown
      cases res with
      | pending => exact absurd (grown.trans empty) unread
      | ready res =>
        cases res with
        | error e => exact absurd (grown.trans empty) unread
        | ok n =>
          dsimp only at unread ⊢
          split
          · next none =>
            rw [if_pos none] at unread
            obtain ⟨bytes, length, readBuf⟩ := grown
            have nothing : bytes = [] := List.length_eq_zero_iff.mp (length.symm.trans none)
            have still : io.readBuf = [] := readBuf.trans (by rw [nothing, empty]; rfl)
            exact absurd still unread
          · rfl

/-- The look at the transport that every idle connection takes in the read loop. -/
theorem pollReadKeepAlive_swept {c : Conn} (fine : ∀ e, c.pollReadKeepAlive.1 ≠ .ready (.error e)) :
    c.pollReadKeepAlive.2.Swept := by
  unfold pollReadKeepAlive at fine ⊢
  split
  · next closed =>
    have closed : c.state.reading = .closed := by simpa [isReadClosed, State.isReadClosed] using closed
    exact swept_of_reading (by simp [closed])
  · next opened =>
    rw [if_neg opened] at fine
    split
    · next mid =>
      intro reading writing
      obtain ⟨reading₀, writing₀⟩ := c.midMessageDetectEof_looked.closes.state.init reading writing
      exact absurd mid (by simp [isMidMessage, reading₀, writing₀])
    · next idle =>
      rw [if_neg idle] at fine
      exact requireEmptyRead_swept fine

variable [Httparse]

theorem pollReadHead_busy {c : Conn} (busy : c.pollReadHead.2.state.Busy) : c.state.Busy := by
  obtain ⟨-, eq⟩ | ⟨e, -, eq⟩ | ⟨msg, trailers, -, -, -, eq⟩ := c.pollReadHead_cases
  · rw [eq] at busy
    exact busy
  · rw [eq] at busy
    exact (c.withParse.onReadHeadError_closes e).1.state.busy busy
  · rw [eq] at busy
    have headed : (c.withParse.withHead msg).state.Busy := by
      dsimp only at busy
      split at busy
      · exact tryKeepAlive_busy busy
      · exact busy
    have same : (c.withParse.withHead msg).state.writing = c.state.writing :=
      (State.andKeepAlive_writing _ _).trans (State.busy_writing _)
    simpa only [State.Busy, same] using headed

theorem pollReadBody_busy {c : Conn} (inv : c.Inv) (can : c.canReadBody = true) (busy : c.pollReadBody.2.state.Busy) :
    c.state.Busy := by
  obtain ⟨d, reading⟩ := inv.reading_of_canReadBody can
  rw [pollReadBody_of_reading reading] at busy
  obtain ⟨d', io, -, eq⟩ | ⟨e, d', io, -, eq⟩ | ⟨frame, d', io, -, -, eq⟩ | ⟨data, d', io, -, -, -, eq⟩ :=
    c.pollReadBodyWith_cases d
  · rw [eq] at busy
    exact busy
  · rw [eq] at busy
    have before := tryKeepAlive_busy busy
    exact before
  · rw [eq] at busy
    have before := tryKeepAlive_busy busy
    exact before
  · rw [eq] at busy
    exact busy

/-- Only `write_head` begins a request. -/
theorem Call.busy {c c' : Conn} (call : c.Call c') (inv : c.Inv) (busy : c'.state.Busy) : c.state.Busy := by
  cases call with
  | readHead can => exact pollReadHead_busy busy
  | readBody can => exact pollReadBody_busy inv can busy
  | drain can =>
    obtain ⟨d, reading⟩ := inv.reading_of_canReadBody can
    rcases pollDrainOrCloseRead_eq reading with eq | eq
    · rw [eq] at busy
      exact pollReadBody_busy inv can busy
    · rw [eq] at busy
      exact pollReadBody_busy inv can busy
  | readKeepAlive => exact c.pollReadKeepAlive_closes.state.busy busy
  | close => exact absurd busy (by simp [State.Busy, closeWrite, State.closeWrite])
  | writeBody can | writeTrailers can | writeBodyAndEnd can | endBody can => exact .inl (canWriteBody_iff.mp can)
  | flush =>
    obtain ⟨-, eq⟩ | ⟨-, eq⟩ := c.pollFlush_eq
    · rw [eq] at busy
      exact tryKeepAlive_busy (c := { c with io := c.io.pollFlush.2 }) busy
    · rw [eq] at busy
      exact busy
  | readAgain | closeRead | shutdown | takeError | pendingUpgrade | onUpgrade => exact busy

theorem Calls.busy {c c' : Conn} (calls : c.Calls c') (inv : c.Inv) (busy : c'.state.Busy) : c.state.Busy := by
  induction calls with
  | refl => exact busy
  | tail earlier call ih => exact ih (call.busy (Steps.inv (Calls.steps earlier) inv).1 busy)

/-- What holds of the heads that were written still holds after other calls. -/
theorem Calls.unread {c c' : Conn} (calls : c.Calls c') (inv : c.Inv) (heads : ∀ x ∈ c.log, x.unread = []) :
    ∀ x ∈ c'.log, x.unread = [] := by
  induction calls with
  | refl => exact heads
  | tail earlier call ih =>
    obtain ⟨f, same, log⟩ := call.sameHeads (Steps.inv (Calls.steps earlier) inv).1
    rw [log]
    intro y member
    rcases mem_note member with old | ⟨x, last, rfl⟩
    · exact ih y (List.mem_of_mem_dropLast old)
    · exact (same x).unread.trans (ih x (List.mem_of_getLast? last))

end Conn

/-! ### The dispatcher -/

namespace World

/-- Where the task stands in its loops, as far as it matters for writing a head: in the write loop the connection is
swept or no request is there, and the receiver signals only between requests. -/
def Entry (w : World) : Prop :=
  match w.phase with
  | .writing _ _ => w.isClosing = true ∨ w.chan.Quiet ∨ w.conn.Swept
  | .wanting _ _ => w.conn.state.writing = .init
  | _ => True

structure Orderly (w : World) : Prop where
  calm : w.chan.Calm
  busy : w.conn.state.Busy → w.chan.Quiet
  entry : w.Entry
  heads : ∀ x ∈ w.conn.log, x.unread = []

theorem fail_entry (w : World) (e : Error) : (w.fail e).Entry := by
  obtain ⟨_, _, _, _, eq⟩ := w.fail_eq e
  rw [eq]
  trivial

theorem drop_entry (w : World) (panicking : Bool) : (w.drop panicking).Entry := by
  obtain ⟨_, _, eq⟩ := w.drop_eq panicking
  rw [eq]
  trivial

theorem orFail_entry {w : World} (h : w.isClosing = true ∨ w.chan.Quiet ∨ w.conn.Swept) (left : Nat) (again : Bool)
    (res : Except Error Unit) : (w.orFail left again res).Entry := by
  cases res with
  | ok => exact h
  | error e => exact w.fail_entry e

theorem endBody_entry {w : World} (quiet : w.chan.Quiet) (left : Nat) (again : Bool) : (w.endBody left again).Entry := by
  unfold endBody
  apply orFail_entry
  exact .inr (.inl quiet)

theorem nextRound_entry {w : World} {left : Nat} (phase : w.phase = nextRound left) : w.Entry := by
  unfold Entry
  rw [phase]
  cases left with
  | zero => trivial
  | succ left => trivial

theorem endWrite_entry (w : World) (left : Nat) (again ready : Bool) : (w.endWrite left again ready).Entry := by
  unfold endWrite
  split
  · split
    · exact nextRound_entry rfl
    · trivial
  · trivial

theorem Orderly.quiet {w : World} (h : w.Orderly) (can : w.conn.canWriteBody = true) : w.chan.Quiet :=
  h.busy (.inl (Conn.canWriteBody_iff.mp can))

theorem recvHead_entry (w : World) (left : Nat) (msg : ParsedMessage) : (w.recvHead left msg).Entry := by
  unfold recvHead
  dsimp only
  split
  · trivial
  · exact fail_entry _ _

theorem stepSending_entry (w : World) (left j : Nat) (frame : Frame) : (w.stepSending left j frame).Entry := by
  unfold stepSending
  dsimp only
  split
  · trivial
  split
  · trivial
  · trivial

theorem writeRequest_entry (w : World) (left : Nat) (again : Bool) (id : Nat) (req : Request) :
    (w.writeRequest left again id req).Entry := by
  unfold writeRequest
  dsimp only
  split
  · next conn wrote =>
    obtain ⟨x, spec⟩ := Conn.writeHead_spec wrote
    refine .inr (.inr (Conn.swept_of_writing ?_))
    show conn.state.writing ≠ .init
    rw [spec.writing]
    split
    · exact nofun
    · exact nofun
  · exact drop_entry _ _

theorem PolledMsg.entry {w v : World} {left : Nat} {again : Bool} (polled : w.PolledMsg left again v)
    (can : w.conn.canWriteHead = true) : v.Entry := by
  cases polled with
  | canceled => exact endWrite_entry _ _ _ _
  | taken => exact writeRequest_entry _ _ _ _ _
  | ended => exact endWrite_entry _ _ _ _
  | waits => exact (Conn.canWriteHead_iff.mp can).2.1

theorem writeUserBody_entry {w : World} (h : w.Orderly) {left : Nat} {again : Bool} (phase : w.phase = .writing left again)
    (body : UserBody) : (w.writeUserBody left again body).Entry := by
  unfold writeUserBody
  split
  · have entry := h.entry
    unfold Entry at entry
    rw [phase] at entry
    exact entry
  · next can =>
    have quiet := h.quiet (by simpa using can)
    dsimp only
    split
    · exact endWrite_entry _ _ _ _
    · exact fail_entry _ _
    · apply endBody_entry
      exact quiet
    · unfold writeChunk
      split
      · dsimp only
        split
        · apply endBody_entry
          exact quiet
        · exact .inr (.inl quiet)
      split
      · exact .inr (.inl quiet)
      · exact .inr (.inl quiet)
    · exact .inr (.inl quiet)

theorem stepWriting_entry {w : World} (h : w.Orderly) {left : Nat} {again : Bool} (phase : w.phase = .writing left again) :
    (w.stepWriting left again).Entry := by
  generalize w.stepWriting left again = v, w.stepWriting_round left again = round
  cases round with
  | closing => exact endWrite_entry _ _ _ _
  | polled _ _ can _ polled => exact polled.entry can
  | blocked => exact endWrite_entry _ _ _ _
  | flushed opened =>
    apply orFail_entry
    have entry := h.entry
    unfold Entry at entry
    rw [phase] at entry
    rcases entry with closing | quiet | swept
    · exact absurd (opened.symm.trans closing) nofun
    · exact .inr (.inl quiet)
    · by_cases busy : w.conn.state.Busy
      · exact .inr (.inl (h.busy busy))
      · exact .inr (.inr (swept.pollFlush busy))
  | userBody => exact writeUserBody_entry h phase _
  | bodyDone _ can => exact endBody_entry (h.quiet can) _ _
  | nothing => exact endWrite_entry _ _ _ _

theorem complete_entry (w : World) (res : Dispatched) : (w.complete res).Entry := by
  unfold complete
  dsimp only
  split
  · exact fail_entry _ _
  · trivial

theorem stepInner_entry (w : World) : w.stepInner.Entry := by
  unfold stepInner
  split
  · dsimp only
    split
    · exact complete_entry _ _
    split
    · split
      · trivial
      · exact fail_entry _ _
      · exact complete_entry _ _
    · exact complete_entry _ _
  · trivial

theorem Entry.tame {w : World} (entry : w.Entry) {chan : Channel Request Response} (tame : w.chan.Tame chan) :
    Entry { w with chan } := by
  unfold Entry at entry ⊢
  dsimp only
  split
  · next h =>
    rw [h] at entry
    exact entry.imp_right (Or.imp_left tame.quiet)
  · next h =>
    rw [h] at entry
    exact entry
  · trivial

theorem Orderly.readBuf {w : World} (h : w.Orderly) (inv : w.conn.Inv) {left : Nat} {again : Bool} {id : Nat}
    {req : Request} {rest : List (Nat × Request)} (takes : w.TakesRequest left again id req rest) :
    w.conn.io.readBuf = [] := by
  have entry := h.entry
  unfold Entry at entry
  rw [takes.phase] at entry
  obtain ⟨opened, writing, -⟩ := Conn.canWriteHead_iff.mp takes.can
  rcases entry with closing | quiet | swept
  · exact absurd (takes.notClosing.symm.trans closing) nofun
  · exact absurd (quiet.queue.symm.trans takes.front) nofun
  · exact (swept ((inv.idle writing).2.resolve_right opened) writing).1

variable [Httparse]

theorem stepFlushing_entry {w : World} (inv : w.conn.Inv) (h : w.Orderly) (left : Nat) (writeReady : Bool) :
    (w.stepFlushing left writeReady).Entry := by
  unfold stepFlushing
  dsimp only
  split
  · exact fail_entry _ _
  split
  · trivial
  · next again =>
    split
    · next noRead =>
      -- Only a body that can still be written leads back into the write loop without a look at the transport.
      have can : canWriteAgain { w with conn := w.conn.pollFlush.2 } = true := by grind
      simp only [canWriteAgain, Bool.and_eq_true] at can
      have busy := Conn.Call.busy (c := w.conn) .flush inv (.inl (Conn.canWriteBody_iff.mp can.2))
      exact .inr (.inl (h.busy busy))
    · exact nextRound_entry rfl

theorem pollReadHead_entry {w : World} (can : w.conn.canReadHead = true) (left : Nat) : (w.pollReadHead left).Entry := by
  unfold pollReadHead
  split
  · trivial
  split
  · trivial
  · dsimp only
    split
    · next pending =>
      refine .inr (.inr (Conn.swept_of_writing ?_))
      obtain ⟨-, busy⟩ := Conn.canReadHead_iff.mp can
      obtain ⟨-, eq⟩ | ⟨e, -, eq⟩ | ⟨msg, trailers, -, -, ready, -⟩ := w.conn.pollReadHead_cases
      · show w.conn.pollReadHead.2.state.writing ≠ .init
        rw [eq]
        exact busy
      · rw [eq] at pending
        cases pending
      · exact absurd (pending.symm.trans ready) nofun
    · exact recvHead_entry _ _ _
    · split
      · trivial
      · exact fail_entry _ _
    · split
      · trivial
      · trivial

theorem pollReadStream_entry {w : World} (inv : w.conn.Inv) (left j : Nat) : (w.pollReadStream left j).Entry := by
  unfold pollReadStream
  split
  · next can =>
    obtain ⟨d, reading⟩ := inv.reading_of_canReadBody can
    split
    · exact .inr (.inr (Conn.swept_of_reading (by simp [reading])))
    · trivial
    · dsimp only
      split
      · trivial
      · trivial
      · next pending =>
        refine .inr (.inr (Conn.swept_of_reading ?_))
        show w.conn.pollReadBody.2.state.reading ≠ .init
        rw [Conn.pollReadBody_of_reading reading] at pending ⊢
        obtain ⟨d', io, -, eq⟩ | ⟨e, d', io, -, eq⟩ | ⟨frame, d', io, -, -, eq⟩ | ⟨data, d', io, -, -, -, eq⟩ :=
          w.conn.pollReadBodyWith_cases d
        · rw [eq]
          exact nofun
        · rw [eq] at pending
          cases pending
        · rw [eq] at pending
          cases pending
        · rw [eq] at pending
          cases pending
      · trivial
  · trivial

theorem stepReading_entry {w : World} (inv : w.conn.Inv) (left : Nat) : (w.stepReading left).Entry := by
  unfold stepReading
  split
  · next closing => exact .inl closing
  split
  · next can => exact pollReadHead_entry can left
  split
  · exact pollReadStream_entry (w := { w with bodyTx := none }) inv left _
  · dsimp only
    split
    · exact fail_entry _ _
    · next fine => exact .inr (.inr (Conn.pollReadKeepAlive_swept fine))

theorem act_entry {w : World} (inv : w.conn.Inv) (h : w.Orderly) (a : Action) : (w.act a).Entry := by
  cases a with
  | poll =>
    rw [act]
    split
    · trivial
    · exact h.entry
  | step =>
    rw [act, step]
    split
    · exact stepReading_entry inv _
    · exact stepSending_entry _ _ _ _
    · next phase => exact stepWriting_entry h phase
    · exact endWrite_entry _ _ _ _
    · exact stepFlushing_entry inv h _ _
    · exact stepInner_entry w
    · exact h.entry
    · exact h.entry
    · exact h.entry
  | drop =>
    rw [act]
    split
    · exact drop_entry _ _
    · exact drop_entry _ _
    · exact h.entry
  | give req => exact h.entry.tame (w.chan.tame_give req)
  | push => exact h.entry.tame w.chan.tame_push
  | dropSender => exact h.entry.tame w.chan.tame_dropSender
  | cancel id => exact h.entry.tame (w.chan.tame_cancel id)
  | pollFrame | dropBody => exact h.entry

/-- The read loop fails an idle connection on which bytes have come. -/
theorem step_unexpected {w : World} {left : Nat} (phase : w.phase = .reading left) (notClosing : w.isClosing = false)
    (noBody : w.bodyTx = none) (idle : w.conn.isMidMessage = false) (unread : w.step.conn.io.readBuf ≠ []) :
    w.step.raised = w.raised ++ [.newUnexpectedMessage] := by
  have idle' : w.conn.state.reading = .init ∧ w.conn.state.writing = .init := by simpa [Conn.isMidMessage] using idle
  have looks : w.conn.pollReadKeepAlive = w.conn.requireEmptyRead := by
    unfold Conn.pollReadKeepAlive
    simp [Conn.isReadClosed, State.isReadClosed, idle'.1, idle]
  have noHead : w.conn.canReadHead = false := by simp [Conn.canReadHead, idle'.2]
  have step_eq : w.step = w.stepReading left := by rw [step, phase]
  rw [step_eq] at unread ⊢
  unfold stepReading at unread ⊢
  simp only [notClosing, noHead, noBody, looks, Bool.false_eq_true, if_false] at unread ⊢
  have same : w.conn.requireEmptyRead.2.io.readBuf ≠ [] := by
    revert unread
    split
    · rw [fail_conn]
      exact id
    · exact id
  rw [Conn.requireEmptyRead_unexpected same]
  exact fail_raised _ _

/-- No request is on its way when the receiver signals that it wants one, after it has found the queue empty. -/
def wantsQuietly (w : World) : Action → Bool
  | .step =>
    match w.phase with
    | .wanting _ _ => w.chan.queue.isEmpty && w.chan.pushing.isNone
    | _ => true
  | _ => true

/-- A run in which no send falls between the look at the queue and the signal. -/
def quietRun (w : World) : List Action → Bool
  | [] => true
  | a :: rest => w.wantsQuietly a && (w.act a).quietRun rest

theorem act_orderly {w : World} (inv : w.conn.Inv) (h : w.Orderly) {a : Action} (quietly : w.wantsQuietly a = true) :
    (w.act a).Orderly := by
  have entry := act_entry inv h a
  obtain calls | ⟨left, again, id, req, rest, -, takes, eq⟩ | ⟨left, again, rfl, phase, eq⟩ := w.act_cases a
  · exact ⟨calls.chan.calm h.calm, fun busy => calls.chan.quiet (h.busy (Conn.Calls.busy calls.conn inv busy)), entry,
      Conn.Calls.unread calls.conn inv h.heads⟩
  · have quiet := h.calm.quiet_of_take takes.front
    have empty := h.readBuf inv takes
    rw [eq] at entry ⊢
    obtain ⟨conn, wrote, conn_eq, -, chan_eq⟩ | ⟨conn_eq, -, tame⟩ := w.takeRequest_cases left again id req rest
    · obtain ⟨x, spec⟩ := Conn.writeHead_spec wrote
      refine ⟨?_, fun _ => chan_eq ▸ quiet, entry, ?_⟩
      · rw [chan_eq]
        exact (Channel.tame_take takes.front).calm h.calm
      · rw [conn_eq, spec.log]
        intro y member
        rcases List.mem_append.mp member with old | new
        · exact h.heads y old
        · rw [List.mem_singleton.mp new, spec.unread, empty]
    · refine ⟨tame.calm ((Channel.tame_take takes.front).calm h.calm), fun _ => tame.quiet quiet, entry, ?_⟩
      rw [conn_eq]
      exact h.heads
  · have still : w.conn.state.writing = .init := by
      have := h.entry
      unfold Entry at this
      rwa [phase] at this
    simp only [wantsQuietly, phase, Bool.and_eq_true, List.isEmpty_iff, Option.isNone_iff_eq_none] at quietly
    obtain ⟨next, ended⟩ := endWrite_eq { w with chan := w.chan.want } left again false
    rw [eq, stepWanting, ended] at entry ⊢
    exact ⟨h.calm.want quietly.1 quietly.2, fun busy => absurd still busy.ne_init, entry, h.heads⟩

theorem run_orderly {w : World} (inv : w.conn.Inv) (h : w.Orderly) {actions : List Action}
    (quiet : w.quietRun actions = true) : (w.run actions).Orderly := by
  induction actions generalizing w with
  | nil => exact h
  | cons a rest ih =>
    obtain ⟨quietly, later⟩ := Bool.and_eq_true_iff.mp quiet
    exact ih (Conn.Steps.inv (w.act_steps a) inv).1 (act_orderly inv h quietly) later

omit [Httparse] in
theorem new_orderly (opts : Http1Options) (io : Transport) : (new opts io).Orderly :=
  ⟨Channel.calm_new, fun busy => absurd rfl busy.ne_init, trivial, by simp [new, Conn.handshake]⟩

/-- In every run in which no send falls between the look at the queue and the signal, the read buffer is empty at every
call of `write_head`, and bytes that nobody asked for raise an error before the next request. -/
theorem run_inOrder (opts : Http1Options) (io : Transport) (actions : List Action)
    (quiet : (new opts io).quietRun actions = true) :
    (∀ x ∈ ((new opts io).run actions).conn.log, x.unread = []) ∧
    (∀ a, ((new opts io).run actions).CallsWriteHead a → ((new opts io).run actions).conn.io.readBuf = []) ∧
    ∀ left, ((new opts io).run actions).phase = .reading left → ((new opts io).run actions).isClosing = false →
      ((new opts io).run actions).bodyTx = none → ((new opts io).run actions).conn.isMidMessage = false →
      ((new opts io).run actions).step.conn.io.readBuf ≠ [] →
      ((new opts io).run actions).step.raised = ((new opts io).run actions).raised ++ [.newUnexpectedMessage] := by
  have inv := run_inv opts io actions
  have orderly := run_orderly (Conn.handshake_inv opts io) (new_orderly opts io) quiet
  refine ⟨orderly.heads, ?_, ?_⟩
  · intro a calls
    obtain ⟨_, _, _, _, _, takes⟩ := takesRequest_of_calls calls
    exact orderly.readBuf inv takes
  · intro left phase notClosing noBody idle unread
    exact step_unexpected phase notClosing noBody idle unread

/-- An answer, and the looks at the transport that find nothing behind it. -/
def answerReads : List ReadEvent := [.pending, .data emptyResponse] ++ List.replicate 3 .pending

def answersTwo : World := new {} (sampleTransport (answerReads ++ answerReads))

/-- A request, its answer, and the signal that another one is wanted. -/
def wholeExchange : List Action :=
  writesGet .empty ++ List.replicate 3 Action.step ++ [Action.poll true] ++ List.replicate 10 Action.step

omit [Httparse] in
theorem run_inOrder_sample :
    (@run onlyEmptyResponse answersTwo (wholeExchange.take 12)).phase = .wanting 15 false ∧
      (@run onlyEmptyResponse answersTwo (wholeExchange ++ wholeExchange)).written = [0, 1] ∧
      ∀ x ∈ (@run onlyEmptyResponse answersTwo (wholeExchange ++ wholeExchange)).conn.log, x.unread = [] := by
  have quiet : @quietRun onlyEmptyResponse answersTwo (wholeExchange ++ wholeExchange) = true := by decide +kernel
  refine ⟨by decide +kernel, by decide +kernel, ?_⟩
  exact (@run_inOrder onlyEmptyResponse {} _ (wholeExchange ++ wholeExchange) quiet).1

/-! ### A send between the look and the signal -/

/-- A `POST` with sixteen chunks of one byte, which come after two polls that find nothing. -/
def slowPost : Request where
  head := { version := .http11, subject := ⟨.post, ascii "/"⟩, headers := .empty }
  body :=
    { isEndStream := false, exact := some 16, small := by decide
      polls := [(.pending, false), (.pending, false)] ++ List.replicate 15 (.frame (.data [120]), false) ++
        [(.frame (.data [120]), true)] }

/-- The server answers the first request twice, while its body is still being written. -/
def answeredTwice : World := new {} (sampleTransport [.pending, .pending, .data (emptyResponse ++ emptyResponse)])

/-- The first request is sent between the look at the queue and the signal, so a second one can be sent too. -/
def racyRun : List Action :=
  ([.poll true, .step, .step, .give slowPost, .push, .step, .step, .step, .give (sampleGet .empty), .push,
      .poll true] : List Action) ++
    List.replicate 8 Action.step ++ [Action.poll true] ++ List.replicate 23 Action.step

omit [Httparse] in
/-- The connection becomes idle in the write loop, with the second response unread, and the second request is written
there and gets it. -/
theorem racyRun_desync :
    (@run onlyEmptyResponse answeredTwice racyRun).conn.log.map Exchange.unread = [[], emptyResponse] ∧
      (@run onlyEmptyResponse answeredTwice racyRun).chan.results.map (fun r => (r.1, r.2.isOk)) =
        [(0, true), (1, true)] := by
  decide +kernel

end World

end Hwire.Http1
