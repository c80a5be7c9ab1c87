import Hwire.Http1.AssertedCalls
import Hwire.Http1.Runs
import Hwire.Http1.Unread
import Hwire.Upgrade

/-!
# The end of HTTP

What happens between the head of a response that upgrades the connection and the moment at which the transport is handed
over: nothing is read any more but for a look at the end of file, and the request is written to its end.
-/

namespace Hwire.Http1
open Lib Body

/-! ### Connections that are to be handed over -/

namespace Conn

/-- Where a connection stands once the head of an upgrade was read: the request is still being written, or both sides are
closed. -/
structure Awaits (c : Conn) : Prop where
  disabled : c.state.keepAlive = .disabled
  sides : c.state.reading = .keepAlive ∧ c.state.writing ≠ .init ∨ c.state.reading = .closed ∧ c.state.writing = .closed

def Emptied (c : Conn) : Prop := c.state.reading = .closed → c.io.writeBuf.remaining = 0

theorem Awaits.not_canReadHead {c : Conn} (h : c.Awaits) : c.canReadHead ≠ true := by
  intro can
  obtain ⟨init, -⟩ := canReadHead_iff.mp can
  rcases h.sides with ⟨reading, -⟩ | ⟨reading, -⟩
  · exact absurd (reading.symm.trans init) nofun
  · exact absurd (reading.symm.trans init) nofun

theorem Awaits.not_canReadBody {c : Conn} (h : c.Awaits) : c.canReadBody ≠ true := by
  rcases h.sides with ⟨reading, -⟩ | ⟨reading, -⟩
  · simp [canReadBody, reading]
  · simp [canReadBody, reading]

theorem Awaits.not_canWriteHead {c : Conn} (h : c.Awaits) : c.canWriteHead ≠ true := by
  intro can
  obtain ⟨-, init, -⟩ := canWriteHead_iff.mp can
  rcases h.sides with ⟨-, writing⟩ | ⟨-, writing⟩
  · exact writing init
  · exact absurd (writing.symm.trans init) nofun

/-- The body of a request is written only while the response has been read and nothing is closed. -/
theorem Awaits.reading_of_canWriteBody {c : Conn} (h : c.Awaits) (can : c.canWriteBody = true) :
    c.state.reading = .keepAlive := by
  obtain ⟨e, body⟩ := canWriteBody_iff.mp can
  rcases h.sides with ⟨reading, -⟩ | ⟨-, writing⟩
  · exact reading
  · exact absurd (writing.symm.trans body) nofun

/-- What any call does to a connection that is to be handed over, and to the mark that it is. -/
structure Tends (c c' : Conn) : Prop where
  upgrade : c'.state.upgrade = c.state.upgrade
  awaits : c.Awaits → c'.Awaits
  error : c.Awaits → c'.state.error = c.state.error
  unread : c.Awaits → c'.unread = c.unread
  emptied : c.Awaits → c.Emptied → c'.Emptied

theorem Tends.refl (c : Conn) : c.Tends c := ⟨rfl, id, fun _ => rfl, fun _ => rfl, fun _ => id⟩

theorem Tends.trans {c₁ c₂ c₃ : Conn} (h : c₁.Tends c₂) (h' : c₂.Tends c₃) : c₁.Tends c₃ := by
  refine ⟨h'.upgrade.trans h.upgrade, ?_, ?_, ?_, ?_⟩
  · intro waiting
    exact h'.awaits (h.awaits waiting)
  · intro waiting
    exact (h'.error (h.awaits waiting)).trans (h.error waiting)
  · intro waiting
    exact (h'.unread (h.awaits waiting)).trans (h.unread waiting)
  · intro waiting emptied
    exact h'.emptied (h.awaits waiting) (h.emptied waiting emptied)

/-- A call that is not made where the connection is to be handed over. -/
theorem Tends.of_not {c c' : Conn} (upgrade : c'.state.upgrade = c.state.upgrade) (other : ¬ c.Awaits) : c.Tends c' :=
  ⟨upgrade, fun h => absurd h other, fun h => absurd h other, fun h => absurd h other, fun h => absurd h other⟩

theorem Tends.of_state {c c' : Conn} (upgrade : c'.state.upgrade = c.state.upgrade)
    (reading : c'.state.reading = c.state.reading) (writing : c'.state.writing = c.state.writing)
    (keepAlive : c'.state.keepAlive = c.state.keepAlive) (error : c'.state.error = c.state.error)
    (unread : c'.unread = c.unread)
    (remaining : c.io.writeBuf.remaining = 0 → c'.io.writeBuf.remaining = 0) : c.Tends c' := by
  refine ⟨upgrade, ?_, fun _ => error, fun _ => unread, ?_⟩
  · intro h
    exact ⟨keepAlive.trans h.disabled, by rw [reading, writing]; exact h.sides⟩
  · intro _ emptied closed
    exact remaining (emptied (reading.symm.trans closed))

/-! ### The calls -/

theorem maybeNotify_upgrade (c : Conn) : c.maybeNotify.state.upgrade = c.state.upgrade := by
  generalize c.maybeNotify = c', c.maybeNotify_notified = notified
  cases notified with
  | left => rfl
  | buffered => rfl
  | waited => rfl
  | woken => rfl
  | ended _ _ closed =>
    rcases closed with rfl | rfl
    · rfl
    · rfl
  | failed => rfl

theorem tryKeepAlive_upgrade (c : Conn) : c.tryKeepAlive.state.upgrade = c.state.upgrade := by
  have tried : c.state.tryKeepAlive.upgrade = c.state.upgrade := by
    unfold State.tryKeepAlive
    split
    · split
      · rfl
      · rfl
    · rfl
    · rfl
    · rfl
  exact (maybeNotify_upgrade _).trans tried

/-- The connection is closed, or the request is still being written. -/
theorem Awaits.tryKeepAlive {c : Conn} (h : c.Awaits) :
    c.tryKeepAlive = c ∨ c.tryKeepAlive = { c with state := c.state.close } := by
  unfold Conn.tryKeepAlive maybeNotify State.tryKeepAlive mayNotify
  rcases h.sides with ⟨reading, writing⟩ | ⟨reading, writing⟩
  · cases at_write : c.state.writing with
    | init => exact absurd at_write writing
    | body e => simp [reading, at_write]
    | keepAlive => simp [reading, h.disabled, State.close]
    | closed => simp [reading, State.close]
  · simp [reading, writing]

theorem Awaits.tryKeepAlive_awaits {c : Conn} (h : c.Awaits) : c.tryKeepAlive.Awaits := by
  rcases h.tryKeepAlive with eq | eq
  · rw [eq]
    exact h
  · rw [eq]
    exact ⟨rfl, .inr ⟨rfl, rfl⟩⟩

theorem Awaits.tryKeepAlive_io {c : Conn} (h : c.Awaits) : c.tryKeepAlive.io = c.io := by
  rcases h.tryKeepAlive with eq | eq
  · rw [eq]
  · rw [eq]

theorem Awaits.tryKeepAlive_error {c : Conn} (h : c.Awaits) : c.tryKeepAlive.state.error = c.state.error := by
  rcases h.tryKeepAlive with eq | eq
  · rw [eq]
  · rw [eq]
    rfl

theorem Awaits.tryKeepAlive_notifyRead {c : Conn} (h : c.Awaits) :
    c.tryKeepAlive.state.notifyRead = c.state.notifyRead := by
  rcases h.tryKeepAlive with eq | eq
  · rw [eq]
  · rw [eq]
    rfl

theorem remaining_of_flushed {c : Conn} (ok : c.io.WriteOk) (done : c.io.pollFlush.1 = .ready (.ok ())) :
    c.io.pollFlush.2.writeBuf.remaining = 0 := by
  have flushed := Buffered.pollFlush_flushed ok
  rw [flushed.ok.buf.remaining, flushed.drained done]
  rfl

theorem remaining_of_empty {c : Conn} (ok : c.io.WriteOk) (empty : c.io.writeBuf.remaining = 0) :
    c.io.pollFlush.2.writeBuf.remaining = 0 := by
  unfold Buffered.pollFlush
  rw [ok.pipeline, Bool.false_and, if_neg (by decide), if_pos empty]
  exact empty

theorem pollFlush_tends {c : Conn} (ok : c.io.WriteOk) : c.Tends c.pollFlush.2 := by
  have flushed : c.Tends { c with io := c.io.pollFlush.2 } :=
    .of_state rfl rfl rfl rfl rfl c.io.pollFlush_unread (remaining_of_empty ok)
  obtain ⟨done, eq⟩ | ⟨-, eq⟩ := c.pollFlush_eq
  · rw [eq]
    refine ⟨tryKeepAlive_upgrade _, ?_, ?_, ?_, ?_⟩
    · intro h
      exact (flushed.awaits h).tryKeepAlive_awaits
    · intro h
      exact (flushed.awaits h).tryKeepAlive_error
    · intro h
      exact (tryKeepAlive_unread _).trans (flushed.unread h)
    · intro h _ _
      rw [(flushed.awaits h).tryKeepAlive_io]
      exact remaining_of_flushed ok done
  · rw [eq]
    exact flushed

theorem Awaits.pollFlush_notifyRead {c : Conn} (h : c.Awaits) :
    c.pollFlush.2.state.notifyRead = c.state.notifyRead := by
  obtain ⟨-, eq⟩ | ⟨-, eq⟩ := c.pollFlush_eq
  · rw [eq]
    have waiting : Awaits { c with io := c.io.pollFlush.2 } := ⟨h.disabled, h.sides⟩
    exact waiting.tryKeepAlive_notifyRead
  · rw [eq]

/-- A flush that closes the connection has nothing left to write. -/
theorem pollFlush_emptied {c : Conn} (ok : c.io.WriteOk) (h : c.Awaits) (opened : c.state.reading ≠ .closed) :
    c.pollFlush.2.Emptied := by
  obtain ⟨done, eq⟩ | ⟨-, eq⟩ := c.pollFlush_eq
  · rw [eq]
    intro _
    have waiting : Awaits { c with io := c.io.pollFlush.2 } := ⟨h.disabled, h.sides⟩
    rw [waiting.tryKeepAlive_io]
    exact remaining_of_flushed ok done
  · rw [eq]
    intro closed
    exact absurd closed opened

theorem sendMore_tends {c : Conn} (can : c.canWriteBody = true) (writeBuf : WriteBuf (EncodedBuf Bytes)) (more : Bytes)
    {next : Writing} (begun : next ≠ .init) : c.Tends (c.sendMore writeBuf more next) := by
  refine ⟨rfl, ?_, fun _ => rfl, fun _ => rfl, ?_⟩
  · intro h
    exact ⟨h.disabled, .inl ⟨h.reading_of_canWriteBody can, begun⟩⟩
  · intro h _ closed
    exact absurd ((h.reading_of_canWriteBody can).symm.trans closed) nofun

theorem Sends.tends {c c' : Conn} (sends : c.Sends c') (can : c.canWriteBody = true) : c.Tends c' := by
  obtain rfl | ⟨writeBuf, more, next, begun, rfl⟩ := sends
  · exact .refl c'
  · exact sendMore_tends can writeBuf more begun

theorem writeHead_upgrade {c c' : Conn} {head : RequestHead} {body : Option BodyLength}
    (h : c.writeHead head body = some c') : c'.state.upgrade = c.state.upgrade := by
  have busy : c.state.busy.upgrade = c.state.upgrade := by
    unfold State.busy
    split
    · rfl
    · rfl
  have fixed : (fixKeepAlive c.state.busy head).1.upgrade = c.state.busy.upgrade := by
    unfold fixKeepAlive
    dsimp only
    split
    · rfl
    split
    · rfl
    · split
      · rfl
      · rfl
    · rfl
  have enforced : (enforceVersion c.state.busy head).1.upgrade = c.state.busy.upgrade := by
    unfold enforceVersion
    split
    · exact fixed
    · split
      · rfl
      · rfl
    · rfl
  unfold writeHead at h
  obtain ⟨⟨bytes, encoder⟩, -, rfl⟩ := Option.map_eq_some_iff.mp h
  exact enforced.trans busy

theorem Looked.upgrade {c c' : Conn} (looked : c.Looked c') : c'.state.upgrade = c.state.upgrade := by
  have forced : c.forceIoRead.2.state.upgrade = c.state.upgrade := by
    unfold forceIoRead
    split
    · rfl
    · rfl
  cases looked with
  | skipped => rfl
  | read => exact forced
  | ended => exact forced

/-- A look at the transport either fails or leaves everything but the read buffer as it is. -/
theorem Awaits.pollReadKeepAlive {c : Conn} (h : c.Awaits) :
    (∃ e, c.pollReadKeepAlive.1 = .ready (.error e)) ∨ c.pollReadKeepAlive.2.state = c.state := by
  unfold Conn.pollReadKeepAlive
  split
  · exact .inr rfl
  next opened =>
  have mid : c.isMidMessage = true := by
    obtain ⟨reading, -⟩ | ⟨closed, -⟩ := h.sides
    · simp [isMidMessage, reading]
    · simp [isReadClosed, State.isReadClosed, closed] at opened
  rw [if_pos mid]
  unfold midMessageDetectEof forceIoRead
  split
  · exact .inr rfl
  cases c.io.pollReadFromIo with
  | mk res io =>
    cases res with
    | pending => exact .inr rfl
    | ready res =>
      cases res with
      | error e => exact .inl ⟨_, rfl⟩
      | ok n =>
        dsimp only
        split
        · exact .inl ⟨_, rfl⟩
        · exact .inr rfl

theorem pollReadKeepAlive_tends {c : Conn} (fine : ∀ e, c.pollReadKeepAlive.1 ≠ .ready (.error e)) :
    c.Tends c.pollReadKeepAlive.2 := by
  have state (h : c.Awaits) : c.pollReadKeepAlive.2.state = c.state :=
    h.pollReadKeepAlive.resolve_left fun ⟨e, failed⟩ => fine e failed
  refine ⟨c.pollReadKeepAlive_looked.upgrade, ?_, ?_, fun _ => c.pollReadKeepAlive_unread, ?_⟩
  · intro h
    exact ⟨(congrArg State.keepAlive (state h)).trans h.disabled, by rw [state h]; exact h.sides⟩
  · intro h
    exact congrArg State.error (state h)
  · intro h emptied
    rw [Emptied, state h, (Prod.mk.inj c.pollReadKeepAlive_closes.writes).1]
    exact emptied

section Reading

variable [Httparse]

theorem pollReadBodyWith_upgrade (c : Conn) (d : Decoder) : (c.pollReadBodyWith d).2.state.upgrade = c.state.upgrade := by
  obtain ⟨d', io, -, eq⟩ | ⟨e, d', io, -, eq⟩ | ⟨frame, d', io, -, -, eq⟩ | ⟨data, d', io, -, -, -, eq⟩ :=
    c.pollReadBodyWith_cases d
  · rw [eq]
  · rw [eq]
    exact tryKeepAlive_upgrade _
  · rw [eq]
    exact tryKeepAlive_upgrade _
  · rw [eq]
    rfl

theorem pollReadBody_tends {c : Conn} (can : c.canReadBody = true) : c.Tends c.pollReadBody.2 := by
  refine .of_not ?_ fun h => h.not_canReadBody can
  unfold pollReadBody
  split
  · exact pollReadBodyWith_upgrade _ _
  · dsimp only
    split
    · exact pollReadBodyWith_upgrade _ _
    · exact pollReadBodyWith_upgrade _ _
  · rfl

theorem pollDrainOrCloseRead_tends {c : Conn} (inv : c.Inv) (can : c.canReadBody = true) :
    c.Tends c.pollDrainOrCloseRead := by
  obtain ⟨d, reading⟩ := inv.reading_of_canReadBody can
  have read := (pollReadBody_tends can).upgrade
  refine .of_not ?_ fun h => h.not_canReadBody can
  rcases pollDrainOrCloseRead_eq reading with eq | eq
  · rw [eq]
    exact read
  · rw [eq]
    exact read

omit [Httparse] in
theorem withHead_upgrade (c : Conn) (msg : ParsedMessage) : (c.withHead msg).state.upgrade = c.state.upgrade := by
  unfold withHead note State.busy State.andKeepAlive
  dsimp only
  split
  · split
    · rfl
    · rfl
  · split
    · rfl
    · rfl

theorem pollReadHead_upgrade (c : Conn) : c.pollReadHead.2.state.upgrade = c.state.upgrade := by
  obtain ⟨-, eq⟩ | ⟨e, -, eq⟩ | ⟨msg, trailers, -, -, -, eq⟩ := c.pollReadHead_cases
  · rw [eq]
    rfl
  · rw [eq]
    unfold onReadHeadError
    dsimp only
    split
    · rfl
    · rfl
  · rw [eq]
    dsimp only
    split
    · exact (tryKeepAlive_upgrade _).trans (withHead_upgrade _ _)
    · exact withHead_upgrade _ _

theorem pollReadHead_tends {c : Conn} (can : c.canReadHead = true) : c.Tends c.pollReadHead.2 :=
  .of_not c.pollReadHead_upgrade fun h => h.not_canReadHead can

/-- The head of an upgrade has no body. -/
theorem pollReadHead_awaits {c : Conn} (can : c.canReadHead = true) {msg : ParsedMessage}
    (found : c.pollReadHead.1 = .ready (some (.ok msg))) (wants : msg.wantsUpgrade = true) :
    c.pollReadHead.2.Awaits := by
  obtain ⟨-, writing⟩ := canReadHead_iff.mp can
  have zero := (pollReadHead_ends found).1.zero_of_wantsUpgrade wants
  obtain ⟨-, eq⟩ | ⟨e, -, eq⟩ | ⟨msg', trailers, whole, -, res, eq⟩ := c.pollReadHead_cases
  · rw [eq] at found
    cases found
  · rw [eq] at found
    generalize (c.withParse.onReadHeadError e).1 = err at found
    cases err with
    | none => cases found
    | some err => cases found
  · obtain rfl : msg' = msg := by
      rw [res] at found
      cases found
      rfl
    have waiting : (c.withParse.withHead msg').Awaits := by
      refine ⟨State.andKeepAlive_disabled.mpr (.inl ?_), .inl ⟨?_, ?_⟩⟩
      · by_contra keeps
        have plain := whole.plain.2 (by simpa using keeps)
        exact absurd (plain.symm.trans wants) nofun
      · exact if_pos zero
      · have same : (c.withParse.withHead msg').state.writing = c.state.writing :=
          (State.andKeepAlive_writing _ _).trans (State.busy_writing _)
        rw [same]
        exact writing
    rw [eq]
    simp only [zero, if_true]
    exact ⟨waiting.tryKeepAlive_awaits.disabled, waiting.tryKeepAlive_awaits.sides⟩

end Reading

end Conn

/-! ### What a step does -/

/-- Between the flush of the last round and the end of the poll. -/
def Phase.late : Phase → Bool
  | .inner | .writing _ true | .wanting _ true => true
  | _ => false

def Phase.live : Phase → Bool
  | .finished _ | .gone => false
  | _ => true

namespace World

/-- The step of a task that reads the head of an upgrade. -/
structure ReadsUpgrade [Httparse] (w : World) (msg : ParsedMessage) : Prop where
  can : w.conn.canReadHead = true
  found : w.conn.pollReadHead.1 = .ready (some (.ok msg))
  wants : msg.wantsUpgrade = true

/-- What an action does to a connection that is to be handed over. -/
inductive Turn [Httparse] (w w' : World) : Prop where
  | still (conn : w'.conn = w.conn) (closing : w'.isClosing = w.isClosing) (phase : w'.phase = w.phase)
  | on (tends : w.conn.Tends w'.conn) (closing : w.conn.Awaits → w'.isClosing = w.isClosing)
      (live : w.phase.live = true ∧ w'.phase.live = true) (late : w'.phase.late = true → w.phase.late = true)
  | flushed {left : Nat} {ready : Bool} (phase : w.phase = .flushing left ready)
      (conn : w'.conn = w.conn.pollFlush.2.wantsReadAgain.2) (closing : w'.isClosing = w.isClosing)
      (live : w'.phase.live = true) (fine : ∀ e, w.conn.pollFlush.1 ≠ .ready (.error e))
      (again : w'.phase.late = true → w.conn.pollFlush.2.state.notifyRead = false)
  | upgraded {msg : ParsedMessage} (reads : w.ReadsUpgrade msg) (conn : w'.conn = w.conn.pollReadHead.2.onUpgrade)
      (closing : w'.isClosing = false) (live : w'.phase.live = true) (early : w'.phase.late = false)
  | handed (phase : w.phase = .inner) (done : w.isDone = true) (upgrade : w.conn.state.upgrade = true)
      (clean : w.conn.state.error = none) (io : w'.conn.io = w.conn.io) (phase' : w'.phase = .finished (.ok .upgrade))
  | ended (phase : w'.phase = .gone ∨ ∃ res, w'.phase = .finished res ∧ res ≠ .ok .upgrade)

/-- The connection has gone on, in the course of a step. -/
structure Goes (w v : World) : Prop where
  tends : w.conn.Tends v.conn
  closing : w.conn.Awaits → v.isClosing = w.isClosing

theorem Goes.conn (w : World) {v : World} (tends : w.conn.Tends v.conn) (closing : v.isClosing = w.isClosing) : w.Goes v :=
  ⟨tends, fun _ => closing⟩

theorem Goes.same (w : World) {v : World} (conn : v.conn = w.conn) (closing : v.isClosing = w.isClosing) : w.Goes v :=
  ⟨conn ▸ .refl _, fun _ => closing⟩

theorem Goes.trans {w₁ w₂ w₃ : World} (h : w₁.Goes w₂) (h' : w₂.Goes w₃) : w₁.Goes w₃ :=
  ⟨h.tends.trans h'.tends, fun waiting => (h'.closing (h.tends.awaits waiting)).trans (h.closing waiting)⟩

variable [Httparse]

theorem fail_turn (w v : World) (e : Error) : w.Turn (v.fail e) := by
  refine .ended (.inr ?_)
  unfold fail
  split
  · exact ⟨_, rfl, nofun⟩
  · exact ⟨_, rfl, nofun⟩

theorem drop_turn (w v : World) (panicking : Bool) : w.Turn (v.drop panicking) := by
  obtain ⟨_, _, eq⟩ := v.drop_eq panicking
  rw [eq]
  exact .ended (.inl rfl)

/-! ### The write loop -/

/-- The phases of `poll_write`, the first time in a round or again. -/
def InWrite (w : World) (left : Nat) (again : Bool) : Prop :=
  w.phase = .writing left again ∨ w.phase = .wanting left again

omit [Httparse] in
theorem InWrite.live {w : World} {left : Nat} {again : Bool} (h : w.InWrite left again) : w.phase.live = true := by
  rcases h with phase | phase
  · rw [phase]
    rfl
  · rw [phase]
    rfl

omit [Httparse] in
theorem InWrite.late {w : World} {left : Nat} {again : Bool} (h : w.InWrite left again) : w.phase.late = again := by
  rcases h with phase | phase
  · rw [phase]
    cases again
    · rfl
    · rfl
  · rw [phase]
    cases again
    · rfl
    · rfl

theorem Goes.writing {w v : World} (h : w.Goes v) {left : Nat} {again : Bool} (place : w.InWrite left again)
    (phase : v.phase = .writing left again) : w.Turn v := by
  refine .on h.tends h.closing ⟨place.live, by rw [phase]; rfl⟩ ?_
  intro late
  rw [phase] at late
  rw [place.late]
  cases again
  · cases late
  · rfl

theorem endWrite_turn {w v : World} (h : w.Goes v) {left : Nat} {again : Bool} (place : w.InWrite left again)
    (ready : Bool) : w.Turn (v.endWrite left again ready) := by
  unfold endWrite
  split
  · next twice =>
    refine .on h.tends h.closing ⟨place.live, ?_⟩ fun _ => place.late.trans twice
    dsimp only
    split
    · cases left
      · rfl
      · rfl
    · rfl
  · exact .on h.tends h.closing ⟨place.live, rfl⟩ nofun

theorem orFail_turn {w v : World} (h : w.Goes v) {left : Nat} {again : Bool} (place : w.InWrite left again)
    (res : Except Error Unit) : w.Turn (v.orFail left again res) := by
  cases res with
  | ok => exact Goes.writing ⟨h.tends, h.closing⟩ place rfl
  | error e => exact fail_turn w v e

theorem endBody_turn {w v : World} (h : w.Goes v) {left : Nat} {again : Bool} (place : w.InWrite left again)
    (can : v.conn.canWriteBody = true) : w.Turn (v.endBody left again) := by
  refine orFail_turn (h.trans ?_) place _
  exact .conn v ((Conn.endBody_sends can).tends can) rfl

theorem writeChunk_turn {w v : World} (h : w.Goes v) {left : Nat} {again : Bool} (place : w.InWrite left again)
    (can : v.conn.canWriteBody = true) (chunk : Bytes) (eos : Bool) : w.Turn (v.writeChunk left again chunk eos) := by
  unfold writeChunk
  split
  · dsimp only
    split
    · refine endBody_turn (h.trans ?_) place ?_
      · exact .same v rfl rfl
      · exact can
    · refine Goes.writing (h.trans ?_) place rfl
      exact .conn v ((Conn.writeBodyAndEnd_sends can chunk).tends can) rfl
  split
  · refine Goes.writing (h.trans ?_) place rfl
    exact .same v rfl rfl
  · refine Goes.writing (h.trans ?_) place rfl
    exact .conn v ((Conn.writeBody_sends can chunk).tends can) rfl

theorem writeUserBody_turn {w : World} {left : Nat} {again : Bool} (place : w.InWrite left again) (body : UserBody) :
    w.Turn (w.writeUserBody left again body) := by
  unfold writeUserBody
  split
  · exact Goes.writing (.same w rfl rfl) place rfl
  · next can =>
    have can : w.conn.canWriteBody = true := by simpa using can
    dsimp only
    split
    · refine endWrite_turn ?_ place _
      exact .same w rfl rfl
    · exact fail_turn w _ _
    · refine endBody_turn ?_ place ?_
      · exact .same w rfl rfl
      · exact can
    · refine writeChunk_turn ?_ place ?_ _ _
      · exact .same w rfl rfl
      · exact can
    · exact Goes.writing (.conn w ((Conn.writeTrailers_sends can _).tends can) rfl) place rfl

theorem writeRequest_turn {w v : World} (h : w.Goes v) {left : Nat} {again : Bool} (place : w.InWrite left again)
    (can : v.conn.canWriteHead = true) (id : Nat) (req : Request) : w.Turn (v.writeRequest left again id req) := by
  unfold writeRequest
  dsimp only
  split
  · next conn wrote =>
    refine Goes.writing (h.trans ?_) place rfl
    refine .conn v (.of_not (Conn.writeHead_upgrade wrote) ?_) rfl
    exact fun waiting => waiting.not_canWriteHead can
  · exact drop_turn w _ _

theorem PolledMsg.turn {w v : World} {left : Nat} {again : Bool} (polled : w.PolledMsg left again v)
    (phase : w.phase = .writing left again) (can : w.conn.canWriteHead = true) : w.Turn v := by
  have place : w.InWrite left again := .inl phase
  have other : ¬ w.conn.Awaits := fun waiting => waiting.not_canWriteHead can
  cases polled with
  | canceled =>
    refine endWrite_turn ?_ place _
    exact ⟨.of_not rfl other, fun waiting => absurd waiting other⟩
  | taken =>
    refine writeRequest_turn ?_ place ?_ _ _
    · exact .same w rfl rfl
    · exact can
  | ended =>
    refine endWrite_turn ?_ place _
    exact ⟨.of_not rfl other, fun waiting => absurd waiting other⟩
  | waits =>
    refine .on (.refl _) (fun _ => rfl) ⟨place.live, rfl⟩ ?_
    intro late
    rw [place.late]
    cases again
    · cases late
    · rfl

theorem stepWriting_turn {w : World} (ok : w.conn.io.WriteOk) {left : Nat} {again : Bool}
    (phase : w.phase = .writing left again) : w.Turn (w.stepWriting left again) := by
  have place : w.InWrite left again := .inl phase
  have flushed : w.Goes { w with conn := w.conn.pollFlush.2 } := .conn w (Conn.pollFlush_tends ok) rfl
  generalize w.stepWriting left again = v, w.stepWriting_round left again = round
  cases round with
  | closing => exact endWrite_turn (.same w rfl rfl) place _
  | polled _ _ can _ polled => exact polled.turn phase can
  | blocked => exact endWrite_turn flushed place _
  | flushed => exact orFail_turn flushed place _
  | userBody => exact writeUserBody_turn place _
  | bodyDone _ can => exact endBody_turn (.same w rfl rfl) place can
  | nothing => exact endWrite_turn (.same w rfl rfl) place _

theorem stepFlushing_turn {w : World} {left : Nat} {ready : Bool} (phase : w.phase = .flushing left ready) :
    w.Turn (w.stepFlushing left ready) := by
  unfold stepFlushing
  dsimp only
  split
  · exact fail_turn w _ _
  next fine =>
  split
  · next none =>
    refine .flushed phase rfl rfl rfl fine fun _ => ?_
    simp only [Bool.not_eq_true', Bool.or_eq_false_iff] at none
    exact none.2
  split
  · next none =>
    have none : w.conn.pollFlush.2.wantsReadAgain.1 = false := by simpa using none
    exact .flushed phase rfl rfl rfl fine fun _ => none
  · refine .flushed phase rfl rfl ?_ fine fun late => ?_
    · cases left
      · rfl
      · rfl
    · cases left
      · cases late
      · cases late

/-! ### The end of a poll -/

theorem upgrade_turn {w v : World} (phase : w.phase = .inner) (done : w.isDone = true)
    (upgrade : w.conn.state.upgrade = true) (error : v.conn.state.error = w.conn.state.error)
    (io : v.conn.io = w.conn.io) : w.Turn (v.complete .upgrade) := by
  unfold complete
  dsimp only
  split
  · exact fail_turn w _ _
  · next clean => exact .handed phase done upgrade (error.symm.trans clean) io rfl

theorem shutdown_turn (w v : World) : w.Turn (v.complete .shutdown) := by
  unfold complete
  dsimp only
  split
  · exact fail_turn w _ _
  · exact .ended (.inr ⟨_, rfl, nofun⟩)

theorem stepInner_turn {w : World} (phase : w.phase = .inner) : w.Turn w.stepInner := by
  have live : w.phase.live = true := by
    rw [phase]
    rfl
  have late : w.phase.late = true := by
    rw [phase]
    rfl
  unfold stepInner
  split
  · next done =>
    dsimp only
    split
    · next upgrade =>
      refine upgrade_turn phase done upgrade ?_ ?_
      · rfl
      · rfl
    · next none =>
      have none : w.conn.state.upgrade = false := by simpa [Conn.pendingUpgrade] using none
      split
      · split
        · refine .on ?_ (fun _ => rfl) ⟨live, rfl⟩ fun _ => late
          exact .of_state none.symm rfl rfl rfl rfl (Conn.pollShutdown_unread _) id
        · exact fail_turn w _ _
        · exact shutdown_turn w _
      · exact shutdown_turn w _
  · exact .on (.refl _) (fun _ => rfl) ⟨live, rfl⟩ fun _ => late

/-! ### The read loop -/

theorem Goes.early {w v : World} (h : w.Goes v) (live : w.phase.live = true) (live' : v.phase.live = true)
    (early : v.phase.late = false) : w.Turn v := by
  refine .on h.tends h.closing ⟨live, live'⟩ ?_
  intro late
  rw [early] at late
  cases late

theorem recvHead_turn {w v : World} (conn : v.conn = w.conn.pollReadHead.2) (closing : v.isClosing = w.isClosing)
    (open_ : w.isClosing = false) (live : w.phase.live = true) (can : w.conn.canReadHead = true) {msg : ParsedMessage}
    (found : w.conn.pollReadHead.1 = .ready (some (.ok msg))) (left : Nat) : w.Turn (v.recvHead left msg) := by
  obtain ⟨bodyTx, bodies, bodyOf, eq⟩ := v.openBody_eq msg
  unfold recvHead
  rw [eq]
  dsimp only
  split
  · cases wants : msg.wantsUpgrade with
    | true => exact .upgraded ⟨can, found, wants⟩ (by simp [conn]) (closing.trans open_) rfl rfl
    | false =>
      refine Goes.early ?_ live rfl rfl
      exact .conn w (by simpa [conn] using Conn.pollReadHead_tends can) closing
  · exact fail_turn w _ _

theorem pollReadHead_turn {w : World} (open_ : w.isClosing = false) (live : w.phase.live = true)
    (can : w.conn.canReadHead = true) (left : Nat) : w.Turn (w.pollReadHead left) := by
  have other : ¬ w.conn.Awaits := fun waiting => waiting.not_canReadHead can
  have read : w.conn.Tends w.conn.pollReadHead.2 := Conn.pollReadHead_tends can
  have closed {v : World} (upgrade : v.conn.state.upgrade = w.conn.state.upgrade) :
      w.Turn { v.close with phase := .reading left } := by
    refine Goes.early ?_ live rfl rfl
    exact ⟨.of_not upgrade other, fun waiting => absurd waiting other⟩
  unfold pollReadHead
  split
  · exact closed rfl
  split
  · exact closed rfl
  · dsimp only
    split
    · exact Goes.early (.conn w read rfl) live rfl rfl
    · next msg found =>
      refine recvHead_turn ?_ ?_ open_ live can found left
      · rfl
      · rfl
    · next e _ =>
      obtain ⟨_, _, eq⟩ := recvErr_eq { w with conn := w.conn.pollReadHead.2 } e
      split
      · next w' told =>
        rw [told] at eq
        obtain rfl : w' = _ := eq
        exact closed read.upgrade
      · exact fail_turn w _ _
    · split
      · refine closed ?_
        exact read.upgrade
      · exact Goes.early (.conn w read rfl) live rfl rfl

theorem pollReadStream_turn {w v : World} (inv : v.conn.Inv) (same : v.conn = w.conn) (closing : v.isClosing = w.isClosing)
    (live : w.phase.live = true) (left j : Nat) : w.Turn (v.pollReadStream left j) := by
  have goes {u : World} (tends : v.conn.Tends u.conn) (closing' : u.isClosing = v.isClosing) : w.Goes u :=
    .conn w (same ▸ tends) (closing'.trans closing)
  unfold pollReadStream
  split
  · next can =>
    split
    · exact Goes.early (goes (.refl _) rfl) live rfl rfl
    · exact Goes.early (goes (Conn.pollDrainOrCloseRead_tends inv can) rfl) live rfl rfl
    · have read : v.conn.Tends v.conn.pollReadBody.2 := Conn.pollReadBody_tends can
      dsimp only
      split
      · exact Goes.early (goes read rfl) live rfl rfl
      · exact Goes.early (goes read rfl) live rfl rfl
      · exact Goes.early (goes read rfl) live rfl rfl
      · exact Goes.early (goes read rfl) live rfl rfl
  · exact Goes.early (goes (.refl _) rfl) live rfl rfl

theorem stepReading_turn {w : World} (inv : w.conn.Inv) (live : w.phase.live = true) (left : Nat) :
    w.Turn (w.stepReading left) := by
  unfold stepReading
  split
  · exact Goes.early (.same w rfl rfl) live rfl rfl
  next open_ =>
  have open_ : w.isClosing = false := by simpa using open_
  split
  · next can => exact pollReadHead_turn open_ live can left
  split
  · refine pollReadStream_turn ?_ ?_ ?_ live left _
    · exact inv
    · rfl
    · rfl
  · dsimp only
    split
    · exact fail_turn w _ _
    · next fine => exact Goes.early (.conn w (Conn.pollReadKeepAlive_tends fine) rfl) live rfl rfl

theorem stepSending_turn {w : World} (live : w.phase.live = true) (left j : Nat) (frame : Frame) :
    w.Turn (w.stepSending left j frame) := by
  unfold stepSending
  dsimp only
  split
  · exact Goes.early (.same w rfl rfl) live rfl rfl
  split
  · next can =>
    refine Goes.early (.conn w (.of_not ?_ ?_) ?_) live rfl rfl
    · rfl
    · exact fun waiting => waiting.not_canReadBody can
    · rfl
  · exact Goes.early (.same w rfl rfl) live rfl rfl

theorem act_turn {w : World} (inv : w.conn.Inv) (ok : w.conn.io.WriteOk) (a : Action) : w.Turn (w.act a) := by
  cases a with
  | poll =>
    rw [act]
    split
    · next parked => exact Goes.early (.same w rfl rfl) (by rw [parked]; rfl) rfl rfl
    · exact .still rfl rfl rfl
  | step =>
    rw [act, step]
    split
    · next left phase => exact stepReading_turn inv (by rw [phase]; rfl) left
    · next left j frame phase => exact stepSending_turn (by rw [phase]; rfl) left j frame
    · next left again phase => exact stepWriting_turn ok phase
    · next left again phase =>
      refine endWrite_turn ?_ (.inr phase) false
      exact .same w rfl rfl
    · next left ready phase => exact stepFlushing_turn phase
    · next phase => exact stepInner_turn phase
    · exact .still rfl rfl rfl
    · exact .still rfl rfl rfl
    · exact .still rfl rfl rfl
  | drop =>
    rw [act]
    split
    · exact drop_turn w w _
    · exact drop_turn w w _
    · exact .still rfl rfl rfl
  | give | push | dropSender | cancel | pollFrame | dropBody => exact .still rfl rfl rfl

end World

end Hwire.Http1
