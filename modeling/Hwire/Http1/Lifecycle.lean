import Hwire.Http1.Progress
import Hwire.Lib.ModifyLast
import Mathlib.Logic.Relation

/-!
# The life of a connection

The calls that a dispatcher makes on a connection, and what they keep: how the states of reading, writing and
keep-alive move together, and what is known about the exchanges that came before.
-/

namespace Hwire.Http1
open Lib LawfulBuf

/-! ### The invariant -/

namespace Exchange

/-- There was a final response, and as long as keep-alive is not disabled it allows another request. -/
def Answered (x : Exchange) (keepAlive : KA) : Prop :=
  ∃ r, x.answer = some r ∧ (keepAlive ≠ .disabled → r.keepAlive = true ∧ r.wantsUpgrade = false)

def Complete (x : Exchange) : Prop := ∃ r, x.answer = some r ∧ (r.decode = .ZERO ∨ x.decoderEof = true)

/-- The connection can be used for another request after this one: the final response allows it, its body has been
read to its end, and the request has been written to its end. -/
structure Done (x : Exchange) : Prop where
  answered : ∃ r, x.answer = some r ∧ r.keepAlive = true ∧ r.wantsUpgrade = false ∧
    (r.decode = .ZERO ∨ x.decoderEof = true)
  finished : x.finished = true
  encoded : Encoded x.encoder x.sent

/-- What a head was written with does not change. -/
structure SameHead (x y : Exchange) : Prop where
  head : y.head = x.head
  hint : y.hint = x.hint
  encoder : y.encoder = x.encoder
  unread : y.unread = x.unread
  eofSeen : y.eofSeen = x.eofSeen

theorem SameHead.refl (x : Exchange) : x.SameHead x := ⟨rfl, rfl, rfl, rfl, rfl⟩

end Exchange

namespace Conn

structure Inv (c : Conn) : Prop where
  earlier : ∀ x ∈ c.log.dropLast, x.Done
  idle : c.state.writing = .init → (∀ x ∈ c.log, x.Done) ∧ (c.state.reading = .init ∨ c.state.reading = .closed)
  first : c.log = [] → c.state.writing = .init ∨ c.state.reading = .closed
  sending : ∀ e, c.state.writing = .body e →
    ∃ x, c.log.getLast? = some x ∧ x.finished = false ∧ Encoding x.encoder e x.sent
  written : c.state.writing = .keepAlive → ∃ x, c.log.getLast? = some x ∧ x.finished = true
  finished : ∀ x ∈ c.log, x.finished = true → Encoded x.encoder x.sent
  body : ∀ d, c.state.reading = .body d → ∃ x, c.log.getLast? = some x ∧ x.Answered c.state.keepAlive
  complete : c.state.reading = .keepAlive →
    ∃ x, c.log.getLast? = some x ∧ x.Answered c.state.keepAlive ∧ x.Complete
  noContinue : ∀ d, c.state.reading ≠ .continue d

theorem handshake_inv (opts : Http1Options) (io : Transport) : (handshake opts io).Inv where
  earlier := by simp [handshake]
  idle _ := ⟨by simp [handshake], .inl rfl⟩
  first _ := .inl rfl
  sending e h := by cases h
  written h := by cases h
  finished := by simp [handshake]
  body d h := by cases h
  complete h := by cases h
  noContinue d h := by cases h

theorem Inv.closes {c c' : Conn} (inv : c.Inv) (log : c'.log = c.log) (closes : c.state.Closes c'.state) : c'.Inv := by
  obtain ⟨reading, writing, keepAlive⟩ := closes
  have answered {x : Exchange} (h : x.Answered c.state.keepAlive) : x.Answered c'.state.keepAlive := by
    obtain ⟨r, answer, allows⟩ := h
    exact ⟨r, answer, by grind⟩
  refine ⟨by rw [log]; exact inv.earlier, fun h => ?_, fun h => ?_, fun e h => ?_, fun h => ?_,
    by rw [log]; exact inv.finished, fun d h => ?_, fun h => ?_, fun d h => ?_⟩
  · rw [log]
    obtain ⟨done, there⟩ := inv.idle (by grind)
    exact ⟨done, by grind⟩
  · have := inv.first (log ▸ h)
    grind
  · rw [log]; exact inv.sending e (by grind)
  · rw [log]; exact inv.written (by grind)
  · rw [log]
    obtain ⟨x, last, h⟩ := inv.body d (by grind)
    exact ⟨x, last, answered h⟩
  · rw [log]
    obtain ⟨x, last, h, complete⟩ := inv.complete (by grind)
    exact ⟨x, last, answered h, complete⟩
  · exact inv.noContinue d (by grind)

theorem Inv.goIdle {c : Conn} (inv : c.Inv) (reading : c.state.reading = .keepAlive)
    (writing : c.state.writing = .keepAlive) (busy : c.state.keepAlive = .busy) :
    Inv { c with state := c.state.idle } := by
  obtain ⟨x, last, ⟨r, answer, allows⟩, ⟨r', answer', whole⟩⟩ := inv.complete reading
  obtain ⟨y, last', finished⟩ := inv.written writing
  obtain rfl := Option.some.inj (last.symm.trans last')
  obtain rfl := Option.some.inj (answer.symm.trans answer')
  obtain ⟨keeps, stays⟩ := allows (by simp [busy])
  have done : x.Done := ⟨⟨r, answer, keeps, stays, whole⟩, finished, inv.finished x (List.mem_of_getLast? last) finished⟩
  have all : ∀ y ∈ c.log, y.Done := by
    rw [← List.dropLast_append_getLast? x last]
    intro y member
    rcases List.mem_append.mp member with h | h
    · exact inv.earlier y h
    · exact List.mem_singleton.mp h ▸ done
  exact ⟨inv.earlier, fun _ => ⟨all, .inl rfl⟩, fun _ => .inl rfl, nofun, nofun, inv.finished, nofun, nofun, nofun⟩

/-- What `maybe_notify` does: it leaves a message and unread bytes alone, or reads the transport once. -/
inductive Notified (c : Conn) : Conn → Prop where
  | left (busy : mayNotify c.state = false ∨ c.io.readBlocked = true) : c.Notified c
  | buffered (may : mayNotify c.state = true) (unread : c.io.readBuf ≠ []) :
    c.Notified { c with state := { c.state with notifyRead := true } }
  | waited (may : mayNotify c.state = true) (pending : c.io.pollReadFromIo.1 = .pending) :
    c.Notified { c with io := c.io.pollReadFromIo.2 }
  | woken (may : mayNotify c.state = true) {n : Nat} (some_ : n ≠ 0) (read : c.io.pollReadFromIo.1 = .ready (.ok n)) :
    c.Notified { c with io := c.io.pollReadFromIo.2, state := { c.state with notifyRead := true } }
  | ended (may : mayNotify c.state = true) (eof : c.io.pollReadFromIo.1 = .ready (.ok 0)) {s : State}
    (closed : s = c.state.close ∨ s = c.state.closeRead) : c.Notified { c with io := c.io.pollReadFromIo.2, state := s }
  | failed (may : mayNotify c.state = true) {e : IoError} (read : c.io.pollReadFromIo.1 = .ready (.error e)) :
    c.Notified { c with
      io := c.io.pollReadFromIo.2, state := { c.state.close with error := some (.newIo e), notifyRead := true } }

theorem maybeNotify_notified (c : Conn) : c.Notified c.maybeNotify := by
  unfold maybeNotify
  split
  · next busy => exact .left (.inl (by simpa using busy))
  next may =>
  have may : mayNotify c.state = true := by simpa using may
  split
  · next blocked => exact .left (.inr blocked)
  split
  · next unread => exact .buffered may unread
  have pending := Notified.waited may
  have woken {n : Nat} := Notified.woken (n := n) may
  have ended {s : State} := Notified.ended (s := s) may
  have failed {e : IoError} := Notified.failed (e := e) may
  split
  · next n io read =>
    rw [read] at woken ended
    split
    · next zero =>
      refine ended (by rw [zero]) ?_
      split
      · exact .inl rfl
      · exact .inr rfl
    · next some_ => exact woken some_ rfl
  · next read =>
    rw [read] at pending
    exact pending rfl
  · next read =>
    rw [read] at failed
    exact failed rfl

theorem Notified.closes {c c' : Conn} (notified : c.Notified c') : c.Closes c' := by
  have writes := c.io.pollReadFromIo_writes
  cases notified with
  | left => exact .refl c
  | buffered => exact ⟨rfl, .of_same rfl rfl rfl, rfl, rfl⟩
  | waited => exact ⟨rfl, .refl _, rfl, writes⟩
  | woken => exact ⟨rfl, .of_same rfl rfl rfl, rfl, writes⟩
  | ended _ _ closed =>
    rcases closed with rfl | rfl
    · exact ⟨rfl, c.state.close_closes, rfl, writes⟩
    · exact ⟨rfl, c.state.closeRead_closes, rfl, writes⟩
  | failed => exact ⟨rfl, ⟨.inr rfl, .inr ⟨rfl, rfl⟩, .inr rfl⟩, rfl, writes⟩

theorem maybeNotify_closes (c : Conn) : c.Closes c.maybeNotify := c.maybeNotify_notified.closes

/-- The transport is left alone, or read once. -/
theorem maybeNotify_io (c : Conn) : c.maybeNotify.io = c.io ∨ c.maybeNotify.io = c.io.pollReadFromIo.2 := by
  generalize c.maybeNotify = c', c.maybeNotify_notified = notified
  cases notified with
  | left => exact .inl rfl
  | buffered => exact .inl rfl
  | waited => exact .inr rfl
  | woken => exact .inr rfl
  | ended => exact .inr rfl
  | failed => exact .inr rfl

theorem Inv.tryKeepAlive {c : Conn} (inv : c.Inv) : c.tryKeepAlive.Inv := by
  have tried : Inv { c with state := c.state.tryKeepAlive } := by
    obtain ⟨reading, writing, busy, eq⟩ | closes := c.state.tryKeepAlive_cases
    · rw [eq]
      exact inv.goIdle reading writing busy
    · exact inv.closes rfl closes
  have notified := maybeNotify_closes { c with state := c.state.tryKeepAlive }
  exact tried.closes notified.log notified.state

theorem tryKeepAlive_keeps (c : Conn) : c.state.Keeps c.tryKeepAlive.state :=
  c.state.tryKeepAlive_keeps.trans (maybeNotify_closes { c with state := c.state.tryKeepAlive }).state.keeps

theorem tryKeepAlive_log (c : Conn) : c.tryKeepAlive.log = c.log := (maybeNotify_closes _).log

/-! ### Notes on the last exchange -/

theorem dropLast_note (c : Conn) (f : Exchange → Exchange) : (c.note f).log.dropLast = c.log.dropLast :=
  dropLast_modifyLast f c.log

theorem getLast?_note (c : Conn) (f : Exchange → Exchange) : (c.note f).log.getLast? = c.log.getLast?.map f :=
  getLast?_modifyLast f c.log

theorem length_note (c : Conn) (f : Exchange → Exchange) : (c.note f).log.length = c.log.length :=
  length_modifyLast f c.log

theorem note_id (c : Conn) : c.note (fun x => x) = c := by
  unfold note
  rw [modifyLast_eq_self fun _ => rfl]

theorem note_eq_nil (c : Conn) (f : Exchange → Exchange) : (c.note f).log = [] ↔ c.log = [] := by
  rw [← List.getLast?_eq_none_iff, ← List.getLast?_eq_none_iff, getLast?_note, Option.map_eq_none_iff]

theorem mem_note {c : Conn} {f : Exchange → Exchange} {y : Exchange} (member : y ∈ (c.note f).log) :
    y ∈ c.log.dropLast ∨ ∃ x, c.log.getLast? = some x ∧ y = f x := by
  rcases List.eq_nil_or_concat c.log with empty | ⟨pre, x, eq⟩
  · simp [note, empty, List.modifyLast, List.modifyLast.go] at member
  · simpa [note, eq, List.modifyLast_concat] using member

/-- A note of the reading side, with the state that it comes with. -/
theorem Inv.noteRead {c : Conn} (inv : c.Inv) {f : Exchange → Exchange} {c' : Conn} (there : c.log ≠ [])
    (busy : c.state.writing ≠ .init) (log : c'.log = (c.note f).log) (writing : c'.state.writing = c.state.writing)
    (frame : ∀ x, (f x).encoder = x.encoder ∧ (f x).sent = x.sent ∧ (f x).finished = x.finished)
    (body : ∀ d, c'.state.reading = .body d → ∀ x, c.log.getLast? = some x → (f x).Answered c'.state.keepAlive)
    (complete : c'.state.reading = .keepAlive →
      ∀ x, c.log.getLast? = some x → (f x).Answered c'.state.keepAlive ∧ (f x).Complete)
    (noContinue : ∀ d, c'.state.reading ≠ .continue d) : c'.Inv := by
  obtain ⟨x, last⟩ := Option.isSome_iff_exists.mp (List.getLast?_isSome.mpr there)
  obtain ⟨encoder, sent, finished⟩ := frame x
  have last' : c'.log.getLast? = some (f x) := by rw [log, getLast?_note, last]; rfl
  refine ⟨?_, fun h => absurd (writing ▸ h) busy, fun h => ?_, fun e h => ?_, fun h => ?_, fun y member done => ?_,
    fun d h => ⟨_, last', body d h x last⟩, fun h => ⟨_, last', complete h x last⟩, noContinue⟩
  · rw [log, dropLast_note]
    exact inv.earlier
  · rw [log, note_eq_nil] at h
    exact absurd h there
  · obtain ⟨y, lasty, unfinished, encoding⟩ := inv.sending e (writing ▸ h)
    obtain rfl := Option.some.inj (last.symm.trans lasty)
    exact ⟨_, last', by rw [finished]; exact unfinished, by rw [encoder, sent]; exact encoding⟩
  · obtain ⟨y, lasty, done⟩ := inv.written (writing ▸ h)
    obtain rfl := Option.some.inj (last.symm.trans lasty)
    exact ⟨_, last', by rw [finished]; exact done⟩
  · rw [log] at member
    rcases mem_note member with h | ⟨y, lasty, rfl⟩
    · exact inv.finished _ (List.mem_of_mem_dropLast h) done
    · obtain ⟨encoder, sent, finished⟩ := frame y
      rw [encoder, sent]
      exact inv.finished _ (List.mem_of_getLast? lasty) (finished ▸ done)

/-- A note of the writing side, with the state that it comes with. -/
theorem Inv.noteWrite {c : Conn} (inv : c.Inv) {f : Exchange → Exchange} {c' : Conn} {x : Exchange}
    (last : c.log.getLast? = some x) (log : c'.log = (c.note f).log) (reading : c'.state.reading = c.state.reading)
    (keepAlive : c'.state.keepAlive = c.state.keepAlive)
    (frame : (f x).answer = x.answer ∧ (f x).decoderEof = x.decoderEof) (busy : c'.state.writing ≠ .init)
    (sending : ∀ e, c'.state.writing = .body e → (f x).finished = false ∧ Encoding (f x).encoder e (f x).sent)
    (written : c'.state.writing = .keepAlive → (f x).finished = true)
    (finished : (f x).finished = true → Encoded (f x).encoder (f x).sent) : c'.Inv := by
  have last' : c'.log.getLast? = some (f x) := by rw [log, getLast?_note, last]; rfl
  obtain ⟨answer, eof⟩ := frame
  refine ⟨?_, fun h => absurd h busy, fun h => ?_, fun e h => ⟨_, last', sending e h⟩, fun h => ⟨_, last', written h⟩,
    fun y member done => ?_, fun d h => ?_, fun h => ?_, fun d h => inv.noContinue d (reading ▸ h)⟩
  · rw [log, dropLast_note]
    exact inv.earlier
  · rw [h] at last'
    cases last'
  · rw [log] at member
    rcases mem_note member with h | ⟨y, lasty, rfl⟩
    · exact inv.finished _ (List.mem_of_mem_dropLast h) done
    · obtain rfl := Option.some.inj (last.symm.trans lasty)
      exact finished done
  · obtain ⟨y, lasty, answered⟩ := inv.body d (reading ▸ h)
    obtain rfl := Option.some.inj (last.symm.trans lasty)
    exact ⟨_, last', by rw [keepAlive]; simpa only [Exchange.Answered, answer] using answered⟩
  · obtain ⟨y, lasty, answered, complete⟩ := inv.complete (reading ▸ h)
    obtain rfl := Option.some.inj (last.symm.trans lasty)
    refine ⟨_, last', by rw [keepAlive]; simpa only [Exchange.Answered, answer] using answered, ?_⟩
    simpa only [Exchange.Complete, answer, eof] using complete

/-! ### Reading between messages -/

theorem closeRead_closes (c : Conn) : c.Closes { c with state := c.state.closeRead } :=
  ⟨rfl, c.state.closeRead_closes, rfl, rfl⟩

theorem forceIoRead_closes (c : Conn) : c.Closes c.forceIoRead.2 := by
  have writes := c.io.pollReadFromIo_writes
  unfold forceIoRead
  split
  · next read =>
    rw [read] at writes
    exact ⟨rfl, c.state.close_closes, rfl, writes⟩
  · next read =>
    rw [read] at writes
    exact ⟨rfl, .refl _, rfl, writes⟩

theorem forceIoRead_io (c : Conn) : c.forceIoRead.2.io = c.io.pollReadFromIo.2 := by
  unfold forceIoRead
  split
  · next read => rw [read]
  · next read => rw [read]

/-- A look at the transport between messages, which may not be taken at all. -/
inductive Looked (c : Conn) : Conn → Prop where
  | skipped : c.Looked c
  | read (more : c.forceIoRead.1 ≠ .ready (.ok 0)) : c.Looked c.forceIoRead.2
  | ended (eof : c.forceIoRead.1 = .ready (.ok 0)) : c.Looked c.forceIoRead.2.closeRead

theorem Looked.closes {c c' : Conn} (looked : c.Looked c') : c.Closes c' := by
  cases looked with
  | skipped => exact .refl c
  | read => exact c.forceIoRead_closes
  | ended => exact c.forceIoRead_closes.trans (closeRead_closes _)

theorem Looked.io {c c' : Conn} (looked : c.Looked c') : c'.io = c.io ∨ c'.io = c.io.pollReadFromIo.2 := by
  cases looked with
  | skipped => exact .inl rfl
  | read => exact .inr c.forceIoRead_io
  | ended => exact .inr c.forceIoRead_io

/-- The looks differ in what they answer, not in what they do to the connection. -/
theorem forceIoRead_looked {α : Type} (c : Conn) (pending more : α) (failed : IoError → α) (ended : Conn → α) :
    c.Looked (match c.forceIoRead with
      | (.pending, c) => (pending, c)
      | (.ready (.error e), c) => (failed e, c)
      | (.ready (.ok n), c) =>
        if n = 0 then (ended c, { c with state := c.state.closeRead }) else (more, c)).2 := by
  have read := Looked.read (c := c)
  have eof := Looked.ended (c := c)
  split
  · next h =>
    rw [h] at read
    exact read (by simp)
  · next h =>
    rw [h] at read
    exact read (by simp)
  · next n c' h =>
    rw [h] at read eof
    split
    · next zero => exact eof (by rw [zero])
    · next some_ => exact read (by simpa using some_)

theorem requireEmptyRead_looked (c : Conn) : c.Looked c.requireEmptyRead.2 := by
  unfold requireEmptyRead
  split
  · exact .skipped
  · exact c.forceIoRead_looked _ _ _ _

theorem midMessageDetectEof_looked (c : Conn) : c.Looked c.midMessageDetectEof.2 := by
  unfold midMessageDetectEof
  split
  · exact .skipped
  · exact c.forceIoRead_looked _ _ _ _

theorem pollReadKeepAlive_looked (c : Conn) : c.Looked c.pollReadKeepAlive.2 := by
  unfold pollReadKeepAlive
  split
  · exact .skipped
  split
  · exact c.midMessageDetectEof_looked
  · exact c.requireEmptyRead_looked

theorem pollReadKeepAlive_closes (c : Conn) : c.Closes c.pollReadKeepAlive.2 := c.pollReadKeepAlive_looked.closes

/-! ### Writing heads -/

theorem setLength_encoding (head : RequestHead) (body : Option BodyLength) :
    Encoding (Client.setLength head body).2 (Client.setLength head body).2 [] := by
  have chunked {e : Encoder} (h : ChunkedEncoder e) : Encoding e e [] := by
    obtain ⟨trailers, kind, last⟩ := h
    obtain ⟨k, l⟩ := e
    cases kind
    cases last
    exact @Encoding.chunked trailers [] (by simp [ChunksOk])
  have cases_ := setLength_cases head body
  generalize (Client.setLength head body).1.getAll .transferEncoding = te at cases_
  generalize (Client.setLength head body).1.getAll .contentLength = cl at cases_
  generalize (Client.setLength head body).2 = e at cases_ ⊢
  cases cases_ with
  | noBody => exact .length rfl
  | counted => exact .length (Nat.zero_add _)
  | repaired => exact .length (Nat.zero_add _)
  | dropped => exact .length rfl
  | announced _ _ _ _ _ h => exact chunked h
  | respected _ _ _ h => exact chunked h

theorem fixKeepAlive_state (s : State) (head : RequestHead) :
    (fixKeepAlive s head).1 = s ∨ (fixKeepAlive s head).1 = { s with keepAlive := .disabled } := by
  unfold fixKeepAlive
  dsimp only
  split
  · exact .inl rfl
  split
  · exact .inr rfl
  · split
    · exact .inl rfl
    · exact .inl rfl
  · exact .inl rfl

theorem enforceVersion_state (s : State) (head : RequestHead) :
    (enforceVersion s head).1 = s ∨ (enforceVersion s head).1 = { s with keepAlive := .disabled } := by
  unfold enforceVersion
  split
  · exact fixKeepAlive_state s head
  · split
    · exact .inl rfl
    · exact .inl rfl
  · exact .inl rfl

/-- The head as it goes out: what `enforce_version` makes of it. -/
def outgoing (c : Conn) (head : RequestHead) : RequestHead := (enforceVersion c.state.busy head).2

/-- What `write_head` does, where it does not panic. -/
structure WroteHead (c : Conn) (head : RequestHead) (body : Option BodyLength) (c' : Conn) (x : Exchange) : Prop where
  log : c'.log = c.log ++ [x]
  head : x.head = c.outgoing head
  hint : x.hint = body
  encoder : x.encoder = (Client.setLength x.head body).2
  sent : x.sent = []
  unread : x.unread = c.io.readBuf
  eofSeen : x.eofSeen = c.io.io.sawEof
  finished : x.finished = x.encoder.isEof
  answer : x.answer = none
  decoded : x.decoded = []
  decoderEof : x.decoderEof = false
  reading : c'.state.reading = c.state.reading
  writing : c'.state.writing = if x.encoder.isEof then .keepAlive else .body x.encoder
  disabled : c.state.keepAlive = .disabled → c'.state.keepAlive = .disabled
  reads : c'.io = { c.io with writeBuf := c'.io.writeBuf }

theorem writeHead_spec {c c' : Conn} {head : RequestHead} {body : Option BodyLength}
    (h : c.writeHead head body = some c') : ∃ x, WroteHead c head body c' x := by
  unfold writeHead at h
  dsimp only at h
  obtain ⟨⟨bytes, encoder⟩, encoded, rfl⟩ := Option.map_eq_some_iff.mp h
  have made : encoder = (Client.setLength (c.outgoing head) body).2 := by
    obtain ⟨text, -, eq⟩ := Option.map_eq_some_iff.mp encoded
    exact (Prod.mk.inj eq).2.symm
  have last : encoder.isLast = false := made ▸ (setLength_encoding _ _).isLast
  have ends : endWriting encoder = .keepAlive := by simp [endWriting, last]
  have state := enforceVersion_state c.state.busy head
  refine ⟨_, rfl, rfl, rfl, made, rfl, rfl, rfl, ?_, rfl, rfl, rfl, ?_, ?_, ?_, rfl⟩
  · simp [ends]
  · rcases state with h | h
    · rw [h]; exact State.busy_reading _
    · rw [h]; exact State.busy_reading _
  · cases eof : encoder.isEof with
    | true => simp [ends]
    | false => simp
  · intro disabled
    rcases state with h | h
    · rw [h]; exact State.busy_disabled.mpr disabled
    · rw [h]

theorem canWriteHead_iff {c : Conn} :
    c.canWriteHead = true ↔ c.state.reading ≠ .closed ∧ c.state.writing = .init ∧ c.io.canHeadersBuf = true := by
  simp [canWriteHead, and_assoc]

theorem writeHead_inv {c c' : Conn} {head : RequestHead} {body : Option BodyLength} (can : c.canWriteHead = true)
    (h : c.writeHead head body = some c') (inv : c.Inv) : c'.Inv ∧ c.state.Keeps c'.state := by
  obtain ⟨opened, init, -⟩ := canWriteHead_iff.mp can
  obtain ⟨done, there⟩ := inv.idle init
  have reading : c.state.reading = .init := there.resolve_right opened
  obtain ⟨x, wrote⟩ := writeHead_spec h
  have last : c'.log.getLast? = some x := by rw [wrote.log, List.getLast?_concat]
  have encoding : Encoding x.encoder x.encoder x.sent := by
    rw [wrote.sent, wrote.encoder]
    exact setLength_encoding _ _
  have encoded (eof : x.encoder.isEof = true) : Encoded x.encoder x.sent := by
    generalize x.encoder = e at encoding eof ⊢
    generalize x.sent = sent at encoding ⊢
    cases encoding with
    | @length n m sent count =>
      cases n with
      | zero => exact .length (by omega)
      | succ n => cases eof
    | chunked ok => cases eof
  have reading' := wrote.reading.trans reading
  have writing' := wrote.writing
  refine ⟨⟨?_, fun h => ?_, fun h => ?_, fun e h => ⟨x, last, ?_⟩, fun h => ⟨x, last, ?_⟩, fun y member finished => ?_,
    fun d h => absurd (reading'.symm.trans h) nofun, fun h => absurd (reading'.symm.trans h) nofun,
    fun d h => absurd (reading'.symm.trans h) nofun⟩, fun h => absurd h opened, fun h => absurd (init.symm.trans h) nofun,
    wrote.disabled, fun _ _ => init⟩
  · rw [wrote.log, List.dropLast_concat]
    exact done
  · rw [writing'] at h
    split at h
    · cases h
    · cases h
  · rw [wrote.log] at h
    exact absurd h (by simp)
  · rw [writing'] at h
    split at h
    · cases h
    · next more =>
      cases h
      exact ⟨by rw [wrote.finished]; simpa using more, encoding⟩
  · rw [writing'] at h
    split at h
    · next eof => rw [wrote.finished]; exact eof
    · cases h
  · rw [wrote.log] at member
    rcases List.mem_append.mp member with old | new
    · exact (done y old).encoded
    · obtain rfl := List.mem_singleton.mp new
      exact encoded (wrote.finished ▸ finished)

/-! ### Writing bodies -/

theorem canWriteBody_iff {c : Conn} : c.canWriteBody = true ↔ ∃ e, c.state.writing = .body e := by
  unfold canWriteBody
  split
  · next e h => exact ⟨fun _ => ⟨e, h⟩, fun _ => rfl⟩
  · next other => exact ⟨nofun, fun ⟨e, h⟩ => (other e h).elim⟩

def sendMore (c : Conn) (writeBuf : WriteBuf (EncodedBuf Bytes)) (more : Bytes) (next : Writing) : Conn :=
  ({ c with io := { c.io with writeBuf } }.note fun x => { x with sent := x.sent ++ more }).setWriting next

theorem sendMore_log (c : Conn) (writeBuf : WriteBuf (EncodedBuf Bytes)) (more : Bytes) (next : Writing) :
    (c.sendMore writeBuf more next).log = (c.note fun x =>
      { x with sent := x.sent ++ more, finished := x.finished || decide (next = .keepAlive) }).log := by
  rcases List.eq_nil_or_concat c.log with empty | ⟨pre, x, eq⟩
  · simp [sendMore, setWriting, note, empty, List.modifyLast, List.modifyLast.go]
  · simp [sendMore, setWriting, note, eq, List.modifyLast_concat]

theorem Inv.sendMore {c : Conn} (inv : c.Inv) {e : Encoder} (writing : c.state.writing = .body e)
    {writeBuf : WriteBuf (EncodedBuf Bytes)} {more : Bytes} {next : Writing}
    (goes : ∀ e₀ sent, Encoding e₀ e sent →
      (∃ e', next = .body e' ∧ Encoding e₀ e' (sent ++ more)) ∨ next = .keepAlive ∧ Encoded e₀ (sent ++ more) ∨
        next = .closed) :
    (c.sendMore writeBuf more next).Inv ∧ c.state.Keeps (c.sendMore writeBuf more next).state := by
  obtain ⟨x, last, unfinished, encoding⟩ := inv.sending e writing
  have goes := goes _ _ encoding
  have busy : (c.sendMore writeBuf more next).state.writing ≠ .init := by
    show next ≠ .init
    rcases goes with ⟨e', rfl, -⟩ | ⟨rfl, -⟩ | rfl
    · exact nofun
    · exact nofun
    · exact nofun
  refine ⟨inv.noteWrite last (c.sendMore_log writeBuf more next) rfl rfl ⟨rfl, rfl⟩ busy (fun e' h => ?_) (fun h => ?_) ?_,
    id, fun h => absurd (writing.symm.trans h) nofun, id, fun _ init => absurd init busy⟩
  · obtain rfl : next = .body e' := h
    rcases goes with ⟨e'', same, encoding'⟩ | ⟨same, -⟩ | same
    · cases same
      exact ⟨by simp [unfinished], encoding'⟩
    · cases same
    · cases same
  · obtain rfl : next = .keepAlive := h
    simp
  · intro finished
    simp only [unfinished, Bool.false_or, decide_eq_true_eq] at finished
    rcases goes with ⟨e', same, -⟩ | ⟨-, encoded⟩ | same
    · exact absurd (same.symm.trans finished) nofun
    · exact encoded
    · exact absurd (same.symm.trans finished) nofun

theorem endWriting_of_encoding {e₀ e : Encoder} {sent : Bytes} (h : Encoding e₀ e sent) : endWriting e = .keepAlive := by
  simp [endWriting, h.isLast]

theorem writeBody_eq {c : Conn} {e : Encoder} (writing : c.state.writing = .body e) (chunk : Bytes) :
    c.writeBody chunk = c.sendMore (c.io.writeBuf.buffer (e.encode chunk).1) (bytes (e.encode chunk).1)
      (if !(e.encode chunk).2.isEof then .body (e.encode chunk).2 else endWriting (e.encode chunk).2) := by
  unfold writeBody
  rw [writing]
  dsimp only
  split
  · rfl
  · rfl

theorem writeBody_inv {c : Conn} {chunk : Bytes} (can : c.canWriteBody = true) (ne : chunk ≠ [])
    (small : chunk.length < 2 ^ 64) (inv : c.Inv) :
    (c.writeBody chunk).Inv ∧ c.state.Keeps (c.writeBody chunk).state := by
  obtain ⟨e, writing⟩ := canWriteBody_iff.mp can
  rw [writeBody_eq writing]
  refine inv.sendMore writing fun e₀ sent encoding => ?_
  obtain ⟨next, ended⟩ := encoding.encode ne small
  cases eof : (e.encode chunk).2.isEof with
  | true => exact .inr (.inl ⟨by simp [endWriting_of_encoding next], ended eof⟩)
  | false => exact .inl ⟨_, by simp, next⟩

theorem writeBodyAndEnd_eq {c : Conn} {e : Encoder} (writing : c.state.writing = .body e) (chunk : Bytes) :
    c.writeBodyAndEnd chunk = c.sendMore (e.encodeAndEnd chunk c.io.writeBuf).2 (bytes (lastBuf e chunk))
      (if (e.encodeAndEnd chunk c.io.writeBuf).1 then .keepAlive else .closed) := by
  unfold writeBodyAndEnd
  rw [writing]
  rfl

theorem writeBodyAndEnd_inv {c : Conn} {chunk : Bytes} (can : c.canWriteBody = true) (ne : chunk ≠ [])
    (small : chunk.length < 2 ^ 64) (inv : c.Inv) :
    (c.writeBodyAndEnd chunk).Inv ∧ c.state.Keeps (c.writeBodyAndEnd chunk).state := by
  obtain ⟨e, writing⟩ := canWriteBody_iff.mp can
  rw [writeBodyAndEnd_eq writing]
  refine inv.sendMore writing fun e₀ sent encoding => ?_
  cases keeps : (e.encodeAndEnd chunk c.io.writeBuf).1 with
  | true => exact .inr (.inl ⟨rfl, encoding.encodeAndEnd ne small keeps⟩)
  | false => exact .inr (.inr rfl)

theorem writeTrailers_eq {c : Conn} {e : Encoder} (writing : c.state.writing = .body e) (trailers : HeaderMap) :
    (∃ buf, e.encodeTrailers trailers = some buf ∧
      c.writeTrailers trailers = c.sendMore (c.io.writeBuf.buffer buf) (bytes buf) (endWriting e)) ∨
    (e.encodeTrailers trailers = (none : Option (EncodedBuf Bytes)) ∧ c.writeTrailers trailers = c) := by
  unfold writeTrailers
  simp only [writing, endBodyWriting_eq]
  split
  · next buf made => exact .inl ⟨buf, made, rfl⟩
  · next dropped => exact .inr ⟨dropped, rfl⟩

theorem writeTrailers_inv {c : Conn} {trailers : HeaderMap} (can : c.canWriteBody = true) (inv : c.Inv) :
    (c.writeTrailers trailers).Inv ∧ c.state.Keeps (c.writeTrailers trailers).state := by
  obtain ⟨e, writing⟩ := canWriteBody_iff.mp can
  obtain ⟨buf, made, eq⟩ | ⟨-, eq⟩ := writeTrailers_eq writing trailers
  · rw [eq]
    refine inv.sendMore writing fun e₀ sent encoding => ?_
    exact .inr (.inl ⟨endWriting_of_encoding encoding, encoding.encodeTrailers made⟩)
  · rw [eq]
    exact ⟨inv, .refl _⟩

def endBuf (c : Conn) (buf : Option (EncodedBuf Bytes)) : WriteBuf (EncodedBuf Bytes) :=
  buf.elim c.io.writeBuf c.io.writeBuf.buffer

theorem endBody_eq {c : Conn} {e : Encoder} (writing : c.state.writing = .body e) :
    (∃ buf, e.end = .ok buf ∧ c.endBody.1 = .ok () ∧
      c.endBody.2 = c.sendMore (c.endBuf buf) ((buf.map bytes).getD []) (endWriting e)) ∨
    (∃ err, c.endBody = (.error err, c.sendMore c.io.writeBuf [] .closed)) := by
  have unsent : (c.note fun x => { x with sent := x.sent ++ [] }) = c := by
    simp only [List.append_nil]
    exact note_id c
  have same : c.sendMore c.io.writeBuf [] = c.setWriting := by
    funext next
    unfold sendMore
    rw [show { c with io := { c.io with writeBuf := c.io.writeBuf } } = c from rfl, unsent]
  unfold endBody
  simp only [writing, endBodyWriting_eq]
  split
  · next buf ended =>
    refine .inl ⟨buf, ended, rfl, ?_⟩
    cases buf with
    | none => exact congrFun same.symm _
    | some buf => rfl
  · exact .inr ⟨_, by rw [same]⟩

theorem endBody_inv {c : Conn} (can : c.canWriteBody = true) (inv : c.Inv) :
    c.endBody.2.Inv ∧ c.state.Keeps c.endBody.2.state := by
  obtain ⟨e, writing⟩ := canWriteBody_iff.mp can
  obtain ⟨buf, ended, -, eq⟩ | ⟨err, eq⟩ := endBody_eq writing
  · rw [eq]
    refine inv.sendMore writing fun e₀ sent encoding => ?_
    exact .inr (.inl ⟨endWriting_of_encoding encoding, encoding.end ended⟩)
  · rw [eq]
    exact inv.sendMore writing fun e₀ sent encoding => .inr (.inr rfl)

/-- What a write of a body leaves: the connection as it was, or with more of the body sent. -/
def Sends (c c' : Conn) : Prop :=
  c' = c ∨ ∃ writeBuf more next, next ≠ .init ∧ c' = c.sendMore writeBuf more next

theorem endWriting_begun (e : Encoder) : endWriting e ≠ .init := by
  unfold endWriting
  split
  · exact nofun
  · exact nofun

theorem writeBody_sends {c : Conn} (can : c.canWriteBody = true) (chunk : Bytes) : c.Sends (c.writeBody chunk) := by
  obtain ⟨e, writing⟩ := canWriteBody_iff.mp can
  refine .inr ⟨_, _, _, ?_, writeBody_eq writing chunk⟩
  split
  · exact nofun
  · exact endWriting_begun _

theorem writeBodyAndEnd_sends {c : Conn} (can : c.canWriteBody = true) (chunk : Bytes) :
    c.Sends (c.writeBodyAndEnd chunk) := by
  obtain ⟨e, writing⟩ := canWriteBody_iff.mp can
  refine .inr ⟨_, _, _, ?_, writeBodyAndEnd_eq writing chunk⟩
  split
  · exact nofun
  · exact nofun

theorem writeTrailers_sends {c : Conn} (can : c.canWriteBody = true) (trailers : HeaderMap) :
    c.Sends (c.writeTrailers trailers) := by
  obtain ⟨e, writing⟩ := canWriteBody_iff.mp can
  obtain ⟨buf, -, eq⟩ | ⟨-, eq⟩ := writeTrailers_eq writing trailers
  · exact .inr ⟨_, _, _, endWriting_begun e, eq⟩
  · exact .inl eq

theorem endBody_sends {c : Conn} (can : c.canWriteBody = true) : c.Sends c.endBody.2 := by
  obtain ⟨e, writing⟩ := canWriteBody_iff.mp can
  obtain ⟨buf, -, -, eq⟩ | ⟨err, eq⟩ := endBody_eq writing
  · exact .inr ⟨_, _, _, endWriting_begun e, eq⟩
  · exact .inr ⟨c.io.writeBuf, [], .closed, nofun, by rw [eq]⟩

/-! ### Heads that were written -/

/-- The history after calls other than `write_head`. -/
def SameHeads (c c' : Conn) : Prop :=
  ∃ f : Exchange → Exchange, (∀ x : Exchange, x.SameHead (f x)) ∧ c'.log = (c.note f).log

theorem SameHeads.of_note {c c' : Conn} {f : Exchange → Exchange} (log : c'.log = (c.note f).log)
    (same : ∀ x : Exchange, x.SameHead (f x)) : c.SameHeads c' := ⟨f, same, log⟩

theorem SameHeads.of_log {c c' : Conn} (log : c'.log = c.log) : c.SameHeads c' :=
  ⟨fun x => x, .refl, by rw [log, note_id]⟩

theorem SameHeads.sendMore (c : Conn) (writeBuf : WriteBuf (EncodedBuf Bytes)) (more : Bytes) (next : Writing) :
    c.SameHeads (c.sendMore writeBuf more next) := .of_note (c.sendMore_log _ _ _) fun _ => ⟨rfl, rfl, rfl, rfl, rfl⟩

/-! ### Flushing -/

theorem pollFlush_eq (c : Conn) :
    (c.io.pollFlush.1 = .ready (.ok ()) ∧ c.pollFlush = (.ready (.ok ()), { c with io := c.io.pollFlush.2 }.tryKeepAlive)) ∨
    (c.io.pollFlush.1 ≠ .ready (.ok ()) ∧ c.pollFlush = (c.io.pollFlush.1, { c with io := c.io.pollFlush.2 })) := by
  unfold pollFlush
  split
  · next io h => exact .inl ⟨by rw [h], by rw [h]⟩
  · next res io other h =>
    refine .inr ⟨?_, by rw [h]⟩
    rw [h]
    rintro rfl
    exact other rfl

/-! ### Reading heads -/

theorem canReadHead_iff {c : Conn} : c.canReadHead = true ↔ c.state.reading = .init ∧ c.state.writing ≠ .init := by
  simp [canReadHead]

theorem Inv.busy_of_reading {c : Conn} (inv : c.Inv) (init : c.state.reading ≠ .init) (closed : c.state.reading ≠ .closed) :
    c.state.writing ≠ .init := fun h => (inv.idle h).2.elim init closed

theorem Inv.reading_of_canReadBody {c : Conn} (inv : c.Inv) (can : c.canReadBody = true) :
    ∃ d, c.state.reading = .body d := by
  unfold canReadBody at can
  split at can
  · next d h => exact ⟨d, h⟩
  · next d h => exact absurd h (inv.noContinue d)
  · cases can

theorem Inv.ne_nil_of_canReadHead {c : Conn} (inv : c.Inv) (can : c.canReadHead = true) : c.log ≠ [] := by
  obtain ⟨reading, writing⟩ := canReadHead_iff.mp can
  intro empty
  rcases inv.first empty with h | h
  · exact writing h
  · rw [reading] at h; cases h

theorem onReadHeadError_closes (c : Conn) (e : Error) :
    c.Closes (c.onReadHeadError e).2 ∧ (c.onReadHeadError e).2.state.reading = .closed := by
  unfold onReadHeadError
  dsimp only
  split
  · exact ⟨⟨rfl, c.state.closeRead_closes, rfl, rfl⟩, rfl⟩
  · exact ⟨⟨rfl, ⟨.inr rfl, .inr ⟨rfl, rfl⟩, .inr rfl⟩, rfl, rfl⟩, rfl⟩

theorem readingAfterHead_plain {s : State} {msg : ParsedMessage} (plain : msg.Plain) :
    msg.decode = .ZERO ∧ readingAfterHead s msg = .keepAlive ∨
      msg.decode ≠ .ZERO ∧ readingAfterHead s msg = .body (.new msg.decode s.h1MaxHeaders none) := by
  unfold readingAfterHead
  by_cases zero : msg.decode = .ZERO
  · exact .inl ⟨zero, if_pos zero⟩
  · exact .inr ⟨zero, by simp [zero, ParsedMessage.wantsExpect, plain.1]⟩

/-- The state with a head that was parsed, before the look at an idle connection. -/
def withHead (c : Conn) (msg : ParsedMessage) : Conn :=
  let state := ({ c.state with h09Responses := false, onInformational := false }).busy.andKeepAlive msg.keepAlive
  { c with state := { state with version := msg.head.version, reading := readingAfterHead state msg } }.note fun x =>
    { x with answer := some ⟨msg.keepAlive, msg.wantsUpgrade, msg.decode⟩ }

theorem Inv.withHead {c : Conn} (inv : c.Inv) (can : c.canReadHead = true) {msg : ParsedMessage} (plain : msg.Plain) :
    (c.withHead msg).Inv := by
  have there := inv.ne_nil_of_canReadHead can
  obtain ⟨-, busy⟩ := canReadHead_iff.mp can
  have answered (x : Exchange) :
      { x with answer := some (Answer.mk msg.keepAlive msg.wantsUpgrade msg.decode) }.Answered
        (c.withHead msg).state.keepAlive := by
    refine ⟨_, rfl, ?_⟩
    intro enabled
    have keeps : msg.keepAlive = true := by
      cases keeps : msg.keepAlive with
      | true => rfl
      | false => exact absurd (State.andKeepAlive_disabled.mpr (.inl keeps)) enabled
    exact ⟨keeps, plain.2 keeps⟩
  refine inv.noteRead there busy rfl ?_ (fun x => ⟨rfl, rfl, rfl⟩) (fun d _ x _ => answered x) (fun h x _ => ?_) ?_
  · exact (State.andKeepAlive_writing _ _).trans (State.busy_writing _)
  · refine ⟨answered x, _, rfl, .inl ?_⟩
    rcases readingAfterHead_plain (s := _) plain with ⟨zero, -⟩ | ⟨-, body⟩
    · exact zero
    · exact absurd (h.symm.trans body) nofun
  · intro d h
    rcases readingAfterHead_plain (s := _) plain with ⟨-, keepAlive⟩ | ⟨-, body⟩
    · exact absurd (h.symm.trans keepAlive) nofun
    · exact absurd (h.symm.trans body) nofun

theorem withHead_keeps {c : Conn} (can : c.canReadHead = true) (msg : ParsedMessage) :
    c.state.Keeps (c.withHead msg).state := by
  obtain ⟨reading, -⟩ := canReadHead_iff.mp can
  have writing : (c.withHead msg).state.writing = c.state.writing :=
    (State.andKeepAlive_writing _ _).trans (State.busy_writing _)
  refine ⟨fun h => absurd (reading.symm.trans h) nofun, writing.trans, ?_, fun _ => writing.symm.trans⟩
  intro h
  exact State.andKeepAlive_disabled.mpr (.inr (State.busy_disabled.mpr h))

def withFrame (c : Conn) (io : Buffered (EncodedBuf Bytes)) (d : Decoder) (frame : Frame) (reading : Reading) : Conn :=
  { c with io, state := { c.state with reading } }.note fun x =>
    { x with decoded := x.decoded ++ [frame], decoderEof := d.isEof }

theorem Inv.withFrame {c : Conn} (inv : c.Inv) {d₀ d : Decoder} (reading : c.state.reading = .body d₀)
    {io : Buffered (EncodedBuf Bytes)} {frame : Frame} {next : Reading}
    (goes : next = .keepAlive ∧ d.isEof = true ∨ next = .body d) : (c.withFrame io d frame next).Inv := by
  obtain ⟨x, last, r, answer, allows⟩ := inv.body d₀ reading
  have there : c.log ≠ [] := by
    intro empty
    rw [empty] at last
    cases last
  have answered (y : Exchange) (h : c.log.getLast? = some y) :
      { y with decoded := y.decoded ++ [frame], decoderEof := d.isEof }.Answered c.state.keepAlive := by
    obtain rfl := Option.some.inj (last.symm.trans h)
    exact ⟨r, answer, allows⟩
  refine inv.noteRead there (inv.busy_of_reading (by simp [reading]) (by simp [reading])) rfl rfl
    (fun x => ⟨rfl, rfl, rfl⟩) (fun _ _ => answered) (fun h y lasty => ⟨answered y lasty, ?_⟩) ?_
  · obtain rfl := Option.some.inj (last.symm.trans lasty)
    refine ⟨r, answer, .inr ?_⟩
    rcases goes with ⟨-, ended⟩ | body
    · exact ended
    · exact absurd (body.symm.trans h) nofun
  · intro d' h
    rcases goes with ⟨keepAlive, -⟩ | body
    · exact absurd (keepAlive.symm.trans h) nofun
    · exact absurd (body.symm.trans h) nofun

variable [Httparse]

/-- The connection after the bytes of a head were read and parsed. -/
def withParse (c : Conn) : Conn :=
  let parsed := c.io.parse (parseContext c.state)
  { c with io := parsed.io, state := { c.state with cachedHeaders := parsed.cachedHeaders } }

theorem pollReadHead_cases (c : Conn) :
    ((c.io.parse (parseContext c.state)).res = .pending ∧ c.pollReadHead = (.pending, c.withParse)) ∨
    (∃ e, (c.io.parse (parseContext c.state)).res = .ready (.error e) ∧
      c.pollReadHead = (.ready ((c.withParse.onReadHeadError e).1.map .error), (c.withParse.onReadHeadError e).2)) ∨
    (∃ msg trailers, msg.Found c.withParse.state.cachedHeaders ∧ (c.io.parse (parseContext c.state)).res = .ready (.ok msg) ∧
      c.pollReadHead.1 = .ready (some (.ok msg)) ∧
      c.pollReadHead.2 =
        let next := if msg.decode = .ZERO then (c.withParse.withHead msg).tryKeepAlive else c.withParse.withHead msg
        { next with state := { next.state with allowTrailerFields := trailers } }) := by
  unfold pollReadHead
  dsimp only
  split
  · next res => exact .inl ⟨res, rfl⟩
  · next e res => exact .inr (.inl ⟨e, res, rfl⟩)
  · next msg res => exact .inr (.inr ⟨msg, _, Buffered.parseLoop_found res, res, rfl, rfl⟩)

theorem withParse_canReadHead {c : Conn} (can : c.canReadHead = true) : c.withParse.canReadHead = true := can

theorem pollReadHead_inv {c : Conn} (can : c.canReadHead = true) (inv : c.Inv) :
    c.pollReadHead.2.Inv ∧ c.state.Keeps c.pollReadHead.2.state := by
  have parsed : c.withParse.Inv := inv.closes rfl (.of_same rfl rfl rfl)
  have keeps : c.state.Keeps c.withParse.state := ⟨id, id, id, fun _ => id⟩
  obtain ⟨-, eq⟩ | ⟨e, -, eq⟩ | ⟨msg, trailers, found, -, -, eq⟩ := c.pollReadHead_cases
  · rw [eq]
    exact ⟨parsed, keeps⟩
  · rw [eq]
    obtain ⟨closes, -⟩ := c.withParse.onReadHeadError_closes e
    exact ⟨parsed.closes closes.log closes.state, keeps.trans closes.state.keeps⟩
  · rw [eq]
    have headed := parsed.withHead (withParse_canReadHead can) found.plain
    have kept := keeps.trans (withHead_keeps (withParse_canReadHead can) msg)
    dsimp only
    split
    · have kept := kept.trans (tryKeepAlive_keeps _)
      exact ⟨headed.tryKeepAlive.closes rfl (.of_same rfl rfl rfl), kept.reading, kept.writing, kept.keepAlive, kept.idle⟩
    · exact ⟨headed.closes rfl (.of_same rfl rfl rfl), kept.reading, kept.writing, kept.keepAlive, kept.idle⟩

/-! ### Reading bodies -/

theorem pollReadBodyWith_cases (c : Conn) (d : Decoder) :
    (∃ d' io, d.decode c.io = (.pending, d', io) ∧
      c.pollReadBodyWith d = (.pending, { c with io, state := { c.state with reading := .body d' } })) ∨
    (∃ e d' io, d.decode c.io = (.ready (.error e), d', io) ∧
      c.pollReadBodyWith d =
        (.ready (some (.error e)), tryKeepAlive { c with io, state := { c.state with reading := .closed } })) ∨
    (∃ frame d' io, d.decode c.io = (.ready (.ok frame), d', io) ∧ d'.isEof = true ∧
      c.pollReadBodyWith d = (.ready ((onFrame d' frame).2.map .ok), (c.withFrame io d' frame .keepAlive).tryKeepAlive)) ∨
    (∃ data d' io, d.decode c.io = (.ready (.ok (.data data)), d', io) ∧ data ≠ [] ∧ d'.isEof = false ∧
      c.pollReadBodyWith d = (.ready (some (.ok (.data data))), c.withFrame io d' (.data data) (.body d'))) := by
  unfold pollReadBodyWith
  split
  · next d' io decoded => exact .inl ⟨d', io, decoded, rfl⟩
  · next e d' io decoded => exact .inr (.inl ⟨e, d', io, decoded, rfl⟩)
  · next frame d' io decoded =>
    obtain ⟨ended, closed⟩ | ⟨⟨data, rfl, ne⟩, more, kept⟩ := onFrame_cases decoded
    · refine .inr (.inr (.inl ⟨frame, d', io, decoded, ended, ?_⟩))
      generalize onFrame d' frame = out at closed
      obtain ⟨reading, ret⟩ := out
      cases closed
      rfl
    · refine .inr (.inr (.inr ⟨data, d', io, decoded, ne, more, ?_⟩))
      dsimp only
      rw [kept]
      rfl

theorem pollReadBodyWith_inv {c : Conn} {d : Decoder} (reading : c.state.reading = .body d) (inv : c.Inv) :
    (c.pollReadBodyWith d).2.Inv ∧ c.state.Keeps (c.pollReadBodyWith d).2.state := by
  have opened : c.state.reading = .closed → False := fun h => absurd (reading.symm.trans h) nofun
  obtain ⟨d', io, -, eq⟩ | ⟨e, d', io, -, eq⟩ | ⟨frame, d', io, -, ended, eq⟩ | ⟨data, d', io, -, -, -, eq⟩ :=
    c.pollReadBodyWith_cases d
  · rw [eq]
    obtain ⟨x, last, answered⟩ := inv.body d reading
    have busy := inv.busy_of_reading (by simp [reading]) (by simp [reading])
    refine ⟨⟨inv.earlier, fun h => absurd h busy, fun empty => ?_, inv.sending, inv.written, inv.finished,
      fun _ _ => ⟨x, last, answered⟩, nofun, nofun⟩, fun h => (opened h).elim, id, id, fun _ => id⟩
    rw [show c.log = [] from empty] at last
    cases last
  · rw [eq]
    have closed : Inv { c with io, state := { c.state with reading := .closed } } :=
      inv.closes rfl ⟨.inr rfl, .inl rfl, .inl rfl⟩
    have keeps : c.state.Keeps { c.state with reading := .closed } := ⟨fun _ => rfl, id, id, fun _ => id⟩
    exact ⟨closed.tryKeepAlive, keeps.trans (tryKeepAlive_keeps { c with io, state := { c.state with reading := .closed } })⟩
  · rw [eq]
    have keeps : c.state.Keeps (c.withFrame io d' frame .keepAlive).state := ⟨fun h => (opened h).elim, id, id, fun _ => id⟩
    exact ⟨(inv.withFrame reading (.inl ⟨rfl, ended⟩)).tryKeepAlive, keeps.trans (tryKeepAlive_keeps _)⟩
  · rw [eq]
    exact ⟨inv.withFrame reading (.inr rfl), fun h => (opened h).elim, id, id, fun _ => id⟩

theorem pollReadBody_of_reading {c : Conn} {d : Decoder} (reading : c.state.reading = .body d) :
    c.pollReadBody = c.pollReadBodyWith d := by
  unfold pollReadBody
  rw [reading]

theorem pollReadBody_inv {c : Conn} (can : c.canReadBody = true) (inv : c.Inv) :
    c.pollReadBody.2.Inv ∧ c.state.Keeps c.pollReadBody.2.state := by
  obtain ⟨d, reading⟩ := inv.reading_of_canReadBody can
  rw [pollReadBody_of_reading reading]
  exact pollReadBodyWith_inv reading inv

theorem pollDrainOrCloseRead_eq {c : Conn} {d : Decoder} (reading : c.state.reading = .body d) :
    c.pollDrainOrCloseRead = c.pollReadBody.2 ∨ c.pollDrainOrCloseRead = c.pollReadBody.2.closeRead := by
  unfold pollDrainOrCloseRead
  simp only [reading]
  split
  · exact .inl rfl
  · exact .inl rfl
  · exact .inr rfl

theorem pollDrainOrCloseRead_inv {c : Conn} (can : c.canReadBody = true) (inv : c.Inv) :
    c.pollDrainOrCloseRead.Inv ∧ c.state.Keeps c.pollDrainOrCloseRead.state := by
  obtain ⟨d, reading⟩ := inv.reading_of_canReadBody can
  obtain ⟨read, keeps⟩ := pollReadBody_inv can inv
  rcases pollDrainOrCloseRead_eq reading with eq | eq
  · rw [eq]
    exact ⟨read, keeps⟩
  · rw [eq]
    have closes := c.pollReadBody.2.state.closeRead_closes
    exact ⟨read.closes rfl closes, keeps.trans closes.keeps⟩

/-! ### The steps -/

/-- The calls of a dispatcher on a connection other than `write_head`, each where the dispatcher makes it. -/
inductive Call (c : Conn) : Conn → Prop where
  | readHead (can : c.canReadHead = true) : Call c c.pollReadHead.2
  | readBody (can : c.canReadBody = true) : Call c c.pollReadBody.2
  | drain (can : c.canReadBody = true) : Call c c.pollDrainOrCloseRead
  | readKeepAlive : Call c c.pollReadKeepAlive.2
  | readAgain : Call c c.wantsReadAgain.2
  | closeRead : Call c c.closeRead
  | close : Call c c.closeRead.closeWrite
  | writeBody {chunk : Bytes} (can : c.canWriteBody = true) (ne : chunk ≠ []) (small : chunk.length < 2 ^ 64) :
      Call c (c.writeBody chunk)
  | writeTrailers {trailers : HeaderMap} (can : c.canWriteBody = true) : Call c (c.writeTrailers trailers)
  | writeBodyAndEnd {chunk : Bytes} (can : c.canWriteBody = true) (ne : chunk ≠ []) (small : chunk.length < 2 ^ 64) :
      Call c (c.writeBodyAndEnd chunk)
  | endBody (can : c.canWriteBody = true) : Call c c.endBody.2
  | flush : Call c c.pollFlush.2
  | shutdown : Call c c.pollShutdown.2
  | takeError : Call c c.takeError.2
  | pendingUpgrade : Call c c.pendingUpgrade.2
  | onUpgrade : Call c c.onUpgrade

/-- A call of a dispatcher on a connection. -/
inductive Step (c : Conn) : Conn → Prop where
  | call {c' : Conn} (call : c.Call c') : Step c c'
  | writeHead {head : RequestHead} {body : Option BodyLength} {c' : Conn} (can : c.canWriteHead = true)
      (small : ∀ n, body = some (.known n) → n < 2 ^ 64) (wrote : c.writeHead head body = some c') : Step c c'

theorem Call.inv {c c' : Conn} (call : c.Call c') (inv : c.Inv) : c'.Inv ∧ c.state.Keeps c'.state := by
  have closing (closes : c'.log = c.log ∧ c.state.Closes c'.state) : c'.Inv ∧ c.state.Keeps c'.state :=
    ⟨inv.closes closes.1 closes.2, closes.2.keeps⟩
  cases call with
  | readHead can => exact pollReadHead_inv can inv
  | readBody can => exact pollReadBody_inv can inv
  | drain can => exact pollDrainOrCloseRead_inv can inv
  | readKeepAlive => exact closing ⟨c.pollReadKeepAlive_closes.log, c.pollReadKeepAlive_closes.state⟩
  | readAgain => exact closing ⟨rfl, .of_same rfl rfl rfl⟩
  | closeRead => exact closing ⟨rfl, c.state.closeRead_closes⟩
  | close => exact closing ⟨rfl, .inr rfl, .inr ⟨rfl, rfl⟩, .inr rfl⟩
  | writeBody can ne small => exact writeBody_inv can ne small inv
  | writeTrailers can => exact writeTrailers_inv can inv
  | writeBodyAndEnd can ne small => exact writeBodyAndEnd_inv can ne small inv
  | endBody can => exact endBody_inv can inv
  | flush =>
    have flushed : Inv { c with io := c.io.pollFlush.2 } := inv.closes rfl (.refl _)
    obtain ⟨-, eq⟩ | ⟨-, eq⟩ := c.pollFlush_eq
    · rw [eq]
      exact ⟨flushed.tryKeepAlive, tryKeepAlive_keeps { c with io := c.io.pollFlush.2 }⟩
    · rw [eq]
      exact ⟨flushed, .refl _⟩
  | shutdown => exact closing ⟨rfl, .refl _⟩
  | takeError => exact closing ⟨rfl, .of_same rfl rfl rfl⟩
  | pendingUpgrade => exact closing ⟨rfl, .of_same rfl rfl rfl⟩
  | onUpgrade => exact closing ⟨rfl, .of_same rfl rfl rfl⟩

theorem Step.inv {c c' : Conn} (step : c.Step c') (inv : c.Inv) : c'.Inv ∧ c.state.Keeps c'.state := by
  cases step with
  | call call => exact call.inv inv
  | writeHead can _ wrote => exact writeHead_inv can wrote inv

abbrev Calls : Conn → Conn → Prop := Relation.ReflTransGen Call

abbrev Steps : Conn → Conn → Prop := Relation.ReflTransGen Step

theorem Calls.steps {c c' : Conn} (calls : c.Calls c') : c.Steps c' := by
  induction calls with
  | refl => exact .refl
  | tail _ call ih => exact .tail ih (.call call)

theorem Steps.inv {c c' : Conn} (steps : c.Steps c') (inv : c.Inv) : c'.Inv ∧ c.state.Keeps c'.state := by
  induction steps with
  | refl => exact ⟨inv, .refl _⟩
  | tail _ step ih =>
    obtain ⟨next, keeps⟩ := step.inv ih.1
    exact ⟨next, ih.2.trans keeps⟩

/-! ### The history -/

theorem pollReadBody_sameHeads {c : Conn} (inv : c.Inv) (can : c.canReadBody = true) :
    c.SameHeads c.pollReadBody.2 := by
  obtain ⟨d, reading⟩ := inv.reading_of_canReadBody can
  rw [pollReadBody_of_reading reading]
  obtain ⟨d', io, -, eq⟩ | ⟨e, d', io, -, eq⟩ | ⟨frame, d', io, -, ended, eq⟩ | ⟨data, d', io, -, -, -, eq⟩ :=
    c.pollReadBodyWith_cases d
  · rw [eq]
    exact .of_log rfl
  · rw [eq]
    exact .of_log (tryKeepAlive_log _)
  · rw [eq]
    exact .of_note (tryKeepAlive_log _) fun _ => ⟨rfl, rfl, rfl, rfl, rfl⟩
  · rw [eq]
    exact .of_note rfl fun _ => ⟨rfl, rfl, rfl, rfl, rfl⟩

theorem pollReadHead_sameHeads (c : Conn) : c.SameHeads c.pollReadHead.2 := by
  obtain ⟨-, eq⟩ | ⟨e, -, eq⟩ | ⟨msg, trailers, -, -, -, eq⟩ := c.pollReadHead_cases
  · rw [eq]
    exact .of_log rfl
  · rw [eq]
    exact .of_log (c.withParse.onReadHeadError_closes e).1.log
  · rw [eq]
    refine ⟨fun x => { x with answer := some ⟨msg.keepAlive, msg.wantsUpgrade, msg.decode⟩ },
      fun _ => ⟨rfl, rfl, rfl, rfl, rfl⟩, ?_⟩
    dsimp only
    split
    · exact tryKeepAlive_log _
    · rfl

/-- The heads that were written stay as they are. -/
theorem Call.sameHeads {c c' : Conn} (call : c.Call c') (inv : c.Inv) : c.SameHeads c' := by
  have sent {c' : Conn} (sends : c.Sends c') : c.SameHeads c' := by
    obtain rfl | ⟨writeBuf, more, next, -, rfl⟩ := sends
    · exact .of_log rfl
    · exact .sendMore _ _ _ _
  cases call with
  | readHead can => exact c.pollReadHead_sameHeads
  | readBody can => exact pollReadBody_sameHeads inv can
  | drain can =>
    obtain ⟨d, reading⟩ := inv.reading_of_canReadBody can
    obtain ⟨f, same, log⟩ := pollReadBody_sameHeads inv can
    rcases pollDrainOrCloseRead_eq reading with eq | eq
    · rw [eq]
      exact ⟨f, same, log⟩
    · rw [eq]
      exact ⟨f, same, log⟩
  | readKeepAlive => exact .of_log c.pollReadKeepAlive_closes.log
  | readAgain => exact .of_log rfl
  | closeRead => exact .of_log rfl
  | close => exact .of_log rfl
  | writeBody can => exact sent (writeBody_sends can _)
  | writeTrailers can => exact sent (writeTrailers_sends can _)
  | writeBodyAndEnd can => exact sent (writeBodyAndEnd_sends can _)
  | endBody can => exact sent (endBody_sends can)
  | flush =>
    obtain ⟨-, eq⟩ | ⟨-, eq⟩ := c.pollFlush_eq
    · rw [eq]
      exact .of_log (tryKeepAlive_log _)
    · rw [eq]
      exact .of_log rfl
  | shutdown => exact .of_log rfl
  | takeError => exact .of_log rfl
  | pendingUpgrade => exact .of_log rfl
  | onUpgrade => exact .of_log rfl

/-- A step writes a head where it can, or leaves the heads that were written as they are. -/
theorem Step.heads {c c' : Conn} (step : c.Step c') (inv : c.Inv) :
    c.SameHeads c' ∨ ∃ head body x, c.canWriteHead = true ∧ (∀ n, body = some (.known n) → n < 2 ^ 64) ∧
      WroteHead c head body c' x := by
  cases step with
  | call call => exact .inl (call.sameHeads inv)
  | writeHead can small wrote =>
    obtain ⟨x, spec⟩ := writeHead_spec wrote
    exact .inr ⟨_, _, x, can, small, spec⟩

end Conn

end Hwire.Http1
