import Hwire.Http1.Handover

/-!
# Runs to an upgrade

Runs that end with the transport in other hands. Every byte behind the head of the upgrade is handed over with it. The
bytes of the request that are still in the write buffer are not.
-/

namespace Hwire.Http1
open Lib Body

namespace World

variable [Httparse]

/-! ### Until the handover -/

/-- A connection that is to be handed over waits, and what it has not read is what followed the head of the upgrade. -/
structure Hands (E : Bytes → Prop) (w : World) : Prop where
  waits : w.phase.live = true → w.conn.state.upgrade = true → w.conn.Awaits ∧ w.isClosing = false ∧ E w.conn.unread
  handed : w.phase = .finished (.ok .upgrade) → E w.conn.unread

omit [Httparse] in
theorem ne_finished_of_live {w : World} {res : Except Error Dispatched} (live : w.phase.live = true) :
    w.phase ≠ .finished res := by
  intro finished
  rw [finished] at live
  cases live

omit [Httparse] in
/-- Where a task has ended otherwise, there is nothing to hand over. -/
theorem nothing_handed {w : World} (ended : w.phase = .gone ∨ ∃ res, w.phase = .finished res ∧ res ≠ .ok .upgrade) :
    w.phase.live = false ∧ w.phase.late = false ∧ w.phase ≠ .finished (.ok .upgrade) := by
  obtain gone | ⟨res, finished, other⟩ := ended
  · rw [gone]
    refine ⟨rfl, rfl, ?_⟩
    intro same
    cases same
  · rw [finished]
    refine ⟨rfl, rfl, ?_⟩
    intro same
    exact other (Phase.finished.inj same)

theorem Turn.hands {w w' : World} (turn : w.Turn w') {E : Bytes → Prop} (h : w.Hands E)
    (reads : ∀ msg, w.ReadsUpgrade msg → w'.conn = w.conn.pollReadHead.2.onUpgrade → E w'.conn.unread)
    (ok : w.conn.io.WriteOk) : w'.Hands E := by
  have going {c : Conn} (tends : w.conn.Tends c) (closing : w.conn.Awaits → w'.isClosing = w.isClosing)
      (conn : w'.conn = c) (live : w.phase.live = true) (upgrade : w'.conn.state.upgrade = true) :
      w'.conn.Awaits ∧ w'.isClosing = false ∧ E w'.conn.unread := by
    subst conn
    obtain ⟨waiting, open_, after⟩ := h.waits live (tends.upgrade.symm.trans upgrade)
    exact ⟨tends.awaits waiting, (closing waiting).trans open_, (tends.unread waiting).symm ▸ after⟩
  cases turn with
  | still conn closing phase => exact ⟨by rw [phase, conn, closing]; exact h.waits, by rw [phase, conn]; exact h.handed⟩
  | on tends closing live =>
    exact ⟨fun _ => going tends closing rfl live.1, fun finished => absurd finished (ne_finished_of_live live.2)⟩
  | flushed phase conn closing live =>
    have tends : w.conn.Tends w.conn.pollFlush.2.wantsReadAgain.2 :=
      (Conn.pollFlush_tends ok).trans (.of_state rfl rfl rfl rfl rfl rfl id)
    exact ⟨fun _ => going tends (fun _ => closing) conn (by rw [phase]; rfl),
      fun finished => absurd finished (ne_finished_of_live live)⟩
  | @upgraded msg read conn closing live =>
    have waiting := Conn.pollReadHead_awaits read.can read.found read.wants
    refine ⟨fun _ _ => ⟨?_, closing, ?_⟩, ?_⟩
    · rw [conn]
      exact ⟨waiting.disabled, waiting.sides⟩
    · exact reads msg read conn
    · exact fun finished => absurd finished (ne_finished_of_live live)
  | handed phase done upgrade _ io phase' =>
    obtain ⟨-, -, after⟩ := h.waits (by rw [phase]; rfl) upgrade
    refine ⟨?_, ?_⟩
    · intro live
      rw [phase'] at live
      cases live
    · intro _
      rw [Conn.unread, io]
      exact after
  | ended phase =>
    obtain ⟨dead, -, other⟩ := nothing_handed phase
    refine ⟨?_, fun finished => absurd finished other⟩
    intro live
    rw [dead] at live
    cases live

/-- The flush after which the connection is handed over: the head of an upgrade has closed it, and nothing calls for
another round. -/
def lastFlush (w : World) : Bool :=
  match w.phase with
  | .flushing _ _ =>
    w.conn.state.upgrade && w.conn.isReadClosed && !w.conn.state.notifyRead && w.conn.state.error.isNone
  | _ => false

/-- In that flush, the transport is about to take all that is left of the request. -/
def flushesRest (w : World) : Bool := !w.lastFlush || w.conn.io.takesRest

/-- After the last flush, a closed connection that is to be handed over has nothing left to write. -/
structure Writes (w : World) : Prop where
  late : w.phase.late = true → w.conn.state.upgrade = true → w.conn.state.error = none → w.conn.Emptied
  handed : w.phase = .finished (.ok .upgrade) → w.conn.io.writeBuf.remaining = 0

omit [Httparse] in
/-- A flush that does not fail has written what the script was about to take. -/
theorem pollFlush_emptied {c : Conn} (ok : c.io.WriteOk) (waiting : c.Awaits)
    (fine : ∀ e, c.pollFlush.1 ≠ .ready (.error e)) (takes : c.io.takesRest = true) :
    c.pollFlush.2.io.writeBuf.remaining = 0 := by
  have decided := (Buffered.pollFlush_decided ok).taken takes
  obtain ⟨done, eq⟩ | ⟨-, eq⟩ := c.pollFlush_eq
  · have waiting' : Conn.Awaits { c with io := c.io.pollFlush.2 } := ⟨waiting.disabled, waiting.sides⟩
    rw [eq, waiting'.tryKeepAlive_io]
    exact Conn.remaining_of_flushed ok done
  · rw [eq] at fine ⊢
    exact decided.resolve_right fun ⟨e, failed⟩ => fine e failed

theorem Turn.writes {w w' : World} (turn : w.Turn w') {E : Bytes → Prop} (hands : w.Hands E) (h : w.Writes)
    (ok : w.conn.io.WriteOk) (flushes : w.flushesRest = true) : w'.Writes := by
  cases turn with
  | still conn _ phase => exact ⟨by rw [phase, conn]; exact h.late, by rw [phase, conn]; exact h.handed⟩
  | on tends _ live late =>
    refine ⟨?_, fun finished => absurd finished (ne_finished_of_live live.2)⟩
    intro late' upgrade clean
    rw [tends.upgrade] at upgrade
    obtain ⟨waiting, -⟩ := hands.waits live.1 upgrade
    exact tends.emptied waiting (h.late (late late') upgrade ((tends.error waiting).symm.trans clean))
  | @flushed left ready phase conn _ live fine again =>
    refine ⟨?_, fun finished => absurd finished (ne_finished_of_live live)⟩
    intro late upgrade clean
    rw [conn] at upgrade clean ⊢
    have tends := Conn.pollFlush_tends ok
    have upgrade : w.conn.state.upgrade = true := tends.upgrade.symm.trans upgrade
    obtain ⟨waiting, -⟩ := hands.waits (by rw [phase]; rfl) upgrade
    have clean : w.conn.state.error = none := (tends.error waiting).symm.trans clean
    have quiet : w.conn.state.notifyRead = false := (waiting.pollFlush_notifyRead).symm.trans (again late)
    by_cases closed : w.conn.state.reading = .closed
    · intro _
      refine pollFlush_emptied ok waiting fine ?_
      simpa [flushesRest, lastFlush, phase, upgrade, quiet, clean, Conn.isReadClosed, State.isReadClosed, closed] using
        flushes
    · exact Conn.pollFlush_emptied ok waiting closed
  | upgraded _ _ _ live early =>
    refine ⟨?_, fun finished => absurd finished (ne_finished_of_live live)⟩
    intro late
    rw [early] at late
    cases late
  | handed phase done upgrade clean io phase' =>
    obtain ⟨-, open_, -⟩ := hands.waits (by rw [phase]; rfl) upgrade
    refine ⟨?_, ?_⟩
    · intro late
      rw [phase'] at late
      cases late
    · intro _
      have closed : w.conn.state.reading = .closed := by
        simpa [isDone, open_, Conn.isReadClosed, State.isReadClosed] using done
      rw [io]
      exact h.late (by rw [phase]; rfl) upgrade clean closed
  | ended phase =>
    obtain ⟨-, early, other⟩ := nothing_handed phase
    refine ⟨?_, fun finished => absurd finished other⟩
    intro late
    rw [early] at late
    cases late

/-! ### Runs -/

omit [Httparse] in
theorem Hands.mono {w : World} {E E' : Bytes → Prop} (h : w.Hands E) (weaker : ∀ after, E after → E' after) : w.Hands E' :=
  ⟨fun live upgrade => (h.waits live upgrade).imp_right (And.imp_right (weaker _)), fun finished => weaker _ (h.handed finished)⟩

omit [Httparse] in
theorem new_hands (opts : Http1Options) (io : Transport) (E : Bytes → Prop) : (new opts io).Hands E :=
  ⟨fun _ upgrade => absurd upgrade nofun, nofun⟩

theorem run_writeOk (opts : Http1Options) (io : Transport) (actions : List Action) :
    ((new opts io).run actions).conn.io.WriteOk :=
  (Conn.Steps.sound (run_steps _ actions) (Conn.handshake_inv opts io) (Conn.handshake_sound opts io)).writes

/-- An action of a run that reads the head of an upgrade. -/
structure UpgradeRead (opts : Http1Options) (io : Transport) (actions earlier : List Action) (msg : ParsedMessage)
    (after : Bytes) : Prop where
  within : ∃ a later, actions = earlier ++ a :: later ∧
    ((new opts io).run (earlier ++ [a])).conn = ((new opts io).run earlier).conn.pollReadHead.2.onUpgrade
  reads : ((new opts io).run earlier).ReadsUpgrade msg
  after : after = ((new opts io).run earlier).conn.pollReadHead.2.unread

theorem UpgradeRead.append {opts : Http1Options} {io : Transport} {actions earlier : List Action} {msg : ParsedMessage}
    {after : Bytes} (h : UpgradeRead opts io actions earlier msg after) (more : List Action) :
    UpgradeRead opts io (actions ++ more) earlier msg after := by
  obtain ⟨a, later, rfl, conn⟩ := h.within
  exact ⟨⟨a, later ++ more, by simp, conn⟩, h.reads, h.after⟩

theorem run_hands (opts : Http1Options) (io : Transport) (actions : List Action) :
    ((new opts io).run actions).Hands fun after => ∃ earlier msg, UpgradeRead opts io actions earlier msg after := by
  induction actions using List.reverseRecOn with
  | nil => exact new_hands opts io _
  | append_singleton actions a ih =>
    have turn := act_turn (run_inv opts io actions) (run_writeOk opts io actions) a
    have last : (new opts io).run (actions ++ [a]) = ((new opts io).run actions).act a := run_append _ _ _
    rw [last]
    refine turn.hands (ih.mono ?_) ?_ (run_writeOk opts io actions)
    · rintro after ⟨earlier, msg, read⟩
      exact ⟨earlier, msg, read.append [a]⟩
    · intro msg reads conn
      refine ⟨actions, msg, ⟨a, [], rfl, last ▸ conn⟩, reads, ?_⟩
      rw [conn]
      rfl

theorem act_flushing {w : World} {left : Nat} {ready : Bool} (phase : w.phase = .flushing left ready) {a : Action}
    (other : a ≠ .step) : (w.act a).conn = w.conn ∧ (w.act a).phase = w.phase := by
  cases a with
  | step => exact absurd rfl other
  | poll => simp [act, phase]
  | drop => simp [act, phase]
  | give | push | dropSender | cancel | pollFrame | dropBody => exact ⟨rfl, rfl⟩

theorem act_writes {w : World} (inv : w.conn.Inv) (ok : w.conn.io.WriteOk) {E : Bytes → Prop} (hands : w.Hands E)
    (h : w.Writes) {a : Action} (flushes : a = .step → w.flushesRest = true) : (w.act a).Writes := by
  have turn := act_turn inv ok a
  by_cases step : a = .step
  · exact turn.writes hands h ok (flushes step)
  · by_cases flushing : ∃ left ready, w.phase = .flushing left ready
    · obtain ⟨left, ready, phase⟩ := flushing
      obtain ⟨conn, same⟩ := act_flushing phase step
      exact ⟨by rw [same, conn]; exact h.late, by rw [same, conn]; exact h.handed⟩
    · refine turn.writes hands h ok ?_
      unfold flushesRest lastFlush
      split
      · next left ready phase => exact absurd ⟨left, ready, phase⟩ flushing
      · rfl

omit [Httparse] in
theorem stepFlushing_pending {w : World} {c : Conn} (flushed : w.conn.pollFlush = (.pending, c))
    (written : c.canWriteBody = false) (quiet : c.state.notifyRead = false) (left : Nat) (ready : Bool) :
    w.stepFlushing left ready = { w with conn := c.wantsReadAgain.2, phase := .inner } := by
  have nothing : canWriteAgain { w with conn := c } = false := by simp [canWriteAgain, written]
  unfold stepFlushing
  rw [flushed]
  simp [nothing, Conn.wantsReadAgain, quiet]

omit [Httparse] in
theorem stepInner_upgrade {w : World} (done : w.isDone = true) (upgrade : w.conn.state.upgrade = true)
    (clean : w.conn.state.error = none) :
    w.stepInner.phase = .finished (.ok .upgrade) ∧ w.stepInner.conn.io = w.conn.io := by
  unfold stepInner
  rw [if_pos done]
  simp [Conn.pendingUpgrade, upgrade, complete, Conn.takeError, clean]

/-- Where the script leaves something, the task hands the transport over in two steps, and with it nothing of what is
left. -/
theorem unflushed_hands {w : World} (ok : w.conn.io.WriteOk) {E : Bytes → Prop} (hands : w.Hands E)
    (leaves : w.flushesRest = false) :
    ((w.act .step).act .step).phase = .finished (.ok .upgrade) ∧
      ((w.act .step).act .step).conn.io.writeBuf.remaining ≠ 0 := by
  obtain ⟨last, leaves⟩ : w.lastFlush = true ∧ w.conn.io.takesRest = false := by simpa [flushesRest] using leaves
  obtain ⟨left, ready, phase⟩ : ∃ left ready, w.phase = .flushing left ready := by
    unfold lastFlush at last
    split at last
    · next left ready phase => exact ⟨left, ready, phase⟩
    · cases last
  obtain ⟨⟨⟨upgrade, closed⟩, quiet⟩, clean⟩ : ((w.conn.state.upgrade = true ∧ w.conn.isReadClosed = true) ∧
      w.conn.state.notifyRead = false) ∧ w.conn.state.error = none := by
    simpa [lastFlush, phase] using last
  obtain ⟨waiting, -⟩ := hands.waits (by rw [phase]; rfl) upgrade
  obtain ⟨pending, rest⟩ := (Buffered.pollFlush_decided ok).held leaves
  have flushed : w.conn.pollFlush = (.pending, { w.conn with io := w.conn.io.pollFlush.2 }) := by
    obtain ⟨done, -⟩ | ⟨-, eq⟩ := w.conn.pollFlush_eq
    · rw [pending] at done
      cases done
    · rw [eq, pending]
  have closed' : w.conn.state.reading = .closed := by simpa [Conn.isReadClosed, State.isReadClosed] using closed
  have written : w.conn.canWriteBody = false := by
    rcases waiting.sides with ⟨reading, -⟩ | ⟨-, writing⟩
    · rw [closed'] at reading
      cases reading
    · simp [Conn.canWriteBody, writing]
  have first : w.act .step =
      { w with conn := (Conn.wantsReadAgain { w.conn with io := w.conn.io.pollFlush.2 }).2, phase := .inner } := by
    rw [act, step, phase]
    exact stepFlushing_pending flushed written quiet left ready
  rw [first, act, step]
  obtain ⟨handed, same⟩ := stepInner_upgrade
    (w := { w with conn := (Conn.wantsReadAgain { w.conn with io := w.conn.io.pollFlush.2 }).2, phase := .inner })
    (by simpa [isDone, Conn.isReadClosed, Conn.wantsReadAgain] using .inr closed) upgrade clean
  refine ⟨handed, ?_⟩
  rw [same]
  exact rest

/-- If in every flush of a run that comes before a handover the transport is about to take all that is left of the
request, or to fail, then it has accepted every byte that was buffered when it is handed over. Any other such flush is
followed by a handover with bytes left in the buffer. -/
theorem run_flushed (opts : Http1Options) (io : Transport) (actions : List Action) :
    ((∀ earlier later, actions = earlier ++ Action.step :: later → ((new opts io).run earlier).flushesRest = true) →
      ((new opts io).run actions).phase = .finished (.ok .upgrade) →
      ((new opts io).run actions).conn.io.writeBuf.remaining = 0 ∧
        ((new opts io).run actions).conn.io.io.written = ((new opts io).run actions).conn.io.wire) ∧
    (((new opts io).run actions).flushesRest = false →
      ((new opts io).run (actions ++ [.step, .step])).phase = .finished (.ok .upgrade) ∧
        ((new opts io).run (actions ++ [.step, .step])).conn.io.writeBuf.remaining ≠ 0) := by
  have writes : (∀ earlier later, actions = earlier ++ Action.step :: later →
      ((new opts io).run earlier).flushesRest = true) → ((new opts io).run actions).Writes := by
    intro flushes
    induction actions using List.reverseRecOn with
    | nil => exact ⟨fun _ upgrade => absurd upgrade nofun, nofun⟩
    | append_singleton actions a ih =>
      have before : ((new opts io).run actions).Writes := by
        apply ih
        intro earlier later eq
        exact flushes earlier (later ++ [a]) (by simp [eq])
      rw [run_append]
      refine act_writes (run_inv opts io actions) (run_writeOk opts io actions) (run_hands opts io actions) before ?_
      rintro rfl
      exact flushes actions [] rfl
  refine ⟨?_, ?_⟩
  · intro flushes handed
    have empty := (writes flushes).handed handed
    refine ⟨empty, ?_⟩
    rw [Buffered.wire, Buffered.contents_eq_nil (run_writeOk opts io actions) empty, List.append_nil]
  · intro leaves
    rw [run_append]
    exact unflushed_hands (run_writeOk opts io actions) (run_hands opts io actions) leaves

def switchingHead : Bytes := ascii "HTTP/1.1 101 Switching Protocols\r\n\r\n"

@[reducible] def onlySwitching : Httparse where
  parseResponse _ bytes _ :=
    if switchingHead.isPrefixOf bytes then
      .ok (some { len := 36, version := 1, code := 101, reason := ascii "Switching Protocols", headers := [] })
    else .ok none
  parseHeaders _ _ := .ok none
  canonicalReason _ := some (ascii "Switching Protocols")

/-- The response comes in one read with the first bytes of the other protocol. -/
def switchingReads : List ReadEvent := [.pending, .data (switchingHead ++ ascii "tun"), .pending, .data (ascii "nel")]

/-- A request is written, and its response is read in the next poll. -/
def upgradeRun : List Action :=
  writesGet .empty ++ List.replicate 3 Action.step ++ [Action.poll true] ++ List.replicate 5 Action.step

/-- The transport takes nothing before the response is there, and then the request in two writes. -/
def slowTransport : Transport := { sampleTransport switchingReads with writes := [.pending, .accept 5, .accept 100] }

omit [Httparse] in
theorem run_flushed_upgradeRun :
    (@run onlySwitching (new {} slowTransport) upgradeRun).phase = .finished (.ok .upgrade) ∧
      (@run onlySwitching (new {} slowTransport) upgradeRun).conn.io.writeBuf.remaining = 0 ∧
      (@run onlySwitching (new {} { reads := switchingReads }) (upgradeRun.take 12 ++ [.step, .step])).phase =
        .finished (.ok .upgrade) := by
  have flushes : ∀ earlier ∈ upgradeRun.inits,
      (@run onlySwitching (new {} slowTransport) earlier).flushesRest = true := by decide +kernel
  have handed : (@run onlySwitching (new {} slowTransport) upgradeRun).phase = .finished (.ok .upgrade) := by
    decide +kernel
  have leaves : (@run onlySwitching (new {} { reads := switchingReads }) (upgradeRun.take 12)).flushesRest = false := by
    decide +kernel
  refine ⟨handed, ((@run_flushed onlySwitching {} _ upgradeRun).1 ?_ handed).1, ?_⟩
  · intro earlier later eq
    exact flushes earlier ((List.mem_inits _ _).mpr ⟨_, eq.symm⟩)
  · exact ((@run_flushed onlySwitching {} _ (upgradeRun.take 12)).2 leaves).1

omit [Httparse] in
/-- The response is early and the transport takes nothing: it is handed over before a byte of the request was written. -/
theorem run_unflushed :
    (@run onlySwitching (new {} { reads := switchingReads }) upgradeRun).phase = .finished (.ok .upgrade) ∧
      (@run onlySwitching (new {} { reads := switchingReads }) upgradeRun).conn.io.writeBuf.remaining = 18 ∧
      (@run onlySwitching (new {} { reads := switchingReads }) upgradeRun).conn.io.io.written = [] := by
  decide +kernel

/-! ### The bytes behind the head -/

/-- `UpgradeableConnection::poll`: the transport and the read buffer of a connection that was upgraded. -/
def upgraded (w : World) : Option Upgraded :=
  match w.phase with
  | .finished (.ok .upgrade) => some (.new w.conn.io.io w.conn.io.readBuf)
  | _ => none

omit [Httparse] in
theorem upgraded_eq_some {w : World} {u : Upgraded} (h : w.upgraded = some u) :
    w.phase = .finished (.ok .upgrade) ∧ u.io.unread = w.conn.unread := by
  unfold upgraded at h
  split at h
  · next phase =>
    cases h
    exact ⟨phase, rfl⟩
  · cases h

/-- An upgrade hands over every following byte. Somewhere in the run a step has read the head of the upgrade, out of the
bytes of the transport that were unread then. Whatever the room in each read is, what is read from the upgraded connection
is what follows that head, in order and without gaps, and enough reads with room get all of it, unless the transport says
that nothing follows. -/
theorem run_upgraded (opts : Http1Options) (io : Transport) (actions : List Action) {u : Upgraded}
    (handed : ((new opts io).run actions).upgraded = some u) :
    ∃ earlier msg after, UpgradeRead opts io actions earlier msg after ∧
      (msg.head.subject = 101 ∨ ((new opts io).run earlier).conn.state.method = some .connect ∧
        200 ≤ msg.head.subject ∧ msg.head.subject ≤ 299) ∧
      ((new opts io).run earlier).conn.unread <:+ io.reads.flatMap ReadEvent.bytes ∧
      EndsHead (Conn.parseContext ((new opts io).run earlier).conn.state) ((new opts io).run earlier).conn.unread msg after ∧
      ∀ rooms, (u.pollReads rooms).1 ++ (u.pollReads rooms).2.io.unread = after ∧
        ((∀ room ∈ rooms, 0 < room) → u.io.weight ≤ rooms.length →
          (u.pollReads rooms).1 = after ∨ (u.pollReads rooms).2.io.Ended) := by
  obtain ⟨phase, unread⟩ := upgraded_eq_some handed
  obtain ⟨earlier, msg, read⟩ := (run_hands opts io actions).handed phase
  obtain ⟨ends, -⟩ := Conn.pollReadHead_ends read.reads.found
  have decided := ends.decided
  rw [read.reads.wants] at decided
  refine ⟨earlier, msg, _, read, (Client.decoder_upgrade decided).2, ?_, read.after ▸ ends, ?_⟩
  · have suffix := Conn.Steps.unread (run_steps (new opts io) earlier) (Conn.handshake_inv opts io)
    rw [show (new opts io).conn.unread = _ from Conn.handshake_unread opts io] at suffix
    exact suffix
  · intro rooms
    have all := u.pollReads_unread rooms
    rw [unread] at all
    refine ⟨all, ?_⟩
    intro pos enough
    rcases Upgraded.pollReads_all pos enough with none | ended
    · left
      rw [none, List.append_nil] at all
      exact all
    · exact .inr ended

omit [Httparse] in
theorem run_upgraded_upgradeRun :
    ∃ u, (@run onlySwitching (new {} (sampleTransport switchingReads)) upgradeRun).upgraded = some u ∧
      (u.pollReads [2, 2, 2, 2]).1 = ascii "tunne" ∧
      (u.pollReads [2, 2, 2, 2]).1 ++ (u.pollReads [2, 2, 2, 2]).2.io.unread = ascii "tunnel" := by
  have there : (@run onlySwitching (new {} (sampleTransport switchingReads)) upgradeRun).upgraded.any
      (fun u => (u.pollReads [2, 2, 2, 2]).1 = ascii "tunne" ∧ (u.pollReads []).2.io.unread = ascii "tunnel") = true := by
    decide +kernel
  obtain ⟨u, handed, facts⟩ := (Option.any_eq_true ..).mp there
  obtain ⟨read, whole⟩ := of_decide_eq_true facts
  obtain ⟨_, _, after, -, -, -, -, all⟩ := @run_upgraded onlySwitching {} _ upgradeRun u handed
  refine ⟨u, handed, read, (all [2, 2, 2, 2]).1.trans ?_⟩
  exact (all []).1.symm.trans whole

end World

end Hwire.Http1
