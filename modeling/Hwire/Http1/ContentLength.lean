import Hwire.Body.Accounting
import Hwire.Http1.LengthFraming

/-!
# Bodies of a known length, for the user

The length of a response body is counted three times: by the decoder, by the body of the user, and in the split of the read
buffer. In every run of the system the three agree, whatever the order in which the task reads and the user polls.
-/

namespace Hwire.Http1
open Lib Body

namespace World

/-! ### What a step does to the bodies -/

/-- The bodies after a step that sends nothing and opens no body. -/
structure Carries (w w' : World) : Prop where
  bodyOf : w'.bodyOf = w.bodyOf
  moves : ∀ (j : Nat) (b' : Incoming), w'.bodies[j]? = some b' → ∃ b, w.bodies[j]? = some b ∧ b.Moves b'

/-- Neither the bodies nor their senders are touched. -/
structure Spares (w w' : World) : Prop where
  bodyTx : w'.bodyTx = w.bodyTx
  bodies : w'.bodies = w.bodies
  bodyOf : w'.bodyOf = w.bodyOf

/-- A sender in the guard is there. -/
def Holds (w : World) : Prop := ∀ (j : Nat) (b : Incoming), w.bodyTx = some j → w.bodies[j]? = some b → b.txAlive = true

theorem Spares.refl (w : World) : w.Spares w := ⟨rfl, rfl, rfl⟩

theorem Spares.trans {w₁ w₂ w₃ : World} (h : w₁.Spares w₂) (h' : w₂.Spares w₃) : w₁.Spares w₃ :=
  ⟨h'.bodyTx.trans h.bodyTx, h'.bodies.trans h.bodies, h'.bodyOf.trans h.bodyOf⟩

theorem Carries.same {w w' : World} (bodies : w'.bodies = w.bodies) (bodyOf : w'.bodyOf = w.bodyOf) : w.Carries w' :=
  ⟨bodyOf, fun _ b' body => ⟨b', bodies ▸ body, .refl b'⟩⟩

theorem Carries.trans {w₁ w₂ w₃ : World} (h : w₁.Carries w₂) (h' : w₂.Carries w₃) : w₁.Carries w₃ := by
  refine ⟨h'.bodyOf.trans h.bodyOf, ?_⟩
  intro j b₃ body₃
  obtain ⟨b₂, body₂, moves₂⟩ := h'.moves j b₃ body₃
  obtain ⟨b₁, body₁, moves₁⟩ := h.moves j b₂ body₂
  exact ⟨b₁, body₁, moves₁.trans moves₂⟩

theorem Carries.onBody {w w' : World} (bodies : w'.bodies = w.bodies) (bodyOf : w'.bodyOf = w.bodyOf) (j : Nat)
    {f : Incoming → Incoming} (moves : ∀ b, w.bodies[j]? = some b → b.Moves (f b)) : w.Carries (w'.onBody j f) := by
  refine ⟨bodyOf, ?_⟩
  intro j' b' body
  rw [World.onBody, bodies, List.getElem?_modify] at body
  obtain ⟨b, before, rfl⟩ := Option.map_eq_some_iff.mp body
  refine ⟨b, before, ?_⟩
  split
  · next same =>
    subst same
    exact moves b before
  · exact .refl b

/-! ### What a failure does -/

theorem abortBody_carries {w v : World} (h : w.Spares v) (holds : w.Holds) (err : Error) : w.Carries (v.abortBody err) := by
  unfold abortBody
  split
  · next j sender =>
    refine .onBody ?_ ?_ j fun b body => Incoming.abort_moves (holds j b (h.bodyTx.symm.trans sender) body) err
    · exact h.bodies
    · exact h.bodyOf
  · exact .same h.bodies h.bodyOf

theorem recvErr_spares (w : World) (e : Error) : w.Spares (w.recvErr e).2 := by
  obtain ⟨_, _, eq⟩ := w.recvErr_eq e
  rw [eq]
  exact ⟨rfl, rfl, rfl⟩

theorem fail_carries {w v : World} (h : w.Spares v) (holds : w.Holds) (e : Error) : w.Carries (v.fail e) := by
  have aborted : w.Carries (World.abortBody { v with raised := v.raised ++ [e] } (.newBody "connection error")) := by
    refine abortBody_carries (h.trans ?_) holds _
    exact ⟨rfl, rfl, rfl⟩
  have told := recvErr_spares (World.abortBody { v with raised := v.raised ++ [e] } (.newBody "connection error")) e
  unfold fail
  split
  · next failed =>
    rw [failed] at told
    exact aborted.trans (.same told.bodies told.bodyOf)
  · next failed =>
    rw [failed] at told
    exact aborted.trans (.same told.bodies told.bodyOf)

theorem drop_carries {w v : World} (h : w.Spares v) (holds : w.Holds) (panicking : Bool) : w.Carries (v.drop panicking) := by
  have dropped {u : World} (h : w.Spares u) : w.Carries { World.abortBody { u with chan := u.chan.dropReceiver }
      .newIncomplete with bodyRx := none, phase := .gone } := by
    have aborted : w.Carries (World.abortBody { u with chan := u.chan.dropReceiver } .newIncomplete) := by
      refine abortBody_carries (h.trans ?_) holds _
      exact ⟨rfl, rfl, rfl⟩
    exact ⟨aborted.bodyOf, aborted.moves⟩
  unfold drop
  split
  · refine dropped (h.trans ?_)
    exact ⟨rfl, rfl, rfl⟩
  · exact dropped h

/-! ### The write loop -/

theorem endWrite_carries {w v : World} (h : w.Spares v) (left : Nat) (again ready : Bool) :
    w.Carries (v.endWrite left again ready) := by
  obtain ⟨phase, eq⟩ := v.endWrite_eq left again ready
  rw [eq]
  exact .same h.bodies h.bodyOf

theorem orFail_carries {w v : World} (h : w.Spares v) (holds : w.Holds) (left : Nat) (again : Bool)
    (res : Except Error Unit) : w.Carries (v.orFail left again res) := by
  cases res with
  | ok => exact .same h.bodies h.bodyOf
  | error e => exact fail_carries h holds e

theorem endBody_carries {w v : World} (h : w.Spares v) (holds : w.Holds) (left : Nat) (again : Bool) :
    w.Carries (v.endBody left again) := by
  refine orFail_carries (h.trans ?_) holds left again _
  exact ⟨rfl, rfl, rfl⟩

theorem writeChunk_carries {w v : World} (h : w.Spares v) (holds : w.Holds) (left : Nat) (again : Bool) (chunk : Bytes)
    (eos : Bool) : w.Carries (v.writeChunk left again chunk eos) := by
  unfold writeChunk
  split
  · dsimp only
    split
    · refine endBody_carries (h.trans ?_) holds left again
      exact ⟨rfl, rfl, rfl⟩
    · exact .same h.bodies h.bodyOf
  split
  · exact .same h.bodies h.bodyOf
  · exact .same h.bodies h.bodyOf

theorem writeUserBody_carries {w : World} (holds : w.Holds) (left : Nat) (again : Bool) (body : UserBody) :
    w.Carries (w.writeUserBody left again body) := by
  unfold writeUserBody
  split
  · exact .same rfl rfl
  · dsimp only
    split
    · apply endWrite_carries
      exact ⟨rfl, rfl, rfl⟩
    · refine fail_carries ?_ holds _
      exact ⟨rfl, rfl, rfl⟩
    · refine endBody_carries ?_ holds left again
      exact ⟨rfl, rfl, rfl⟩
    · refine writeChunk_carries ?_ holds left again _ _
      exact ⟨rfl, rfl, rfl⟩
    · exact .same rfl rfl

theorem writeRequest_carries {w v : World} (h : w.Spares v) (holds : w.Holds) (left : Nat) (again : Bool) (id : Nat)
    (req : Request) : w.Carries (v.writeRequest left again id req) := by
  unfold writeRequest
  dsimp only
  split
  · exact .same h.bodies h.bodyOf
  · refine drop_carries (h.trans ?_) holds true
    exact ⟨rfl, rfl, rfl⟩

theorem PolledMsg.carries {w v : World} {left : Nat} {again : Bool} (polled : w.PolledMsg left again v) (holds : w.Holds) :
    w.Carries v := by
  cases polled with
  | canceled =>
    apply endWrite_carries
    exact ⟨rfl, rfl, rfl⟩
  | taken =>
    refine writeRequest_carries ?_ holds left again _ _
    exact ⟨rfl, rfl, rfl⟩
  | ended =>
    apply endWrite_carries
    exact ⟨rfl, rfl, rfl⟩
  | waits => exact .same rfl rfl

theorem stepWriting_carries {w : World} (holds : w.Holds) (left : Nat) (again : Bool) :
    w.Carries (w.stepWriting left again) := by
  generalize w.stepWriting left again = v, w.stepWriting_round left again = round
  cases round with
  | closing => exact endWrite_carries (.refl w) _ _ _
  | polled _ _ _ _ polled => exact polled.carries holds
  | blocked =>
    apply endWrite_carries
    exact ⟨rfl, rfl, rfl⟩
  | flushed =>
    refine orFail_carries ?_ holds left again _
    exact ⟨rfl, rfl, rfl⟩
  | userBody => exact writeUserBody_carries holds left again _
  | bodyDone => exact endBody_carries (.refl w) holds left again
  | nothing => exact endWrite_carries (.refl w) _ _ _

theorem stepFlushing_carries {w : World} (holds : w.Holds) (left : Nat) (writeReady : Bool) :
    w.Carries (w.stepFlushing left writeReady) := by
  unfold stepFlushing
  dsimp only
  split
  · refine fail_carries ?_ holds _
    exact ⟨rfl, rfl, rfl⟩
  split
  · exact .same rfl rfl
  split
  · exact .same rfl rfl
  · exact .same rfl rfl

/-! ### The end of a poll -/

theorem complete_carries {w v : World} (h : w.Spares v) (holds : w.Holds) (res : Dispatched) :
    w.Carries (v.complete res) := by
  unfold complete
  dsimp only
  split
  · refine fail_carries (h.trans ?_) holds _
    exact ⟨rfl, rfl, rfl⟩
  · exact .same h.bodies h.bodyOf

theorem stepInner_carries {w : World} (holds : w.Holds) : w.Carries w.stepInner := by
  unfold stepInner
  split
  · dsimp only
    split
    · refine complete_carries ?_ holds _
      exact ⟨rfl, rfl, rfl⟩
    split
    · split
      · exact .same rfl rfl
      · refine fail_carries ?_ holds _
        exact ⟨rfl, rfl, rfl⟩
      · refine complete_carries ?_ holds _
        exact ⟨rfl, rfl, rfl⟩
    · refine complete_carries ?_ holds _
      exact ⟨rfl, rfl, rfl⟩
  · exact .same rfl rfl

/-! ### The read loop -/

variable [Httparse]

theorem pollReadStream_carries {w : World} (holds : w.Holds) {j : Nat} (sender : w.bodyTx = some j) (left : Nat) :
    w.Carries (pollReadStream { w with bodyTx := none } left j) := by
  have dropped {v : World} (bodies : v.bodies = w.bodies) (bodyOf : v.bodyOf = w.bodyOf) : w.Carries (v.dropBodyTx j) :=
    .onBody bodies bodyOf j fun b _ => b.dropSender_moves
  unfold pollReadStream
  split
  · split
    · exact .same rfl rfl
    · apply dropped <;> rfl
    · dsimp only
      split
      · exact .same rfl rfl
      · apply dropped <;> rfl
      · exact .same rfl rfl
      · refine .onBody ?_ ?_ j fun b body => Incoming.abort_moves (holds j b sender body) _
        · rfl
        · rfl
  · apply dropped <;> rfl

omit [Httparse] in
/-- After a frame was sent the sender goes back or is dropped. -/
theorem stepSending_carries (w : World) (left j : Nat) (frame : Frame) :
    Carries (w.onBody j fun b => (sendFrame b frame).2) (w.stepSending left j frame) := by
  have dropped : Carries (w.onBody j fun b => (sendFrame b frame).2)
      ((w.onBody j fun b => (sendFrame b frame).2).dropBodyTx j) :=
    .onBody rfl rfl j fun b _ => b.dropSender_moves
  unfold stepSending
  dsimp only
  split
  · exact .same rfl rfl
  split
  · exact ⟨dropped.bodyOf, dropped.moves⟩
  · exact ⟨dropped.bodyOf, dropped.moves⟩

/-- What an action does to the bodies. -/
inductive BodyTurn (w w' : World) : Prop where
  | carries (h : w.Carries w')
  | sends {left j : Nat} {frame : Frame} (phase : w.phase = .sending left j frame) (eq : w' = w.stepSending left j frame)
  | opens {msg : ParsedMessage} (nonzero : msg.decode ≠ .ZERO) (can : w.conn.canReadHead = true)
      (found : w.conn.pollReadHead.1 = .ready (some (.ok msg))) (log : w'.conn.log = w.conn.pollReadHead.2.log)
      (h : Carries { w with
        bodies := w.bodies ++ [.h1 msg.decode msg.wantsExpect], bodyOf := w.bodyOf ++ [w.conn.log.length - 1] } w')

omit [Httparse] in
theorem Holds.dropReceiver {w : World} (holds : w.Holds) (j : Nat) : (w.onBody j .dropReceiver).Holds := by
  intro j' b' sender body
  rw [World.onBody, List.getElem?_modify] at body
  obtain ⟨b, before, rfl⟩ := Option.map_eq_some_iff.mp body
  split
  · exact holds j' b sender before
  · exact holds j' b sender before

omit [Httparse] in
/-- A body that was opened for a response that nobody waits for is dropped. -/
theorem recvHead_carries {w : World} {msg : ParsedMessage} (holds : (w.openBody msg).Holds) (left : Nat) :
    (w.openBody msg).Carries (w.recvHead left msg) ∧ (w.recvHead left msg).conn.log = w.conn.log := by
  have same : (w.openBody msg).conn = w.conn := by
    obtain ⟨_, _, _, eq⟩ := w.openBody_eq msg
    rw [eq]
  have log : (if msg.wantsUpgrade then (w.openBody msg).conn.onUpgrade else (w.openBody msg).conn).log = w.conn.log := by
    split
    · rw [same]
      rfl
    · rw [same]
  unfold recvHead
  dsimp only
  split
  · exact ⟨.same rfl rfl, log⟩
  · rw [fail_conn]
    split
    · refine ⟨fail_carries ?_ holds _, log⟩
      exact ⟨rfl, rfl, rfl⟩
    · refine ⟨?_, log⟩
      have dropped : (w.openBody msg).Carries ((w.openBody msg).onBody w.bodies.length .dropReceiver) :=
        .onBody rfl rfl _ fun b _ => b.dropReceiver_moves
      refine dropped.trans (fail_carries ?_ (holds.dropReceiver _) _)
      exact ⟨rfl, rfl, rfl⟩

theorem recvHead_bodies {w : World} (free : w.bodyTx = none) (can : w.conn.canReadHead = true)
    {msg : ParsedMessage} (found : w.conn.pollReadHead.1 = .ready (some (.ok msg))) (left : Nat) :
    w.BodyTurn (recvHead { w with conn := w.conn.pollReadHead.2 } left msg) := by
  have length : w.conn.pollReadHead.2.log.length = w.conn.log.length := by
    rw [(Conn.pollReadHead_ends found).2, Conn.length_note]
  by_cases zero : msg.decode = .ZERO
  · have same : openBody { w with conn := w.conn.pollReadHead.2 } msg = { w with conn := w.conn.pollReadHead.2 } :=
      if_pos zero
    have holds : (openBody { w with conn := w.conn.pollReadHead.2 } msg).Holds := by
      rw [same]
      intro j b sender
      exact absurd (free.symm.trans sender) nofun
    obtain ⟨received, -⟩ := recvHead_carries holds left
    rw [same] at received
    exact .carries ⟨received.bodyOf, received.moves⟩
  · have eq : openBody { w with conn := w.conn.pollReadHead.2 } msg = { w with
        conn := w.conn.pollReadHead.2
        bodies := w.bodies ++ [.h1 msg.decode msg.wantsExpect]
        bodyOf := w.bodyOf ++ [w.conn.log.length - 1]
        bodyTx := some w.bodies.length } := by
      simp [openBody, setBodyTx, zero, free, length]
    have holds : (openBody { w with conn := w.conn.pollReadHead.2 } msg).Holds := by
      rw [eq]
      rintro _ b ⟨⟩ body
      rw [List.getElem?_concat_length] at body
      cases body
      rfl
    obtain ⟨received, log⟩ := recvHead_carries holds left
    rw [eq] at received
    exact .opens zero can found log ⟨received.bodyOf, received.moves⟩

theorem pollReadHead_bodies {w : World} (holds : w.Holds) (free : w.bodyTx = none) (can : w.conn.canReadHead = true)
    (left : Nat) : w.BodyTurn (w.pollReadHead left) := by
  unfold pollReadHead
  split
  · exact .carries (.same rfl rfl)
  split
  · exact .carries (.same rfl rfl)
  · dsimp only
    split
    · exact .carries (.same rfl rfl)
    · next msg found => exact recvHead_bodies free can found left
    · next e _ =>
      have told : w.Spares (recvErr { w with conn := w.conn.pollReadHead.2 } e).2 := by
        have told := recvErr_spares { w with conn := w.conn.pollReadHead.2 } e
        exact ⟨told.bodyTx, told.bodies, told.bodyOf⟩
      split
      · next failed =>
        rw [failed] at told
        exact .carries (.same told.bodies told.bodyOf)
      · next failed =>
        rw [failed] at told
        exact .carries (fail_carries told holds e)
    · split
      · exact .carries (.same rfl rfl)
      · exact .carries (.same rfl rfl)

theorem stepReading_bodies {w : World} (h : w.Reads) (holds : w.Holds) (left : Nat) : w.BodyTurn (w.stepReading left) := by
  unfold stepReading
  split
  · exact .carries (.same rfl rfl)
  split
  · next can =>
    have still := Conn.not_canReadBody_of_canReadHead can
    exact pollReadHead_bodies holds ((h.rests (.inr can)).free still).1 can left
  split
  · next j sender => exact .carries (pollReadStream_carries holds sender left)
  · dsimp only
    split
    · refine .carries (fail_carries ?_ holds _)
      exact ⟨rfl, rfl, rfl⟩
    · exact .carries (.same rfl rfl)

omit [Httparse] in
/-- The body whose sender the task has, next to the last exchange. -/
theorem Streams.opened {w : World} {j : Nat} {inflight : List Frame} (h : w.Streams (some (j, inflight))) :
    ∃ b x, w.bodies[j]? = some b ∧ w.bodyOf[j]? = some (w.conn.log.length - 1) ∧
      w.conn.log[w.conn.log.length - 1]? = some x ∧ b.Open x.received inflight := by
  have mine : w.bodyOf[j]? = some (w.conn.log.length - 1) := by
    rw [h.there _ rfl, Conn.received, List.length_map]
  have bound := (List.getElem?_eq_some_iff.mp mine).1
  rw [h.lengths] at bound
  have body := List.getElem?_eq_getElem bound
  obtain ⟨r, there, -, serves⟩ := h.each j _ _ body mine
  rw [Conn.received, List.getElem?_map] at there
  obtain ⟨x, last, rfl⟩ := Option.map_eq_some_iff.mp there
  rw [show heldBy (some (j, inflight)) j = some inflight from heldBy_self j (some inflight)] at serves
  exact ⟨_, x, body, mine, last, serves⟩

omit [Httparse] in
theorem Streams.holds {w : World} (h : w.Streams (w.bodyTx.map (·, []))) : w.Holds := by
  intro j b sender body
  rw [sender] at h
  obtain ⟨b', x, there, -, -, opened⟩ := h.opened
  obtain rfl := Option.some.inj (there.symm.trans body)
  exact opened.tx

omit [Httparse] in
theorem Delivers.holds {w : World} (h : w.Delivers) : w.Holds := by
  unfold Delivers at h
  split at h
  · intro j b sender
    exact absurd (h.2.1.symm.trans sender) nofun
  · exact h.streams.holds
  · intro j b sender
    exact absurd (h.2.symm.trans sender) nofun
  · intro j b sender
    exact absurd (h.2.symm.trans sender) nofun
  all_goals exact h.streams.holds

theorem act_bodies {w : World} (h : w.Delivers) (a : Action) : w.BodyTurn (w.act a) := by
  have holds := h.holds
  cases a with
  | poll shouldShutdown =>
    rw [act]
    split
    · exact .carries (.same rfl rfl)
    · exact .carries (.same rfl rfl)
  | step =>
    rw [act, step]
    split
    · next left phase =>
      unfold Delivers at h
      rw [phase] at h
      exact stepReading_bodies h holds left
    · next left j frame phase => exact .sends phase rfl
    · exact .carries (stepWriting_carries holds _ _)
    · refine .carries (endWrite_carries ?_ _ _ _)
      exact ⟨rfl, rfl, rfl⟩
    · exact .carries (stepFlushing_carries holds _ _)
    · exact .carries (stepInner_carries holds)
    · exact .carries (.same rfl rfl)
    · exact .carries (.same rfl rfl)
    · exact .carries (.same rfl rfl)
  | drop =>
    rw [act]
    split
    · exact .carries (drop_carries (.refl w) holds false)
    · exact .carries (drop_carries (.refl w) holds false)
    · exact .carries (.same rfl rfl)
  | give | push | dropSender | cancel => exact .carries (.same rfl rfl)
  | pollFrame j => exact .carries (.onBody rfl rfl j fun b _ => b.pollFrame_moves)
  | dropBody j => exact .carries (.onBody rfl rfl j fun b _ => b.dropReceiver_moves)

/-! ### The count -/

omit [Httparse] in
theorem sendFrame_counts {b : Incoming} {decode : DecodedLength} (h : b.Counts decode) (frame : Frame) :
    (sendFrame b frame).2.Counts decode := by
  cases frame with
  | data chunk =>
    unfold sendFrame Incoming.sendData
    dsimp only
    split
    · exact h
    · exact h
  | trailers t =>
    unfold sendFrame Incoming.sendTrailers
    dsimp only
    split
    · exact h
    split
    · exact h
    · exact h

omit [Httparse] in
theorem sendFrame_bytes {b : Incoming} {r : Received} {frame : Frame} (h : b.Open r [frame])
    (before : b.returned ++ b.underway <+: framesData r.frames) :
    (sendFrame b frame).2.returned ++ (sendFrame b frame).2.underway <+: framesData r.frames := by
  cases frame with
  | data chunk => exact h.sendData_bytes before
  | trailers t =>
    unfold sendFrame Incoming.sendTrailers
    dsimp only
    split
    · exact before
    split
    · exact before
    · exact before

/-- A body, next to the exchange that it belongs to: its length is counted down from the length of the answer, and what it
has returned or will return was read by the decoder. -/
structure Accounted (b : Incoming) (x : Exchange) : Prop where
  answered : ∃ r, x.answer = some r ∧ r.decode ≠ .ZERO ∧ b.Counts r.decode
  bytes : b.returned ++ b.underway <+: framesData x.decoded

def Accounts (w : World) : Prop :=
  ∀ (j : Nat) (b : Incoming) (i : Nat), w.bodies[j]? = some b → w.bodyOf[j]? = some i →
    ∃ x, w.conn.log[i]? = some x ∧ Accounted b x

omit [Httparse] in
theorem Accounted.moves {b b' : Incoming} {x x' : Exchange} (h : Accounted b x) (moves : b.Moves b') (grows : x.Grows x') :
    Accounted b' x' := by
  obtain ⟨r, answer, nonzero, counts⟩ := h.answered
  refine ⟨⟨r, grows.answer r answer, nonzero, moves.counts _ counts⟩, ?_⟩
  exact (moves.bytes.trans h.bytes).trans (framesData_isPrefix grows.decoded)

omit [Httparse] in
theorem Accounts.carries {w w' : World} (h : w.Accounts) (carries : w.Carries w') (grows : w.conn.Grows w'.conn) :
    w'.Accounts := by
  intro j b' i body exchange
  obtain ⟨b, before, moves⟩ := carries.moves j b' body
  obtain ⟨x, there, accounted⟩ := h j b i before (carries.bodyOf ▸ exchange)
  obtain ⟨x', there', more⟩ := grows i x there
  exact ⟨x', there', accounted.moves moves more⟩

omit [Httparse] in
/-- A frame is sent into the body that it was read for. -/
theorem Accounts.sends {w : World} (h : w.Accounts) (delivers : w.Delivers) {left j : Nat} {frame : Frame}
    (phase : w.phase = .sending left j frame) (grows : w.conn.Grows (w.stepSending left j frame).conn) :
    (w.stepSending left j frame).Accounts := by
  unfold Delivers at delivers
  rw [phase] at delivers
  have sent : Accounts (w.onBody j fun b => (sendFrame b frame).2) := by
    intro j' b' i body exchange
    rw [World.onBody, List.getElem?_modify] at body
    obtain ⟨b, before, rfl⟩ := Option.map_eq_some_iff.mp body
    obtain ⟨x, there, accounted⟩ := h j' b i before exchange
    refine ⟨x, there, ?_⟩
    split
    · next same =>
      subst same
      obtain ⟨b', x', there', mine, last, opened⟩ := delivers.1.opened
      obtain rfl := Option.some.inj (there'.symm.trans before)
      obtain rfl := Option.some.inj (mine.symm.trans exchange)
      obtain rfl := Option.some.inj (last.symm.trans there)
      obtain ⟨r, answer, nonzero, counts⟩ := accounted.answered
      exact ⟨⟨r, answer, nonzero, sendFrame_counts counts frame⟩, sendFrame_bytes opened accounted.bytes⟩
    · exact accounted
  exact sent.carries (stepSending_carries w left j frame) grows

/-- A body is opened for an answer, with the length that it declares. -/
theorem Accounts.opens {w w' : World} (h : w.Accounts) (lengths : w.bodyOf.length = w.bodies.length)
    (inv : w.conn.Inv) (can : w.conn.canReadHead = true) {msg : ParsedMessage} (nonzero : msg.decode ≠ .ZERO)
    (found : w.conn.pollReadHead.1 = .ready (some (.ok msg))) (log : w'.conn.log = w.conn.pollReadHead.2.log)
    (grows : w.conn.Grows w'.conn)
    (carries : Carries { w with
        bodies := w.bodies ++ [.h1 msg.decode msg.wantsExpect], bodyOf := w.bodyOf ++ [w.conn.log.length - 1] } w') :
    w'.Accounts := by
  intro j b' i body exchange
  obtain ⟨b, before, moves⟩ := carries.moves j b' body
  rw [carries.bodyOf] at exchange
  rcases Nat.lt_trichotomy j w.bodies.length with earlier | rfl | later
  · rw [List.getElem?_append_left earlier] at before
    rw [List.getElem?_append_left (lengths ▸ earlier)] at exchange
    obtain ⟨x, there, accounted⟩ := h j b i before exchange
    obtain ⟨x', there', more⟩ := grows i x there
    exact ⟨x', there', accounted.moves moves more⟩
  · rw [List.getElem?_concat_length] at before
    rw [← lengths, List.getElem?_concat_length] at exchange
    cases before
    cases exchange
    have some_log := List.length_pos_iff.mpr (inv.ne_nil_of_canReadHead can)
    have there : w.conn.log[w.conn.log.length - 1]? = some (w.conn.log[w.conn.log.length - 1]) :=
      List.getElem?_eq_getElem (by omega)
    have noted := (Conn.pollReadHead_ends found).2
    rw [Conn.note] at noted
    rw [log, noted, getElem?_modifyLast, if_pos (by omega), there]
    refine ⟨_, rfl, ⟨_, rfl, nonzero, moves.counts _ (Incoming.h1_counts _ _)⟩, ?_⟩
    exact moves.bytes.trans List.nil_prefix
  · rw [List.getElem?_eq_none (by simp; omega)] at before
    cases before

theorem act_accounts {w : World} (inv : w.conn.Inv) (fresh : w.conn.Fresh) (delivers : w.Delivers) (h : w.Accounts)
    (a : Action) : (w.act a).Accounts := by
  have grows := Conn.Steps.grows (w.act_steps a) inv fresh
  cases act_bodies delivers a with
  | carries carries => exact h.carries carries grows
  | sends phase eq =>
    rw [eq] at grows ⊢
    exact h.sends delivers phase grows
  | opens nonzero can found log carries =>
    obtain ⟨_, streams, -⟩ := delivers.streams
    exact h.opens streams.lengths inv can nonzero found log grows carries

/-- The induction over runs that the results about bodies share. -/
theorem run_induct {P : World → Prop} {w : World} (inv : w.conn.Inv) (fresh : w.conn.Fresh) (delivers : w.Delivers) (h : P w)
    (keeps : ∀ w : World, w.conn.Inv → w.conn.Fresh → w.Delivers → P w → ∀ a, P (w.act a)) (actions : List Action) :
    P (w.run actions) := by
  induction actions generalizing w with
  | nil => exact h
  | cons a rest ih =>
    have steps := w.act_steps a
    exact ih (Conn.Steps.inv steps inv).1 (Conn.Steps.fresh steps inv fresh) (act_delivers inv fresh delivers a)
      (keeps w inv fresh delivers h a)

/-! ### Bodies without a sender -/

/-- The sender of a body is gone, and this is what a user who is there is given. -/
def Ended (w : World) (j : Nat) (stream : List (Except Error Frame)) : Prop :=
  j < w.bodyOf.length ∧ ∀ b, w.bodies[j]? = some b → b.txAlive = false ∧ (b.rxAlive = true → b.stream = stream)

omit [Httparse] in
theorem Ended.carries {w v w' : World} {j : Nat} {stream : List (Except Error Frame)} (h : w.Ended j stream)
    (same : v.bodies[j]? = w.bodies[j]?) (bound : w.bodyOf.length ≤ v.bodyOf.length) (carries : v.Carries w') :
    w'.Ended j stream := by
  refine ⟨?_, ?_⟩
  · rw [carries.bodyOf]
    exact Nat.lt_of_lt_of_le h.1 bound
  · intro b' body
    obtain ⟨b, before, moves⟩ := carries.moves j b' body
    obtain ⟨gone, told⟩ := h.2 b (same ▸ before)
    obtain ⟨gone', there⟩ := moves.closed gone
    refine ⟨gone', ?_⟩
    intro alive
    obtain ⟨alive₀, kept⟩ := there alive
    exact kept.trans (told alive₀)

theorem act_ended {w : World} (delivers : w.Delivers) {j : Nat} {stream : List (Except Error Frame)} (h : w.Ended j stream)
    (a : Action) : (w.act a).Ended j stream := by
  cases act_bodies delivers a with
  | carries carries => exact h.carries rfl (Nat.le_refl _) carries
  | @sends left j' frame phase eq =>
    rw [eq]
    refine h.carries ?_ ?_ (stepSending_carries w left j' frame)
    · have other : j' ≠ j := by
        rintro rfl
        unfold Delivers at delivers
        rw [phase] at delivers
        obtain ⟨b, x, body, -, -, opened⟩ := delivers.1.opened
        exact absurd (opened.tx.symm.trans (h.2 b body).1) nofun
      exact List.getElem?_modify_ne _ _ other
    · exact Nat.le_refl _
  | opens nonzero can found log carries =>
    obtain ⟨_, streams, -⟩ := delivers.streams
    refine h.carries ?_ ?_ carries
    · exact List.getElem?_append_left (streams.lengths ▸ h.1)
    · rw [List.length_append]
      exact Nat.le_add_right _ _

/-! ### A transport that ends early -/

omit [Httparse] in
/-- The next step of the task reads for a body, with nothing in the read buffer, and finds the transport at its end. -/
structure MeetsEof (w : World) (j : Nat) : Prop where
  reads : ∃ left, w.phase = .reading left
  notClosing : w.isClosing = false
  sender : w.bodyTx = some j
  can : w.conn.canReadBody = true
  ready : ∀ b, w.bodies[j]? = some b → b.pollReady = .ready (.ok ())
  empty : w.conn.io.readBuf = []
  eof : w.conn.io.pollReadFromIo.1 = .ready (.ok 0)

theorem MeetsEof.step {w : World} {j : Nat} (h : w.MeetsEof j) {b : Incoming} (body : w.bodies[j]? = some b) {e : IoError}
    (failed : w.conn.pollReadBody.1 = .ready (some (.error e))) :
    (w.act .step).bodies = w.bodies.modify j (fun b => (b.sendError (.newBody e.text)).dropSender) ∧
      (w.act .step).bodyOf = w.bodyOf := by
  obtain ⟨left, phase⟩ := h.reads
  have noHead : w.conn.canReadHead = false := by
    rw [← Bool.not_eq_true]
    intro head
    exact absurd ((Conn.not_canReadBody_of_canReadHead head).symm.trans h.can) nofun
  have stepped : w.act .step = pollReadStream { w with bodyTx := none } left j := by
    simp only [act, World.step, phase, stepReading, h.notClosing, noHead, h.sender]
    rfl
  have ready : (w.bodies[j]?.map Incoming.pollReady).getD .pending = .ready (.ok ()) := by
    rw [body]
    exact h.ready b body
  rw [stepped]
  simp only [pollReadStream, h.can, if_true, ready, failed]
  exact ⟨rfl, rfl⟩

omit [Httparse] in
theorem pollReady_alive {b : Incoming} (h : b.pollReady = .ready (.ok ())) : b.rxAlive = true := by
  unfold Incoming.pollReady at h
  split at h
  · cases h
  · next alive => simpa using alive

omit [Httparse] in
/-- The error is the last thing in the stream. -/
theorem abort_stream {b : Incoming} {r : Received} (opened : b.Open r []) (going : r.eof = false) (alive : b.rxAlive = true)
    (err : Error) : (b.sendError err).dropSender.stream = (shown r.frames).map .ok ++ [.error err] := by
  have none : b.trailers = none := by
    rcases opened.trailers with ⟨-, ended⟩ | ⟨none, -⟩
    · exact absurd (going.symm.trans ended) nofun
    · exact none
  rw [← opened.stream alive]
  simp [Incoming.stream, Incoming.sendError, Incoming.dropSender, alive, none, Except.map]

theorem MeetsEof.ended {w : World} {j : Nat} (h : w.MeetsEof j) (inv : w.conn.Inv) (fresh : w.conn.Fresh)
    (delivers : w.Delivers) {start : Conn} (framed : start.Framed w.conn) {i n : Nat} {x : Exchange} {r : Answer}
    (exchange : w.bodyOf[j]? = some i) (there : w.conn.log[i]? = some x) (answer : x.answer = some r)
    (length : r.decode = .length n) :
    (framesData x.decoded).length < n ∧ w.conn.pollReadBody.1 = .ready (some (.error Chunked.incompleteBody)) ∧
      (w.act .step).Ended j ((shown x.decoded).map .ok ++ [.error (.newBody Chunked.incompleteBody.text)]) := by
  obtain ⟨left, phase⟩ := h.reads
  unfold Delivers at delivers
  rw [phase] at delivers
  have streams := delivers.streams
  rw [h.sender] at streams
  obtain ⟨b, x', body, mine, last, opened⟩ := streams.opened
  obtain rfl := Option.some.inj (mine.symm.trans exchange)
  obtain rfl := Option.some.inj (last.symm.trans there)
  have bound := (List.getElem?_eq_some_iff.mp there).1
  obtain ⟨msg, after, -, -, -, rest⟩ := framed _ x' r n there answer length
  obtain ⟨d, reading⟩ := inv.reading_of_canReadBody h.can
  obtain ⟨missing, rfl⟩ := (rest (by omega)).2 d reading
  have failed : w.conn.pollReadBody.1 = .ready (some (.error Chunked.incompleteBody)) := by
    have out : ((Decoder.length (n - (framesData x'.decoded).length)).decode w.conn.io).1 = _ :=
      Decoder.decode_length_eof (by omega) h.empty h.eof
    rw [Conn.pollReadBody_of_reading reading, Conn.pollReadBodyWith]
    cases decoded : (Decoder.length (n - (framesData x'.decoded).length)).decode w.conn.io with
    | mk res rest =>
      rw [decoded] at out
      obtain rfl : res = .ready (.error Chunked.incompleteBody) := out
      rfl
  obtain ⟨bodies, bodyOf⟩ := h.step body failed
  have alive := pollReady_alive (h.ready b body)
  have going : x'.received.eof = false := by
    obtain ⟨r', at_end, eof⟩ := fresh.body h.can
    rw [Conn.received, List.getLast?_map, List.getLast?_eq_getElem?, last] at at_end
    cases at_end
    exact eof
  refine ⟨missing, failed, ?_, ?_⟩
  · rw [bodyOf]
    exact (List.getElem?_eq_some_iff.mp mine).1
  · intro b' body'
    rw [bodies, List.getElem?_modify_eq, body] at body'
    cases body'
    exact ⟨rfl, fun _ => abort_stream opened going alive _⟩

/-! ### In every run -/

omit [Httparse] in
theorem decoder_length {head : ResponseHead} {method : Option Method} {n : Nat} {upgrade : Bool}
    (h : Client.decoder head method = .ok (some (.length n, upgrade))) : n ≤ DecodedLength.MAX_LEN := by
  obtain ⟨-, res⟩ | ⟨-, res⟩ | ⟨-, res⟩ | ⟨decode, res, small⟩ := Client.decoder_cases h
  · cases res
    exact Nat.zero_le _
  · cases res
  · cases res
    exact Nat.zero_le _
  · cases res
    exact small n rfl

theorem run_accounts (opts : Http1Options) (io : Transport) (actions : List Action) : ((new opts io).run actions).Accounts :=
  run_induct (Conn.handshake_inv opts io) (Conn.handshake_fresh opts io) (new_delivers opts io) (fun _ _ _ body => nomatch body)
    (fun _ inv fresh delivers h => act_accounts inv fresh delivers h) actions

theorem run_state (opts : Http1Options) (io : Transport) (actions : List Action) :
    ((new opts io).run actions).conn.Inv ∧ ((new opts io).run actions).conn.Fresh ∧
      ((new opts io).run actions).Delivers ∧ Conn.Framed (.handshake opts io) ((new opts io).run actions).conn := by
  have inv := Conn.handshake_inv opts io
  have fresh := Conn.handshake_fresh opts io
  have steps := run_steps (new opts io) actions
  exact ⟨run_inv opts io actions, Conn.Steps.fresh steps inv fresh, run_delivers inv fresh (new_delivers opts io) actions,
    Conn.Steps.lengthFramed steps inv fresh rfl⟩

/-- What is given to the user stays what it is once the sender is gone. -/
theorem run_ended {opts : Http1Options} {io : Transport} {earlier : List Action} {a : Action} {j : Nat}
    {stream : List (Except Error Frame)} (h : (((new opts io).run earlier).act a).Ended j stream) (later : List Action) :
    ((new opts io).run (earlier ++ a :: later)).Ended j stream := by
  obtain ⟨inv, fresh, delivers, -⟩ := run_state opts io earlier
  have steps := act_steps ((new opts io).run earlier) a
  rw [run_append]
  exact run_induct (Conn.Steps.inv steps inv).1 (Conn.Steps.fresh steps inv fresh) (act_delivers inv fresh delivers a) h
    (fun _ _ _ delivers h => act_ended delivers h) later

/-- What holds of a body of `n` bytes that belongs to the response number `i`. The bytes behind its head are `after`. -/
structure ExactLength (start : Conn) (w : World) (j i n : Nat) (b : Incoming) (msg : ParsedMessage) (after : Bytes) : Prop where
  head : Conn.HeadRead start i msg after w.conn
  declared : msg.decode = .length n
  positive : 0 < n
  small : n ≤ DecodedLength.MAX_LEN
  pieces : b.returned ++ b.underway <+: after.take n
  left : ∃ m, b.contentLength = .length m ∧ m + b.returned.length = n
  endStream : b.isEndStream = true ↔ b.returned.length = n
  /-- Until the next request is written, what was not decoded is in the read buffer or still to come. -/
  unread : i + 1 = w.conn.log.length → ∃ k, b.returned.length ≤ k ∧ k ≤ n ∧
    w.conn.io.readBuf ++ w.conn.io.io.reads.flatMap ReadEvent.bytes = after.drop k
  closed : b.txAlive = false → b.rxAlive = true ∨ none ∈ b.observed →
    n ≤ after.length ∧ b.returned ++ b.underway = after.take n ∨ ∃ err, .error err ∈ b.stream
  cutOff : w.MeetsEof j → ∀ (later : List Action) (b' : Incoming), (w.run (.step :: later)).bodies[j]? = some b' →
    b'.txAlive = false ∧ (b'.rxAlive = true → ∃ (frames : List Frame) (e : IoError),
      b'.stream = frames.map Except.ok ++ [Except.error (Error.newBody e.text)] ∧ e.kind = .unexpectedEof ∧
      w.conn.pollReadBody.1 = .ready (some (.error e)) ∧ framesData frames <+: after ∧ (framesData frames).length < n)

omit [Httparse] in
/-- A response without a body has no channel. -/
theorem Accounts.not_mem_bodyOf {w : World} (h : w.Accounts) (lengths : w.bodyOf.length = w.bodies.length) {i : Nat}
    {x : Exchange} {r : Answer} (there : w.conn.log[i]? = some x) (answer : x.answer = some r) (zero : r.decode = .ZERO) :
    i ∉ w.bodyOf := by
  intro member
  obtain ⟨j, inside, rfl⟩ := List.getElem_of_mem member
  obtain ⟨x', there', accounted⟩ := h j _ _ (List.getElem?_eq_getElem (lengths ▸ inside)) (List.getElem?_eq_getElem inside)
  obtain rfl := Option.some.inj (there.symm.trans there')
  obtain ⟨r', answer', nonzero, -⟩ := accounted.answered
  obtain rfl := Option.some.inj (answer.symm.trans answer')
  exact nonzero zero

/-- The length of a body is exact, from the wire to the user. For every response whose body is framed by a length `n`, over
every segmentation of the stream and every order of the steps of the task and of the polls of the user: what the body has
returned, and what is still in its channel, are consecutive pieces of the first `n` bytes behind the head. The length that the
body counts down is `n` less the bytes that it has returned, so that no subtraction goes below zero or reaches a sentinel, and
the body is at the end of its stream just when all bytes have been returned. The bytes after the last one stay unread until the
next request is written. Once the sender is gone, a user who is there has got all bytes or gets an error. That error is that
of an unexpected end of file, after fewer than `n` bytes, where a read for the body finds the transport at its end. A body
of no bytes has no channel, and all that is behind its head stays unread. -/
theorem run_contentLength (opts : Http1Options) (io : Transport) (actions : List Action) {i n : Nat}
    {x : Exchange} {r : Answer} (there : ((new opts io).run actions).conn.log[i]? = some x) (answer : x.answer = some r)
    (length : r.decode = .length n) :
    ∃ msg after, Conn.HeadRead (.handshake opts io) i msg after ((new opts io).run actions).conn ∧ msg.decode = .length n ∧
      (n = 0 → i ∉ ((new opts io).run actions).bodyOf ∧
        (i + 1 = ((new opts io).run actions).conn.log.length →
          ((new opts io).run actions).conn.io.readBuf ++
            ((new opts io).run actions).conn.io.io.reads.flatMap ReadEvent.bytes = after)) ∧
      ∀ (j : Nat) (b : Incoming), ((new opts io).run actions).bodies[j]? = some b →
        ((new opts io).run actions).bodyOf[j]? = some i →
        ExactLength (.handshake opts io) ((new opts io).run actions) j i n b msg after := by
  obtain ⟨inv, fresh, delivers, framed⟩ := run_state opts io actions
  obtain ⟨msg, after, read, declared, pieces, rest⟩ := framed i x r n there answer length
  refine ⟨msg, after, read, declared, ?_, ?_⟩
  · rintro rfl
    obtain ⟨held, streams, -⟩ := delivers.streams
    refine ⟨(run_accounts opts io actions).not_mem_bodyOf streams.lengths there answer length, fun last => ?_⟩
    have none : (framesData x.decoded).length = 0 := Nat.le_zero.mp pieces.bounded
    exact (rest last).1.trans (by rw [none, List.drop_zero])
  intro j b body exchange
  obtain ⟨x', there', accounted⟩ := run_accounts opts io actions j b i body exchange
  obtain rfl := Option.some.inj (there.symm.trans there')
  obtain ⟨r', answer', nonzero, counts⟩ := accounted.answered
  obtain rfl := Option.some.inj (answer.symm.trans answer')
  rw [length] at nonzero counts
  have decoded : framesData x.decoded <+: after.take n := by
    rw [List.prefix_take_iff]
    exact ⟨pieces.data, pieces.bounded⟩
  have bounded : b.returned.length ≤ (framesData x.decoded).length :=
    ((List.prefix_append _ _).trans accounted.bytes).length_le
  obtain ⟨left, ended⟩ := counts.exact (bounded.trans pieces.bounded)
  refine ⟨read, declared, ?_, ?_, accounted.bytes.trans decoded, left, ended, ?_, ?_, ?_⟩
  · refine Nat.pos_of_ne_zero ?_
    rintro rfl
    exact nonzero rfl
  · obtain ⟨c₀, -, -, -, -, -, ends, -⟩ := read.between
    exact decoder_length (declared ▸ ends.decided)
  · intro last
    exact ⟨_, bounded, pieces.bounded, (rest last).1⟩
  · intro gone present
    obtain ⟨i', x', exchange', there', ⟨inflight, opened⟩ | closed, -⟩ := run_body opts io actions body
    · exact absurd (opened.tx.symm.trans gone) nofun
    · obtain rfl := Option.some.inj (exchange.symm.trans exchange')
      obtain rfl := Option.some.inj (there.symm.trans there')
      refine (closed.bytes present).imp_left ?_
      rintro ⟨eof, bytes⟩
      have whole : (framesData x.decoded).length = n := pieces.whole eof
      refine ⟨whole ▸ pieces.data.length_le, bytes.trans ?_⟩
      rw [← whole]
      exact List.prefix_iff_eq_take.mp pieces.data
  · intro eof later b' body'
    obtain ⟨missing, failed, over_⟩ := eof.ended inv fresh delivers framed exchange there answer length
    rw [← run_append] at body'
    obtain ⟨gone, stream⟩ := (run_ended over_ later).2 b' body'
    refine ⟨gone, ?_⟩
    intro alive
    refine ⟨shown x.decoded, Chunked.incompleteBody, stream alive, rfl, failed, ?_, ?_⟩
    · rw [framesData_shown]
      exact pieces.data
    · rw [framesData_shown]
      exact missing

/-- Five bytes are declared and two are there. The user has polled, and the task is about to read on. -/
def beforeEof : World := @run onlyFiveBytes cutOff (cutOffRun.take 19)

omit [Httparse] in
theorem beforeEof_meetsEof : beforeEof.MeetsEof 0 := by
  have facts : beforeEof.phase = .reading 15 ∧ beforeEof.isClosing = false ∧ beforeEof.bodyTx = some 0 ∧
      beforeEof.conn.canReadBody = true ∧ beforeEof.bodies.all (fun b => b.rxAlive && b.ready && !b.parked) = true ∧
      beforeEof.conn.io.readBuf = [] ∧ beforeEof.conn.io.io.reads = [.data []] ∧
      beforeEof.conn.io.io.sawEof = false := by decide +kernel
  obtain ⟨phase, notClosing, sender, can, ready, empty, left, unseen⟩ := facts
  refine ⟨⟨15, phase⟩, notClosing, sender, can, ?_, empty, ?_⟩
  · intro b body
    have fact := List.all_eq_true.mp ready b (List.mem_of_getElem? body)
    simp only [Bool.and_eq_true, Bool.not_eq_true'] at fact
    simp [Incoming.pollReady, fact]
  · simp [Buffered.pollReadFromIo, Transport.pollRead, left, unseen]

omit [Httparse] in
theorem run_contentLength_cutOff :
    (∃ b : Incoming, (@run onlyFiveBytes cutOff (cutOffRun.take 19)).bodies[0]? = some b ∧ b.returned = ascii "he" ∧
      (∃ m, b.contentLength = .length m ∧ m + b.returned.length = 5) ∧ b.isEndStream = false) ∧
    ∃ b : Incoming, (@run onlyFiveBytes cutOff cutOffRun).bodies[0]? = some b ∧ ∃ (frames : List Frame) (e : IoError),
      b.stream = frames.map Except.ok ++ [Except.error (Error.newBody e.text)] ∧ e.kind = .unexpectedEof ∧
      (framesData frames).length < 5 := by
  have facts : (beforeEof.bodies[0]?.any fun b : Incoming => b.returned == ascii "he") = true ∧ beforeEof.bodyOf[0]? = some 0 ∧
      (beforeEof.conn.log[0]?.any fun x : Exchange => x.answer == some (Answer.mk true false (.length 5))) = true := by decide +kernel
  have late : ((@run onlyFiveBytes cutOff cutOffRun).bodies[0]?.any fun b => b.rxAlive) = true := by decide +kernel
  obtain ⟨early, own, log⟩ := facts
  obtain ⟨b, body, returned⟩ := (Option.any_eq_true ..).mp early
  obtain ⟨b', body', alive⟩ := (Option.any_eq_true ..).mp late
  obtain ⟨x, there, answer⟩ := (Option.any_eq_true ..).mp log
  have returned : b.returned = ascii "he" := beq_iff_eq.mp returned
  obtain ⟨msg, after, -, -, -, each⟩ :=
    @run_contentLength onlyFiveBytes {} _ (cutOffRun.take 19) 0 5 x _ there (beq_iff_eq.mp answer) rfl
  obtain ⟨-, -, -, -, -, left, endStream, -, -, cut⟩ := each 0 b body own
  have going : b.isEndStream = false := by
    rw [← Bool.not_eq_true, endStream, returned]
    decide
  refine ⟨⟨b, body, returned, left, going⟩, b', body', ?_⟩
  obtain ⟨-, told⟩ := cut beforeEof_meetsEof [.step, .step, .step] b' body'
  obtain ⟨frames, e, stream, kind, -, -, fewer⟩ := told alive
  exact ⟨frames, e, stream, kind, fewer⟩

end World

end Hwire.Http1
