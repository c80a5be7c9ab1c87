import Hwire.Body.Incoming

/-!
# What a body delivers

The stream of a body channel: what the user has been given and what is still on its way, in order. Polling moves items
along the stream and does not change it. What the sender must have put into it is said relative to what a decoder has
returned.
-/

namespace Hwire.Body
open Lib Http1

/-- What was read of a response: the frames that its decoder returned, and whether it has come to its end. -/
structure Received where
  answered : Bool
  frames : List Frame
  eof : Bool

def shown (frames : List Frame) : List Frame := frames.filter (· ≠ .data [])

theorem shown_append (frames more : List Frame) : shown (frames ++ more) = shown frames ++ shown more :=
  List.filter_append ..

namespace Incoming

/-- What the user has been given, and what is on its way. -/
def stream (b : Incoming) : List (Except Error Frame) :=
  b.observed.filterMap id ++ b.items.map (·.map .data) ++ b.trailers.toList.map (.ok <| .trailers ·)

/-- The ends that the user has seen come last, when the sender is gone and nothing is left. -/
structure EndsLast (b : Incoming) : Prop where
  order : ∃ (seen : List (Except Error Frame)) (n : Nat), b.observed = seen.map some ++ List.replicate n none
  empty : none ∈ b.observed → b.txAlive = false ∧ b.trailersTx = false ∧ b.items = [] ∧ b.trailers = none

theorem EndsLast.unended {b : Incoming} (ends : b.EndsLast) (tx : b.txAlive = true) : none ∉ b.observed :=
  fun ended => absurd (tx.symm.trans (ends.empty ended).1) nofun

/-- Before its end the stream can be given more. -/
theorem EndsLast.observe {b b' : Incoming} (ends : b.EndsLast) {res : Except Error Frame}
    (observed : b'.observed = b.observed ++ [some res]) (left : b.items ≠ [] ∨ b.trailers ≠ none) : b'.EndsLast := by
  have unended : none ∉ b.observed := by
    intro ended
    obtain ⟨-, -, items, trailers⟩ := ends.empty ended
    exact left.elim (fun h => h items) fun h => h trailers
  obtain ⟨seen, n, order⟩ := ends.order
  have none_yet : n = 0 := by
    by_contra some_n
    exact unended (by rw [order]; simp [some_n])
  refine ⟨⟨seen ++ [res], 0, ?_⟩, ?_⟩
  · rw [observed, order, none_yet]
    simp
  · intro ended
    rw [observed] at ended
    simp [unended] at ended

theorem EndsLast.of_sender {b b' : Incoming} (ends : b.EndsLast) (tx : b.txAlive = true)
    (observed : b'.observed = b.observed) : b'.EndsLast :=
  ⟨observed ▸ ends.order, fun ended => absurd (observed ▸ ended) (ends.unended tx)⟩

theorem EndsLast.dropReceiver {b : Incoming} (ends : b.EndsLast) : b.dropReceiver.EndsLast :=
  ⟨ends.order, fun ended => ⟨(ends.empty ended).1, (ends.empty ended).2.1, rfl, (ends.empty ended).2.2.2⟩⟩

/-! ### Polling -/

/-- What `poll_frame` does to a stream: an item moves, the end is seen, or nothing is there. -/
theorem pollFrame_cases (b : Incoming) :
    (∃ res rest, b.items = res :: rest ∧ b.pollFrame.items = rest ∧ b.pollFrame.trailers = b.trailers ∧
      b.pollFrame.observed = b.observed ++ [some (res.map .data)]) ∨
    (∃ t, b.items = [] ∧ b.txAlive = false ∧ b.trailers = some t ∧ b.pollFrame.items = [] ∧ b.pollFrame.trailers = none ∧
      b.pollFrame.observed = b.observed ++ [some (.ok (.trailers t))]) ∨
    (b.rxAlive = true ∧ b.items = [] ∧ b.txAlive = false ∧ b.trailers = none ∧ b.trailersTx = false ∧
      b.pollFrame.items = [] ∧ b.pollFrame.trailers = none ∧ b.pollFrame.observed = b.observed ++ [none]) ∨
    ((b.rxAlive = true → b.items = [] ∧ (b.txAlive = false → b.trailers = none ∧ b.trailersTx = true)) ∧
      b.pollFrame.items = b.items ∧ b.pollFrame.trailers = b.trailers ∧ b.pollFrame.observed = b.observed) := by
  unfold pollFrame
  split
  · next dead => exact .inr (.inr (.inr ⟨fun alive => by simp [alive] at dead, rfl, rfl, rfl⟩))
  · next alive =>
    have alive : b.rxAlive = true := by simpa using alive
    dsimp only
    split
    · next chunk rest items => exact .inl ⟨_, rest, items, rfl, rfl, rfl⟩
    · next err rest items => exact .inl ⟨_, rest, items, rfl, rfl, rfl⟩
    · next items =>
      split
      · next tx => exact .inr (.inr (.inr ⟨fun _ => ⟨items, fun gone => absurd (tx.symm.trans gone) nofun⟩, rfl, rfl, rfl⟩))
      · next tx =>
        have tx : b.txAlive = false := by simpa using tx
        split
        · next t trailers => exact .inr (.inl ⟨t, items, tx, trailers, items, rfl, rfl⟩)
        · next trailers =>
          split
          · next waits => exact .inr (.inr (.inr ⟨fun _ => ⟨items, fun _ => ⟨trailers, waits⟩⟩, rfl, rfl, rfl⟩))
          · next gone =>
            exact .inr (.inr (.inl ⟨alive, items, tx, trailers, by simpa using gone, items, trailers, rfl⟩))

theorem pollFrame_same (b : Incoming) :
    b.pollFrame.txAlive = b.txAlive ∧ b.pollFrame.rxAlive = b.rxAlive ∧ b.pollFrame.trailersTx = b.trailersTx ∧
      (b.parked = false → b.pollFrame.parked = false) := by
  unfold pollFrame
  split
  · exact ⟨rfl, rfl, rfl, id⟩
  · dsimp only
    split
    · exact ⟨rfl, rfl, rfl, fun _ => rfl⟩
    · exact ⟨rfl, rfl, rfl, fun _ => rfl⟩
    · split
      · exact ⟨rfl, rfl, rfl, id⟩
      split
      · exact ⟨rfl, rfl, rfl, id⟩
      split
      · exact ⟨rfl, rfl, rfl, id⟩
      · exact ⟨rfl, rfl, rfl, id⟩

theorem pollFrame_stream (b : Incoming) : b.pollFrame.stream = b.stream := by
  unfold stream
  obtain ⟨res, rest, items, items', trailers, observed⟩ | ⟨t, items, -, trailers, items', trailers', observed⟩ |
    ⟨-, items, -, trailers, -, items', trailers', observed⟩ | ⟨-, items', trailers', observed⟩ := b.pollFrame_cases
  · rw [observed, items', trailers, items]
    simp
  · rw [observed, items', trailers', items, trailers]
    simp
  · rw [observed, items', trailers', items, trailers]
    simp
  · rw [observed, items', trailers']

theorem EndsLast.pollFrame {b : Incoming} (ends : b.EndsLast) : b.pollFrame.EndsLast := by
  obtain ⟨tx, -, trailersTx, -⟩ := b.pollFrame_same
  obtain ⟨res, rest, items, -, -, observed⟩ | ⟨t, -, -, trailers, -, -, observed⟩ |
    ⟨-, -, gone, -, gone', items', trailers', observed⟩ | ⟨-, items', trailers', observed⟩ := b.pollFrame_cases
  · exact ends.observe observed (.inl (by simp [items]))
  · exact ends.observe observed (.inr (by simp [trailers]))
  · obtain ⟨seen, n, order⟩ := ends.order
    refine ⟨⟨seen, n + 1, ?_⟩, fun _ => ⟨tx.trans gone, trailersTx.trans gone', items', trailers'⟩⟩
    rw [observed, order, List.replicate_succ', List.append_assoc]
  · refine ⟨observed ▸ ends.order, ?_⟩
    intro ended
    rw [tx, trailersTx, items', trailers']
    exact ends.empty (observed ▸ ended)

/-! ### A channel whose sender is there -/

theorem pollReady_error {b : Incoming} {e : Error} (h : b.pollReady = .ready (.error e)) : b.rxAlive = false := by
  unfold pollReady at h
  split at h
  · next dead => simpa using dead
  split at h
  · cases h
  split at h
  · cases h
  · cases h

theorem pollReady_ok {b : Incoming} (h : b.pollReady = .ready (.ok ())) : b.parked = false := by
  unfold pollReady at h
  split at h
  · cases h
  split at h
  · cases h
  split at h
  · cases h
  · next slot => simpa using slot

/-- Everything that was read has been sent, apart from the frames that are about to be. The trailers come last. -/
structure Open (b : Incoming) (r : Received) (inflight : List Frame) : Prop where
  ends : b.EndsLast
  tx : b.txAlive = true
  stream : b.rxAlive = true → b.stream ++ inflight.map .ok = (shown r.frames).map .ok
  trailers : inflight = [] ∧ r.eof = true ∨ b.trailers = none ∧ b.trailersTx = true
  last : ∀ t, .trailers t ∈ inflight → r.eof = true

/-- The sender is gone. A user that is still there has got everything that was read, to its end, or an error. -/
structure Closed (b : Incoming) (r : Received) : Prop where
  ends : b.EndsLast
  tx : b.txAlive = false
  trailersTx : b.trailersTx = false
  settled : b.rxAlive = true ∨ none ∈ b.observed →
    r.eof = true ∧ b.stream = (shown r.frames).map .ok ∨ ∃ err, .error err ∈ b.stream

theorem h1_open (contentLength : DecodedLength) (wanter answered : Bool) :
    (h1 contentLength wanter).Open ⟨answered, [], false⟩ [] where
  ends := ⟨⟨[], 0, rfl⟩, nofun⟩
  tx := rfl
  stream _ := rfl
  trailers := .inr ⟨rfl, rfl⟩
  last := nofun

theorem Open.read {b : Incoming} {r : Received} (h : b.Open r []) (going : r.eof = false) {frame : Frame} {eof : Bool}
    (last : ∀ t, frame = .trailers t → eof = true) :
    b.Open { r with frames := r.frames ++ [frame], eof } (shown [frame]) := by
  refine ⟨h.ends, h.tx, ?_, .inr (h.trailers.resolve_left ?_), ?_⟩
  · intro alive
    have stream : b.stream = (shown r.frames).map .ok := (List.append_nil _).symm.trans (h.stream alive)
    rw [stream, shown_append, List.map_append]
  · intro ended
    exact absurd (going.symm.trans ended.2) nofun
  · intro t member
    exact last t (List.mem_singleton.mp (List.mem_of_mem_filter member)).symm

theorem Open.pollFrame {b : Incoming} {r : Received} {inflight : List Frame} (h : b.Open r inflight) :
    b.pollFrame.Open r inflight := by
  obtain ⟨tx, rx, trailersTx, -⟩ := b.pollFrame_same
  refine ⟨h.ends.pollFrame, tx.trans h.tx, ?_, h.trailers.imp_right ?_, h.last⟩
  · intro alive
    rw [pollFrame_stream]
    exact h.stream (rx ▸ alive)
  · rintro ⟨none, there⟩
    refine ⟨?_, trailersTx.trans there⟩
    obtain ⟨_, _, -, -, same, -⟩ | ⟨t, -, gone, -⟩ | ⟨-, -, gone, -⟩ | ⟨-, -, same, -⟩ := b.pollFrame_cases
    · exact same.trans none
    · exact absurd (h.tx.symm.trans gone) nofun
    · exact absurd (h.tx.symm.trans gone) nofun
    · exact same.trans none

theorem Open.dropReceiver {b : Incoming} {r : Received} {inflight : List Frame} (h : b.Open r inflight) :
    b.dropReceiver.Open r inflight :=
  ⟨h.ends.dropReceiver, h.tx, nofun, h.trailers, h.last⟩

theorem Closed.pollFrame {b : Incoming} {r : Received} (h : b.Closed r) : b.pollFrame.Closed r := by
  obtain ⟨tx, rx, trailersTx, -⟩ := b.pollFrame_same
  refine ⟨h.ends.pollFrame, tx.trans h.tx, trailersTx.trans h.trailersTx, ?_⟩
  intro settled
  rw [pollFrame_stream]
  refine h.settled ?_
  rcases settled with alive | ended
  · exact .inl (rx ▸ alive)
  · by_cases alive : b.rxAlive = true
    · exact .inl alive
    · have dead : b.rxAlive = false := by simpa using alive
      have same : b.pollFrame = b := by simp [Incoming.pollFrame, dead]
      exact .inr (same ▸ ended)

theorem Closed.dropReceiver {b : Incoming} {r : Received} (h : b.Closed r) : b.dropReceiver.Closed r := by
  refine ⟨h.ends.dropReceiver, h.tx, h.trailersTx, ?_⟩
  intro settled
  have ended : none ∈ b.observed := settled.resolve_left nofun
  have same : b.dropReceiver.stream = b.stream := by simp [Incoming.stream, Incoming.dropReceiver, (h.ends.empty ended).2.2.1]
  rw [same]
  exact h.settled (.inr ended)

/-! ### What becomes of the sender -/

theorem EndsLast.dropSender {b : Incoming} (ends : b.EndsLast) (tx : b.txAlive = true) : b.dropSender.EndsLast :=
  ends.of_sender tx rfl

theorem Open.finish {b : Incoming} {r : Received} (h : b.Open r []) (eof : r.eof = true) : b.dropSender.Closed r := by
  refine ⟨h.ends.dropSender h.tx, rfl, rfl, fun settled => .inl ⟨eof, ?_⟩⟩
  have alive : b.rxAlive = true := settled.resolve_right (h.ends.unended h.tx)
  exact (List.append_nil _).symm.trans (h.stream alive)

theorem Open.unread {b : Incoming} {r : Received} {inflight : List Frame} (h : b.Open r inflight)
    (dead : b.rxAlive = false) (r' : Received) : b.dropSender.Closed r' := by
  refine ⟨h.ends.dropSender h.tx, rfl, rfl, ?_⟩
  intro settled
  rcases settled with alive | ended
  · exact absurd (dead.symm.trans alive) nofun
  · exact absurd ended (h.ends.unended h.tx)

theorem Open.abort {b : Incoming} {r : Received} {inflight : List Frame} (h : b.Open r inflight) (err : Error) :
    (b.sendError err).dropSender.Closed r := by
  by_cases alive : b.rxAlive = true
  · have sent : b.sendError err = { b with items := b.items ++ [.error err] } := by simp [sendError, alive]
    rw [sent]
    refine ⟨h.ends.of_sender h.tx rfl, rfl, rfl, fun _ => .inr ⟨err, ?_⟩⟩
    simp [Incoming.stream, dropSender, Except.map]
  · have dead : b.rxAlive = false := by simpa using alive
    have same : b.sendError err = b := by simp [sendError, dead]
    rw [same]
    exact h.unread dead r

/-- A chunk is sent by a sender that has a slot: it is on its way, or nobody is there. -/
theorem Open.sendData {b : Incoming} {r : Received} {chunk : Bytes} (h : b.Open r [.data chunk]) (slot : b.parked = false) :
    (b.sendData chunk).1 = true ∧ (b.sendData chunk).2.Open r [] ∨
      (b.sendData chunk).1 = false ∧ (b.sendData chunk).2.dropSender.Closed r := by
  obtain ⟨none, there⟩ := h.trailers.resolve_left nofun
  unfold Incoming.sendData
  by_cases alive : b.rxAlive = true
  · rw [if_neg (by simp [alive, slot])]
    refine .inl ⟨rfl, h.ends.of_sender h.tx rfl, h.tx, ?_, .inr ⟨none, there⟩, nofun⟩
    intro _
    rw [← h.stream alive]
    simp [Incoming.stream, none, Except.map]
  · have dead : b.rxAlive = false := by simpa using alive
    rw [if_pos (by simp [dead])]
    exact .inr ⟨rfl, h.unread dead r⟩

/-- The trailers are sent by a sender that still has their slot. -/
theorem Open.sendTrailers {b : Incoming} {r : Received} {t : HeaderMap} (h : b.Open r [.trailers t]) :
    (b.sendTrailers t).1 = true ∧ (b.sendTrailers t).2.Open r [] ∨
      (b.sendTrailers t).1 = false ∧ (b.sendTrailers t).2.dropSender.Closed r := by
  obtain ⟨none, there⟩ := h.trailers.resolve_left nofun
  unfold Incoming.sendTrailers
  rw [if_neg (by simp [there])]
  by_cases alive : b.rxAlive = true
  · rw [if_neg (by simp [alive])]
    refine .inl ⟨rfl, h.ends.of_sender h.tx rfl, h.tx, ?_, .inl ⟨rfl, h.last t (.head _)⟩, nofun⟩
    intro _
    rw [← h.stream alive]
    simp [Incoming.stream, none]
  · have dead : b.rxAlive = false := by simpa using alive
    rw [if_pos (by simp [dead])]
    exact .inr ⟨rfl, h.unread dead r⟩

/-! ### What the user sees in the end -/

theorem mem_observed_pollFrame {b : Incoming} {res : Option (Except Error Frame)} (seen : res ∈ b.observed) :
    res ∈ b.pollFrame.observed := by
  obtain ⟨_, _, -, -, -, observed⟩ | ⟨_, -, -, -, -, -, observed⟩ | ⟨-, -, -, -, -, -, -, observed⟩ | ⟨-, -, -, observed⟩ :=
    b.pollFrame_cases
  · exact observed ▸ List.mem_append_left _ seen
  · exact observed ▸ List.mem_append_left _ seen
  · exact observed ▸ List.mem_append_left _ seen
  · exact observed ▸ seen

theorem polls_end {n : Nat} {b : Incoming} (alive : b.rxAlive = true) (tx : b.txAlive = false)
    (trailersTx : b.trailersTx = false) (enough : b.items.length + b.trailers.toList.length < n) :
    none ∈ (Incoming.pollFrame^[n] b).observed := by
  induction n generalizing b with
  | zero => omega
  | succ n ih =>
    rw [Function.iterate_succ_apply]
    obtain ⟨tx', alive', trailersTx', -⟩ := b.pollFrame_same
    have later (fewer : b.pollFrame.items.length + b.pollFrame.trailers.toList.length < n) :
        none ∈ (Incoming.pollFrame^[n] b.pollFrame).observed :=
      ih (alive'.trans alive) (tx'.trans tx) (trailersTx'.trans trailersTx) fewer
    obtain ⟨_, rest, items, items', trailers', -⟩ | ⟨t, items, -, trailers, items', trailers', -⟩ |
      ⟨-, -, -, -, -, -, -, observed⟩ | ⟨waits, -⟩ := b.pollFrame_cases
    · rw [items, List.length_cons] at enough
      exact later (by rw [items', trailers']; omega)
    · rw [items, trailers] at enough
      exact later (by simpa [items', trailers'] using enough)
    · have ended : none ∈ b.pollFrame.observed := by simp [observed]
      exact Function.Iterate.rec (fun b : Incoming => none ∈ b.observed) ended (fun _ => mem_observed_pollFrame) n
    · exact absurd (trailersTx.symm.trans ((waits alive).2 tx).2) nofun

/-- With the sender gone, a user that polls on gets to the end of the stream. -/
theorem drained_end {b : Incoming} (alive : b.rxAlive = true) (tx : b.txAlive = false) (trailersTx : b.trailersTx = false) :
    none ∈ b.drained.observed := by
  refine polls_end alive tx trailersTx ?_
  have : b.trailers.toList.length ≤ 1 := by cases b.trailers <;> simp
  omega

theorem ended_of_endsCleanly {observed : List (Option (Except Error Frame))} (clean : endsCleanly observed = true) :
    none ∈ observed := by
  fun_induction endsCleanly observed with
  | case1 frame rest ih => exact .tail _ (ih clean)
  | case2 | case4 => cases clean
  | case3 => exact .head _

theorem framesSeen_clean (frames : List Frame) (rest : List (Option (Except Error Frame))) :
    endsCleanly (frames.map (some <| .ok ·) ++ none :: rest) = true ∧
      framesSeen (frames.map (some <| .ok ·) ++ none :: rest) = frames := by
  induction frames with
  | nil => exact ⟨rfl, rfl⟩
  | cons frame frames ih => exact ⟨ih.1, congrArg (frame :: ·) ih.2⟩

theorem not_endsCleanly_of_error {seen : List (Except Error Frame)} {err : Error} (member : .error err ∈ seen)
    (rest : List (Option (Except Error Frame))) : endsCleanly (seen.map some ++ rest) = false := by
  induction seen with
  | nil => cases member
  | cons res seen ih =>
    cases res with
    | error => rfl
    | ok frame => exact ih (by simpa using member)

/-- What the user has seen, once the stream of a body without a sender has ended. -/
theorem Closed.observed {b : Incoming} {r : Received} (h : b.Closed r) (ended : none ∈ b.observed) :
    (r.eof = true ∧ endsCleanly b.observed = true ∧ framesSeen b.observed = shown r.frames) ∨
      (endsCleanly b.observed = false ∧ sawError b.observed = true) := by
  obtain ⟨-, -, items, trailers⟩ := h.ends.empty ended
  obtain ⟨seen, n, order⟩ := h.ends.order
  have whole : b.stream = seen := by simp [Incoming.stream, items, trailers, order, List.filterMap_map]
  obtain ⟨eof, all⟩ | ⟨err, member⟩ := h.settled (.inr ended)
  · obtain ⟨m, rfl⟩ : ∃ m, n = m + 1 := by
      refine Nat.exists_eq_succ_of_ne_zero fun zero => ?_
      simp [order, zero] at ended
    have clean := framesSeen_clean (shown r.frames) (List.replicate m none)
    rw [whole] at all
    rw [order, all, List.map_map, List.replicate_succ]
    exact .inl ⟨eof, clean⟩
  · rw [whole] at member
    rw [order]
    refine .inr ⟨not_endsCleanly_of_error member _, ?_⟩
    exact List.any_eq_true.mpr ⟨some (.error err), by simp [member], rfl⟩

end Incoming

end Hwire.Body
