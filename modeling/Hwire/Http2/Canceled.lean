import Hwire.Http2.Moves

/-!
# Canceled streams

A caller that gives up has its stream reset while the body is still being sent. No stream is reset twice, wherever the
resets come from, and `PipeMap` resets none whose caller has waited for the response.
-/

namespace Hwire.Http2
open Lib Dispatch Channel

namespace ClientTask

variable {t : ClientTask} (balanced : t.ledger.Balanced HandsBack)
include balanced

/-- Two futures never wait for the same stream. -/
theorem sending_alone {i : Nat} {task : SendWhen} (there : t.sendTasks[i]? = some task) {other : SendWhen}
    (member : other ∈ t.sendTasks.eraseIdx i) : other.cb ≠ task.cb := by
  obtain ⟨bound, rfl⟩ := List.getElem?_eq_some_iff.mp there
  have nodup := balanced.nodup
  simp only [Ledger.tickets, Channel.ledger, ClientTask.ledger, held, ← List.append_assoc] at nodup
  obtain ⟨unsettled, -, -⟩ := List.nodup_append.mp nodup
  obtain ⟨-, once, -⟩ := List.nodup_append.mp unsettled
  have tasks : t.sendTasks.Perm (t.sendTasks[i] :: t.sendTasks.eraseIdx i) := (List.getElem_cons_eraseIdx_perm bound).symm
  intro same
  have apart := (List.nodup_cons.mp ((tasks.map SendWhen.cb).nodup_iff.mp once)).1
  exact apart (same ▸ List.mem_map_of_mem member)

/-- A request that is still waiting for its stream is with no future and has no result. -/
theorem waiting_fresh {id : Nat} (waits : id ∈ t.chan.queue.map Prod.fst ++ t.futCtx.toList.map FutCtx.cb) :
    ¬ t.Launched id := by
  have nodup := balanced.nodup
  simp only [Ledger.tickets, Channel.ledger, ClientTask.ledger, held, ← List.append_assoc] at nodup
  obtain ⟨unsettled, -, disjoint⟩ := List.nodup_append.mp nodup
  obtain ⟨-, -, apart⟩ := List.nodup_append.mp unsettled
  rintro (sending | settled)
  · exact apart id waits id sending rfl
  · exact disjoint id (List.mem_append_left _ waits) id settled rfl

theorem settled_once {id : Nat} {res res' : Outcome Request Response} (one : (id, res) ∈ t.chan.results)
    (other : (id, res') ∈ t.chan.results) : res = res' := balanced.settled_once one other

omit balanced in
theorem drop_alone (t : ClientTask) : t.drop.sendTasks = t.sendTasks ∧ t.chan.results ⊆ t.drop.chan.results ∧
    t.drop.chan.canceled = t.chan.canceled := by
  unfold drop
  split
  · refine ⟨rfl, ?_, rfl⟩
    exact List.Subset.trans (List.subset_append_left _ _) (List.subset_append_left _ _)
  · exact ⟨rfl, List.subset_append_left _ _, rfl⟩

end ClientTask

namespace Connection

/-- What holds of resets and of those that may lead to one. A `CONNECT` has no pipe, and whoever has one has not been
reset yet. -/
structure Cancels (c : Connection) : Prop where
  gone : ∀ id ∈ c.cancelled, c.task.chan.isCanceled id = true ∧ (id, goneOutcome) ∈ c.task.chan.results
  pipes : (c.pipes.map PipeMap.cb).Nodup
  launched : ∀ pipe ∈ c.pipes, c.task.Launched pipe.cb
  deaf : ∀ pipe ∈ c.pipes, pipe.cancelRx = false →
    pipe.cb ∉ c.cancelled ∧ pipe.cb ∉ c.task.sendTasks.map SendWhen.cb
  connects : ∀ task ∈ c.task.sendTasks, task.isConnect = true →
    task.cb ∉ c.pipes.map PipeMap.cb ∧ task.cb ∉ c.resets.map Prod.fst
  resets : ∀ id ∈ c.resets.map Prod.fst, c.task.Launched id ∧ id ∉ c.pipes.map PipeMap.cb
  canceled : ∀ id reset, (id, reset) ∈ c.resets → reset.site = .pipeMap → reset.reason = "CANCEL" ∧ id ∈ c.cancelled
  once : (c.resets.map Prod.fst).Nodup

/-- Futures may be done and pipes may end. -/
theorem Cancels.fewer {c c' : Connection} (h : c.Cancels) (sendTasks : c'.task.sendTasks ⊆ c.task.sendTasks)
    (launched : ∀ id, c.task.Launched id → c'.task.Launched id)
    (results : c.task.chan.results ⊆ c'.task.chan.results)
    (canceled : c.task.chan.canceled ⊆ c'.task.chan.canceled) (pipes : c'.pipes.Sublist c.pipes)
    (cancelled : c'.cancelled = c.cancelled) (resets : c'.resets = c.resets) : c'.Cancels := by
  have fewer {id : Nat} (member : id ∈ c'.pipes.map PipeMap.cb) : id ∈ c.pipes.map PipeMap.cb := (pipes.map _).subset member
  refine ⟨?_, h.pipes.sublist (pipes.map _), ?_, ?_, ?_, ?_, ?_, ?_⟩
  · intro id member
    obtain ⟨given, gone⟩ := h.gone id (cancelled ▸ member)
    exact ⟨List.contains_iff_mem.mpr (canceled (List.contains_iff_mem.mp given)), results gone⟩
  · intro pipe member
    exact launched _ (h.launched pipe (pipes.subset member))
  · intro pipe member deaf
    obtain ⟨kept, done⟩ := h.deaf pipe (pipes.subset member) deaf
    exact ⟨cancelled ▸ kept, fun sending => done (List.map_subset _ sendTasks sending)⟩
  · intro task member connects
    obtain ⟨unpiped, unreset⟩ := h.connects task (sendTasks member) connects
    exact ⟨fun piped => unpiped (fewer piped), resets ▸ unreset⟩
  · intro id reset
    obtain ⟨before, ended⟩ := h.resets id (resets ▸ reset)
    exact ⟨launched id before, fun piped => ended (fewer piped)⟩
  · intro id reset member site
    obtain ⟨reason, given⟩ := h.canceled id reset (resets ▸ member) site
    exact ⟨reason, cancelled ▸ given⟩
  · rw [resets]
    exact h.once

/-- Recorders, bodies and the connection task are nothing to it. -/
theorem Cancels.aside {c c' : Connection} (h : c.Cancels) (task : c'.task = c.task) (pipes : c'.pipes = c.pipes)
    (cancelled : c'.cancelled = c.cancelled) (resets : c'.resets = c.resets) : c'.Cancels := by
  refine h.fewer ?_ ?_ ?_ ?_ ?_ cancelled resets
  · rw [task]
    exact List.Subset.refl _
  · intro id launched
    rw [task]
    exact launched
  · rw [task]
    exact List.Subset.refl _
  · rw [task]
    exact List.Subset.refl _
  · rw [pipes]

theorem Cancels.reset {c : Connection} (h : c.Cancels) {id : Nat} {reset : Reset} (launched : c.task.Launched id)
    (fresh : id ∉ c.resets.map Prod.fst) (ended : id ∉ c.pipes.map PipeMap.cb)
    (other : ∀ task ∈ c.task.sendTasks, task.isConnect = true → task.cb ≠ id)
    (canceled : reset.site = .pipeMap → reset.reason = "CANCEL" ∧ id ∈ c.cancelled) :
    Cancels { c with resets := c.resets ++ [(id, reset)] } := by
  have names : (c.resets ++ [(id, reset)]).map Prod.fst = c.resets.map Prod.fst ++ [id] := by
    rw [List.map_append, List.map_singleton]
  refine ⟨h.gone, h.pipes, h.launched, h.deaf, ?_, ?_, ?_, ?_⟩
  · intro task member connects
    obtain ⟨unpiped, unreset⟩ := h.connects task member connects
    refine ⟨unpiped, ?_⟩
    show task.cb ∉ (c.resets ++ [(id, reset)]).map Prod.fst
    rw [names, List.mem_append, List.mem_singleton, not_or]
    exact ⟨unreset, other task member connects⟩
  · intro id' member
    have member : id' ∈ c.resets.map Prod.fst ++ [id] := names ▸ member
    rcases List.mem_append.mp member with old | new
    · exact h.resets id' old
    · obtain rfl := List.mem_singleton.mp new
      exact ⟨launched, ended⟩
  · intro id' reset' member site
    rcases List.mem_append.mp member with old | new
    · exact h.canceled id' reset' old site
    · cases List.mem_singleton.mp new
      exact canceled site
  · rw [names]
    refine List.nodup_append.mpr ⟨h.once, List.nodup_singleton _, ?_⟩
    intro old member new single same
    obtain rfl := List.mem_singleton.mp single
    exact fresh (same ▸ member)

theorem Cancels.give {c : Connection} (h : c.Cancels) {id : Nat} (given : c.task.chan.isCanceled id = true)
    (gone : (id, goneOutcome) ∈ c.task.chan.results)
    (hears : ∀ pipe ∈ c.pipes, pipe.cancelRx = false → pipe.cb ≠ id) : Cancels { c with cancelled := id :: c.cancelled } := by
  refine ⟨?_, h.pipes, h.launched, ?_, h.connects, h.resets, ?_, h.once⟩
  · intro id' member
    rcases List.mem_cons.mp member with rfl | old
    · exact ⟨given, gone⟩
    · exact h.gone id' old
  · intro pipe member deaf
    obtain ⟨kept, done⟩ := h.deaf pipe member deaf
    exact ⟨List.not_mem_cons_of_ne_of_not_mem (hears pipe member deaf) kept, done⟩
  · intro id' reset member site
    obtain ⟨reason, canceled⟩ := h.canceled id' reset member site
    exact ⟨reason, List.mem_cons_of_mem _ canceled⟩

/-! ### Futures that are done -/

theorem settle_fewer (c : Connection) (i cb : Nat) (res : Outcome Request Response) :
    (c.settle i cb res).task.sendTasks ⊆ c.task.sendTasks := (List.eraseIdx_sublist _ i).subset

theorem settle_results (c : Connection) (i cb : Nat) (res : Outcome Request Response) :
    c.task.chan.results ⊆ (c.settle i cb res).task.chan.results := List.subset_append_left _ _

theorem settle_settles (c : Connection) (i cb : Nat) (res : Outcome Request Response) :
    (cb, res) ∈ (c.settle i cb res).task.chan.results := List.mem_append_right _ (List.mem_singleton_self _)

theorem settle_launched {c : Connection} {i : Nat} {task : SendWhen} (there : c.task.sendTasks[i]? = some task)
    (res : Outcome Request Response) {id : Nat} (launched : c.task.Launched id) :
    (c.settle i task.cb res).task.Launched id := by
  rcases launched with sending | settled
  · obtain ⟨bound, rfl⟩ := List.getElem?_eq_some_iff.mp there
    have tasks : c.task.sendTasks.Perm (c.task.sendTasks[i] :: c.task.sendTasks.eraseIdx i) :=
      (List.getElem_cons_eraseIdx_perm bound).symm
    rcases List.mem_cons.mp ((tasks.map SendWhen.cb).mem_iff.mp sending) with rfl | still
    · exact .inr (List.mem_map_of_mem (c.settle_settles i _ res))
    · exact .inl still
  · exact .inr (List.map_subset _ (c.settle_results i task.cb res) settled)

theorem Cancels.settle {c : Connection} (h : c.Cancels) {i : Nat} {task : SendWhen}
    (there : c.task.sendTasks[i]? = some task) (res : Outcome Request Response) : (c.settle i task.cb res).Cancels :=
  h.fewer (c.settle_fewer i task.cb res) (fun _ => settle_launched there res) (c.settle_results i task.cb res)
    (List.Subset.refl _) (.refl _) rfl rfl

/-! ### Runs -/

theorem Cancels.spawn {c : Connection} (h : c.Cancels) (balanced : c.task.ledger.Balanced HandsBack) {t : ClientTask}
    {f : FutCtx} (spawns : c.task.Spawns f t) (polled : PipePolled) : ({ c with task := t }.pollPipe f polled).Cancels := by
  have fresh := ClientTask.waiting_fresh balanced spawns.waiting
  have longer := spawns.sendTasks
  obtain ⟨results, canceled⟩ := spawns.chan
  have launched (id : Nat) (before : c.task.Launched id) : t.Launched id := by
    unfold ClientTask.Launched
    rw [longer, results]
    exact before.imp_left (List.mem_cons_of_mem _)
  have first : t.Launched f.cb := by
    refine .inl ?_
    rw [longer]
    exact List.mem_cons_self ..
  have unpiped : f.cb ∉ c.pipes.map PipeMap.cb := by
    intro member
    obtain ⟨pipe, there, same⟩ := List.mem_map.mp member
    exact fresh (same ▸ h.launched pipe there)
  have unreset : f.cb ∉ c.resets.map Prod.fst := fun reset => fresh (h.resets _ reset).1
  have connecting {task : SendWhen} (member : task ∈ t.sendTasks) (other : f.isConnect = false)
      (connects : task.isConnect = true) : task.cb ≠ f.cb := by
    rw [longer] at member
    rcases List.mem_cons.mp member with rfl | old
    · exact absurd (other.symm.trans connects) Bool.false_ne_true
    · exact fun same => fresh (same ▸ .inl (List.mem_map_of_mem old))
  have spawned : Cancels { c with task := t } := by
    refine ⟨?_, h.pipes, fun pipe member => launched _ (h.launched pipe member), ?_, ?_, ?_, h.canceled, h.once⟩
    · intro id member
      unfold isCanceled
      rw [canceled, results]
      exact h.gone id member
    · intro pipe member deaf
      obtain ⟨kept, done⟩ := h.deaf pipe member deaf
      refine ⟨kept, ?_⟩
      rw [longer]
      refine List.not_mem_cons_of_ne_of_not_mem ?_ done
      exact fun same : pipe.cb = f.cb => unpiped (same ▸ List.mem_map_of_mem member)
    · intro task member connects
      rw [longer] at member
      rcases List.mem_cons.mp member with rfl | old
      · exact ⟨unpiped, unreset⟩
      · exact h.connects task old connects
    · exact fun id reset => (h.resets id reset).imp_left (launched id)
  obtain ⟨other, eq⟩ | eq | ⟨reason, other, eq⟩ := pollPipe_cases { c with task := t } f polled
  · rw [eq]
    refine ⟨spawned.gone, List.nodup_cons.mpr ⟨unpiped, h.pipes⟩, ?_, ?_, ?_, ?_, spawned.canceled, spawned.once⟩
    · intro pipe member
      rcases List.mem_cons.mp member with rfl | old
      · exact first
      · exact spawned.launched pipe old
    · intro pipe member deaf
      rcases List.mem_cons.mp member with rfl | old
      · cases deaf
      · exact spawned.deaf pipe old deaf
    · intro task member connects
      obtain ⟨ended, kept⟩ := spawned.connects task member connects
      exact ⟨List.not_mem_cons_of_ne_of_not_mem (connecting member other connects) ended, kept⟩
    · intro id reset
      obtain ⟨before, ended⟩ := spawned.resets id reset
      exact ⟨before, List.not_mem_cons_of_ne_of_not_mem (fun same : id = f.cb => unreset (same ▸ reset)) ended⟩
  · rw [eq]
    exact spawned.aside rfl rfl rfl rfl
  · rw [eq]
    have failed : Cancels { c with task := t, resets := c.resets ++ [(f.cb, ⟨.userErr, reason⟩)] } :=
      spawned.reset first unreset unpiped (fun task member connects => connecting member other connects) nofun
    exact failed.aside rfl rfl rfl rfl

theorem Cancels.pipeDeaf {c : Connection} (h : c.Cancels) {i : Nat} {pipe : PipeMap} (there : c.pipes[i]? = some pipe)
    (kept : pipe.cb ∉ c.cancelled) (done : pipe.cb ∉ c.task.sendTasks.map SendWhen.cb) :
    Cancels { c with pipes := c.pipes.set i { pipe with cancelRx := false } } := by
  have names : (c.pipes.set i { pipe with cancelRx := false }).map PipeMap.cb = c.pipes.map PipeMap.cb := by
    obtain ⟨bound, rfl⟩ := List.getElem?_eq_some_iff.mp there
    have named : i < (c.pipes.map PipeMap.cb).length := by rwa [List.length_map]
    have same : (c.pipes.map PipeMap.cb)[i] = c.pipes[i].cb := List.getElem_map ..
    rw [List.map_set]
    show (c.pipes.map PipeMap.cb).set i c.pipes[i].cb = _
    rw [← same, List.set_getElem_self]
  have member {other : PipeMap} (there : other ∈ c.pipes.set i { pipe with cancelRx := false }) :
      other ∈ c.pipes ∨ other = { pipe with cancelRx := false } := List.mem_or_eq_of_mem_set there
  refine ⟨h.gone, ?_, ?_, ?_, ?_, ?_, h.canceled, h.once⟩
  · show ((c.pipes.set i _).map PipeMap.cb).Nodup
    rw [names]
    exact h.pipes
  · intro other there'
    rcases member there' with old | rfl
    · exact h.launched other old
    · exact h.launched pipe (List.mem_of_getElem? there)
  · intro other there' deaf
    rcases member there' with old | rfl
    · exact h.deaf other old deaf
    · exact ⟨kept, done⟩
  · intro task there' connects
    show task.cb ∉ (c.pipes.set i _).map PipeMap.cb ∧ _
    rw [names]
    exact h.connects task there' connects
  · intro id reset
    show _ ∧ id ∉ (c.pipes.set i _).map PipeMap.cb
    rw [names]
    exact h.resets id reset

theorem Move.cancels {c c' : Connection} (move : c.Move c') (balanced : c.task.ledger.Balanced HandsBack)
    (h : c.Cancels) : c'.Cancels := by
  have same (id : Nat) (launched : c.task.Launched id) : c.task.Launched id := launched
  cases move with
  | @task t alone =>
    refine h.fewer ?_ ?_ alone.results alone.canceled (.refl _) rfl rfl
    · rw [alone.sendTasks]
      exact List.Subset.refl _
    · intro id launched
      unfold ClientTask.Launched
      rw [alone.sendTasks]
      exact launched.imp_right fun settled => List.map_subset _ alone.results settled
  | spawn spawns polled => exact h.spawn balanced spawns polled
  | drop =>
    obtain ⟨sendTasks, results, canceled⟩ := c.task.drop_alone
    refine h.fewer ?_ ?_ results ?_ (.refl _) rfl rfl
    · rw [task_dropRecorder, sendTasks]
      exact List.Subset.refl _
    · intro id launched
      rw [task_dropRecorder]
      unfold ClientTask.Launched
      rw [sendTasks]
      exact launched.imp_right fun settled => List.map_subset _ results settled
    · rw [task_dropRecorder, canceled]
      exact List.Subset.refl _
  | recorded | polled | bodyDropped => exact h.aside rfl rfl rfl rfl
  | connEnded =>
    exact h.fewer (List.Subset.refl _) same (List.Subset.refl _) (List.Subset.refl _) (.refl _) rfl rfl
  | settled there | responded there => exact (h.settle there _).aside rfl rfl rfl rfl
  | @refused i task res there connects =>
    have member := List.mem_of_getElem? there
    obtain ⟨unpiped, unreset⟩ := h.connects task member connects
    have told : Cancels { c.settle i task.cb res with
        resets := c.resets ++ [(task.cb, ⟨.connect, internalError.text⟩)] } := by
      refine (h.settle there res).reset (.inr (List.mem_map_of_mem (c.settle_settles i task.cb res))) unreset unpiped ?_ nofun
      intro other member _
      exact ClientTask.sending_alone balanced there member
    exact told.aside rfl rfl rfl rfl
  | @gaveUp i task there canceled =>
    have given := (h.settle there goneOutcome).give canceled (c.settle_settles _ _ _) ?_
    · exact given.aside rfl rfl rfl rfl
    · rintro pipe member deaf named
      have sends : task.cb ∈ c.task.sendTasks.map SendWhen.cb := List.mem_map_of_mem (List.mem_of_getElem? there)
      exact (h.deaf pipe member deaf).2 (named ▸ sends)
  | pipeEnded =>
    exact h.fewer (List.Subset.refl _) same (List.Subset.refl _) (List.Subset.refl _) (List.eraseIdx_sublist _ _) rfl rfl
  | @pipeReset i pipe reset there _ given =>
    have ended : (c.endPipe i).Cancels :=
      h.fewer (List.Subset.refl _) same (List.Subset.refl _) (List.Subset.refl _) (List.eraseIdx_sublist _ _) rfl rfl
    have member := List.mem_of_getElem? there
    refine ended.reset (h.launched pipe member) ?_ ?_ ?_ given
    · exact fun reset => (h.resets _ reset).2 (List.mem_map_of_mem member)
    · obtain ⟨bound, rfl⟩ := List.getElem?_eq_some_iff.mp there
      have pipes : c.pipes.Perm (c.pipes[i] :: c.pipes.eraseIdx i) := (List.getElem_cons_eraseIdx_perm bound).symm
      exact (List.nodup_cons.mp ((pipes.map PipeMap.cb).nodup_iff.mp h.pipes)).1
    · intro task sending connects named
      exact (h.connects task sending connects).1 (named ▸ List.mem_map_of_mem member)
  | pipeDeaf there kept done => exact h.pipeDeaf there kept done
  | @signaled conn =>
    unfold pollDropRx
    split
    · exact h.fewer (List.Subset.refl _) same (List.Subset.refl _) (List.Subset.refl _) (.refl _) rfl rfl
    · exact h

theorem handshake_cancels (config : Config) (now : Nat) (readies : List (Poll (Except H2Error Unit)))
    (sends : List (Except H2Error Unit)) : (handshake config now readies sends).Cancels :=
  ⟨by simp [handshake], .nil, by simp [handshake], by simp [handshake], by simp [handshake], by simp [handshake],
    by simp [handshake], .nil⟩

theorem Moves.cancels {c c' : Connection} (moves : c.Moves c') (balanced : c.task.ledger.Balanced HandsBack)
    (h : c.Cancels) : c'.task.ledger.Balanced HandsBack ∧ c'.Cancels := by
  induction moves with
  | refl => exact ⟨balanced, h⟩
  | tail _ move ih => exact ⟨move.balanced ih.1, move.cancels ih.1 ih.2⟩

theorem Move.cancelled {c c' : Connection} (move : c.Move c') : c.cancelled ⊆ c'.cancelled := by
  cases move with
  | gaveUp => exact List.subset_cons_self _ _
  | @spawn t f spawns polled =>
    obtain ⟨-, eq⟩ | eq | ⟨_, -, eq⟩ := pollPipe_cases { c with task := t } f polled
    · rw [eq]
      exact List.Subset.refl _
    · rw [eq]
      exact List.Subset.refl _
    · rw [eq]
      exact List.Subset.refl _
  | @signaled conn =>
    unfold pollDropRx
    split
    · exact List.Subset.refl _
    · exact List.Subset.refl _
  | _ => exact List.Subset.refl _

theorem Moves.cancelled {c c' : Connection} (moves : c.Moves c') : c.cancelled ⊆ c'.cancelled := by
  induction moves with
  | refl => exact List.Subset.refl _
  | tail _ move ih => exact List.Subset.trans ih move.cancelled

/-- A body is reset at its next poll once its caller has been found to be gone. -/
theorem Cancels.pollPipe {c : Connection} (h : c.Cancels) {j : Nat} {pipe : PipeMap} (there : c.pipes[j]? = some pipe)
    (given : pipe.cb ∈ c.cancelled) (polled : PipePolled) :
    (c.act (.pollPipe j polled)).resets = c.resets ++ [(pipe.cb, ⟨.pipeMap, "CANCEL"⟩)] ∧
      (c.act (.pollPipe j polled)).pipes = c.pipes.eraseIdx j := by
  have listens : pipe.cancelRx = true := by
    by_contra deaf
    exact (h.deaf pipe (List.mem_of_getElem? there) (Bool.not_eq_true _ ▸ deaf)).1 given
  have canceled : c.pollCancelRx pipe.cb = .ready (.ok ()) := if_pos given
  show (c.pollPipeMap j polled).resets = _ ∧ (c.pollPipeMap j polled).pipes = _
  unfold pollPipeMap
  rw [there]
  dsimp only
  rw [listens, if_pos rfl, canceled]
  exact ⟨rfl, rfl⟩

/-- In every run a stream is reset at most once, wherever that is done, and then its body is not sent any more. One that
`PipeMap` resets, with `CANCEL`, has a caller that has given up, and who gets no response; and once a poll of the response
has found that the caller has given up, the body of the request is never sent to its end, but reset at its next poll. -/
theorem run_cancels (config : Config) (now : Nat) (readies : List (Poll (Except H2Error Unit)))
    (sends : List (Except H2Error Unit)) (actions : List Action) :
    let c := (handshake config now readies sends).run actions
    (c.resets.map Prod.fst).Nodup ∧ (∀ id ∈ c.resets.map Prod.fst, id ∉ c.pipes.map PipeMap.cb) ∧
    (∀ id reset, (id, reset) ∈ c.resets → reset.site = .pipeMap → reset.reason = "CANCEL" ∧
      c.task.chan.isCanceled id = true ∧ ∀ res, (id, res) ∈ c.task.chan.results ↔ res = goneOutcome) ∧
    ∀ i task isEndStream answers others, c.task.sendTasks[i]? = some task → c.task.chan.isCanceled task.cb = true →
      let later := (c.act (.pollSend i .pending isEndStream answers)).run others
      ∀ j pipe polled, later.pipes[j]? = some pipe → pipe.cb = task.cb →
        (task.cb, ⟨.pipeMap, "CANCEL"⟩) ∈ (later.act (.pollPipe j polled)).resets ∧
          (later.act (.pollPipe j polled)).pipes = later.pipes.eraseIdx j := by
  intro c
  have start : (handshake config now readies sends).task.ledger.Balanced HandsBack := .empty
  obtain ⟨balanced, h⟩ := (run_moves _ actions).cancels start (handshake_cancels config now readies sends)
  refine ⟨h.once, fun id reset => (h.resets id reset).2, ?_, ?_⟩
  · intro id reset member site
    obtain ⟨reason, given⟩ := h.canceled id reset member site
    obtain ⟨canceled, gone⟩ := h.gone id given
    refine ⟨reason, canceled, ?_⟩
    intro res
    constructor
    · intro settled
      exact ClientTask.settled_once balanced settled gone
    · rintro rfl
      exact gone
  · intro i task isEndStream answers others there canceled later j pipe polled sending same
    have gaveUp : task.cb ∈ (c.act (.pollSend i .pending isEndStream answers)).cancelled := by
      show task.cb ∈ (c.pollSend i .pending isEndStream answers).cancelled
      unfold pollSend
      rw [there]
      dsimp only
      rw [if_pos canceled]
      exact List.mem_cons_self ..
    have moves : c.Moves later := .trans (c.act_moves _) (run_moves _ others)
    have given : task.cb ∈ later.cancelled := (run_moves _ others).cancelled gaveUp
    obtain ⟨-, h⟩ := moves.cancels balanced h
    obtain ⟨resets, pipes⟩ := h.pollPipe sending (same ▸ given) polled
    refine ⟨?_, pipes⟩
    rw [resets, same]
    exact List.mem_append_right _ (List.mem_singleton_self _)

def uploadRequest : Request :=
  { head := { version := .http2, subject := ⟨.post, []⟩, headers := .empty }, isEndStream := false }

def uploading : Connection :=
  (handshake (.new false 0 none 0 false) 0 [.ready (.ok ()), .ready (.ok ())] []).run
    [.trySend uploadRequest, .step .pending]

/-- The caller gives up during the upload, and the stream is reset. -/
example : (uploading.run [.cancel 0, .pollSend 0 .pending false {}, .pollPipe 0 .pending]).resets =
    [(0, ⟨.pipeMap, "CANCEL"⟩)] := rfl

/-- The body fails while the response is still waited for: that is no reset by `PipeMap`, whatever its reason. -/
example : (uploading.run [.pollPipe 0 (.failed { text := "closed", reason := some "CANCEL" })]).resets =
    [(0, ⟨.userErr, "CANCEL"⟩)] := rfl

/-- The response comes first, and the upload goes on. -/
example : (uploading.run [.pollSend 0 (.ready (.ok { version := .http2, subject := 200, headers := .empty })) false {},
    .cancel 0, .pollPipe 0 .pending]).resets = [] := rfl

end Connection

end Hwire.Http2
