import Hwire.Http2.Outcome

/-!
# Requests that the client task leaves behind

When the task has returned, every request that it was given has been answered, has a future of its own or goes back to
its caller. A request whose stream was still to be opened is none of these if the connection fails at that moment.
-/

namespace Hwire.Http2
open Lib Dispatch Channel

namespace ClientTask

/-- The answer of a callback that is dropped, which the caller takes for an error of its own. -/
def Gone (res : Outcome Request Response) : Prop :=
  ∃ panicking, res = .error { error := dispatchGone panicking, message := none }

/-- In the course of a run, a future was spawned that waits for the response. -/
def Handed (t : ClientTask) (actions : List Action) (id : Nat) : Prop :=
  ∃ earlier, earlier <+: actions ∧ id ∈ (t.run earlier).sendTasks.map SendWhen.cb

/-- An answer that was sent, and not by dropping the callback. -/
def Answered (t : ClientTask) (id : Nat) : Prop := ∃ res, (id, res) ∈ t.chan.results ∧ ¬ Gone res

/-- The request is in the queue, and is returned as canceled when the task is dropped. -/
def Returned (t : ClientTask) (id : Nat) : Prop :=
  ∃ req, (id, req) ∈ t.chan.queue ∧ envelopeDropped (id, req) ∈ t.drop.chan.results

/-- What callers rely on when a task that has returned is dropped. -/
structure Told (handed : Nat → Prop) (t : ClientTask) : Prop where
  explained : ∀ id < t.chan.accepted, id ∉ t.chan.canceled → t.Answered id ∨ handed id ∨ t.Returned id
  notGone : ∀ id res, (id, res) ∈ t.drop.chan.results → Gone res → id ∈ t.chan.canceled ∨ handed id

/-! ### Where the requests are -/

theorem not_gone {error : Error} (explicit : error.kind ≠ .user .dispatchGone) :
    ¬ Gone (.error { error, message := none }) := by
  rintro ⟨panicking, same⟩
  cases same
  exact explicit rfl

theorem not_gone_returned (env : Nat × Request) : ¬ Gone (envelopeDropped (U := Response) env).2 := by
  rintro ⟨panicking, same⟩
  cases same

theorem Answered.of_append {t t' : ClientTask} {id : Nat} (h : t.Answered id)
    (results : t.chan.results <+: t'.chan.results) : t'.Answered id := by
  obtain ⟨res, sent, explicit⟩ := h
  exact ⟨res, results.subset sent, explicit⟩

/-- Every request is canceled, answered, handed to a future, in the queue or stashed. -/
def Accounted (handed : Nat → Prop) (t : ClientTask) : Prop :=
  ∀ id < t.chan.accepted, id ∈ t.chan.canceled ∨ t.Answered id ∨ handed id ∨ id ∈ t.chan.queue.map Prod.fst ∨
    id ∈ t.futCtx.toList.map FutCtx.cb

variable {handed : Nat → Prop}

theorem Accounted.frame {t t' : ClientTask} (h : Accounted handed t) (accepted : t'.chan.accepted = t.chan.accepted)
    (canceled : t.chan.canceled ⊆ t'.chan.canceled) (results : t.chan.results <+: t'.chan.results)
    (queue : t'.chan.queue = t.chan.queue) (stash : t'.futCtx = t.futCtx) : Accounted handed t' := by
  intro id bound
  rw [accepted] at bound
  rw [queue, stash]
  obtain gone | told | spawned | place := h id bound
  · exact .inl (canceled gone)
  · exact .inr (.inl (told.of_append results))
  · exact .inr (.inr (.inl spawned))
  · exact .inr (.inr (.inr place))

/-- A request that was taken from the queue has a place again. -/
theorem Taken.accounted {t t' : ClientTask} {id : Nat} {req : Request} (taken : t.Taken id req t')
    (spawned : ∀ i ∈ t'.sendTasks.map SendWhen.cb, handed i)
    (others : ∀ i < t.chan.accepted, i ≠ id → i ∈ t.chan.canceled ∨ t.Answered i ∨ handed i ∨ i ∈ t.chan.queue.map Prod.fst) :
    Accounted handed t' := by
  intro i bound
  by_cases same : i = id
  · subst same
    cases taken with
    | canceled canceled => exact .inl (List.contains_iff_mem.mp canceled)
    | refused explicit => exact .inr (.inl ⟨_, List.mem_append_right _ (List.mem_singleton.mpr rfl), not_gone explicit⟩)
    | stashed cb => exact .inr (.inr (.inr (.inr (List.mem_singleton.mpr cb.symm))))
    | spawned => exact .inr (.inr (.inl (spawned _ List.mem_cons_self)))
  · have bound' : i < t.chan.accepted := by
      cases taken with
      | canceled | refused | stashed | spawned => exact bound
    obtain gone | told | spawned' | queued := others i bound' same
    · refine .inl ?_
      cases taken with
      | canceled | refused | stashed | spawned => exact gone
    · refine .inr (.inl ?_)
      cases taken with
      | canceled | refused => exact told.of_append (List.prefix_append _ _)
      | stashed | spawned => exact told
    · exact .inr (.inr (.inl spawned'))
    · refine .inr (.inr (.inr (.inl ?_)))
      cases taken with
      | canceled | refused | stashed | spawned => exact queued

theorem Stepped.accounted {t t' : ClientTask} (stepped : t.Stepped t') (h : Accounted handed t)
    (spawned : ∀ i ∈ t'.sendTasks.map SendWhen.cb, handed i) : Accounted handed t' := by
  cases stepped with
  | ended | notReady | failed | quiet => exact h
  | @resumed readies f running stash =>
    intro i bound
    obtain gone | told | spawned' | queued | stashed := h i bound
    · exact .inl gone
    · exact .inr (.inl told)
    · exact .inr (.inr (.inl spawned'))
    · exact .inr (.inr (.inr (.inl queued)))
    · rw [stash] at stashed
      obtain rfl := List.mem_singleton.mp stashed
      exact .inr (.inr (.inl (spawned f.cb List.mem_cons_self)))
  | received running free front taken =>
    refine taken.accounted spawned ?_
    intro i bound other
    obtain gone | told | spawned' | queued | stashed := h i bound
    · exact .inl gone
    · exact .inr (.inl told)
    · exact .inr (.inr (.inl spawned'))
    · rw [front, List.map_cons] at queued
      exact .inr (.inr (.inr ((List.mem_cons.mp queued).resolve_left other)))
    · rw [free] at stashed
      cases stashed

theorem act_accounted {t : ClientTask} {a : Action} (h : Accounted handed t) (going : (t.act a).phase ≠ .gone)
    (spawned : ∀ i ∈ (t.act a).sendTasks.map SendWhen.cb, handed i) : Accounted handed (t.act a) := by
  cases a with
  | step => exact t.step_stepped.accounted h spawned
  | drop => exact absurd rfl going
  | pollSend i res =>
    rw [act, pollSend]
    split
    · exact h
    split
    · exact h.frame rfl (List.Subset.refl _) (List.prefix_append _ _) rfl rfl
    · split
      · exact h.frame rfl (List.Subset.refl _) (List.prefix_append _ _) rfl rfl
      · exact h
  | dropSend i =>
    rw [act, dropSend]
    split
    · exact h
    · exact h.frame rfl (List.Subset.refl _) (List.prefix_append _ _) rfl rfl
  | trySend req =>
    rw [act, trySend]
    split
    · exact h
    unfold send
    split
    · exact h
    · intro i bound
      dsimp only at bound
      obtain older | rfl := Nat.lt_succ_iff_lt_or_eq.mp bound
      · obtain gone | told | spawned' | queued | stashed := h i older
        · exact .inl gone
        · exact .inr (.inl told)
        · exact .inr (.inr (.inl spawned'))
        · refine .inr (.inr (.inr (.inl ?_)))
          rw [List.map_append]
          exact List.mem_append_left _ queued
        · exact .inr (.inr (.inr (.inr stashed)))
      · refine .inr (.inr (.inr (.inl ?_)))
        rw [List.map_append]
        exact List.mem_append_right _ List.mem_cons_self
  | cloneSender =>
    rw [act, cloneSender]
    split
    · exact h
    · exact h.frame rfl (List.Subset.refl _) (List.prefix_refl _) rfl rfl
  | dropSender =>
    rw [act, Channel.dropSender]
    split
    · exact h
    · exact h.frame rfl (List.Subset.refl _) (List.prefix_refl _) rfl rfl
  | cancel id => exact h.frame rfl (List.subset_cons_self _ _) (List.prefix_refl _) rfl rfl
  | connEof | keepAliveTimedOut => exact h

/-! ### Runs -/

theorem run_append (t : ClientTask) (actions later : List Action) : t.run (actions ++ later) = (t.run actions).run later :=
  List.foldl_append

theorem run_concat (t : ClientTask) (actions : List Action) (a : Action) : t.run (actions ++ [a]) = (t.run actions).act a :=
  t.run_append actions [a]

/-- A task that is gone stays so. -/
theorem act_gone {t : ClientTask} (gone : t.phase = .gone) (a : Action) : (t.act a).phase = .gone := by
  cases a with
  | step =>
    rw [act, step, gone]
    exact gone
  | drop => rfl
  | pollSend i res =>
    rw [act, pollSend]
    split
    · exact gone
    split
    · exact gone
    · split
      · exact gone
      · exact gone
  | dropSend i =>
    rw [act, dropSend]
    split
    · exact gone
    · exact gone
  | trySend | cloneSender | dropSender | cancel | connEof | keepAliveTimedOut => exact gone

/-- Until the task is dropped, every request has its place. -/
theorem run_accounted {t : ClientTask} (fresh : t.chan.accepted = 0) (actions : List Action)
    (going : (t.run actions).phase ≠ .gone)
    (spawned : ∀ earlier, earlier <+: actions → ∀ i ∈ (t.run earlier).sendTasks.map SendWhen.cb, handed i) :
    Accounted handed (t.run actions) := by
  induction actions using List.reverseRecOn with
  | nil =>
    intro i bound
    change i < t.chan.accepted at bound
    omega
  | append_singleton actions a ih =>
    have all := spawned _ (List.prefix_refl _)
    rw [run_concat] at going all ⊢
    have before : (t.run actions).phase ≠ .gone := fun gone => going (act_gone gone a)
    have earlier := ih before fun earlier part => spawned earlier (part.trans (List.prefix_append _ _))
    exact act_accounted earlier going all

/-- A request with a future of its own keeps it until it is answered. -/
def Given (t : ClientTask) (id : Nat) : Prop := id ∈ t.sendTasks.map SendWhen.cb ∨ id ∈ t.chan.results.map Prod.fst

theorem Given.frame {t t' : ClientTask} {id : Nat} (h : t.Given id) (tasks : t.sendTasks ⊆ t'.sendTasks)
    (results : t.chan.results <+: t'.chan.results) : t'.Given id := by
  obtain waits | answered := h
  · exact .inl (List.map_subset _ tasks waits)
  · exact .inr ((results.map Prod.fst).subset answered)

theorem Given.settle {t : ClientTask} {id i : Nat} {task : SendWhen} (h : t.Given id) (there : t.sendTasks[i]? = some task)
    (res : Outcome Request Response) :
    Given { t with sendTasks := t.sendTasks.eraseIdx i, chan := t.chan.answer task.cb res } id := by
  obtain ⟨bound, rfl⟩ := List.getElem?_eq_some_iff.mp there
  have tasks : (t.sendTasks[i] :: t.sendTasks.eraseIdx i).Perm t.sendTasks := List.getElem_cons_eraseIdx_perm bound
  show _ ∨ id ∈ (t.chan.results ++ [(t.sendTasks[i].cb, res)]).map Prod.fst
  rw [List.map_append]
  obtain waits | answered := h
  · rw [← (tasks.map SendWhen.cb).mem_iff, List.map_cons] at waits
    obtain rfl | waits := List.mem_cons.mp waits
    · exact .inr (List.mem_append_right _ List.mem_cons_self)
    · exact .inl waits
  · exact .inr (List.mem_append_left _ answered)

theorem Taken.given {t t' : ClientTask} {id i : Nat} {req : Request} (taken : t.Taken i req t') (h : t.Given id) : t'.Given id := by
  cases taken with
  | canceled | refused => exact h.frame (List.Subset.refl _) (List.prefix_append _ _)
  | stashed => exact h
  | spawned => exact h.frame (List.subset_cons_self _ _) (List.prefix_refl _)

theorem Stepped.given {t t' : ClientTask} {id : Nat} (stepped : t.Stepped t') (h : t.Given id) : t'.Given id := by
  cases stepped with
  | ended | notReady | failed | quiet => exact h
  | resumed => exact h.frame (List.subset_cons_self _ _) (List.prefix_refl _)
  | received _ _ _ taken => exact taken.given h

theorem drop_results (t : ClientTask) : t.chan.results <+: t.drop.chan.results := by
  unfold drop
  split
  · exact (List.prefix_append _ _).trans (List.prefix_append _ _)
  · exact List.prefix_append _ _

theorem drop_sendTasks (t : ClientTask) : t.drop.sendTasks = t.sendTasks := by
  unfold drop
  split
  · rfl
  · rfl

theorem act_given {t : ClientTask} {id : Nat} (h : t.Given id) (a : Action) : (t.act a).Given id := by
  cases a with
  | step => exact t.step_stepped.given h
  | drop => exact h.frame (t.drop_sendTasks ▸ List.Subset.refl _) t.drop_results
  | pollSend i res =>
    rw [act, pollSend]
    split
    · exact h
    next task there =>
    split
    · exact h.settle there _
    · split
      · exact h.settle there _
      · exact h
  | dropSend i =>
    rw [act, dropSend]
    split
    · exact h
    · next task there => exact h.settle there _
  | trySend req =>
    rw [act, trySend]
    split
    · exact h
    unfold send
    split
    · exact h
    · exact h
  | cloneSender =>
    rw [act, cloneSender]
    split
    · exact h
    · exact h
  | dropSender =>
    rw [act, Channel.dropSender]
    split
    · exact h
    · exact h
  | cancel | connEof | keepAliveTimedOut => exact h

theorem run_given {t : ClientTask} {id : Nat} (h : t.Given id) (actions : List Action) : (t.run actions).Given id := by
  induction actions generalizing t with
  | nil => exact h
  | cons a rest ih => exact ih (act_given h a)

theorem Handed.given {t : ClientTask} {actions : List Action} {id : Nat} (h : t.Handed actions id) :
    (t.run actions).Given id := by
  obtain ⟨earlier, ⟨later, rfl⟩, waits⟩ := h
  rw [run_append]
  exact run_given (.inl waits) later

/-! ### The task that has returned -/

/-- The answers once the task is dropped: those that were sent, that of a stashed request, and the queue. -/
theorem mem_drop_results {t : ClientTask} {id : Nat} {res : Outcome Request Response} :
    (id, res) ∈ t.drop.chan.results ↔ (id, res) ∈ t.chan.results ∨
      (∃ f, t.futCtx = some f ∧ (id, res) = (f.cb, .error { error := dispatchGone false, message := none })) ∨
      ∃ env ∈ t.chan.queue, (id, res) = envelopeDropped env := by
  unfold drop
  cases stash : t.futCtx with
  | none => simp [dropReceiver, close, eq_comm]
  | some f => simp [dropReceiver, close, dropCallback, answer, eq_comm]

theorem returned_of_queued {t : ClientTask} {id : Nat} (queued : id ∈ t.chan.queue.map Prod.fst) : t.Returned id := by
  obtain ⟨⟨i, req⟩, there, rfl⟩ := List.mem_map.mp queued
  exact ⟨req, there, mem_drop_results.mpr (.inr (.inr ⟨(i, req), there, rfl⟩))⟩

/-- A stashed request is nowhere else. -/
theorem stash_alone {t : ClientTask} {f : FutCtx} (balanced : t.ledger.Balanced HandsBack) (stash : t.futCtx = some f) :
    f.cb < t.chan.accepted ∧ f.cb ∉ t.chan.queue.map Prod.fst ∧ ¬ t.Given f.cb := by
  have tickets : t.ledger.tickets.Perm (f.cb :: (t.chan.queue.map Prod.fst ++
      (t.sendTasks.map SendWhen.cb ++ t.chan.results.map Prod.fst))) := by
    rw [Ledger.tickets, ledger, held, stash, List.append_assoc]
    exact List.perm_middle
  have once := tickets.nodup_iff.mp balanced.nodup
  obtain ⟨alone, -⟩ := List.nodup_cons.mp once
  refine ⟨?_, ?_, ?_⟩
  · apply List.mem_range.mp
    exact balanced.once.mem_iff.mp (tickets.mem_iff.mpr List.mem_cons_self)
  · exact fun queued => alone (List.mem_append_left _ queued)
  · rintro (waits | answered)
    · exact alone (List.mem_append_right _ (List.mem_append_left _ waits))
    · exact alone (List.mem_append_right _ (List.mem_append_right _ answered))

/-- The step in which the task returns leaves the stash as it is. -/
theorem Stepped.stash {t t' : ClientTask} (stepped : t.Stepped t') (running : t.phase = .running) {res : Except Error Unit}
    (returned : t'.phase = .finished res) : t'.futCtx = t.futCtx := by
  cases stepped with
  | ended | notReady | failed | quiet => rfl
  | resumed =>
    rw [running] at returned
    cases returned
  | received _ _ _ taken =>
    rw [taken.phase, running] at returned
    cases returned

theorem act_finished {t : ClientTask} {res : Except Error Unit} (finished : t.phase = .finished res) {a : Action}
    (kept : a ≠ .drop) : (t.act a).phase = .finished res ∧ (t.act a).futCtx = t.futCtx := by
  cases a with
  | step =>
    rw [act, step, finished]
    exact ⟨finished, rfl⟩
  | drop => exact absurd rfl kept
  | pollSend i res =>
    rw [act, pollSend]
    split
    · exact ⟨finished, rfl⟩
    split
    · exact ⟨finished, rfl⟩
    · split
      · exact ⟨finished, rfl⟩
      · exact ⟨finished, rfl⟩
  | dropSend i =>
    rw [act, dropSend]
    split
    · exact ⟨finished, rfl⟩
    · exact ⟨finished, rfl⟩
  | trySend | cloneSender | dropSender | cancel | connEof | keepAliveTimedOut => exact ⟨finished, rfl⟩

theorem run_finished {t : ClientTask} {res : Except Error Unit} (finished : t.phase = .finished res)
    {actions : List Action} (kept : .drop ∉ actions) :
    (t.run actions).phase = .finished res ∧ (t.run actions).futCtx = t.futCtx := by
  induction actions generalizing t with
  | nil => exact ⟨finished, rfl⟩
  | cons a rest ih =>
    rw [List.mem_cons, not_or] at kept
    obtain ⟨still, stash⟩ := act_finished finished (Ne.symm kept.1)
    obtain ⟨last, same⟩ := ih still kept.2
    exact ⟨last, same.trans stash⟩

/-- For a task that has returned, everything is as callers rely on exactly where no request that waits is stashed. -/
theorem told_iff {t : ClientTask} {actions : List Action} (balanced : (t.run actions).ledger.Balanced HandsBack)
    (accounted : Accounted (t.Handed actions) (t.run actions)) :
    Told (t.Handed actions) (t.run actions) ↔
      ∀ f, (t.run actions).futCtx = some f → f.cb ∈ (t.run actions).chan.canceled := by
  constructor
  · intro told f stash
    obtain ⟨bound, unqueued, alone⟩ := stash_alone balanced stash
    by_contra waits
    obtain ⟨res, answered, -⟩ | spawned | ⟨req, queued, -⟩ := told.explained f.cb bound waits
    · exact alone (.inr (List.mem_map_of_mem answered))
    · exact alone spawned.given
    · exact unqueued (List.mem_map_of_mem queued)
  · intro free
    have explained : ∀ id < (t.run actions).chan.accepted, id ∉ (t.run actions).chan.canceled →
        (t.run actions).Answered id ∨ t.Handed actions id ∨ (t.run actions).Returned id := by
      intro id bound waits
      obtain canceled | answered | spawned | queued | stashed := accounted id bound
      · exact absurd canceled waits
      · exact .inl answered
      · exact .inr (.inl spawned)
      · exact .inr (.inr (returned_of_queued queued))
      · obtain ⟨f, there, rfl⟩ := List.mem_map.mp stashed
        exact absurd (free f (Option.mem_toList.mp there)) waits
    refine ⟨explained, ?_⟩
    intro id res sent gone
    by_contra fair
    rw [not_or] at fair
    obtain ⟨waits, unspawned⟩ := fair
    have after := ((t.run actions).drop_moves).balanced balanced
    obtain before | ⟨f, stash, same⟩ | ⟨env, queued, same⟩ := mem_drop_results.mp sent
    · have bound : id < (t.run actions).chan.accepted :=
        (oneOutcome_of_balanced balanced).accepted id (List.mem_map_of_mem before)
      obtain ⟨res', answered, explicit⟩ | spawned | ⟨req, queued, returned⟩ := explained id bound waits
      · exact explicit (balanced.settled_once before answered ▸ gone)
      · exact unspawned spawned
      · rw [after.settled_once sent returned] at gone
        exact not_gone_returned (id, req) gone
    · cases same
      exact waits (free f stash)
    · cases same
      exact not_gone_returned env gone

/-- The task returns in a step and is dropped later. Every request that was not canceled is answered, has a future of its own
or is returned, and none is told that the task is gone, exactly where the step has not found a request in the stash that
still waits when the task is dropped. -/
theorem run_told_iff (readies : List (Poll (Except H2Error Unit))) (sends : List (Except H2Error Unit))
    (before later : List Action) {res : Except Error Unit} (running : (run { readies, sends } before).phase = .running)
    (returned : (run { readies, sends } before).step.phase = .finished res) (kept : Action.drop ∉ later) :
    let t := run { readies, sends } (before ++ .step :: later)
    Told (Handed { readies, sends } (before ++ .step :: later)) t ↔
      ∀ f, (run { readies, sends } before).futCtx = some f → f.cb ∈ t.chan.canceled := by
  intro t
  have split : t = ((run { readies, sends } before).step).run later := run_append _ before (.step :: later)
  obtain ⟨finished, stash⟩ := run_finished returned kept
  rw [← split] at finished stash
  have before_stash := (step_stepped _).stash running returned
  have going : t.phase ≠ .gone := by
    rw [finished]
    intro same
    cases same
  rw [told_iff ((run_moves _ _).balanced .empty) (run_accounted rfl _ going ?_)]
  · rw [← before_stash, ← stash]
  · intro earlier part i waits
    exact ⟨earlier, part, waits⟩

/-! ### Two runs -/

def sampleRequest : Request := { head := { version := .http2, subject := ⟨.get, []⟩, headers := .empty } }

def brokenPipe : H2Error := { text := "broken pipe" }

/-- One request gets a future, one is refused, and one is in the queue when the connection fails. -/
theorem run_told_sample :
    Told (Handed { readies := [.ready (.ok ()), .ready (.ok ()), .ready (.ok ()), .ready (.error brokenPipe)]
                   sends := [.ok (), .error brokenPipe] }
        [.trySend sampleRequest, .trySend sampleRequest, .trySend sampleRequest, .step, .step, .step])
      (run { readies := [.ready (.ok ()), .ready (.ok ()), .ready (.ok ()), .ready (.error brokenPipe)]
             sends := [.ok (), .error brokenPipe] }
        [.trySend sampleRequest, .trySend sampleRequest, .trySend sampleRequest, .step, .step, .step]) := by
  have free : (run { readies := [.ready (.ok ()), .ready (.ok ()), .ready (.ok ()), .ready (.error brokenPipe)]
                     sends := [.ok (), .error brokenPipe] }
      [.trySend sampleRequest, .trySend sampleRequest, .trySend sampleRequest, .step, .step]).futCtx = none := rfl
  refine (run_told_iff _ _ [.trySend sampleRequest, .trySend sampleRequest, .trySend sampleRequest, .step, .step] []
    rfl rfl List.not_mem_nil).mpr ?_
  intro f stash
  rw [free] at stash
  cases stash

/-- The connection fails while the stream of a request is still to be opened. Its caller, who waits, is told that the
task is gone. -/
theorem run_gone_stashed :
    (run { readies := [.ready (.ok ()), .pending, .ready (.error brokenPipe)] }
        [.trySend sampleRequest, .step, .step]).phase = .finished (.error (newH2 brokenPipe)) ∧
      (run { readies := [.ready (.ok ()), .pending, .ready (.error brokenPipe)] }
        [.trySend sampleRequest, .step, .step]).drop.chan.results =
          [(0, .error { error := dispatchGone false, message := none })] ∧
      ¬ Told (Handed { readies := [.ready (.ok ()), .pending, .ready (.error brokenPipe)] }
          [.trySend sampleRequest, .step, .step])
        (run { readies := [.ready (.ok ()), .pending, .ready (.error brokenPipe)] }
          [.trySend sampleRequest, .step, .step]) := by
  refine ⟨rfl, rfl, ?_⟩
  intro told
  obtain ⟨res, answered, -⟩ | spawned | ⟨req, queued, -⟩ := told.explained 0 Nat.zero_lt_one List.not_mem_nil
  · exact List.not_mem_nil answered
  · have balanced := (run_moves { readies := [.ready (.ok ()), .pending, .ready (.error brokenPipe)] }
      [.trySend sampleRequest, .step, .step]).balanced .empty
    obtain ⟨-, -, alone⟩ := stash_alone (f := ⟨false, true, 0⟩) balanced rfl
    exact alone spawned.given
  · exact List.not_mem_nil queued

end ClientTask

end Hwire.Http2
