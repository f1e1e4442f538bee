import Alpaka.Host.EventInvariant

/-! # Event completion is sound

An event that is ready stands for work that is done, and a queue that waits for
an event starts nothing before the enqueue it waits for has completed
(`Alpaka.Host.event_sound`). Each step of a thread and of a worker keeps the
invariant, with the knowledge that the agent brings along.
-/

namespace Alpaka.Host

open CallbackThread Math.Interleaving

variable {Queue Ev Thread : Type*} {host next : Host Queue Ev Thread} {agent : Agent Queue Thread}

/-! ## Every step -/

/-- What a step of an agent establishes. -/
structure Takes (agent : Agent Queue Thread) (host next : Host Queue Ev Thread) : Prop where
  consistent : next.Consistent
  respects : Respects agent host next
  knows : next.Knows agent

/-- A thread that has changed queues and events goes on to a point that it has the
knowledge for. -/
theorem Takes.thread [DecidableEq Thread] {thread : Thread} {changed : Host Queue Ev Thread}
    {point : ThreadPoint Queue Ev} (consistent : changed.Consistent)
    (respects : Respects (.thread thread) host changed)
    (knows : changed.ThreadKnows thread point) :
    Takes (.thread thread) host (changed.setThread thread point) where
  consistent := consistent.setThread point
  respects := respects.trans (respects_setThread point)
  knows := by
    change (changed.setThread thread point).ThreadKnows thread
      (Function.update changed.threads thread point thread)
    rw [Function.update_self]
    exact knows

/-- A thread that waits for a mutex gets it. -/
theorem Takes.lock [DecidableEq Ev] [DecidableEq Thread] {thread : Thread} {name : Ev}
    {point : ThreadPoint Queue Ev}
    (consistent : host.Consistent)
    (locked : (host.lock name (.thread thread)).map (setThread thread point) = some next)
    (knows : ∀ changed : Host Queue Ev Thread,
      (changed.events name).mutex = some (.thread thread) →
        changed.Latest name (changed.events name) → changed.ThreadKnows thread point) :
    Takes (.thread thread) host next := by
  obtain ⟨changed, acquired, same⟩ := Option.map_eq_some_iff.mp locked
  obtain ⟨kept, respects, held, latest⟩ := consistent.lock acquired
  rw [← same]
  exact .thread kept respects (knows changed held latest)

private theorem threadStep_takes [DecidableEq Queue] [DecidableEq Ev] [DecidableEq Thread]
    {thread : Thread} (consistent : host.Consistent)
    (knows : host.Knows (.thread thread)) (taken : host.threadStep thread = some next) :
    Takes (.thread thread) host next := by
  change host.ThreadKnows thread (host.threads thread) at knows
  unfold threadStep at taken
  cases point : host.threads thread with
  | idle =>
      rw [point] at taken
      cases taken
  | submitHostFn queue =>
      rw [point] at taken
      cases taken
      refine .thread (consistent.submit queue .hostFn fun _ _ impossible => ?_)
        (respects_submit queue .hostFn fun _ _ impossible => ?_) trivial
      · cases impossible
      · cases impossible
  | enqueueLock queue name =>
      rw [point] at taken
      exact .lock consistent taken fun _ held latest => ⟨held, latest⟩
  | enqueueCount queue name =>
      rw [point] at taken knows
      cases taken
      obtain ⟨held, -⟩ := knows
      refine .thread (consistent.setEvent (Nat.le_succ _) (List.Subset.refl _)
        (fun _ old => .inl old) (consistent.ready name) fun free => ?_)
        (respects_setEvent (.inr held) (List.Subset.refl _)) ?_
      · rw [held] at free
        cases free
      · simp only [ThreadKnows, events_setEvent, if_true]
        refine ⟨held, trivial, Nat.succ_le_succ (Nat.zero_le _), fun future found => ?_⟩
        have bound := (consistent.counted future name _ found).2
        exact absurd bound (Nat.not_succ_le_self _)
  | enqueueSubmit queue name enqueueCount =>
      rw [point] at taken knows
      cases taken
      obtain ⟨held, same, positive, fresh⟩ := knows
      refine .thread (consistent.submit queue _ fun other number new => ?_)
        (respects_submit queue _ fun other number new => ?_) ?_
      · cases new
        exact ⟨positive, same, fresh⟩
      · cases new
        exact held
      · subst same
        refine ⟨held, ?_⟩
        unfold CompletionAt
        rw [queues_setQueue, if_pos rfl]
        exact getElem?_submit_self _
  | enqueueFuture name future =>
      rw [point] at taken knows
      cases taken
      obtain ⟨held, found⟩ := knows
      obtain ⟨event, named⟩ : ∃ event, event = { host.events name with future := .ofTask future } :=
        ⟨_, rfl⟩
      have latest : host.Latest name event := fun _ => ⟨future, by rw [named], named ▸ found⟩
      have changed : (host.setEvent name event).Consistent :=
        consistent.setEvent (by rw [named]) (by rw [named]; exact List.Subset.refl _)
          (fun _ old => .inl (by rwa [named] at old)) (by rw [named]; exact consistent.ready name)
          fun _ => latest
      have respects : Respects (.thread thread) host (host.setEvent name event) :=
        respects_setEvent (.inr held) (by rw [named]; exact List.Subset.refl _)
      have same : (host.setEvent name event).events name = event := by
        rw [events_setEvent, if_pos rfl]
      have heldStill : ((host.setEvent name event).events name).mutex = some (.thread thread) := by
        rw [same, named]
        exact held
      obtain ⟨released, frees⟩ := changed.unlock heldStill (same.symm ▸ latest)
      rw [← named]
      exact .thread released (respects.trans frees) trivial
  | waitForLock queue name =>
      rw [point] at taken
      exact .lock consistent taken fun _ held latest => ⟨held, latest⟩
  | waitForCheck queue name =>
      rw [point] at taken knows
      obtain ⟨held, latest⟩ := knows
      obtain ⟨released, respects⟩ := consistent.unlock held latest
      have several : (host.events name).lastReadyEnqueueCount ≤
          (host.events name).enqueueCount := consistent.ready_le name
      dsimp only at taken
      split at taken
      case isTrue pending =>
        cases taken
        refine .thread released respects ?_
        apply latest
        simp only [Event.isReady, decide_eq_true_eq] at pending
        omega
      case isFalse ready =>
        cases taken
        simp only [Event.isReady, decide_eq_true_eq, not_not] at ready
        refine .thread (released.setBarrier ?_) (respects.trans respects_setBarrier) trivial
        obtain zero | done := consistent.ready name
        · exact .inl (ready ▸ zero)
        · exact .inr (.inl (respects.signalled name (ready ▸ done)))
  | waitForSubmit queue name oldFuture latest =>
      rw [point] at taken knows
      cases taken
      obtain ⟨future, same, found⟩ := knows
      have submitted := consistent.submit queue (.wait name oldFuture)
        (fun _ _ impossible => by cases impossible)
      have respects : Respects (.thread thread) host _ :=
        respects_submit queue (.wait name oldFuture)
          (fun _ _ impossible => by cases impossible)
      refine .thread (submitted.setBarrier ?_) (respects.trans respects_setBarrier) trivial
      refine .inr (.inr ⟨(host.queues queue).submitted.length, ?_, future, ?_,
        respects.completionAt found⟩)
      · rw [queues_setQueue, if_pos rfl]
        simp only [submit, List.length_append, List.length_singleton]
        exact Nat.lt_succ_self _
      · rw [queues_setQueue, if_pos rfl, ← same]
        exact getElem?_submit_self _
  | waitLock name =>
      rw [point] at taken
      exact .lock consistent taken fun _ held latest => ⟨held, latest⟩
  | waitRead name =>
      rw [point] at taken knows
      cases taken
      exact .thread consistent (.refl _ _) knows
  | waitCheck name enqueueCount =>
      rw [point] at taken knows
      obtain ⟨held, latest⟩ := knows
      obtain ⟨released, respects⟩ := consistent.unlock held latest
      dsimp only at taken
      split at taken
      case isTrue =>
        cases taken
        exact .thread released respects trivial
      case isFalse =>
        cases taken
        exact .thread released respects trivial
  | waitGet name enqueueCount future =>
      rw [point] at taken
      obtain ⟨outcome, -, same⟩ := Option.map_eq_some_iff.mp taken
      rw [← same]
      exact .thread consistent (.refl _ _) trivial
  | waitRelock name enqueueCount =>
      rw [point] at taken
      exact .lock consistent taken fun _ held latest => ⟨held, latest⟩

/-- Knowledge about events does not depend on what becomes of the queues. -/
theorem Respects.taskKnows (respects : Respects agent host next)
    (same : next.events = host.events) {queue : Queue} {task : QueueTask Queue Ev}
    {point : TaskPoint} (knows : host.TaskKnows queue task point) :
    next.TaskKnows queue task point := by
  have latest (name : Ev) (known : host.Latest name (host.events name)) :
      next.Latest name (next.events name) := by
    intro several
    rw [same] at several ⊢
    obtain ⟨future, set, found⟩ := known several
    exact ⟨future, set, respects.completionAt found⟩
  cases task with
  | hostFn | wait => trivial
  | completion name enqueueCount =>
      cases point with
      | begin => trivial
      | locked => exact ⟨same ▸ knows.1, latest name knows.2⟩
      | signalled => exact ⟨same ▸ knows.1, latest name knows.2.1, same ▸ knows.2.2⟩
      | unlocked =>
          simp only [TaskKnows, same]
          exact knows

/-- The worker of a queue that goes on from what it has done to queues and events. -/
theorem Takes.worker [DecidableEq Queue] {queue : Queue} {changed : Host Queue Ev Thread}
    {package : TaskPackage (QueueTask Queue Ev)} {point next : TaskPoint}
    (consistent : changed.Consistent) (respects : Respects (.worker queue) host changed)
    (working : (changed.queues queue).worker = .running package point)
    (knows : changed.TaskKnows queue package.task next) :
    Takes (.worker queue) host
      (changed.setQueue queue ((changed.queues queue).moveTo package next)) := by
  have moved :
      (changed.setQueue queue ((changed.queues queue).moveTo package next)).Consistent := by
    obtain ⟨done, inOrder⟩ := consistent.ordered queue
    exact consistent.setQueue (inOrder.moveTo working next) (moveTo_extends package next) rfl
      fun _ old => .inl old
  have kept : Respects (.worker queue) changed
      (changed.setQueue queue ((changed.queues queue).moveTo package next)) :=
    respects_setQueue (moveTo_extends package next) (fun _ _ _ found => .inl found) (.inl rfl)
  refine ⟨moved, respects.trans kept, fun other point' running => ?_⟩
  rw [queues_setQueue, if_pos rfl] at running
  cases running
  exact kept.taskKnows rfl knows

theorem Takes.finish [DecidableEq Queue] {queue : Queue}
    {package : TaskPackage (QueueTask Queue Ev)} {point : TaskPoint} (outcome : Outcome)
    (consistent : host.Consistent)
    (working : (host.queues queue).worker = .running package point)
    (completed : ∀ name enqueueCount, package.task = .completion name enqueueCount →
      enqueueCount ∈ (host.events name).signalled)
    (waited : ∀ name future, package.task = .wait name (.ofTask future) →
      future.promise ∈ (host.queues future.queue).finished) :
    Takes (.worker queue) host
      (host.setQueue queue ((host.queues queue).finish package outcome)) := by
  have ran : ((host.queues queue).finish package outcome).Ordered := by
    obtain ⟨done, inOrder⟩ := consistent.ordered queue
    exact inOrder.finish working outcome
  have task := ((consistent.ordered queue).running working).1
  refine ⟨consistent.setQueue ran (finish_extends package outcome) rfl fun promise member => ?_,
    respects_setQueue (finish_extends package outcome) (fun _ _ _ found => .inl found) (.inl rfl),
    fun other point' running => ?_⟩
  · obtain old | new := List.mem_append.mp member
    · exact .inl old
    · refine .inr ⟨fun name enqueueCount found => ?_, fun name future found => ?_⟩
      · rw [List.mem_singleton.mp new, task] at found
        exact completed name enqueueCount (Option.some.inj found)
      · rw [List.mem_singleton.mp new, task] at found
        exact waited name future (Option.some.inj found)
  · rw [queues_setQueue, if_pos rfl] at running
    cases running

private theorem taskStep_takes [DecidableEq Queue] [DecidableEq Ev] {queue : Queue}
    {package : TaskPackage (QueueTask Queue Ev)}
    {point : TaskPoint} {outcome : Outcome} (consistent : host.Consistent)
    (working : (host.queues queue).worker = .running package point)
    (knows : host.TaskKnows queue package.task point)
    (taken : host.taskStep queue package point outcome = some next) :
    Takes (.worker queue) host next := by
  unfold taskStep at taken
  cases task : package.task with
  | hostFn =>
      simp only [task, Option.some.injEq] at taken
      rw [← taken]
      exact .finish outcome consistent working (fun _ _ other => nomatch task.symm.trans other)
        fun _ _ other => nomatch task.symm.trans other
  | wait name future =>
      simp only [task] at taken
      obtain ⟨result, ready, same⟩ := Option.map_eq_some_iff.mp taken
      rw [← same]
      refine .finish result consistent working (fun _ _ other => nomatch task.symm.trans other)
        fun name awaited other => ?_
      cases task.symm.trans other
      exact (consistent.ordered _).finished_of_fulfilled (Option.isSome_of_eq_some ready)
  | completion name enqueueCount =>
      rw [task] at knows
      cases point with
      | begin =>
          simp only [task] at taken
          obtain ⟨changed, acquired, same⟩ := Option.map_eq_some_iff.mp taken
          obtain ⟨kept, respects, held, latest⟩ := consistent.lock acquired
          have queues : changed.queues = host.queues := by
            unfold Host.lock at acquired
            split at acquired
            case isTrue =>
              cases acquired
              rfl
            case isFalse => cases acquired
          rw [← same, ← queues]
          refine .worker kept respects (queues ▸ working) ?_
          rw [task]
          exact ⟨held, latest⟩
      | locked =>
          simp only [task, Option.some.injEq] at taken
          obtain ⟨held, latest⟩ := knows
          have submitted := ((consistent.ordered queue).running working).1
          rw [task] at submitted
          have before : host.FinishedBefore ⟨queue, package.promise⟩ := fun promise earlier =>
            (consistent.ordered queue).finished_of_started earlier
              ((consistent.ordered queue).running working).2.1
          have completes : ∃ future, host.CompletionAt future name enqueueCount ∧
              host.FinishedBefore future := ⟨⟨queue, package.promise⟩, submitted, before⟩
          have changed := consistent.complete completes
          have signalled := signalled_complete enqueueCount (host.events name)
          have respects : Respects (.worker queue) host
              (host.setEvent name ((host.events name).complete enqueueCount)) :=
            respects_setEvent (.inr held) (signalled ▸ List.subset_append_left _ _)
          rw [← taken]
          refine .worker changed respects working ?_
          rw [task]
          simp only [TaskKnows, events_setEvent, if_true]
          obtain ⟨mutex, future, count⟩ := unchanged_complete enqueueCount (host.events name)
          refine ⟨mutex.trans held, fun several => ?_, ?_⟩
          · rw [count] at several ⊢
            rw [future]
            exact latest several
          · rw [signalled]
            exact List.mem_append_right _ (List.mem_singleton_self _)
      | signalled =>
          simp only [task, Option.some.injEq] at taken
          obtain ⟨held, latest, done⟩ := knows
          obtain ⟨released, respects⟩ := consistent.unlock held latest
          rw [← taken]
          refine .worker released respects working ?_
          rw [task]
          exact respects.signalled name done
      | unlocked =>
          simp only [task, Option.some.injEq] at taken
          rw [← taken]
          refine .finish .value consistent working (fun _ _ other => ?_)
            fun _ _ other => nomatch task.symm.trans other
          cases task.symm.trans other
          exact knows

private theorem workerStep_takes [DecidableEq Queue] [DecidableEq Ev] {queue : Queue}
    {outcome : Outcome} (consistent : host.Consistent)
    (knows : host.Knows (.worker queue)) (taken : host.workerStep queue outcome = some next) :
    Takes (.worker queue) host next := by
  unfold workerStep at taken
  split at taken
  case h_1 package point working =>
    exact taskStep_takes consistent working (knows package point working) taken
  case h_2 =>
    obtain ⟨worker, advanced, same⟩ := Option.map_eq_some_iff.mp taken
    obtain ⟨history, submitted, finished, begins⟩ := advance_history advanced
    obtain ⟨done, inOrder⟩ := consistent.ordered queue
    rw [← same]
    refine ⟨consistent.setQueue (inOrder.advance advanced) history submitted
      fun _ old => .inl (finished ▸ old), respects_setQueue history
      (fun _ _ _ found => .inl (submitted ▸ found)) (.inl rfl), fun package point running => ?_⟩
    rw [queues_setQueue, if_pos rfl] at running
    cases begins package point running
    cases package.task with
    | hostFn | wait | completion => trivial

private theorem consistent_initial : ({} : Host Queue Ev Thread).Consistent where
  ordered := fun _ => ordered_initial
  counted := fun _ _ _ found => nomatch found
  unique := fun _ _ _ _ found => nomatch found
  signalled := fun _ _ member => nomatch member
  returned := fun _ _ _ found => nomatch found
  waited := fun _ _ _ _ found => nomatch found
  ready := fun _ => .inl rfl
  latest := fun _ _ several => nomatch several
  guarded := fun _ member => nomatch member

variable [DecidableEq Queue] [DecidableEq Ev] [DecidableEq Thread]

private theorem step_takes {action : HostAction Queue Ev Thread} (consistent : host.Consistent)
    (knows : ∀ agent, host.Knows agent) (taken : host.step action = some next) :
    Takes action.agent host next := by
  cases action with
  | call thread call =>
      unfold step at taken
      dsimp only at taken
      split at taken
      case isFalse => cases taken
      case isTrue =>
        cases taken
        refine .thread consistent (.refl _ _) ?_
        cases call with
        | enqueueHostFn | enqueue | waitFor | wait => trivial
  | thread thread => exact threadStep_takes consistent (knows (.thread thread)) taken
  | worker queue outcome => exact workerStep_takes consistent (knows (.worker queue)) taken

/-- No step disturbs what the queues, the events and the other agents rely on. -/
theorem undisturbed : Undisturbed (step : Host Queue Ev Thread → _) HostAction.agent Consistent
    Knows where
  shared := fun _ _ _ consistent knows taken => (step_takes consistent knows taken).consistent
  own := fun _ _ _ consistent knows taken => (step_takes consistent knows taken).knows
  others := fun _ _ _ consistent knows taken other different =>
    (step_takes consistent knows taken).respects.knows different (knows other)

/-- The queues and events are consistent in every reachable state. -/
theorem consistent_reachable (reachable : Reachable step {} host) : host.Consistent := by
  refine (undisturbed.reachable reachable consistent_initial fun agent => ?_).1
  cases agent with
  | thread thread => trivial
  | worker queue => exact fun _ _ running => nomatch running

/-- An enqueue has completed: its completion task has been through its critical
section, and every task submitted before it to its queue has finished running. -/
def Completed (host : Host Queue Ev Thread) (name : Ev) (enqueueCount : ℕ) : Prop :=
  enqueueCount ∈ (host.events name).signalled ∧
    ∃ future, host.CompletionAt future name enqueueCount ∧ host.FinishedBefore future

/-- **Events are sound.** In every reachable state, an event that was enqueued and is
ready has one latest enqueue, and every task submitted before it to its queue has
finished running. A task submitted after a queue was told to wait for an event is
only started once the enqueue that was the latest then has completed. -/
theorem event_sound (reachable : Reachable step {} host) :
    (∀ name, (host.events name).isReady → 1 ≤ (host.events name).enqueueCount →
      ∃ future, host.CompletionAt future name (host.events name).enqueueCount ∧
        host.FinishedBefore future ∧
          ∀ other, host.CompletionAt other name (host.events name).enqueueCount →
            other = future) ∧
    ∀ barrier ∈ host.barriers, 1 ≤ barrier.latest →
      ∀ promise ∈ (host.queues barrier.queue).started, barrier.position ≤ promise →
        host.Completed barrier.event barrier.latest := by
  have consistent := consistent_reachable reachable
  refine ⟨fun name ready several => ?_, fun barrier member several promise started later => ?_⟩
  · simp only [Event.isReady, decide_eq_true_eq] at ready
    rw [← ready] at several ⊢
    obtain zero | done := consistent.ready name
    · omega
    · obtain ⟨future, found, before⟩ := consistent.signalled name _ done
      exact ⟨future, found, before, fun other same => consistent.unique _ _ _ _ same found⟩
  · have signalled : barrier.latest ∈ (host.events barrier.event).signalled := by
      obtain zero | done | ⟨waiting, earlier, future, submitted, found⟩ :=
        consistent.guarded barrier member
      · omega
      · exact done
      · -- The waiting task has returned, so the future it waits for is fulfilled.
        have returned := (consistent.ordered barrier.queue).finished_of_started
          (earlier.trans_le later) started
        exact consistent.returned future _ _ found
          (consistent.waited _ _ _ future submitted returned)
    exact ⟨signalled, consistent.signalled _ _ signalled⟩

/-- A queue that waits for an event of another queue, both of them run to the end. -/
private def twoQueues : List (HostAction Bool Unit Unit) :=
  [.call () (.enqueueHostFn false), .thread ()] ++
  .call () (.enqueue false ()) :: List.replicate 4 (.thread ()) ++
  .call () (.waitFor true ()) :: List.replicate 3 (.thread ()) ++
  [.call () (.enqueueHostFn true), .thread ()] ++
  List.replicate 15 (.worker false .value) ++ List.replicate 8 (.worker true .value)

private theorem twoQueues_runs : (run step {} twoQueues).isSome := by decide

theorem event_sound_twoQueues : ∃ host : Host Bool Unit Unit,
    (host.events ()).isReady ∧ 1 ∈ (host.queues true).started ∧
      (∃ future, host.CompletionAt future () 1 ∧ host.FinishedBefore future) ∧
        host.Completed () 1 := by
  have reachable : Reachable step {} ((run step {} twoQueues).get twoQueues_runs) :=
    ⟨twoQueues, (Option.some_get twoQueues_runs).symm⟩
  obtain ⟨ready, waits⟩ := event_sound reachable
  obtain ⟨future, found, before, -⟩ := ready () (by decide) (by decide)
  exact ⟨_, by decide, by decide, ⟨future, found, before⟩,
    waits ⟨true, (), 1, 1⟩ (by decide) (by decide) 1 (by decide) (by decide)⟩

end Alpaka.Host
