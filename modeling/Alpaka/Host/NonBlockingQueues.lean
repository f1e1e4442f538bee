import Alpaka.Host.EventSound
import Alpaka.Host.MixedProgress

/-! # Non-blocking queues go on

Where only non-blocking queues are used, a worker that cannot go on waits for a task that was
submitted earlier, or for the mutex of an event that a thread holds for a moment; the worker
that destroys the last task with a reference to an event finds the event complete
(`Alpaka.MixedHost.nonBlocking_goes_on`).
-/

namespace Alpaka

namespace Host

open CallbackThread Math.Interleaving

variable {Queue Ev Thread : Type*} {host next : Host Queue Ev Thread}

/-! ## The latest enqueue completes -/

/-- What a step does to the counts of an event. -/
inductive Recounted (before after : Event Queue Thread) : Prop
  | same (count : after.enqueueCount = before.enqueueCount)
      (ready : after.lastReadyEnqueueCount = before.lastReadyEnqueueCount)
      (signalled : after.signalled = before.signalled)
  | enqueued (count : after.enqueueCount = before.enqueueCount + 1)
      (signalled : after.signalled = before.signalled)
  | completed (enqueueCount : ℕ) (changed : after = before.complete enqueueCount)

variable [DecidableEq Ev] {name : Ev} {event : Event Queue Thread}

private theorem recounted_setEvent (recounted : Recounted (host.events name) event) (other : Ev) :
    Recounted (host.events other) ((host.setEvent name event).events other) := by
  rw [events_setEvent]
  split
  case isTrue same => exact same ▸ recounted
  case isFalse => exact .same rfl rfl rfl

private theorem recounted_unlock (other : Ev) :
    Recounted (host.events other) ((host.unlock name).events other) := by
  refine recounted_setEvent ?_ other
  exact .same rfl rfl rfl

private theorem recounted_lock {agent : Agent Queue Thread}
    (locked : host.lock name agent = some next)
    (other : Ev) : Recounted (host.events other) (next.events other) := by
  unfold Host.lock at locked
  split at locked
  case isFalse => cases locked
  case isTrue =>
    cases locked
    refine recounted_setEvent ?_ other
    exact .same rfl rfl rfl

private theorem recounted_threadStep [DecidableEq Queue] [DecidableEq Thread] {thread : Thread}
    (taken : host.threadStep thread = some next) (other : Ev) :
    Recounted (host.events other) (next.events other) := by
  unfold threadStep at taken
  cases point : host.threads thread with
  | idle =>
      rw [point] at taken
      cases taken
  | submitHostFn | enqueueSubmit | waitForSubmit | waitRead =>
      rw [point] at taken
      cases taken
      exact .same rfl rfl rfl
  | enqueueLock | waitForLock | waitLock | waitRelock =>
      rw [point] at taken
      obtain ⟨locked, acquired, rfl⟩ := Option.map_eq_some_iff.mp taken
      exact recounted_lock acquired other
  | enqueueCount queue name =>
      rw [point] at taken
      cases taken
      refine recounted_setEvent ?_ other
      exact .enqueued rfl rfl
  | enqueueFuture name future =>
      rw [point] at taken
      cases taken
      rw [unlock_setEvent]
      refine recounted_setEvent ?_ other
      exact .same rfl rfl rfl
  | waitForCheck queue name =>
      rw [point] at taken
      dsimp only at taken
      split at taken
      · cases taken
        exact recounted_unlock other
      · cases taken
        exact recounted_unlock other
  | waitCheck name enqueueCount =>
      rw [point] at taken
      dsimp only at taken
      split at taken
      · cases taken
        exact recounted_unlock other
      · cases taken
        exact recounted_unlock other
  | waitGet name enqueueCount future =>
      rw [point] at taken
      obtain ⟨outcome, -, rfl⟩ := Option.map_eq_some_iff.mp taken
      exact .same rfl rfl rfl

private theorem recounted_workerStep [DecidableEq Queue] {queue : Queue} {outcome : Outcome}
    (taken : host.workerStep queue outcome = some next) (other : Ev) :
    Recounted (host.events other) (next.events other) := by
  unfold workerStep at taken
  split at taken
  case h_1 package point working =>
    unfold taskStep at taken
    rcases package with ⟨task, promise⟩
    cases task with
    | hostFn =>
        cases taken
        exact .same rfl rfl rfl
    | wait name future =>
        obtain ⟨result, -, rfl⟩ := Option.map_eq_some_iff.mp taken
        exact .same rfl rfl rfl
    | completion name enqueueCount =>
        cases point with
        | begin =>
            obtain ⟨locked, acquired, rfl⟩ := Option.map_eq_some_iff.mp taken
            exact recounted_lock acquired other
        | locked =>
            cases taken
            exact recounted_setEvent (.completed enqueueCount rfl) other
        | signalled =>
            cases taken
            exact recounted_unlock other
        | unlocked =>
            cases taken
            exact .same rfl rfl rfl
  case h_2 =>
    obtain ⟨worker, advanced, rfl⟩ := Option.map_eq_some_iff.mp taken
    exact .same rfl rfl rfl

/-- An event whose latest enqueue has completed is ready. -/
def LatestReady (host : Host Queue Ev Thread) : Prop :=
  ∀ name, (host.events name).enqueueCount ∈ (host.events name).signalled →
    (host.events name).lastReadyEnqueueCount = (host.events name).enqueueCount

omit [DecidableEq Ev] in
theorem LatestReady.step (latest : host.LatestReady) (consistent : host.Consistent)
    (recounted : ∀ name, Recounted (host.events name) (next.events name)) : next.LatestReady := by
  intro name member
  cases recounted name with
  | same count ready signalled =>
      rw [count, signalled] at member
      rw [count, ready]
      exact latest name member
  | enqueued count signalled =>
      -- The new enqueue has not completed.
      rw [count, signalled] at member
      obtain ⟨future, found, -⟩ := consistent.signalled name _ member
      exact absurd (consistent.counted future name _ found).2 (Nat.not_succ_le_self _)
  | completed enqueueCount changed =>
      obtain ⟨-, -, count⟩ := unchanged_complete enqueueCount (host.events name)
      rw [changed, count, signalled_complete] at member
      rw [changed, count]
      unfold Event.complete
      dsimp only
      split
      case isTrue same =>
        rw [same]
        exact Nat.max_eq_left (consistent.ready_le name)
      case isFalse other =>
        rcases List.mem_append.mp member with old | new
        · exact latest name old
        · exact absurd (List.mem_singleton.mp new).symm other

private theorem latestReady_reachable [DecidableEq Queue] [DecidableEq Thread]
    (reachable : Reachable step {} host) : host.LatestReady := by
  have both : Reachable step {} host ∧ host.LatestReady := by
    apply reachable.induction
    · exact ⟨⟨[], rfl⟩, fun _ member => nomatch member⟩
    intro host action next ⟨before, latest⟩ taken
    refine ⟨before.snoc taken, latest.step (consistent_reachable before) fun name => ?_⟩
    unfold Host.step at taken
    cases action with
    | call thread call =>
        dsimp only at taken
        split at taken
        case isFalse => cases taken
        case isTrue =>
          cases taken
          exact .same rfl rfl rfl
    | thread thread => exact recounted_threadStep taken name
    | worker queue outcome => exact recounted_workerStep taken name
  exact both.2

/-! ## The last reference -/

/-- The event that a task holds a reference to. -/
def taskEvent : QueueTask Queue Ev → Option Ev
  | .hostFn => none
  | .completion name _ | .wait name _ => some name

/-- The event that a thread uses in its call. -/
def threadEvent : ThreadPoint Queue Ev → Option Ev
  | .idle | .submitHostFn _ => none
  | .enqueueLock _ name | .enqueueCount _ name | .enqueueSubmit _ name _ | .enqueueFuture name _
  | .waitForLock _ name | .waitForCheck _ name | .waitForSubmit _ name _ _ | .waitLock name
  | .waitRead name | .waitCheck name _ | .waitGet name _ _ | .waitRelock name _ => some name

/-- The task has not been destroyed. -/
def Alive (host : Host Queue Ev Thread) (task : Future Queue) : Prop :=
  (host.queues task.queue).fulfilled task.promise = none ∧
    ∀ outcome, (host.queues task.queue).worker ≠ .destroyed task.promise outcome

/-- The worker of a queue destroys a task, and nobody else has a reference to an event: no
other task that has not been destroyed, and no thread. -/
structure LastReference (host : Host Queue Ev Thread) (queue : Queue)
    (package : TaskPackage (QueueTask Queue Ev)) (name : Ev) : Prop where
  destroying : ∃ outcome, (host.queues queue).worker = .popped package outcome
  others : ∀ task : Future Queue, task ≠ ⟨queue, package.promise⟩ → host.Alive task →
    ∀ other, (host.queues task.queue).submitted[task.promise]? = some other →
      taskEvent other ≠ some name
  threads : ∀ thread, threadEvent (host.threads thread) ≠ some name

omit [DecidableEq Ev] in
/-- All completion tasks of the event have returned. -/
theorem LastReference.finished (consistent : host.Consistent) {queue : Queue}
    {package : TaskPackage (QueueTask Queue Ev)} {name : Ev}
    (reference : host.LastReference queue package name) {task : Future Queue} {enqueueCount : ℕ}
    (found : host.CompletionAt task name enqueueCount) :
    task.promise ∈ (host.queues task.queue).finished := by
  have ordered := consistent.ordered task.queue
  by_cases this : task = ⟨queue, package.promise⟩
  · obtain ⟨outcome, working⟩ := reference.destroying
    rw [this] at ordered ⊢
    exact ordered.finished_of_popped working
  · by_contra unfinished
    have keeps := ordered.keeps unfinished
    exact reference.others task this ⟨keeps.unfulfilled, keeps.undestroyed⟩ _ found rfl

omit [DecidableEq Ev] in
/-- **The last reference.** An event whose last reference is dropped by a worker is
complete. -/
theorem LastReference.complete (consistent : host.Consistent) (latest : host.LatestReady)
    {queue : Queue} {package : TaskPackage (QueueTask Queue Ev)} {name : Ev}
    (free : (host.events name).mutex = none)
    (reference : host.LastReference queue package name) :
    (host.events name).lastReadyEnqueueCount = (host.events name).enqueueCount := by
  rcases Nat.eq_zero_or_pos (host.events name).enqueueCount with zero | several
  · have bound := consistent.ready_le name
    omega
  · obtain ⟨future, -, found⟩ := consistent.latest name free several
    exact latest name (consistent.returned future name _ found
      (reference.finished consistent found))

end Host

namespace MixedHost

open CallbackThread Math.Interleaving Math.WaitFor

variable {Queue Blocking Ev Thread : Type*} {mixed next : MixedHost Queue Blocking Ev Thread}
  [DecidableEq Queue]

/-! ## Earlier tasks -/

/-- A task is run after those in front of it in its queue, and a waiting task returns after
the one it waits for. -/
inductive RunsAfter (mixed : MixedHost Queue Blocking Ev Thread) (task : Future Queue) :
    Future Queue → Prop
  | behind {promise : ℕ} (before : promise < task.promise)
      (submitted : task.promise < (mixed.host.queues task.queue).submitted.length) :
      RunsAfter mixed task ⟨task.queue, promise⟩
  | waits {name : Ev} {awaited : Future Queue}
      (waits : (mixed.host.queues task.queue).submitted[task.promise]? =
        some (.wait name (.ofTask awaited))) : RunsAfter mixed task awaited

theorem Coherent.earlier (coherent : mixed.Coherent) {task other : Future Queue}
    (after : mixed.RunsAfter task other) :
    other ∈ mixed.log ∧ mixed.log.idxOf other < mixed.log.idxOf task := by
  cases after with
  | @behind promise before submitted =>
      have member := (coherent.log.submitted task).mpr submitted
      have member' : (⟨task.queue, promise⟩ : Future Queue) ∈ mixed.log :=
        (coherent.log.submitted _).mpr (before.trans submitted)
      refine ⟨member', lt_of_le_of_ne
        (coherent.log.ordered _ member' _ member rfl before.le) fun same => ?_⟩
      have equal : promise = task.promise :=
        congrArg Future.promise ((List.idxOf_inj member').mp same)
      exact before.ne equal
  | waits waits =>
      rcases coherent.log.waits _ _ _ _ waits with impossible | ⟨awaited, member, same, before⟩
      · cases impossible
      · cases same
        exact ⟨member, before⟩

/-- No task runs after itself. -/
theorem Coherent.runsAfter_acyclic (coherent : mixed.Coherent) (task : Future Queue) :
    ¬ Relation.TransGen mixed.RunsAfter task task := by
  have before {other : Future Queue} (chain : Relation.TransGen mixed.RunsAfter task other) :
      mixed.log.idxOf other < mixed.log.idxOf task := by
    induction chain with
    | single after => exact (coherent.earlier after).2
    | tail _ after ih => exact (coherent.earlier after).2.trans ih
  exact fun cycle => lt_irrefl _ (before cycle)

/-! ## Non-blocking queues alone -/

omit [DecidableEq Queue] in
private theorem threadEvent_of_holds {point : ThreadPoint Queue Ev} {name : Ev}
    (holds : threadHolds point = some name) : Host.threadEvent point = some name := by
  cases point with
  | enqueueCount | enqueueSubmit | enqueueFuture | waitForCheck | waitRead | waitCheck =>
      exact holds
  | _ => cases holds

/-- Nobody holds the mutex of an event whose last reference is dropped. -/
theorem Coherent.free_of_last [DecidableEq Ev] (coherent : mixed.Coherent)
    (idle : ∀ thread, mixed.points thread = .idle) {queue : Queue}
    {package : TaskPackage (QueueTask Queue Ev)} {name : Ev}
    (reference : mixed.host.LastReference queue package name) :
    (mixed.host.events name).mutex = none := by
  cases holder : (mixed.host.events name).mutex with
  | none => rfl
  | some agent =>
      have held := (coherent.ownedEvents name agent).mp holder
      cases agent with
      | thread thread =>
          rw [holdsEvent_thread, idle, pointHolds_idle, Option.or_none] at held
          exact absurd (threadEvent_of_holds held) (reference.threads thread)
      | worker other =>
          change workerHolds (mixed.host.queues other).worker = some name at held
          obtain ⟨outcome, popped⟩ := reference.destroying
          have different : other ≠ queue := by
            rintro rfl
            rw [popped] at held
            cases held
          cases working : (mixed.host.queues other).worker with
          | running running point =>
              rw [working] at held
              have submitted := ((coherent.workers other).ordered.running working).1
              obtain ⟨unfulfilled, -, -⟩ := running_first (coherent.workers other).ordered working
              have refers : Host.taskEvent running.task = some name := by
                rcases running with ⟨task, promise⟩
                cases task with
                | hostFn | wait => cases held
                | completion event enqueueCount =>
                    cases point with
                    | locked | signalled => exact held
                    | begin | unlocked => cases held
              refine absurd refers (reference.others ⟨other, running.promise⟩ ?_ ⟨unfulfilled, ?_⟩ _
                submitted)
              · exact fun same => different (congrArg Future.queue same)
              · intro outcome impossible
                rw [working] at impossible
                cases impossible
          | _ =>
              rw [working] at held
              cases held

variable [DecidableEq Blocking] [DecidableEq Ev] [DecidableEq Thread]

private theorem host_run {actions : List (HostAction Queue Ev Thread)}
    (idle : ∀ thread, mixed.points thread = .idle)
    (reached : run step mixed (actions.map .host) = some next) :
    run Host.step mixed.host actions = some next.host ∧ ∀ thread, next.points thread = .idle := by
  induction actions generalizing mixed with
  | nil =>
      cases reached
      exact ⟨rfl, idle⟩
  | cons action actions ih =>
      obtain ⟨middle, first, rest⟩ := Option.bind_eq_some_iff.mp reached
      obtain ⟨steps, same⟩ := step_host first
      obtain ⟨later, resting⟩ := ih (fun thread => same ▸ idle thread) rest
      refine ⟨?_, resting⟩
      exact Option.bind_eq_some_iff.mpr ⟨middle.host, steps, later⟩

/-- Who waits for a worker or for the mutex of an event does so at the end of a chain, too. -/
theorem Coherent.worker_progress (coherent : mixed.Coherent)
    (idle : ∀ thread, mixed.points thread = .idle) {queue : Queue}
    (unfinished : mixed.Unfinished (.worker queue)) :
    (∃ worker, mixed.CanStep (.worker worker)) ∨
      ∃ thread name, (mixed.host.events name).mutex = some (.thread thread) ∧
        mixed.CanStep (.thread thread) := by
  have independent (thread other : Thread) : ¬ mixed.Depends thread other := by
    intro depends
    cases depends with
    | queue comes =>
        rw [idle thread] at comes
        cases comes
    | event awaits =>
        rw [idle thread] at awaits
        cases awaits
  have wellFounded : WellFounded (Function.swap mixed.Depends) :=
    ⟨fun thread => ⟨thread, fun other depends => absurd depends (independent thread other)⟩⟩
  obtain ⟨last, ends_, steps⟩ := coherent.progress wellFounded (.worker queue)
  have kind : (∃ worker, last = .worker worker) ∨
      ∃ thread name, last = .thread thread ∧
        (mixed.host.events name).mutex = some (.thread thread) := by
    apply ends_.carries
    · exact .inl ⟨queue, rfl⟩
    · intro agent other waiting
      rcases coherent.waits_cases waiting with ⟨name, holder⟩ | ⟨blocking, holder, locked, -⟩ |
        ⟨future, -, awaiting⟩
      · cases other with
        | thread thread => exact .inr ⟨thread, name, rfl, holder⟩
        | worker worker => exact .inl ⟨worker, rfl⟩
      · have held : holdsQueue (mixed.points holder) = some blocking :=
          (coherent.ownedQueues blocking holder).mp locked
        rw [idle holder] at held
        cases held
      · obtain ⟨task, -, rfl, -⟩ := awaits_cases awaiting
        exact .inl ⟨task.queue, rfl⟩
  rcases kind with ⟨worker, rfl⟩ | ⟨thread, name, rfl, holds⟩
  · exact .inl ⟨worker, steps unfinished⟩
  · exact .inr ⟨thread, name, holds, steps unfinished⟩

/-- **Non-blocking queues go on.** In every state in which a queue has an unfinished task, a
worker can take a step, or a thread can that holds the mutex of an event in its call. Tasks
run after tasks that were submitted earlier, so that they do not wait for one another in a
circle. An event whose last reference is dropped by a worker is complete. -/
theorem nonBlocking_goes_on {actions : List (HostAction Queue Ev Thread)}
    (reached : run step {} (actions.map .host) = some mixed) :
    (∀ queue, mixed.Unfinished (.worker queue) →
      (∃ worker, mixed.CanStep (.worker worker)) ∨
        ∃ thread name, (mixed.host.events name).mutex = some (.thread thread) ∧
          mixed.CanStep (.thread thread)) ∧
    (∀ task other, mixed.RunsAfter task other →
      other ∈ mixed.log ∧ mixed.log.idxOf other < mixed.log.idxOf task) ∧
    (∀ task, ¬ Relation.TransGen mixed.RunsAfter task task) ∧
    ∀ queue package name, mixed.host.LastReference queue package name →
      (mixed.host.events name).lastReadyEnqueueCount =
        (mixed.host.events name).enqueueCount := by
  have coherent : mixed.Coherent := coherent_reachable ⟨_, reached⟩
  obtain ⟨hostReached, idle⟩ := host_run (fun _ => rfl) reached
  have reachable : Reachable Host.step {} mixed.host := ⟨actions, hostReached⟩
  refine ⟨fun queue unfinished => coherent.worker_progress idle unfinished,
    fun task other after => coherent.earlier after, coherent.runsAfter_acyclic,
    fun queue package name reference => ?_⟩
  exact reference.complete (Host.consistent_reachable reachable)
    (Host.latestReady_reachable reachable) (coherent.free_of_last idle reference)

/-- An event is enqueued, and its completion task run until it is destroyed. -/
private def enqueueOnce : List (HostAction Unit Unit Unit) :=
  .call () (.enqueue () ()) :: List.replicate 4 (.thread ()) ++
  List.replicate 7 (.worker () .value)

private theorem enqueueOnce_runs : (run step ({} : MixedHost Unit Empty Unit Unit)
    (enqueueOnce.map .host)).isSome := by decide

theorem nonBlocking_goes_on_enqueueOnce : ∃ mixed : MixedHost Unit Empty Unit Unit,
    mixed.Unfinished (.worker ()) ∧
      ((∃ worker, mixed.CanStep (.worker worker)) ∨
        ∃ thread name, (mixed.host.events name).mutex = some (.thread thread) ∧
          mixed.CanStep (.thread thread)) ∧
      (∃ package, mixed.host.LastReference () package ()) ∧
        (mixed.host.events ()).lastReadyEnqueueCount = 1 ∧
          (mixed.host.events ()).enqueueCount = 1 := by
  obtain ⟨progress, -, -, last⟩ :=
    nonBlocking_goes_on (Option.some_get enqueueOnce_runs).symm
  have unfinished : ((run step ({} : MixedHost Unit Empty Unit Unit)
      (enqueueOnce.map .host)).get enqueueOnce_runs).Unfinished (.worker ()) :=
    ⟨0, by decide, by decide⟩
  have reference : ((run step ({} : MixedHost Unit Empty Unit Unit)
      (enqueueOnce.map .host)).get enqueueOnce_runs).host.LastReference ()
        ⟨.completion () 1, 0⟩ () := by
    refine ⟨⟨.value, by decide⟩, fun task different _ other found => ?_, fun thread => ?_⟩
    · rcases task with ⟨queue, promise⟩
      cases promise with
      | zero => exact absurd rfl different
      | succ => cases found
    · cases thread
      decide
  refine ⟨_, unfinished, progress () unfinished, ⟨_, reference⟩, ?_, by decide⟩
  rw [last () _ () reference]
  decide

/-- An event is enqueued for the second time while the completion task of the first enqueue
waits for its mutex. -/
private def enqueueAgain : List (HostAction Unit Unit Unit) :=
  .call () (.enqueue () ()) :: List.replicate 4 (.thread ()) ++
  [.worker () .value, .worker () .value, .call () (.enqueue () ()), .thread ()]

private theorem enqueueAgain_runs : (run step ({} : MixedHost Unit Empty Unit Unit)
    (enqueueAgain.map .host)).isSome := by decide

/-- A worker alone need not be able to take a step: a thread may be just inside its call. -/
theorem enqueueAgain_blocks : ∃ (actions : List (HostAction Unit Unit Unit))
    (mixed : MixedHost Unit Empty Unit Unit),
    run step {} (actions.map .host) = some mixed ∧ (∃ queue, mixed.Unfinished (.worker queue)) ∧
      ∀ worker, ¬ mixed.CanStep (.worker worker) := by
  refine ⟨enqueueAgain, (run step {} (enqueueAgain.map .host)).get enqueueAgain_runs,
    (Option.some_get enqueueAgain_runs).symm, ⟨(), 0, by decide, by decide⟩, fun worker steps => ?_⟩
  cases worker
  exact absurd (steps .value) (by decide)

end MixedHost

end Alpaka
