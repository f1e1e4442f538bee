import Alpaka.Host.MixedSteps

/-! # Chains of waiting threads and workers

In a call on a blocking queue a thread may wait for the mutex of the queue with the mutex of
an event in its hands, and it may wait for a future with the mutex of the queue in its hands.
Where these threads do not depend on one another in a circle, every chain of waiting threads
and workers ends at one that can take a step (`Alpaka.MixedHost.Coherent.progress`). Among
the workers alone there is no circle: a task waits for tasks that were submitted before it.
-/

namespace Alpaka.MixedHost

open CallbackThread Math.WaitFor

variable {Queue Blocking Ev Thread : Type*} {mixed next : MixedHost Queue Blocking Ev Thread}

/-! ## Who depends on whom -/

/-- The queue whose mutex a thread holds, and the future for which it does so. -/
def inWait : BlockingPoint Queue Blocking Ev → Option (Blocking × SharedFuture Queue)
  | .waitForUnlock queue _ sFuture | .waitForGet queue sFuture => some (queue, sFuture)
  | _ => none

/-- The queue for whose mutex a thread comes, and the event whose mutex it holds then. -/
def comesFor : BlockingPoint Queue Blocking Ev → Option (Blocking × Ev)
  | .enqueueQueueLock queue name _ | .waitForQueueLock queue name => some (queue, name)
  | _ => none

/-- The tasks without which a task does not return: those in front of it in its queue and
those that these wait for. -/
inductive Needs (queues : Queue → CallbackThread (QueueTask Queue Ev) TaskPoint)
    (future : Future Queue) : Future Queue → Prop
  | here : Needs queues future future
  | earlier {task : Future Queue} {promise : ℕ} (needs : Needs queues future task)
      (before : promise ≤ task.promise) : Needs queues future ⟨task.queue, promise⟩
  | awaited {task awaited : Future Queue} {name : Ev} (needs : Needs queues future task)
      (waits : (queues task.queue).submitted[task.promise]? = some (.wait name (.ofTask awaited))) :
      Needs queues future awaited

/-- The task which a worker has taken past its first step. -/
def passed : Worker (QueueTask Queue Ev) TaskPoint → Option ℕ
  | .running _ .begin => none
  | .running package _ | .ran package _ | .popped package _ => some package.promise
  | .destroyed promise _ => some promise
  | _ => none

/-- A completion task has got the mutex of its event, and a waiting task its future. -/
def Through (worker : CallbackThread (QueueTask Queue Ev) TaskPoint) (promise : ℕ) : Prop :=
  (worker.fulfilled promise).isSome ∨ passed worker.worker = some promise

/-- A completion task still has to take the mutex of an event. -/
def Pending (mixed : MixedHost Queue Blocking Ev Thread) (task : Future Queue) (name : Ev) : Prop :=
  (∃ enqueueCount, mixed.host.CompletionAt task name enqueueCount) ∧
    ¬ Through (mixed.host.queues task.queue) task.promise

/-- **Threads in calls on blocking queues.** One comes for the mutex of a queue that another
one holds in `waitFor`, or awaits a future that needs a completion task which still has to
take the mutex of the event that another one holds. -/
inductive Depends (mixed : MixedHost Queue Blocking Ev Thread) (thread other : Thread) : Prop
  | queue {queue : Blocking} {name : Ev} {sFuture : SharedFuture Queue}
      (comes : comesFor (mixed.points thread) = some (queue, name))
      (holds : inWait (mixed.points other) = some (queue, sFuture))
  | event {queue queue' : Blocking} {name : Ev} {future task : Future Queue}
      (awaits : inWait (mixed.points thread) = some (queue, .ofTask future))
      (needs : Needs mixed.host.queues future task) (pending : mixed.Pending task name)
      (holds : comesFor (mixed.points other) = some (queue', name))

/-! ## Who waits is unfinished -/

private theorem waits_thread (mixed : MixedHost Queue Blocking Ev Thread) (thread : Thread) :
    mixed.waits (.thread thread) =
      (threadWaits mixed.host (mixed.host.threads thread)).or
        (pointWaits mixed (mixed.points thread)) := rfl

/-- A task that is being run is the first one whose future is not fulfilled. -/
theorem running_first {worker : CallbackThread (QueueTask Queue Ev) TaskPoint}
    (ordered : worker.Ordered) {package : TaskPackage (QueueTask Queue Ev)} {point : TaskPoint}
    (working : worker.worker = .running package point) :
    worker.fulfilled package.promise = none ∧ package.promise < worker.submitted.length ∧
      ∀ promise, worker.fulfilled promise = none → package.promise ≤ promise := by
  obtain ⟨done, inOrder⟩ := ordered
  have found := package_iff.mp (inOrder.package package (by rw [working]; rfl))
  have number := found.2
  refine ⟨?_, ?_, fun promise unfulfilled => ?_⟩
  · rw [← Option.not_isSome_iff_eq_none, inOrder.fulfilled, number]
    exact lt_irrefl done
  · rw [number]
    exact (List.getElem?_eq_some_iff.mp found.1).1
  · rw [← Option.not_isSome_iff_eq_none, inOrder.fulfilled] at unfulfilled
    omega

private theorem unfinished_of_running {queue : Queue} (ok : Going (mixed.host.queues queue))
    {package : TaskPackage (QueueTask Queue Ev)} {point : TaskPoint}
    (working : (mixed.host.queues queue).worker = .running package point) :
    mixed.Unfinished (.worker queue) :=
  have ⟨unfulfilled, submitted, _⟩ := running_first ok.ordered working
  ⟨package.promise, submitted, unfulfilled⟩

variable [DecidableEq Queue]

/-- Who holds the mutex of an event is unfinished. -/
theorem Coherent.unfinished_of_holds (coherent : mixed.Coherent) {name : Ev}
    {agent : Agent Queue Thread} (holder : (mixed.host.events name).mutex = some agent) :
    mixed.Unfinished agent := by
  have held := (coherent.ownedEvents name agent).mp holder
  cases agent with
  | thread thread =>
      rw [holdsEvent_thread] at held
      by_contra finished
      obtain ⟨host, blocking⟩ := not_or.mp finished
      rw [not_not.mp host, not_not.mp blocking] at held
      cases held
  | worker queue =>
      change workerHolds (mixed.host.queues queue).worker = some name at held
      cases working : (mixed.host.queues queue).worker with
      | running package point => exact unfinished_of_running (coherent.workers queue) working
      | _ =>
          rw [working] at held
          cases held

omit [DecidableEq Queue] in
/-- What is awaited is known and not there yet. -/
theorem awaits_cases {future : SharedFuture Queue} {agent : Agent Queue Thread}
    (waiting : awaits future mixed.host = some agent) :
    ∃ task, future = .ofTask task ∧ agent = .worker task.queue ∧
      (mixed.host.queues task.queue).fulfilled task.promise = none := by
  cases future with
  | invalid | ready => cases waiting
  | ofTask task =>
      unfold awaits at waiting
      dsimp only at waiting
      split at waiting
      case isTrue => cases waiting
      case isFalse unfulfilled =>
        refine ⟨task, rfl, (Option.some.inj waiting).symm, ?_⟩
        exact Option.not_isSome_iff_eq_none.mp unfulfilled

/-- A task that waits was given a future. -/
theorem Coherent.known_of_running (coherent : mixed.Coherent) {queue : Queue} {name : Ev}
    {future : SharedFuture Queue} {promise : ℕ} {point : TaskPoint}
    (working : (mixed.host.queues queue).worker = .running ⟨.wait name future, promise⟩ point) :
    mixed.Known future := by
  have submitted := ((coherent.workers queue).ordered.running working).1
  rcases coherent.log.waits queue promise name future submitted with rfl | ⟨task, member, rfl, -⟩
  · trivial
  · exact member

/-- What an agent may wait for: the mutex of an event, the mutex of a blocking queue or a
future. -/
theorem Coherent.waits_cases (coherent : mixed.Coherent) {agent other : Agent Queue Thread}
    (waiting : mixed.waits agent = some other) :
    (∃ name, (mixed.host.events name).mutex = some other) ∨
      (∃ queue holder, (mixed.blocking queue).mutex = some holder ∧ other = .thread holder) ∨
        ∃ future, mixed.Known future ∧ awaits future mixed.host = some other := by
  cases agent with
  | worker queue =>
      change workerWaits mixed.host (mixed.host.queues queue).worker = some other at waiting
      cases working : (mixed.host.queues queue).worker with
      | running package point =>
          rw [working] at waiting
          rcases package with ⟨task, promise⟩
          cases task with
          | hostFn => cases waiting
          | wait name future =>
              exact .inr (.inr ⟨future, coherent.known_of_running working, waiting⟩)
          | completion name enqueueCount =>
              cases point with
              | begin => exact .inl ⟨name, waiting⟩
              | locked | signalled | unlocked => cases waiting
      | _ =>
          rw [working] at waiting
          cases waiting
  | thread thread =>
      have informed := coherent.informed thread
      rcases Option.or_eq_some_iff.mp waiting with host | ⟨-, blocking⟩
      · cases point : mixed.host.threads thread with
        | enqueueLock _ name | waitForLock _ name | waitLock name | waitRelock name _ =>
            rw [point] at host
            exact .inl ⟨name, host⟩
        | waitGet name enqueueCount future =>
            rw [point] at host informed
            exact .inr (.inr ⟨future, informed.1.1, host⟩)
        | _ =>
            rw [point] at host
            cases host
      · cases point : mixed.points thread with
        | enqueueLock _ name | waitForLock _ name | completeLock name =>
            rw [point] at blocking
            exact .inl ⟨name, blocking⟩
        | hostFnLock queue | enqueueQueueLock queue _ _ | waitForQueueLock queue _ =>
            rw [point] at blocking
            obtain ⟨holder, locked, rfl⟩ := Option.map_eq_some_iff.mp blocking
            exact .inr (.inl ⟨queue, holder, locked, rfl⟩)
        | waitForGet queue sFuture =>
            rw [point] at blocking informed
            exact .inr (.inr ⟨sFuture, informed.2, blocking⟩)
        | _ =>
            rw [point] at blocking
            cases blocking

/-- **Whom an agent waits for is unfinished.** -/
theorem Coherent.unfinished_of_waits (coherent : mixed.Coherent) (agent other : Agent Queue Thread)
    (waiting : mixed.waits agent = some other) : mixed.Unfinished other := by
  rcases coherent.waits_cases waiting with ⟨name, holder⟩ | ⟨queue, holder, locked, rfl⟩ |
    ⟨future, known, awaiting⟩
  · exact coherent.unfinished_of_holds holder
  · have held : holdsQueue (mixed.points holder) = some queue :=
      (coherent.ownedQueues queue holder).mp locked
    refine .inr fun idle => ?_
    rw [idle] at held
    cases held
  · obtain ⟨task, rfl, rfl, unfulfilled⟩ := awaits_cases awaiting
    exact ⟨task.promise, (coherent.log.submitted task).mp known, unfulfilled⟩

/-! ## Who does not wait can take a step -/

section CanStep

omit [DecidableEq Queue] in
private theorem isSome_lock [DecidableEq Ev] {host : Host Queue Ev Thread} {name : Ev}
    {agent : Agent Queue Thread}
    (free : (host.events name).mutex = none) : (host.lock name agent).isSome := by
  unfold Host.lock
  rw [if_pos free]
  rfl

omit [DecidableEq Queue] in
private theorem isSome_lockQueue [DecidableEq Blocking] {queue : Blocking} {thread : Thread}
    (free : (mixed.blocking queue).mutex = none) : (mixed.lockQueue queue thread).isSome := by
  unfold lockQueue
  rw [if_pos free]
  rfl

omit [DecidableEq Queue] in
private theorem isSome_fulfilled {future : SharedFuture Queue} (known : mixed.Known future)
    (unawaited : awaits future mixed.host = none) : (mixed.host.isFulfilled future).isSome := by
  cases future with
  | invalid => exact known.elim
  | ready => rfl
  | ofTask task =>
      unfold awaits at unawaited
      dsimp only at unawaited
      split at unawaited
      case isTrue fulfilled => exact fulfilled
      case isFalse => cases unawaited

variable [DecidableEq Blocking] [DecidableEq Ev] [DecidableEq Thread]

omit [DecidableEq Blocking] [DecidableEq Thread] in
private theorem Coherent.workerCanStep (coherent : mixed.Coherent) {queue : Queue}
    (unfinished : mixed.Unfinished (.worker queue))
    (free : workerWaits mixed.host (mixed.host.queues queue).worker = none) (outcome : Outcome) :
    (mixed.host.workerStep queue outcome).isSome := by
  obtain ⟨promise, submitted, unfulfilled⟩ := unfinished
  unfold Host.workerStep
  cases working : (mixed.host.queues queue).worker with
  | running package point =>
      rw [working] at free
      rcases package with ⟨task, promise⟩
      unfold Host.taskStep
      cases task with
      | hostFn => rfl
      | wait name future =>
          dsimp only
          rw [Option.isSome_map]
          exact isSome_fulfilled (coherent.known_of_running working) free
      | completion name enqueueCount =>
          cases point with
          | begin =>
              dsimp only
              rw [Option.isSome_map]
              exact isSome_lock free
          | locked | signalled | unlocked => rfl
  | _ =>
      dsimp only
      rw [Option.isSome_map]
      refine (coherent.workers queue).advances .begin submitted unfulfilled
        fun package point impossible => ?_
      rw [working] at impossible
      cases impossible

omit [DecidableEq Blocking] in
private theorem Coherent.threadCanStep (coherent : mixed.Coherent) {thread : Thread}
    (busy : mixed.host.threads thread ≠ .idle)
    (free : threadWaits mixed.host (mixed.host.threads thread) = none) :
    (mixed.host.threadStep thread).isSome := by
  have informed := (coherent.informed thread).1
  unfold Host.threadStep
  cases point : mixed.host.threads thread with
  | idle => exact absurd point busy
  | enqueueLock _ name | waitForLock _ name | waitLock name | waitRelock name _ =>
      rw [point] at free
      dsimp only
      rw [Option.isSome_map]
      exact isSome_lock free
  | waitGet name enqueueCount future =>
      rw [point] at free informed
      dsimp only
      rw [Option.isSome_map]
      exact isSome_fulfilled informed.1 free
  | waitForCheck | waitCheck =>
      dsimp only
      split
      · rfl
      · rfl
  | submitHostFn | enqueueCount | enqueueSubmit | enqueueFuture | waitForSubmit | waitRead => rfl

private theorem Coherent.pointCanStep (coherent : mixed.Coherent) {thread : Thread}
    (busy : mixed.points thread ≠ .idle)
    (free : pointWaits mixed (mixed.points thread) = none) :
    (mixed.blockingStep thread).isSome := by
  have informed := (coherent.informed thread).2
  unfold MixedHost.blockingStep
  cases point : mixed.points thread with
  | idle => exact absurd point busy
  | enqueueLock _ name | waitForLock _ name | completeLock name =>
      rw [point] at free
      dsimp only
      rw [Option.isSome_map]
      unfold lockEvent
      rw [Option.isSome_map]
      exact isSome_lock free
  | hostFnLock queue | enqueueQueueLock queue _ _ | waitForQueueLock queue _ =>
      rw [point] at free
      dsimp only
      rw [Option.isSome_map]
      exact isSome_lockQueue (Option.map_eq_none_iff.mp free)
  | waitForGet queue sFuture =>
      rw [point] at free informed
      dsimp only
      rw [Option.isSome_map]
      exact isSome_fulfilled informed free
  | waitForCheck =>
      dsimp only
      split
      · rfl
      · rfl
  | hostFnRun | enqueueCount | enqueueComplete | enqueueUnlock | waitForUnlock | completeRead => rfl

/-- **Who does not wait can take a step**, unless there is nothing to do. -/
theorem Coherent.canStep (coherent : mixed.Coherent) {agent : Agent Queue Thread}
    (unfinished : mixed.Unfinished agent) (free : mixed.waits agent = none) :
    mixed.CanStep agent := by
  cases agent with
  | worker queue =>
      intro outcome
      unfold step
      dsimp only
      rw [Option.isSome_map]
      exact coherent.workerCanStep unfinished free outcome
  | thread thread =>
      obtain ⟨host, blocking⟩ := Option.or_eq_none_iff.mp free
      by_cases resting : mixed.host.threads thread = .idle
      · exact .inr (coherent.pointCanStep (unfinished.resolve_left (not_not.mpr resting)) blocking)
      · refine .inl ?_
        unfold step
        dsimp only
        rw [Option.isSome_map]
        exact coherent.threadCanStep resting host

end CanStep

/-! ## Every chain ends -/

/-- What a task needs is in the log if the task is. -/
theorem Coherent.logged_of_needs (coherent : mixed.Coherent) {future task : Future Queue}
    (needs : Needs mixed.host.queues future task) (member : future ∈ mixed.log) :
    task ∈ mixed.log := by
  induction needs with
  | here => exact member
  | earlier needs before ih =>
      exact (coherent.log.submitted _).mpr (before.trans_lt ((coherent.log.submitted _).mp ih))
  | awaited needs waits ih =>
      rcases coherent.log.waits _ _ _ _ waits with impossible | ⟨task, member, same, -⟩
      · cases impossible
      · cases same
        exact member

/-- The thread that holds the mutex of an event and comes for that of a queue may be stuck;
any other one can go on. -/
theorem Coherent.holder_cases (coherent : mixed.Coherent) {name : Ev} {agent : Agent Queue Thread}
    (holder : (mixed.host.events name).mutex = some agent) :
    mixed.waits agent = none ∨
      ∃ thread queue, agent = .thread thread ∧
        comesFor (mixed.points thread) = some (queue, name) := by
  have held := (coherent.ownedEvents name agent).mp holder
  cases agent with
  | worker queue =>
      refine .inl ?_
      change workerHolds (mixed.host.queues queue).worker = some name at held
      change workerWaits mixed.host (mixed.host.queues queue).worker = none
      cases working : (mixed.host.queues queue).worker with
      | running package point =>
          rw [working] at held
          rcases package with ⟨task, promise⟩
          cases task with
          | hostFn | wait => cases held
          | completion name enqueueCount =>
              cases point with
              | locked | signalled => rfl
              | begin | unlocked => cases held
      | _ =>
          rw [working] at held
          cases held
  | thread thread =>
      rw [holdsEvent_thread] at held
      rcases coherent.single thread with idle | idle
      · rw [idle] at held
        change pointHolds (mixed.points thread) = some name at held
        have waits : mixed.waits (.thread thread) = pointWaits mixed (mixed.points thread) := by
          rw [waits_thread, idle]
          rfl
        rw [waits]
        cases point : mixed.points thread with
        | enqueueQueueLock queue other _ | waitForQueueLock queue other =>
            rw [point] at held
            cases held
            exact .inr ⟨thread, queue, rfl, congrArg comesFor point⟩
        | enqueueCount | enqueueComplete | enqueueUnlock | waitForCheck | waitForUnlock
          | completeRead => exact .inl rfl
        | _ =>
            rw [point] at held
            cases held
      · rw [idle, pointHolds_idle, Option.or_none] at held
        rw [waits_thread, idle]
        refine .inl (Option.or_eq_none_iff.mpr ⟨?_, rfl⟩)
        cases point : mixed.host.threads thread with
        | enqueueCount | enqueueSubmit | enqueueFuture | waitForCheck | waitRead | waitCheck => rfl
        | _ =>
            rw [point] at held
            cases held

/-- **From a future on.** The worker of a queue waits for one of an earlier task, or for a
thread with the mutex of an event. -/
theorem Coherent.worker_ends (coherent : mixed.Coherent) {future : Future Queue}
    (member : future ∈ mixed.log)
    (stuck : ∀ task name thread queue, Needs mixed.host.queues future task →
      mixed.Pending task name → comesFor (mixed.points thread) = some (queue, name) →
        ∃ last, Ends mixed.waits (.thread thread) last) :
    ∀ position task, mixed.log.idxOf task = position → Needs mixed.host.queues future task →
      (mixed.host.queues task.queue).fulfilled task.promise = none →
        ∃ last, Ends mixed.waits (.worker task.queue) last := by
  -- The position of the awaited task in the log gets smaller.
  intro position
  induction position using Nat.strong_induction_on with
  | h position ih =>
      rintro task rfl needs unfulfilled
      cases free : mixed.waits (.worker task.queue) with
      | none => exact ⟨_, .here free⟩
      | some agent =>
          have waiting : workerWaits mixed.host (mixed.host.queues task.queue).worker =
            some agent := free
          cases working : (mixed.host.queues task.queue).worker with
          | running package point =>
              rw [working] at waiting
              obtain ⟨first, submitted, least⟩ :=
                running_first (coherent.workers task.queue).ordered working
              have found := ((coherent.workers task.queue).ordered.running working).1
              have current := needs.earlier (least _ unfulfilled)
              have logged := coherent.logged_of_needs needs member
              have inside := coherent.logged_of_needs current member
              have before := coherent.log.ordered _ inside _ logged rfl (least _ unfulfilled)
              rcases package with ⟨running, promise⟩
              cases running with
              | hostFn => cases waiting
              | wait name awaited =>
                  obtain ⟨earlier, rfl, rfl, unready⟩ := awaits_cases waiting
                  rcases coherent.log.waits _ _ _ _ found with impossible | ⟨_, _, same, behind⟩
                  · cases impossible
                  · cases same
                    obtain ⟨last, ends_⟩ := ih _ (behind.trans_le before) earlier rfl
                      (current.awaited found) unready
                    exact ⟨last, .next free ends_⟩
              | completion name enqueueCount =>
                  cases point with
                  | locked | signalled | unlocked => cases waiting
                  | begin =>
                      rcases coherent.holder_cases waiting with goes | ⟨thread, queue, rfl, comes⟩
                      · exact ⟨agent, .next free (.here goes)⟩
                      · have pending : mixed.Pending ⟨task.queue, promise⟩ name := by
                          refine ⟨⟨enqueueCount, found⟩, not_or.mpr ⟨?_, ?_⟩⟩
                          · dsimp only at first ⊢
                            rw [first]
                            exact fun impossible => nomatch impossible
                          · dsimp only
                            rw [working]
                            exact fun impossible => nomatch impossible
                        obtain ⟨last, ends_⟩ := stuck _ name thread queue current pending comes
                        exact ⟨last, .next free ends_⟩
          | _ =>
              rw [working] at waiting
              cases waiting

/-- Who waits for the mutex of a blocking queue waits for its holder, and one that does not
await a future goes on. -/
theorem Coherent.queueHolder_cases (coherent : mixed.Coherent) {queue : Blocking} {holder : Thread}
    (locked : (mixed.blocking queue).mutex = some holder) :
    mixed.waits (.thread holder) = none ∨
      ∃ sFuture, inWait (mixed.points holder) = some (queue, sFuture) ∧ mixed.Known sFuture ∧
        mixed.waits (.thread holder) = awaits sFuture mixed.host := by
  have held : holdsQueue (mixed.points holder) = some queue :=
    (coherent.ownedQueues queue holder).mp locked
  have informed := (coherent.informed holder).2
  have idle : mixed.host.threads holder = .idle := by
    refine (coherent.single holder).resolve_right fun idle => ?_
    rw [idle] at held
    cases held
  have waits : mixed.waits (.thread holder) = pointWaits mixed (mixed.points holder) := by
    rw [waits_thread, idle]
    rfl
  rw [waits]
  cases point : mixed.points holder with
  | waitForGet other sFuture =>
      rw [point] at held informed
      cases held
      exact .inr ⟨sFuture, rfl, informed, rfl⟩
  | hostFnRun | enqueueComplete | waitForUnlock => exact .inl rfl
  | _ =>
      rw [point] at held
      cases held

/-- A thread that comes for the mutex of a queue does not wait for ever. -/
theorem Coherent.comes_ends (coherent : mixed.Coherent)
    (wellFounded : WellFounded (Function.swap mixed.Depends)) (thread : Thread) :
    ∀ queue name, comesFor (mixed.points thread) = some (queue, name) →
      ∃ last, Ends mixed.waits (.thread thread) last := by
  -- Two dependencies lead to the next thread that comes for a mutex.
  have twice := wellFounded.transGen
  induction thread using twice.induction with
  | h thread ih =>
      intro queue name comes
      have idle : mixed.host.threads thread = .idle := by
        refine (coherent.single thread).resolve_right fun idle => ?_
        rw [idle] at comes
        cases comes
      have waits : mixed.waits (.thread thread) = (mixed.blocking queue).mutex.map .thread := by
        rw [waits_thread, idle]
        cases point : mixed.points thread with
        | enqueueQueueLock | waitForQueueLock =>
            rw [point] at comes
            cases comes
            rfl
        | _ =>
            rw [point] at comes
            cases comes
      cases locked : (mixed.blocking queue).mutex with
      | none => exact ⟨_, .here (by rw [waits, locked]; rfl)⟩
      | some holder =>
          have waiting : mixed.waits (.thread thread) = some (.thread holder) := by
            rw [waits, locked]
            rfl
          rcases coherent.queueHolder_cases locked with goes | ⟨sFuture, holds, known, awaiting⟩
          · exact ⟨_, .next waiting (.here goes)⟩
          · cases free : awaits sFuture mixed.host with
            | none => exact ⟨_, .next waiting (.here (awaiting.trans free))⟩
            | some agent =>
                obtain ⟨task, rfl, rfl, unfulfilled⟩ := awaits_cases free
                have first : mixed.Depends thread holder := .queue comes holds
                obtain ⟨last, ends_⟩ := coherent.worker_ends known
                  (fun other event next queue' needs pending comes' =>
                    ih next (.tail (.single (.event holds needs pending comes')) first) queue'
                      event comes') _ task rfl .here unfulfilled
                exact ⟨last, .next waiting (.next (awaiting.trans free) ends_)⟩

/-- **Every chain of waiting threads and workers ends.** -/
theorem Coherent.chain_ends (coherent : mixed.Coherent)
    (wellFounded : WellFounded (Function.swap mixed.Depends)) (agent : Agent Queue Thread) :
    ∃ last, Ends mixed.waits agent last := by
  have awaited {future : SharedFuture Queue} {other : Agent Queue Thread}
      (known : mixed.Known future) (waiting : awaits future mixed.host = some other) :
      ∃ last, Ends mixed.waits other last := by
    obtain ⟨task, rfl, rfl, unfulfilled⟩ := awaits_cases waiting
    exact coherent.worker_ends known (fun _ name thread queue _ _ comes =>
      coherent.comes_ends wellFounded thread queue name comes) _ task rfl .here unfulfilled
  cases free : mixed.waits agent with
  | none => exact ⟨agent, .here free⟩
  | some other =>
      obtain ⟨last, ends_⟩ : ∃ last, Ends mixed.waits other last := by
        rcases coherent.waits_cases free with ⟨name, holder⟩ | ⟨queue, holder, locked, rfl⟩ |
          ⟨future, known, awaiting⟩
        · rcases coherent.holder_cases holder with goes | ⟨thread, queue, rfl, comes⟩
          · exact ⟨other, .here goes⟩
          · exact coherent.comes_ends wellFounded thread queue name comes
        · rcases coherent.queueHolder_cases locked with goes | ⟨sFuture, -, known, awaiting⟩
          · exact ⟨_, .here goes⟩
          · cases ready : awaits sFuture mixed.host with
            | none => exact ⟨_, .here (awaiting.trans ready)⟩
            | some agent =>
                obtain ⟨last, ends_⟩ := awaited known ready
                exact ⟨last, .next (awaiting.trans ready) ends_⟩
        · exact awaited known awaiting
      exact ⟨last, .next free ends_⟩

/-- **Progress.** Every chain of waiting threads and workers ends, and it ends at one that
can take a step if it begins at one that is unfinished. -/
theorem Coherent.progress [DecidableEq Blocking] [DecidableEq Ev] [DecidableEq Thread]
    (coherent : mixed.Coherent) (wellFounded : WellFounded (Function.swap mixed.Depends))
    (agent : Agent Queue Thread) :
    ∃ last, Ends mixed.waits agent last ∧ (mixed.Unfinished agent → mixed.CanStep last) := by
  obtain ⟨last, ends_⟩ := coherent.chain_ends wellFounded agent
  refine ⟨last, ends_, fun unfinished => coherent.canStep ?_ ends_.free⟩
  exact ends_.carries unfinished coherent.unfinished_of_waits

end Alpaka.MixedHost
