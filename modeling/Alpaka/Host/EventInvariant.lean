import Alpaka.Host.Event

/-! # The invariant of queues and events

While the mutex of an event is free the future of the event belongs to its latest
enqueue; a thread that holds it knows what is left to be done; and nobody else
changes the event or submits a completion task for it
(`Alpaka.Host.Respects.knows`). The shared part of the invariant
(`Alpaka.Host.Consistent`) is kept by everything a step is made of: changing an
event, changing a queue, submitting a task and returning from `waitFor`.
-/

namespace Alpaka.Host

open CallbackThread

variable {Queue Ev Thread : Type*} {host next : Host Queue Ev Thread} {agent : Agent Queue Thread}

/-- The future belongs to the completion task of an enqueue of the event. -/
def CompletionAt (host : Host Queue Ev Thread) (future : Future Queue) (name : Ev)
    (enqueueCount : ℕ) : Prop :=
  (host.queues future.queue).submitted[future.promise]? = some (.completion name enqueueCount)

/-- Every task submitted to the queue of the future before its own one has finished
running. -/
def FinishedBefore (host : Host Queue Ev Thread) (future : Future Queue) : Prop :=
  ∀ promise < future.promise, promise ∈ (host.queues future.queue).finished

/-- The future of an event belongs to its latest enqueue. -/
def Latest (host : Host Queue Ev Thread) (name : Ev) (event : Event Queue Thread) : Prop :=
  1 ≤ event.enqueueCount →
    ∃ future, event.future = .ofTask future ∧ host.CompletionAt future name event.enqueueCount

/-- A queue has nothing to wait for, or the enqueue has completed, or a task that
waits for it was submitted before the call returned. -/
def Guarded (host : Host Queue Ev Thread) (barrier : Barrier Queue Ev) : Prop :=
  barrier.latest = 0 ∨ barrier.latest ∈ (host.events barrier.event).signalled ∨
    ∃ promise < barrier.position, ∃ future,
      (host.queues barrier.queue).submitted[promise]? =
        some (.wait barrier.event (.ofTask future)) ∧
        host.CompletionAt future barrier.event barrier.latest

/-- What holds of the queues and events whoever is doing what. -/
structure Consistent (host : Host Queue Ev Thread) : Prop where
  ordered : ∀ queue, (host.queues queue).Ordered
  counted : ∀ future name enqueueCount, host.CompletionAt future name enqueueCount →
    1 ≤ enqueueCount ∧ enqueueCount ≤ (host.events name).enqueueCount
  unique : ∀ first second name enqueueCount, host.CompletionAt first name enqueueCount →
    host.CompletionAt second name enqueueCount → first = second
  signalled : ∀ name, ∀ enqueueCount ∈ (host.events name).signalled,
    ∃ future, host.CompletionAt future name enqueueCount ∧ host.FinishedBefore future
  returned : ∀ future name enqueueCount, host.CompletionAt future name enqueueCount →
    future.promise ∈ (host.queues future.queue).finished →
      enqueueCount ∈ (host.events name).signalled
  waited : ∀ queue promise name future,
    (host.queues queue).submitted[promise]? = some (.wait name (.ofTask future)) →
      promise ∈ (host.queues queue).finished →
        future.promise ∈ (host.queues future.queue).finished
  ready : ∀ name, (host.events name).lastReadyEnqueueCount = 0 ∨
    (host.events name).lastReadyEnqueueCount ∈ (host.events name).signalled
  latest : ∀ name, (host.events name).mutex = none → host.Latest name (host.events name)
  guarded : ∀ barrier ∈ host.barriers, host.Guarded barrier

/-- No enqueue is ready that has not been counted. -/
theorem Consistent.ready_le (consistent : host.Consistent) (name : Ev) :
    (host.events name).lastReadyEnqueueCount ≤ (host.events name).enqueueCount := by
  rcases consistent.ready name with zero | done
  · exact zero ▸ Nat.zero_le _
  · obtain ⟨future, found, -⟩ := consistent.signalled name _ done
    exact (consistent.counted future name _ found).2

/-- What a thread knows at a point of its call. -/
def ThreadKnows (host : Host Queue Ev Thread) (thread : Thread) : ThreadPoint Queue Ev → Prop
  | .enqueueCount _ name | .waitForCheck _ name | .waitRead name | .waitCheck name _ =>
      (host.events name).mutex = some (.thread thread) ∧ host.Latest name (host.events name)
  | .enqueueSubmit _ name enqueueCount =>
      (host.events name).mutex = some (.thread thread) ∧
        enqueueCount = (host.events name).enqueueCount ∧ 1 ≤ enqueueCount ∧
          ∀ future, ¬ host.CompletionAt future name enqueueCount
  | .enqueueFuture name future =>
      (host.events name).mutex = some (.thread thread) ∧
        host.CompletionAt future name (host.events name).enqueueCount
  | .waitForSubmit _ name oldFuture latest =>
      ∃ future, oldFuture = .ofTask future ∧ host.CompletionAt future name latest
  | _ => True

/-- What a worker knows at a point of a task. -/
def TaskKnows (host : Host Queue Ev Thread) (queue : Queue) :
    QueueTask Queue Ev → TaskPoint → Prop
  | .completion name _, .locked =>
      (host.events name).mutex = some (.worker queue) ∧ host.Latest name (host.events name)
  | .completion name enqueueCount, .signalled =>
      (host.events name).mutex = some (.worker queue) ∧ host.Latest name (host.events name) ∧
        enqueueCount ∈ (host.events name).signalled
  | .completion name enqueueCount, .unlocked => enqueueCount ∈ (host.events name).signalled
  | _, _ => True

/-- What each agent knows. -/
def Knows (host : Host Queue Ev Thread) : Agent Queue Thread → Prop
  | .thread thread => host.ThreadKnows thread (host.threads thread)
  | .worker queue => ∀ package point, (host.queues queue).worker = .running package point →
      host.TaskKnows queue package.task point

/-! ## What other agents may do -/

/-- A step of an agent: history grows, events whose mutex someone else holds stay as
they are and get no new completion task, and nobody else moves. -/
structure Respects (agent : Agent Queue Thread) (host next : Host Queue Ev Thread) : Prop where
  history : ∀ queue, (host.queues queue).Extends (next.queues queue)
  signalled : ∀ name, (host.events name).signalled ⊆ (next.events name).signalled
  event : ∀ name other, (host.events name).mutex = some other → other ≠ agent →
    next.events name = host.events name
  completion : ∀ name other, (host.events name).mutex = some other → other ≠ agent →
    ∀ future enqueueCount, next.CompletionAt future name enqueueCount →
      host.CompletionAt future name enqueueCount
  threads : ∀ thread, .thread thread ≠ agent → next.threads thread = host.threads thread
  workers : ∀ queue, .worker queue ≠ agent → ∀ package point,
    (next.queues queue).worker = .running package point →
      (host.queues queue).worker = .running package point

theorem Respects.completionAt (respects : Respects agent host next) {future : Future Queue}
    {name : Ev} {enqueueCount : ℕ} (found : host.CompletionAt future name enqueueCount) :
    next.CompletionAt future name enqueueCount :=
  (respects.history future.queue).getElem? found

theorem Respects.refl (agent : Agent Queue Thread) (host : Host Queue Ev Thread) :
    Respects agent host host where
  history := fun _ => .refl _
  signalled := fun _ => List.Subset.refl _
  event := fun _ _ _ _ => rfl
  completion := fun _ _ _ _ _ _ found => found
  threads := fun _ _ => rfl
  workers := fun _ _ _ _ working => working

theorem Respects.trans {last : Host Queue Ev Thread} (first : Respects agent host next)
    (second : Respects agent next last) : Respects agent host last where
  history := fun queue => (first.history queue).trans (second.history queue)
  signalled := fun name => List.Subset.trans (first.signalled name) (second.signalled name)
  event := fun name other held different => by
    have same := first.event name other held different
    rw [second.event name other (same ▸ held) different, same]
  completion := fun name other held different future enqueueCount found => by
    have same := first.event name other held different
    apply first.completion name other held different
    exact second.completion name other (same ▸ held) different future enqueueCount found
  threads := fun thread other => by rw [second.threads thread other, first.threads thread other]
  workers := fun queue other package point working =>
    first.workers queue other package point (second.workers queue other package point working)

/-- An assertion about an event holds on while its mutex is held. -/
theorem Respects.latest (respects : Respects agent host next) {other : Agent Queue Thread}
    {name : Ev} (held : (host.events name).mutex = some other) (different : other ≠ agent)
    (latest : host.Latest name (host.events name)) : next.Latest name (next.events name) := by
  intro several
  rw [respects.event name other held different] at several ⊢
  obtain ⟨future, same, found⟩ := latest several
  exact ⟨future, same, respects.completionAt found⟩

/-- **Nobody is disturbed.** A step of one agent leaves what the others know. -/
theorem Respects.knows (respects : Respects agent host next) {other : Agent Queue Thread}
    (different : other ≠ agent) (knows : host.Knows other) : next.Knows other := by
  cases other with
  | thread thread =>
      change host.ThreadKnows thread (host.threads thread) at knows
      change next.ThreadKnows thread (next.threads thread)
      rw [respects.threads thread different]
      cases point : host.threads thread with
      | enqueueCount _ name | waitForCheck _ name | waitRead name | waitCheck name _ =>
          rw [point] at knows
          obtain ⟨held, latest⟩ := knows
          refine ⟨?_, respects.latest held different latest⟩
          rw [respects.event name _ held different]
          exact held
      | enqueueSubmit _ name enqueueCount =>
          rw [point] at knows
          obtain ⟨held, same, positive, fresh⟩ := knows
          simp only [ThreadKnows]
          rw [respects.event name _ held different]
          refine ⟨held, same, positive, fun future found => fresh future ?_⟩
          exact respects.completion name _ held different future enqueueCount found
      | enqueueFuture name future =>
          rw [point] at knows
          obtain ⟨held, found⟩ := knows
          simp only [ThreadKnows]
          rw [respects.event name _ held different]
          exact ⟨held, respects.completionAt found⟩
      | waitForSubmit _ name oldFuture latest =>
          rw [point] at knows
          obtain ⟨future, same, found⟩ := knows
          exact ⟨future, same, respects.completionAt found⟩
      | idle | submitHostFn | enqueueLock | waitForLock | waitLock | waitGet | waitRelock =>
          trivial
  | worker queue =>
      intro package point working
      have task := knows package point (respects.workers queue different package point working)
      cases running : package.task with
      | hostFn | wait => trivial
      | completion name enqueueCount =>
          rw [running] at task
          cases point with
          | begin => trivial
          | locked =>
              obtain ⟨held, latest⟩ := task
              refine ⟨?_, respects.latest held different latest⟩
              rw [respects.event name _ held different]
              exact held
          | signalled =>
              obtain ⟨held, latest, done⟩ := task
              refine ⟨?_, respects.latest held different latest, respects.signalled name done⟩
              rw [respects.event name _ held different]
              exact held
          | unlocked => exact respects.signalled name task

/-! ## The parts of a step -/

variable {queue : Queue} {name : Ev} {thread : Thread}

theorem queues_setQueue [DecidableEq Queue]
    (changed : CallbackThread (QueueTask Queue Ev) TaskPoint) (other : Queue) :
    (host.setQueue queue changed).queues other =
      if other = queue then changed else host.queues other :=
  Function.update_apply _ _ _ _

theorem events_setEvent [DecidableEq Ev] (changed : Event Queue Thread) (other : Ev) :
    (host.setEvent name changed).events other =
      if other = name then changed else host.events other :=
  Function.update_apply _ _ _ _

/-- An event is changed and its mutex released. -/
theorem unlock_setEvent [DecidableEq Ev] (changed : Event Queue Thread) :
    (host.setEvent name changed).unlock name =
      host.setEvent name { changed with mutex := none } := by
  unfold Host.unlock Host.setEvent
  dsimp only
  rw [Function.update_self, Function.update_idem]

theorem Consistent.setThread [DecidableEq Thread] (consistent : host.Consistent)
    (point : ThreadPoint Queue Ev) :
    (host.setThread thread point).Consistent :=
  ⟨consistent.ordered, consistent.counted, consistent.unique, consistent.signalled,
    consistent.returned, consistent.waited, consistent.ready, consistent.latest,
    consistent.guarded⟩

theorem respects_setThread [DecidableEq Thread] (point : ThreadPoint Queue Ev) :
    Respects (.thread thread) host (host.setThread thread point) where
  history := fun _ => .refl _
  signalled := fun _ => List.Subset.refl _
  event := fun _ _ _ _ => rfl
  completion := fun _ _ _ _ _ _ found => found
  threads := fun _ different =>
    Function.update_of_ne (fun same => different (congrArg Agent.thread same)) _ _
  workers := fun _ _ _ _ working => working

/-- An event may be changed by who holds its mutex or finds it free. -/
theorem respects_setEvent [DecidableEq Ev] {changed : Event Queue Thread}
    (mine : (host.events name).mutex = none ∨ (host.events name).mutex = some agent)
    (grows : (host.events name).signalled ⊆ changed.signalled) :
    Respects agent host (host.setEvent name changed) where
  history := fun _ => .refl _
  signalled := fun other => by
    rw [events_setEvent]
    split
    case isTrue same => exact same ▸ grows
    case isFalse => exact List.Subset.refl _
  event := fun other holder held different => by
    rw [events_setEvent, if_neg]
    intro same
    rw [same] at held
    obtain free | owned := mine
    · rw [free] at held
      cases held
    · rw [owned] at held
      cases held
      exact different rfl
  completion := fun _ _ _ _ _ _ found => found
  threads := fun _ _ => rfl
  workers := fun _ _ _ _ working => working

/-- A change of an event that keeps the counts, forgets no completion and leaves a
free event with the future of its latest enqueue. -/
theorem Consistent.setEvent [DecidableEq Ev] (consistent : host.Consistent)
    {changed : Event Queue Thread}
    (counted : (host.events name).enqueueCount ≤ changed.enqueueCount)
    (grows : (host.events name).signalled ⊆ changed.signalled)
    (signalled : ∀ enqueueCount ∈ changed.signalled,
      enqueueCount ∈ (host.events name).signalled ∨
        ∃ future, host.CompletionAt future name enqueueCount ∧ host.FinishedBefore future)
    (ready : changed.lastReadyEnqueueCount = 0 ∨
      changed.lastReadyEnqueueCount ∈ changed.signalled)
    (latest : changed.mutex = none → host.Latest name changed) :
    (host.setEvent name changed).Consistent where
  ordered := consistent.ordered
  counted := fun future other enqueueCount found => by
    obtain ⟨positive, bound⟩ := consistent.counted future other enqueueCount found
    refine ⟨positive, ?_⟩
    rw [events_setEvent]
    split
    case isTrue same => exact (same ▸ bound).trans counted
    case isFalse => exact bound
  unique := consistent.unique
  signalled := fun other enqueueCount member => by
    rw [events_setEvent] at member
    split at member
    case isTrue same =>
      rw [same]
      obtain old | new := signalled enqueueCount member
      · exact consistent.signalled name enqueueCount old
      · exact new
    case isFalse => exact consistent.signalled other enqueueCount member
  returned := fun future other enqueueCount found finished => by
    have member := consistent.returned future other enqueueCount found finished
    rw [events_setEvent]
    split
    case isTrue same => exact grows (same ▸ member)
    case isFalse => exact member
  waited := consistent.waited
  ready := fun other => by
    rw [events_setEvent]
    split
    case isTrue => exact ready
    case isFalse => exact consistent.ready other
  latest := fun other free => by
    rw [events_setEvent] at free ⊢
    split at free
    case isTrue same =>
      rw [if_pos same, same]
      exact latest free
    case isFalse different =>
      rw [if_neg different]
      exact consistent.latest other free
  guarded := fun barrier member => by
    obtain zero | done | submitted := consistent.guarded barrier member
    · exact .inl zero
    · refine .inr (.inl ?_)
      rw [events_setEvent]
      split
      case isTrue same => exact grows (same ▸ done)
      case isFalse => exact done
    · exact .inr (.inr submitted)

/-- A queue may be changed by its worker, and by others as long as the running task
stays where it is; a new completion task needs the mutex of its event. -/
theorem respects_setQueue [DecidableEq Queue]
    {changed : CallbackThread (QueueTask Queue Ev) TaskPoint}
    (history : (host.queues queue).Extends changed)
    (mine : ∀ (promise : ℕ) (name : Ev) (enqueueCount : ℕ),
      changed.submitted[promise]? = some (.completion name enqueueCount) →
        (host.queues queue).submitted[promise]? = some (.completion name enqueueCount) ∨
          (host.events name).mutex = some agent)
    (working : agent = .worker queue ∨ ∀ package point,
      changed.worker = .running package point →
        (host.queues queue).worker = .running package point) :
    Respects agent host (host.setQueue queue changed) where
  history := fun other => by
    rw [queues_setQueue]
    split
    case isTrue same => exact same ▸ history
    case isFalse => exact .refl _
  signalled := fun _ => List.Subset.refl _
  event := fun _ _ _ _ => rfl
  completion := fun name other held different future enqueueCount found => by
    unfold CompletionAt at found ⊢
    rw [queues_setQueue] at found
    split at found
    case isTrue same =>
      rw [same]
      obtain old | owned := mine _ _ _ found
      · exact old
      · rw [owned] at held
        cases held
        exact absurd rfl different
    case isFalse => exact found
  threads := fun _ _ => rfl
  workers := fun other different package point running => by
    rw [queues_setQueue] at running
    split at running
    case isTrue same =>
      rw [same] at different ⊢
      obtain worker | kept := working
      · exact absurd worker.symm different
      · exact kept package point running
    case isFalse => exact running

/-- A change of a queue that submits nothing. A task that newly counts as finished
has done what it stands for. -/
theorem Consistent.setQueue [DecidableEq Queue] (consistent : host.Consistent)
    {changed : CallbackThread (QueueTask Queue Ev) TaskPoint} (ordered : changed.Ordered)
    (history : (host.queues queue).Extends changed)
    (submitted : changed.submitted = (host.queues queue).submitted)
    (finished : ∀ promise ∈ changed.finished, promise ∈ (host.queues queue).finished ∨
      (∀ name enqueueCount, (host.queues queue).submitted[promise]? =
        some (.completion name enqueueCount) → enqueueCount ∈ (host.events name).signalled) ∧
      ∀ name future, (host.queues queue).submitted[promise]? = some (.wait name (.ofTask future)) →
        future.promise ∈ (host.queues future.queue).finished) :
    (host.setQueue queue changed).Consistent := by
  have sameSubmitted (other : Queue) :
      ((host.setQueue queue changed).queues other).submitted = (host.queues other).submitted := by
    rw [queues_setQueue]
    split
    case isTrue same => rw [same, submitted]
    case isFalse => rfl
  have grows (other : Queue) : (host.queues other).finished ⊆
      ((host.setQueue queue changed).queues other).finished := by
    rw [queues_setQueue]
    split
    case isTrue same => exact same ▸ history.finished
    case isFalse => exact List.Subset.refl _
  have completionAt (future : Future Queue) (name : Ev) (enqueueCount : ℕ) :
      (host.setQueue queue changed).CompletionAt future name enqueueCount ↔
        host.CompletionAt future name enqueueCount := by
    unfold CompletionAt
    rw [sameSubmitted]
  refine ⟨fun other => ?_, fun future name enqueueCount found => ?_,
    fun first second name enqueueCount found other => ?_, fun name enqueueCount member => ?_,
    fun future name enqueueCount found done => ?_,
    fun other promise name future found done => ?_, consistent.ready,
    fun name free several => ?_, fun barrier member => ?_⟩
  · rw [queues_setQueue]
    split
    case isTrue => exact ordered
    case isFalse => exact consistent.ordered other
  · exact consistent.counted future name enqueueCount ((completionAt _ _ _).mp found)
  · exact consistent.unique first second name enqueueCount ((completionAt _ _ _).mp found)
      ((completionAt _ _ _).mp other)
  · obtain ⟨future, found, before⟩ := consistent.signalled name enqueueCount member
    exact ⟨future, (completionAt _ _ _).mpr found,
      fun promise earlier => grows _ (before promise earlier)⟩
  · rw [completionAt] at found
    rw [queues_setQueue] at done
    split at done
    case isTrue same =>
      obtain old | ⟨new, -⟩ := finished _ done
      · exact consistent.returned future name enqueueCount found (same ▸ old)
      · exact new name enqueueCount (same ▸ found)
    case isFalse => exact consistent.returned future name enqueueCount found done
  · rw [sameSubmitted] at found
    apply grows
    rw [queues_setQueue] at done
    split at done
    case isTrue same =>
      rw [same] at found
      obtain old | ⟨-, new⟩ := finished _ done
      · exact consistent.waited queue promise name future found old
      · exact new name future found
    case isFalse => exact consistent.waited other promise name future found done
  · obtain ⟨future, same, found⟩ := consistent.latest name free several
    exact ⟨future, same, (completionAt _ _ _).mpr found⟩
  · obtain zero | done | ⟨promise, earlier, future, found, enqueued⟩ :=
      consistent.guarded barrier member
    · exact .inl zero
    · exact .inr (.inl done)
    · refine .inr (.inr ⟨promise, earlier, future, ?_, (completionAt _ _ _).mpr enqueued⟩)
      rw [sameSubmitted]
      exact found

/-- A submission. A completion task is for the latest enqueue of an event whose
mutex is held, and the first one for it. -/
theorem Consistent.submit [DecidableEq Queue] (consistent : host.Consistent) (queue : Queue)
    (task : QueueTask Queue Ev)
    (fresh : ∀ name enqueueCount, task = .completion name enqueueCount →
      1 ≤ enqueueCount ∧ enqueueCount = (host.events name).enqueueCount ∧
        ∀ future, ¬ host.CompletionAt future name enqueueCount) :
    (host.setQueue queue ((host.queues queue).submit task).2).Consistent := by
  have grows (other : Queue) : (host.queues other).Extends
      ((host.setQueue queue ((host.queues queue).submit task).2).queues other) := by
    rw [queues_setQueue]
    split
    case isTrue same => exact same ▸ submit_extends task
    case isFalse => exact .refl _
  have sameFinished (other : Queue) :
      ((host.setQueue queue ((host.queues queue).submit task).2).queues other).finished =
        (host.queues other).finished := by
    rw [queues_setQueue]
    split
    case isTrue same =>
      rw [same]
      rfl
    case isFalse => rfl
  -- A task is an old one, or the new one, which has not been started.
  have found_iff {other : Queue} {promise : ℕ} {someTask : QueueTask Queue Ev}
      (found : ((host.setQueue queue ((host.queues queue).submit task).2).queues
        other).submitted[promise]? = some someTask) :
      (host.queues other).submitted[promise]? = some someTask ∨
        other = queue ∧ promise = (host.queues queue).submitted.length ∧ someTask = task := by
    rw [queues_setQueue] at found
    split at found
    case isTrue same =>
      rw [same]
      obtain old | new := getElem?_submit found
      · exact .inl old
      · exact .inr ⟨rfl, new⟩
    case isFalse => exact .inl found
  have unfinished : (host.queues queue).submitted.length ∉ (host.queues queue).finished :=
    fun member => lt_irrefl _ ((consistent.ordered queue).submitted_of_finished member)
  refine ⟨fun other => ?_, fun future name enqueueCount found => ?_,
    fun first second name enqueueCount found other => ?_, fun name enqueueCount member => ?_,
    fun future name enqueueCount found done => ?_,
    fun other promise name future found done => ?_, consistent.ready,
    fun name free several => ?_, fun barrier member => ?_⟩
  · rw [queues_setQueue]
    split
    case isTrue =>
      obtain ⟨done, inOrder⟩ := consistent.ordered queue
      exact ⟨done, inOrder.submit task⟩
    case isFalse => exact consistent.ordered other
  · obtain old | ⟨-, -, new⟩ := found_iff found
    · exact consistent.counted future name enqueueCount old
    · obtain ⟨positive, same, -⟩ := fresh name enqueueCount new.symm
      exact ⟨positive, same.le⟩
  · obtain old | ⟨here, position, new⟩ := found_iff found
    · obtain old' | ⟨-, -, new⟩ := found_iff other
      · exact consistent.unique first second name enqueueCount old old'
      · exact absurd old ((fresh name enqueueCount new.symm).2.2 first)
    · obtain old' | ⟨here', position', -⟩ := found_iff other
      · exact absurd old' ((fresh name enqueueCount new.symm).2.2 second)
      · cases first
        cases second
        exact congrArg₂ Future.mk (here.trans here'.symm) (position.trans position'.symm)
  · obtain ⟨future, found, before⟩ := consistent.signalled name enqueueCount member
    exact ⟨future, (grows _).getElem? found,
      fun promise earlier => (grows _).finished (before promise earlier)⟩
  · rw [sameFinished] at done
    obtain old | ⟨here, position, -⟩ := found_iff found
    · exact consistent.returned future name enqueueCount old done
    · rw [here, position] at done
      exact absurd done unfinished
  · rw [sameFinished] at done ⊢
    obtain old | ⟨here, position, -⟩ := found_iff found
    · exact consistent.waited other promise name future old done
    · rw [here, position] at done
      exact absurd done unfinished
  · obtain ⟨future, same, found⟩ := consistent.latest name free several
    exact ⟨future, same, (grows _).getElem? found⟩
  · obtain zero | done | ⟨promise, earlier, future, found, enqueued⟩ :=
      consistent.guarded barrier member
    · exact .inl zero
    · exact .inr (.inl done)
    · exact .inr (.inr ⟨promise, earlier, future, (grows _).getElem? found,
        (grows _).getElem? enqueued⟩)

theorem Consistent.setBarrier (consistent : host.Consistent) {latest : ℕ}
    (guarded : host.Guarded ⟨queue, name, latest, (host.queues queue).submitted.length⟩) :
    (host.setBarrier queue name latest).Consistent :=
  ⟨consistent.ordered, consistent.counted, consistent.unique, consistent.signalled,
    consistent.returned, consistent.waited, consistent.ready, consistent.latest,
    fun barrier member => by
      obtain old | new := List.mem_append.mp member
      · exact consistent.guarded barrier old
      · rw [List.mem_singleton.mp new]
        exact guarded⟩

theorem respects_setBarrier {latest : ℕ} :
    Respects agent host (host.setBarrier queue name latest) where
  history := fun _ => .refl _
  signalled := fun _ => List.Subset.refl _
  event := fun _ _ _ _ => rfl
  completion := fun _ _ _ _ _ _ found => found
  threads := fun _ _ => rfl
  workers := fun _ _ _ _ working => working

/-- Who acquires a mutex finds the future of the latest enqueue. -/
theorem Consistent.lock [DecidableEq Ev] (consistent : host.Consistent)
    (locked : host.lock name agent = some next) :
    next.Consistent ∧ Respects agent host next ∧ (next.events name).mutex = some agent ∧
      next.Latest name (next.events name) := by
  unfold Host.lock at locked
  split at locked
  case isFalse => cases locked
  case isTrue free =>
    cases locked
    rw [events_setEvent, if_pos rfl]
    refine ⟨consistent.setEvent le_rfl (List.Subset.refl _) (fun _ old => .inl old)
      (consistent.ready name) ?_, respects_setEvent (.inl free) (List.Subset.refl _), rfl,
      consistent.latest name free⟩
    intro impossible
    cases impossible

theorem Consistent.unlock [DecidableEq Ev] (consistent : host.Consistent)
    (held : (host.events name).mutex = some agent)
    (latest : host.Latest name (host.events name)) :
    (host.unlock name).Consistent ∧ Respects agent host (host.unlock name) :=
  ⟨consistent.setEvent le_rfl (List.Subset.refl _) (fun _ old => .inl old)
    (consistent.ready name) fun _ => latest, respects_setEvent (.inr held) (List.Subset.refl _)⟩

theorem unchanged_complete (enqueueCount : ℕ) (event : Event Queue Thread) :
    (event.complete enqueueCount).mutex = event.mutex ∧
      (event.complete enqueueCount).future = event.future ∧
        (event.complete enqueueCount).enqueueCount = event.enqueueCount := by
  unfold Event.complete
  dsimp only
  split
  · exact ⟨rfl, rfl, rfl⟩
  · exact ⟨rfl, rfl, rfl⟩

theorem signalled_complete (enqueueCount : ℕ) (event : Event Queue Thread) :
    (event.complete enqueueCount).signalled = event.signalled ++ [enqueueCount] := by
  unfold Event.complete
  dsimp only
  split
  · rfl
  · rfl

/-- The event becomes ready for an enqueue that has completed, or stays as it was. -/
theorem ready_complete (enqueueCount : ℕ) (event : Event Queue Thread) :
    (event.complete enqueueCount).lastReadyEnqueueCount = event.lastReadyEnqueueCount ∨
      (event.complete enqueueCount).lastReadyEnqueueCount = enqueueCount := by
  unfold Event.complete
  dsimp only
  split
  · obtain small | large := Nat.le_total enqueueCount event.lastReadyEnqueueCount
    · exact .inl (Nat.max_eq_right small)
    · exact .inr (Nat.max_eq_left large)
  · exact .inl rfl

theorem Consistent.complete [DecidableEq Ev] (consistent : host.Consistent) {enqueueCount : ℕ}
    (done : ∃ future, host.CompletionAt future name enqueueCount ∧ host.FinishedBefore future) :
    (host.setEvent name ((host.events name).complete enqueueCount)).Consistent := by
  obtain ⟨mutex, future, count⟩ := unchanged_complete enqueueCount (host.events name)
  have signalled := signalled_complete enqueueCount (host.events name)
  refine consistent.setEvent count.ge (signalled ▸ List.subset_append_left _ _)
    (fun number new => ?_) ?_ fun free several => ?_
  · rw [signalled] at new
    obtain old | last := List.mem_append.mp new
    · exact .inl old
    · rw [List.mem_singleton.mp last]
      exact .inr done
  · rw [signalled]
    obtain same | same := ready_complete enqueueCount (host.events name)
    · rw [same]
      obtain zero | old := consistent.ready name
      · exact .inl zero
      · exact .inr (List.mem_append_left _ old)
    · rw [same]
      exact .inr (List.mem_append_right _ (List.mem_singleton_self _))
  · rw [mutex] at free
    rw [count] at several ⊢
    rw [future]
    exact consistent.latest name free several

/-- A submission that is no completion task disturbs nobody. -/
theorem respects_submit [DecidableEq Queue] (queue : Queue) (task : QueueTask Queue Ev)
    (mine : ∀ name enqueueCount, task = .completion name enqueueCount →
      (host.events name).mutex = some agent) :
    Respects agent host (host.setQueue queue ((host.queues queue).submit task).2) := by
  apply respects_setQueue (submit_extends task)
  · intro promise name enqueueCount found
    obtain old | ⟨-, new⟩ := getElem?_submit found
    · exact .inl old
    · exact .inr (mine name enqueueCount new.symm)
  · exact .inr fun package point => running_submit.mp

end Alpaka.Host
