import Alpaka.Host.BlockingQueues
import Alpaka.Host.EventInvariant

/-! # The invariant of queues of both kinds

Who holds which mutex can be read off the points at which the threads and workers are; the
futures that are waited for belong to tasks that have been submitted, those of a waiting
task to earlier ones (`Alpaka.MixedHost.Coherent`). This stays so if one agent moves, takes
or releases a mutex, and leaves the events with a future to wait for
(`Alpaka.MixedHost.Coherent.takes`).
-/

namespace Alpaka.MixedHost

open CallbackThread Math.WaitFor

variable {Queue Blocking Ev Thread : Type*} {mixed next : MixedHost Queue Blocking Ev Thread}

/-! ## Who holds what -/

/-- The event whose mutex a thread holds, in a call on a non-blocking queue. -/
def threadHolds : ThreadPoint Queue Ev → Option Ev
  | .enqueueCount _ name | .enqueueSubmit _ name _ | .enqueueFuture name _
  | .waitForCheck _ name | .waitRead name | .waitCheck name _ => some name
  | _ => none

/-- The event whose mutex a thread holds, in a call on a blocking queue. -/
def pointHolds : BlockingPoint Queue Blocking Ev → Option Ev
  | .enqueueCount _ name | .enqueueQueueLock _ name _ | .enqueueComplete _ name _
  | .enqueueUnlock name | .waitForCheck _ name | .waitForQueueLock _ name
  | .waitForUnlock _ name _ | .completeRead name => some name
  | _ => none

/-- The event whose mutex a worker holds. -/
def workerHolds : Worker (QueueTask Queue Ev) TaskPoint → Option Ev
  | .running ⟨.completion name _, _⟩ .locked | .running ⟨.completion name _, _⟩ .signalled =>
      some name
  | _ => none

def holdsEvent (mixed : MixedHost Queue Blocking Ev Thread) : Agent Queue Thread → Option Ev
  | .thread thread =>
      (threadHolds (mixed.host.threads thread)).or (pointHolds (mixed.points thread))
  | .worker queue => workerHolds (mixed.host.queues queue).worker

theorem holdsEvent_thread (mixed : MixedHost Queue Blocking Ev Thread) (thread : Thread) :
    mixed.holdsEvent (.thread thread) =
      (threadHolds (mixed.host.threads thread)).or (pointHolds (mixed.points thread)) := rfl

/-- The blocking queue whose mutex a thread holds. -/
def holdsQueue : BlockingPoint Queue Blocking Ev → Option Blocking
  | .hostFnRun queue | .enqueueComplete queue _ _ | .waitForUnlock queue _ _
  | .waitForGet queue _ => some queue
  | _ => none

def threadRenews : ThreadPoint Queue Ev → Option Ev
  | .enqueueSubmit _ name _ | .enqueueFuture name _ => some name
  | _ => none

def pointRenews : BlockingPoint Queue Blocking Ev → Option Ev
  | .enqueueQueueLock _ name _ | .enqueueComplete _ name _ => some name
  | _ => none

/-- The event that a thread has counted up and not given its future yet. -/
def renews (mixed : MixedHost Queue Blocking Ev Thread) (thread : Thread) : Option Ev :=
  (threadRenews (mixed.host.threads thread)).or (pointRenews (mixed.points thread))

theorem pointHolds_idle : pointHolds (.idle : BlockingPoint Queue Blocking Ev) = none := rfl

theorem pointRenews_idle : pointRenews (.idle : BlockingPoint Queue Blocking Ev) = none := rfl

theorem threadHolds_of_renews {point : ThreadPoint Queue Ev} {name : Ev}
    (renews : threadRenews point = some name) : threadHolds point = some name := by
  cases point with
  | enqueueSubmit | enqueueFuture => exact renews
  | _ => cases renews

private theorem pointHolds_of_renews {point : BlockingPoint Queue Blocking Ev} {name : Ev}
    (renews : pointRenews point = some name) : pointHolds point = some name := by
  cases point with
  | enqueueQueueLock | enqueueComplete => exact renews
  | _ => cases renews

/-! ## What is known about futures -/

/-- A future that will be ready: there is one, and its task has been submitted. -/
def Known (mixed : MixedHost Queue Blocking Ev Thread) : SharedFuture Queue → Prop
  | .invalid => False
  | .ready => True
  | .ofTask task => task ∈ mixed.log

theorem Known.mono {future : SharedFuture Queue} (known : mixed.Known future)
    (grows : mixed.log ⊆ next.log) : next.Known future := by
  cases future with
  | invalid => exact known
  | ready => trivial
  | ofTask task => exact grows known

private theorem renews_congr {thread : Thread}
    (same : next.host.threads thread = mixed.host.threads thread ∧
      next.points thread = mixed.points thread) : next.renews thread = mixed.renews thread := by
  unfold renews
  rw [same.1, same.2]

def ThreadInformed (mixed : MixedHost Queue Blocking Ev Thread) : ThreadPoint Queue Ev → Prop
  | .enqueueFuture _ future => future ∈ mixed.log
  | .waitForSubmit _ _ future _ => mixed.Known future
  | .waitGet name enqueueCount future =>
      mixed.Known future ∧ enqueueCount ≤ (mixed.host.events name).enqueueCount
  | .waitCheck name enqueueCount | .waitRelock name enqueueCount =>
      enqueueCount ≤ (mixed.host.events name).enqueueCount
  | _ => True

theorem ThreadInformed.mono {point : ThreadPoint Queue Ev} (informed : mixed.ThreadInformed point)
    (grows : mixed.log ⊆ next.log)
    (counts : ∀ name, (mixed.host.events name).enqueueCount ≤
      (next.host.events name).enqueueCount) : next.ThreadInformed point := by
  cases point with
  | enqueueFuture name future => exact grows informed
  | waitForSubmit _ _ future _ => exact Known.mono informed grows
  | waitGet name enqueueCount future =>
      exact ⟨informed.1.mono grows, informed.2.trans (counts name)⟩
  | waitCheck name enqueueCount | waitRelock name enqueueCount =>
      exact (show _ ≤ _ from informed).trans (counts name)
  | idle | submitHostFn | enqueueLock | enqueueCount | enqueueSubmit | waitForLock
    | waitForCheck | waitLock | waitRead => trivial

def PointInformed (mixed : MixedHost Queue Blocking Ev Thread) :
    BlockingPoint Queue Blocking Ev → Prop
  | .waitForQueueLock _ name => mixed.Known (mixed.host.events name).future
  | .waitForUnlock _ _ sFuture | .waitForGet _ sFuture => mixed.Known sFuture
  | _ => True

/-- An event that has been enqueued has a future, or is about to get one. -/
structure EventOk (mixed : MixedHost Queue Blocking Ev Thread) (name : Ev) : Prop where
  ready : (mixed.host.events name).lastReadyEnqueueCount ≤ (mixed.host.events name).enqueueCount
  future : 1 ≤ (mixed.host.events name).enqueueCount →
    mixed.Known (mixed.host.events name).future ∨ ∃ thread, mixed.renews thread = some name

theorem EventOk.ready_complete {name : Ev} (ok : mixed.EventOk name) (enqueueCount : ℕ) :
    ((mixed.host.events name).complete enqueueCount).lastReadyEnqueueCount ≤
      (mixed.host.events name).enqueueCount := by
  unfold Event.complete
  dsimp only
  split
  case isTrue latest => exact max_le latest.le ok.ready
  case isFalse => exact ok.ready

variable [DecidableEq Queue]

/-- The log has the submitted tasks, those of a queue in their order, and a waiting task
behind the one it waits for. -/
structure LogOk (queues : Queue → CallbackThread (QueueTask Queue Ev) TaskPoint)
    (log : List (Future Queue)) : Prop where
  submitted : ∀ future, future ∈ log ↔ future.promise < (queues future.queue).submitted.length
  ordered : ∀ first ∈ log, ∀ second ∈ log, first.queue = second.queue →
    first.promise ≤ second.promise → log.idxOf first ≤ log.idxOf second
  waits : ∀ queue promise name future,
    (queues queue).submitted[promise]? = some (.wait name future) →
      future = .ready ∨ ∃ task ∈ log, future = .ofTask task ∧
        log.idxOf task < log.idxOf ⟨queue, promise⟩

/-- **What holds of queues of both kinds.** -/
structure Coherent (mixed : MixedHost Queue Blocking Ev Thread) : Prop where
  workers : ∀ queue, Going (mixed.host.queues queue)
  log : LogOk mixed.host.queues mixed.log
  events : ∀ name, mixed.EventOk name
  ownedEvents : Owned (fun name => (mixed.host.events name).mutex) mixed.holdsEvent
  ownedQueues : Owned (fun queue => (mixed.blocking queue).mutex)
    fun thread => holdsQueue (mixed.points thread)
  single : ∀ thread, mixed.host.threads thread = .idle ∨ mixed.points thread = .idle
  informed : ∀ thread, mixed.ThreadInformed (mixed.host.threads thread) ∧
    mixed.PointInformed (mixed.points thread)

/-! ## Submitting -/

private theorem idxOf_append_le {log rest : List (Future Queue)} {first second : Future Queue}
    (member : first ∈ log) (le : second ∈ log → log.idxOf first ≤ log.idxOf second) :
    (log ++ rest).idxOf first ≤ (log ++ rest).idxOf second := by
  rw [List.idxOf_append_of_mem member]
  by_cases inside : second ∈ log
  · rw [List.idxOf_append_of_mem inside]
    exact le inside
  · rw [List.idxOf_append_of_notMem inside]
    exact (List.idxOf_le_length).trans (Nat.le_add_right _ _)

variable {queues : Queue → CallbackThread (QueueTask Queue Ev) TaskPoint}
  {log : List (Future Queue)}

/-- The log does not depend on how far the workers are. -/
theorem LogOk.congr (ok : LogOk queues log)
    {changed : Queue → CallbackThread (QueueTask Queue Ev) TaskPoint}
    (same : ∀ queue, (changed queue).submitted = (queues queue).submitted) :
    LogOk changed log where
  submitted := fun future => by rw [same, ok.submitted]
  ordered := ok.ordered
  waits := fun queue promise name future found =>
    ok.waits queue promise name future (same queue ▸ found)

theorem LogOk.submit (ok : LogOk queues log) (queue : Queue) (task : QueueTask Queue Ev)
    (known : ∀ name future, task = .wait name future →
      future = .ready ∨ ∃ earlier ∈ log, future = .ofTask earlier) :
    LogOk (Function.update queues queue ((queues queue).submit task).2)
      (log ++ [⟨queue, (queues queue).submitted.length⟩]) := by
  have length (other : Queue) :
      ((Function.update queues queue ((queues queue).submit task).2) other).submitted.length =
        (queues other).submitted.length + if other = queue then 1 else 0 := by
    rw [Function.update_apply]
    split
    case isTrue same =>
      rw [same]
      exact List.length_append
    case isFalse => rfl
  have fresh : (⟨queue, (queues queue).submitted.length⟩ : Future Queue) ∉ log := fun member =>
    lt_irrefl _ ((ok.submitted _).mp member)
  refine ⟨fun future => ?_, fun first member second member' same le => ?_,
    fun other promise name future found => ?_⟩
  · rw [List.mem_append, List.mem_singleton, ok.submitted, length]
    rcases future with ⟨other, promise⟩
    dsimp only
    rw [Future.mk.injEq]
    split
    case isTrue same =>
      subst same
      simp only [true_and]
      omega
    case isFalse different => simp only [different, false_and, or_false, Nat.add_zero]
  · rw [List.mem_append, List.mem_singleton] at member member'
    rcases member with old | new
    · exact idxOf_append_le old fun inside => ok.ordered first old second inside same le
    · rcases member' with old' | new'
      · -- The new task has the last number of its queue.
        have below := (ok.submitted second).mp old'
        rw [new] at same le
        rw [← same] at below
        exact absurd (below.trans_le le) (lt_irrefl _)
      · rw [new, new']
  · have old_or_new : (queues other).submitted[promise]? = some (.wait name future) ∨
        other = queue ∧ promise = (queues queue).submitted.length ∧ task = .wait name future := by
      rw [Function.update_apply] at found
      split at found
      case isTrue same =>
        rw [same]
        rcases getElem?_submit found with old | ⟨position, new⟩
        · exact .inl old
        · exact .inr ⟨rfl, position, new.symm⟩
      case isFalse => exact .inl found
    rcases old_or_new with old | ⟨here, position, new⟩
    · rcases ok.waits other promise name future old with ready | ⟨earlier, member, same, before⟩
      · exact .inl ready
      · refine .inr ⟨earlier, List.mem_append_left _ member, same, ?_⟩
        have inside : (⟨other, promise⟩ : Future Queue) ∈ log :=
          (ok.submitted _).mpr (List.getElem?_eq_some_iff.mp old).1
        rw [List.idxOf_append_of_mem member, List.idxOf_append_of_mem inside]
        exact before
    · rcases known name future new with ready | ⟨earlier, member, same⟩
      · exact .inl ready
      · refine .inr ⟨earlier, List.mem_append_left _ member, same, ?_⟩
        rw [here, position, List.idxOf_append_of_mem member, List.idxOf_append_of_notMem fresh]
        exact (List.idxOf_lt_length_iff.mpr member).trans_le (Nat.le_add_right _ _)

/-- What a step may do to the non-blocking queues, apart from moving a task. -/
structure Submits (mixed : MixedHost Queue Blocking Ev Thread)
    (queues : Queue → CallbackThread (QueueTask Queue Ev) TaskPoint)
    (log : List (Future Queue)) : Prop where
  workers : ∀ queue, Going (queues queue)
  logged : LogOk queues log
  grows : mixed.log ⊆ log
  holds : ∀ queue, workerHolds (queues queue).worker =
    workerHolds (mixed.host.queues queue).worker

theorem Coherent.submitsNothing (coherent : mixed.Coherent) :
    Submits mixed mixed.host.queues mixed.log :=
  ⟨coherent.workers, coherent.log, List.Subset.refl _, fun _ => rfl⟩

theorem Coherent.submits (coherent : mixed.Coherent) (queue : Queue) (task : QueueTask Queue Ev)
    (known : ∀ name future, task = .wait name future → mixed.Known future) :
    Submits mixed
      (Function.update mixed.host.queues queue ((mixed.host.queues queue).submit task).2)
      (mixed.log ++ [⟨queue, (mixed.host.queues queue).submitted.length⟩]) where
  workers := fun other => by
    rw [Function.update_apply]
    split
    case isFalse => exact coherent.workers other
    case isTrue => exact (coherent.workers queue).submit task
  logged := coherent.log.submit queue task fun name future same => by
    have informed := known name future same
    cases future with
    | invalid => exact informed.elim
    | ready => exact .inl rfl
    | ofTask earlier => exact .inr ⟨earlier, informed, rfl⟩
  grows := List.subset_append_left _ _
  holds := fun other => by
    rw [Function.update_apply]
    split
    case isFalse => rfl
    case isTrue same =>
      rw [same]
      rcases worker_submit (mixed.host.queues queue) task with same | ⟨absent, waiting⟩
      · rw [same]
      · rw [absent, waiting]
        rfl

/-! ## The parts of a step -/

/-- What a step of an agent may do to the counts and the future of an event. -/
structure EventStep (agent : Agent Queue Thread) (mixed next : MixedHost Queue Blocking Ev Thread)
    (name : Ev) : Prop where
  ready : (next.host.events name).lastReadyEnqueueCount ≤ (next.host.events name).enqueueCount
  counts : (mixed.host.events name).enqueueCount ≤ (next.host.events name).enqueueCount
  future : (next.host.events name).future = (mixed.host.events name).future ∨
    next.Known (next.host.events name).future
  counted : (next.host.events name).enqueueCount = (mixed.host.events name).enqueueCount ∨
    ∃ thread, next.renews thread = some name
  renewed : ∀ thread, .thread thread = agent → mixed.renews thread = some name →
    next.renews thread = some name ∨ next.Known (next.host.events name).future

/-- What a step of an agent establishes. -/
structure Takes (agent : Agent Queue Thread) (mixed next : MixedHost Queue Blocking Ev Thread) :
    Prop where
  workers : ∀ queue, Going (next.host.queues queue)
  logged : LogOk next.host.queues next.log
  grows : mixed.log ⊆ next.log
  events : ∀ name, EventStep agent mixed next name
  ownedEvents : Owned (fun name => (next.host.events name).mutex) next.holdsEvent
  ownedQueues : Owned (fun queue => (next.blocking queue).mutex)
    fun thread => holdsQueue (next.points thread)
  elsewhere : ∀ thread, .thread thread ≠ agent →
    next.host.threads thread = mixed.host.threads thread ∧
      next.points thread = mixed.points thread
  single : ∀ thread, .thread thread = agent →
    next.host.threads thread = .idle ∨ next.points thread = .idle
  informed : ∀ thread, .thread thread = agent →
    next.ThreadInformed (next.host.threads thread) ∧ next.PointInformed (next.points thread)

variable {agent : Agent Queue Thread}

private theorem Takes.eventOk (takes : Takes agent mixed next) {name : Ev}
    (ok : mixed.EventOk name) :
    next.EventOk name := by
  obtain ⟨ready, -, future, counted, renewed⟩ := takes.events name
  refine ⟨ready, fun several => ?_⟩
  rcases counted with same | renews
  · rcases ok.future (same ▸ several) with known | ⟨thread, renews⟩
    · rcases future with same | known
      · exact .inl (same ▸ known.mono takes.grows)
      · exact .inl known
    · by_cases mine : .thread thread = agent
      · rcases renewed thread mine renews with still | known
        · exact .inr ⟨thread, still⟩
        · exact .inl known
      · exact .inr ⟨thread, (renews_congr (takes.elsewhere thread mine)).trans renews⟩
  · exact .inr renews

/-- What a thread is informed of stays true. -/
theorem Takes.stays (takes : Takes agent mixed next) {thread : Thread}
    (informed : mixed.ThreadInformed (mixed.host.threads thread) ∧
      mixed.PointInformed (mixed.points thread)) :
    next.ThreadInformed (mixed.host.threads thread) ∧
      next.PointInformed (mixed.points thread) := by
  refine ⟨informed.1.mono takes.grows fun name => (takes.events name).counts, ?_⟩
  have blocking := informed.2
  cases point : mixed.points thread with
  | waitForQueueLock _ name =>
      rw [point] at blocking
      rcases (takes.events name).future with same | known
      · change next.Known (next.host.events name).future
        rw [same]
        exact Known.mono blocking takes.grows
      · exact known
  | waitForUnlock _ _ sFuture | waitForGet _ sFuture =>
      rw [point] at blocking
      exact Known.mono blocking takes.grows
  | idle | hostFnLock | hostFnRun | enqueueLock | enqueueCount | enqueueQueueLock
    | enqueueComplete | enqueueUnlock | waitForLock | waitForCheck | completeLock
    | completeRead => trivial

/-- **One agent moves.** -/
theorem Coherent.takes (coherent : mixed.Coherent) (takes : Takes agent mixed next) :
    next.Coherent where
  workers := takes.workers
  log := takes.logged
  events := fun name => takes.eventOk (coherent.events name)
  ownedEvents := takes.ownedEvents
  ownedQueues := takes.ownedQueues
  single := fun thread => by
    by_cases mine : .thread thread = agent
    · exact takes.single thread mine
    · obtain ⟨host, blocking⟩ := takes.elsewhere thread mine
      rw [host, blocking]
      exact coherent.single thread
  informed := fun thread => by
    by_cases mine : .thread thread = agent
    · exact takes.informed thread mine
    · obtain ⟨host, blocking⟩ := takes.elsewhere thread mine
      rw [host, blocking]
      exact takes.stays (coherent.informed thread)

/-- Who renews an event holds its mutex. -/
theorem Coherent.holds_of_renews (coherent : mixed.Coherent) {thread : Thread} {name : Ev}
    (renews : mixed.renews thread = some name) :
    mixed.holdsEvent (.thread thread) = some name := by
  unfold MixedHost.renews at renews
  rw [holdsEvent_thread]
  rcases coherent.single thread with idle | idle
  · rw [idle] at renews ⊢
    exact pointHolds_of_renews renews
  · rw [idle] at renews ⊢
    rw [pointHolds_idle, Option.or_none]
    rw [pointRenews_idle, Option.or_none] at renews
    exact threadHolds_of_renews renews

/-- Who holds the mutex of an event that has been enqueued, and does not renew it, finds a
future. -/
theorem Coherent.known_of_held (coherent : mixed.Coherent) {thread : Thread} {name : Ev}
    (held : mixed.holdsEvent (.thread thread) = some name)
    (settled : mixed.renews thread = none) (several : 1 ≤ (mixed.host.events name).enqueueCount) :
    mixed.Known (mixed.host.events name).future := by
  rcases (coherent.events name).future several with known | ⟨other, renews⟩
  · exact known
  · have first := (coherent.ownedEvents name (.thread thread)).mpr held
    have second := (coherent.ownedEvents name (.thread other)).mpr (coherent.holds_of_renews renews)
    cases first.symm.trans second
    rw [settled] at renews
    cases renews

/-! ## Events change -/

section Events

variable [DecidableEq Ev] {host : Host Queue Ev Thread} {name : Ev} {event : Event Queue Thread}

omit [DecidableEq Queue] in
theorem turn_lock (free : (host.events name).mutex = none) (locked : event.mutex = some agent) :
    Turn agent (fun other => (host.events other).mutex)
      (fun other => ((host.setEvent name event).events other).mutex) none (some name) := by
  refine .lock free ?_ fun other different => ?_
  · rw [Host.events_setEvent, if_pos rfl, locked]
  · rw [Host.events_setEvent, if_neg different]

omit [DecidableEq Queue] in
theorem turn_unlock (unlocked : event.mutex = none) :
    Turn agent (fun other => (host.events other).mutex)
      (fun other => ((host.setEvent name event).events other).mutex) (some name) none := by
  refine .unlock ?_ fun other different => ?_
  · rw [Host.events_setEvent, if_pos rfl, unlocked]
  · rw [Host.events_setEvent, if_neg different]

omit [DecidableEq Queue] in
theorem turn_keep (same : event.mutex = (host.events name).mutex) (held : Option Ev) :
    Turn agent (fun other => (host.events other).mutex)
      (fun other => ((host.setEvent name event).events other).mutex) held held := by
  refine .keep (fun other => ?_) _
  rw [Host.events_setEvent]
  split
  case isTrue here => rw [same, here]
  case isFalse => rfl

omit [DecidableEq Ev] in
theorem EventStep.unchanged (coherent : mixed.Coherent)
    (counts : (next.host.events name).enqueueCount = (mixed.host.events name).enqueueCount)
    (ready : (next.host.events name).lastReadyEnqueueCount =
      (mixed.host.events name).lastReadyEnqueueCount)
    (future : (next.host.events name).future = (mixed.host.events name).future)
    (renewed : ∀ thread, .thread thread = agent → mixed.renews thread = some name →
      next.renews thread = some name) : EventStep agent mixed next name where
  ready := by
    rw [ready, counts]
    exact (coherent.events name).ready
  counts := counts.ge
  future := .inl future
  counted := .inl counts
  renewed := fun thread mine renews => .inl (renewed thread mine renews)

/-- Only one event changes. -/
theorem eventSteps (coherent : mixed.Coherent)
    (changed : next.host.events = (mixed.host.setEvent name event).events)
    (ready : event.lastReadyEnqueueCount ≤ event.enqueueCount)
    (counts : (mixed.host.events name).enqueueCount ≤ event.enqueueCount)
    (future : event.future = (mixed.host.events name).future ∨ next.Known event.future)
    (counted : event.enqueueCount = (mixed.host.events name).enqueueCount ∨
      ∃ thread, next.renews thread = some name)
    (renewed : ∀ thread, .thread thread = agent → mixed.renews thread = none ∨
      mixed.renews thread = some name ∧ next.Known event.future) (other : Ev) :
    EventStep agent mixed next other := by
  by_cases same : other = name
  · subst same
    have here : next.host.events other = event := by rw [changed, Host.events_setEvent, if_pos rfl]
    constructor
    · rwa [here]
    · rwa [here]
    · rwa [here]
    · rwa [here]
    · intro thread mine renews
      rcases renewed thread mine with settled | ⟨-, known⟩
      · rw [settled] at renews
        cases renews
      · rw [here]
        exact .inr known
  · have kept : next.host.events other = mixed.host.events other := by
      rw [changed, Host.events_setEvent, if_neg same]
    apply EventStep.unchanged coherent
    · rw [kept]
    · rw [kept]
    · rw [kept]
    · intro thread mine renews
      rcases renewed thread mine with settled | ⟨this, -⟩
      · rw [settled] at renews
        cases renews
      · rw [this] at renews
        exact absurd (Option.some.inj renews).symm same

omit [DecidableEq Ev] in
/-- No event changes but for a mutex. -/
theorem eventSteps_unchanged (coherent : mixed.Coherent)
    (counts : ∀ name,
      (next.host.events name).enqueueCount = (mixed.host.events name).enqueueCount)
    (ready : ∀ name, (next.host.events name).lastReadyEnqueueCount =
      (mixed.host.events name).lastReadyEnqueueCount)
    (future : ∀ name, (next.host.events name).future = (mixed.host.events name).future)
    (renewed : ∀ thread, .thread thread = agent →
      mixed.renews thread = none ∨ next.renews thread = mixed.renews thread) (name : Ev) :
    EventStep agent mixed next name := by
  apply EventStep.unchanged coherent (counts name) (ready name) (future name)
  intro thread mine renews
  rcases renewed thread mine with settled | same
  · rw [settled] at renews
    cases renews
  · exact same.trans renews

/-- Only a mutex changes. -/
theorem eventSteps_mutex (coherent : mixed.Coherent) {holder : Option (Agent Queue Thread)}
    (changed : next.host.events =
      (mixed.host.setEvent name { mixed.host.events name with mutex := holder }).events)
    (renewed : ∀ thread, .thread thread = agent → mixed.renews thread = none) (other : Ev) :
    EventStep agent mixed next other := by
  refine eventSteps_unchanged coherent (fun other => ?_) (fun other => ?_) (fun other => ?_)
    (fun thread mine => .inl (renewed thread mine)) other
  all_goals
    rw [changed, Host.events_setEvent]
    split
    case isTrue same => rw [same]
    case isFalse => rfl

omit [DecidableEq Queue] in
theorem lock_cases (locked : mixed.host.lock name agent = some host) :
    (mixed.host.events name).mutex = none ∧
      host = mixed.host.setEvent name { mixed.host.events name with mutex := some agent } := by
  unfold Host.lock at locked
  split at locked
  case isTrue free => exact ⟨free, (Option.some.inj locked).symm⟩
  case isFalse => cases locked

end Events

/-! ## A thread moves -/

section Thread

variable {thread : Thread}

theorem Takes.ofThread (coherent : mixed.Coherent)
    (submits : Submits mixed next.host.queues next.log)
    (elsewhere : ∀ other, other ≠ thread →
      next.host.threads other = mixed.host.threads other ∧
        next.points other = mixed.points other)
    (turn : Turn (.thread thread) (fun name => (mixed.host.events name).mutex)
      (fun name => (next.host.events name).mutex) (mixed.holdsEvent (.thread thread))
      (next.holdsEvent (.thread thread)))
    (turnQueue : Turn thread (fun queue => (mixed.blocking queue).mutex)
      (fun queue => (next.blocking queue).mutex) (holdsQueue (mixed.points thread))
      (holdsQueue (next.points thread)))
    (events : ∀ name, EventStep (.thread thread) mixed next name)
    (single : next.host.threads thread = .idle ∨ next.points thread = .idle)
    (informed : next.ThreadInformed (next.host.threads thread) ∧
      next.PointInformed (next.points thread)) : Takes (.thread thread) mixed next where
  workers := submits.workers
  logged := submits.logged
  grows := submits.grows
  events := events
  ownedEvents := coherent.ownedEvents.turn _ turn fun other different => by
    cases other with
    | thread other =>
        obtain ⟨host, blocking⟩ := elsewhere other fun same => different (congrArg _ same)
        rw [holdsEvent_thread, holdsEvent_thread, host, blocking]
    | worker queue => exact submits.holds queue
  ownedQueues := coherent.ownedQueues.turn _ turnQueue fun other different =>
    congrArg holdsQueue (elsewhere other different).2
  elsewhere := fun other different => elsewhere other fun same => different (congrArg _ same)
  single := fun other same => Agent.thread.inj same ▸ single
  informed := fun other same => Agent.thread.inj same ▸ informed

/-- A thread moves in a call on a non-blocking queue. -/
theorem Takes.hostThread [DecidableEq Thread] (coherent : mixed.Coherent)
    {changed : Host Queue Ev Thread} {point : ThreadPoint Queue Ev} {log : List (Future Queue)}
    (idle : mixed.points thread = .idle) (threads : changed.threads = mixed.host.threads)
    (submits : Submits mixed changed.queues log)
    (turn : Turn (.thread thread) (fun name => (mixed.host.events name).mutex)
      (fun name => (changed.events name).mutex) (threadHolds (mixed.host.threads thread))
      (threadHolds point))
    (events : ∀ name, EventStep (.thread thread) mixed
      { mixed with host := changed.setThread thread point, log := log } name)
    (informed : mixed.ThreadInformed point ∨ ThreadInformed
      { mixed with host := changed.setThread thread point, log := log } point) :
    Takes (.thread thread) mixed
      { mixed with host := changed.setThread thread point, log := log } := by
  have here : (changed.setThread thread point).threads thread = point :=
    Function.update_self _ _ _
  apply Takes.ofThread coherent submits
  · intro other different
    refine ⟨?_, rfl⟩
    rw [← threads]
    exact Function.update_of_ne different _ _
  · rw [holdsEvent_thread, holdsEvent_thread]
    dsimp only
    rw [here, idle, pointHolds_idle, Option.or_none, Option.or_none]
    exact turn
  · exact .keep (fun _ => rfl) _
  · exact events
  · exact .inr idle
  · dsimp only
    rw [here, idle]
    refine ⟨?_, trivial⟩
    rcases informed with before | after
    · exact before.mono submits.grows fun name => (events name).counts
    · exact after

/-- A thread moves in a call on a blocking queue. -/
theorem Takes.pointThread [DecidableEq Thread] (coherent : mixed.Coherent)
    {changed : MixedHost Queue Blocking Ev Thread} {point : BlockingPoint Queue Blocking Ev}
    (idle : mixed.host.threads thread = .idle)
    (threads : changed.host.threads = mixed.host.threads)
    (points : changed.points = mixed.points)
    (queues : changed.host.queues = mixed.host.queues) (log : changed.log = mixed.log)
    (turn : Turn (.thread thread) (fun name => (mixed.host.events name).mutex)
      (fun name => (changed.host.events name).mutex) (pointHolds (mixed.points thread))
      (pointHolds point))
    (turnQueue : Turn thread (fun queue => (mixed.blocking queue).mutex)
      (fun queue => (changed.blocking queue).mutex) (holdsQueue (mixed.points thread))
      (holdsQueue point))
    (events : ∀ name, EventStep (.thread thread) mixed (changed.setPoint thread point) name)
    (informed : (changed.setPoint thread point).PointInformed point) :
    Takes (.thread thread) mixed (changed.setPoint thread point) := by
  have here : (changed.setPoint thread point).points thread = point :=
    Function.update_self _ _ _
  have same : (changed.setPoint thread point).host.threads thread = .idle := by
    change changed.host.threads thread = .idle
    rw [threads, idle]
  apply Takes.ofThread coherent
  · change Submits mixed changed.host.queues changed.log
    rw [queues, log]
    exact coherent.submitsNothing
  · intro other different
    refine ⟨congrFun threads other, ?_⟩
    rw [← points]
    exact Function.update_of_ne different _ _
  · rw [holdsEvent_thread, holdsEvent_thread, here, same, idle]
    exact turn
  · rw [here]
    exact turnQueue
  · exact events
  · exact .inl same
  · rw [here, same]
    exact ⟨trivial, informed⟩

end Thread

end Alpaka.MixedHost
