import Alpaka.Host.MixedInvariant
import Alpaka.Math.Interleaving

/-! # Every step of queues of both kinds

The steps of a thread in a call on a non-blocking queue, of a thread in a call on a blocking
queue and of a worker keep what holds of queues of both kinds
(`Alpaka.MixedHost.coherent_reachable`).
-/

namespace Alpaka.MixedHost

open CallbackThread Math.WaitFor Math.Interleaving

variable {Queue Blocking Ev Thread : Type*} {mixed next : MixedHost Queue Blocking Ev Thread}
  {thread : Thread} {name : Ev}

/-! ## Calls on non-blocking queues -/

section HostThread

variable [DecidableEq Queue] [DecidableEq Ev] [DecidableEq Thread]
  {host changed : Host Queue Ev Thread}

omit [DecidableEq Queue] [DecidableEq Ev] [DecidableEq Thread] in
private theorem renews_host (idle : mixed.points thread = .idle) :
    mixed.renews thread = threadRenews (mixed.host.threads thread) := by
  unfold renews
  rw [idle, pointRenews_idle, Option.or_none]

omit [DecidableEq Queue] [DecidableEq Ev] in
private theorem renews_setThread {point : ThreadPoint Queue Ev} {log : List (Future Queue)}
    (idle : mixed.points thread = .idle) :
    renews { mixed with host := changed.setThread thread point, log := log } thread =
      threadRenews point := by
  unfold renews
  dsimp only
  rw [idle, pointRenews_idle, Option.or_none]
  exact congrArg threadRenews (Function.update_self _ _ _)

omit [DecidableEq Queue] [DecidableEq Ev] [DecidableEq Thread] in
/-- A thread that holds no mutex renews no event. -/
theorem settled_of_unheld (idle : mixed.points thread = .idle)
    (unheld : threadHolds (mixed.host.threads thread) = none) : mixed.renews thread = none := by
  rw [renews_host idle]
  cases renewed : threadRenews (mixed.host.threads thread) with
  | none => rfl
  | some name =>
      rw [threadHolds_of_renews renewed] at unheld
      cases unheld

variable {here : ThreadPoint Queue Ev}

/-- A thread acquires the mutex of an event. -/
theorem Coherent.hostLock (coherent : mixed.Coherent) (current : mixed.host.threads thread = here)
    (point : ThreadPoint Queue Ev)
    (idle : mixed.points thread = .idle)
    (locked : (mixed.host.lock name (.thread thread)).map (Host.setThread thread point) = some host)
    (unheld : threadHolds here = none) (holds : threadHolds point = some name)
    (informed : mixed.ThreadInformed point) :
    Takes (.thread thread) mixed { mixed with host := host } := by
  rw [← current] at unheld
  obtain ⟨changed, acquired, same⟩ := Option.map_eq_some_iff.mp locked
  obtain ⟨free, rfl⟩ := lock_cases acquired
  subst same
  refine Takes.hostThread coherent idle rfl coherent.submitsNothing ?_ ?_ (.inl informed)
  · rw [unheld, holds]
    exact turn_lock free rfl
  · refine eventSteps_mutex coherent rfl fun other mine => ?_
    cases mine
    exact settled_of_unheld idle unheld

/-- A thread releases the mutex of an event, which it does not renew. -/
theorem Coherent.hostUnlock (coherent : mixed.Coherent)
    (current : mixed.host.threads thread = here) (point : ThreadPoint Queue Ev)
    (idle : mixed.points thread = .idle)
    (held : threadHolds here = some name) (settled : threadRenews here = none)
    (releases : threadHolds point = none) (informed : mixed.ThreadInformed point)
    (barriers : List (Barrier Queue Ev)) :
    Takes (.thread thread) mixed
      { mixed with
        host := { mixed.host.unlock name with barriers := barriers }.setThread thread point } := by
  rw [← current] at held settled
  refine Takes.hostThread coherent idle rfl coherent.submitsNothing ?_ ?_ (.inl informed)
  · rw [held, releases]
    exact turn_unlock rfl
  · refine eventSteps_mutex coherent rfl fun other mine => ?_
    cases mine
    exact (renews_host idle).trans settled

omit [DecidableEq Ev] in
/-- A thread changes neither queues nor events. -/
theorem Coherent.hostMove (coherent : mixed.Coherent) (current : mixed.host.threads thread = here)
    (point : ThreadPoint Queue Ev)
    (idle : mixed.points thread = .idle) (held : threadHolds here = threadHolds point)
    (settled : threadRenews here = none) (informed : mixed.ThreadInformed point) :
    Takes (.thread thread) mixed { mixed with host := mixed.host.setThread thread point } := by
  rw [← current] at held settled
  refine Takes.hostThread coherent idle rfl coherent.submitsNothing ?_ ?_ (.inl informed)
  · rw [held]
    exact .keep (fun _ => rfl) _
  · refine eventSteps_unchanged coherent ?_ ?_ ?_ fun other mine => ?_
    · exact fun _ => rfl
    · exact fun _ => rfl
    · exact fun _ => rfl
    · cases mine
      exact .inl ((renews_host idle).trans settled)

omit [DecidableEq Ev] in
/-- A thread submits a task. -/
theorem Coherent.hostSubmit (coherent : mixed.Coherent)
    (current : mixed.host.threads thread = here) (point : ThreadPoint Queue Ev)
    (queue : Queue) (task : QueueTask Queue Ev)
    {log : List (Future Queue)} (idle : mixed.points thread = .idle)
    (logged : log = mixed.log ++ [⟨queue, (mixed.host.queues queue).submitted.length⟩])
    (known : ∀ name future, task = .wait name future → mixed.Known future)
    (held : threadHolds here = threadHolds point) (renews : threadRenews here = threadRenews point)
    (informed : ∀ host : Host Queue Ev Thread,
      ThreadInformed { mixed with host := host, log := log } point)
    (barriers : List (Barrier Queue Ev)) :
    Takes (.thread thread) mixed
      { mixed with
        host := { mixed.host.setQueue queue ((mixed.host.queues queue).submit task).2 with
          barriers := barriers }.setThread thread point
        log := log } := by
  rw [← current] at held renews
  refine Takes.hostThread coherent idle rfl ?_ ?_ ?_ (.inr (informed _))
  · rw [logged]
    exact coherent.submits queue task known
  · rw [held]
    exact .keep (fun _ => rfl) _
  · refine eventSteps_unchanged coherent ?_ ?_ ?_ fun other mine => ?_
    · exact fun _ => rfl
    · exact fun _ => rfl
    · exact fun _ => rfl
    · cases mine
      refine .inr ?_
      rw [renews_setThread idle, renews_host idle, renews]

/-- **A step of a thread in a call on a non-blocking queue.** -/
theorem Coherent.threadStep (coherent : mixed.Coherent)
    (taken : mixed.host.threadStep thread = some host) :
    Takes (.thread thread) mixed
      { mixed with host := host, log := mixed.log ++ submissions thread mixed.host } := by
  unfold Host.threadStep at taken
  unfold submissions
  have informed := (coherent.informed thread).1
  by_cases resting : mixed.host.threads thread = .idle
  · rw [resting] at taken
    cases taken
  have idle : mixed.points thread = .idle := (coherent.single thread).resolve_left resting
  have holds : mixed.holdsEvent (.thread thread) = threadHolds (mixed.host.threads thread) := by
    rw [holdsEvent_thread, idle, pointHolds_idle, Option.or_none]
  -- A thread that holds the mutex of an event which is not ready finds a future there.
  have known {name : Ev} (held : threadHolds (mixed.host.threads thread) = some name)
      (settled : threadRenews (mixed.host.threads thread) = none)
      (several : 1 ≤ (mixed.host.events name).enqueueCount) :
      mixed.Known (mixed.host.events name).future :=
    coherent.known_of_held (holds.trans held) ((renews_host idle).trans settled) several
  cases current : mixed.host.threads thread with
  | idle => exact absurd current resting
  | submitHostFn queue =>
      rw [current] at taken
      cases taken
      exact coherent.hostSubmit current .idle queue .hostFn idle rfl
        (fun _ _ impossible => nomatch impossible) rfl rfl (fun _ => trivial) _
  | enqueueLock queue name =>
      rw [current] at taken
      simp only [List.append_nil]
      exact coherent.hostLock current _ idle taken rfl rfl trivial
  | enqueueCount queue name =>
      rw [current] at taken
      cases taken
      simp only [List.append_nil]
      refine Takes.hostThread coherent idle rfl coherent.submitsNothing ?_ ?_ (.inl trivial)
      · rw [current]
        refine turn_keep ?_ _
        rfl
      · refine eventSteps coherent rfl ?_ (Nat.le_succ _) (.inl rfl) (.inr ?_) fun other mine => ?_
        · exact (coherent.events name).ready.trans (Nat.le_succ _)
        · exact ⟨thread, renews_setThread idle⟩
        · cases mine
          exact .inl (by rw [renews_host idle, current]; rfl)
  | enqueueSubmit queue name enqueueCount =>
      rw [current] at taken
      cases taken
      refine coherent.hostSubmit current (.enqueueFuture name _) queue
        (.completion name enqueueCount) idle rfl
        (fun _ _ impossible => nomatch impossible) rfl rfl (fun _ => ?_) _
      exact List.mem_append_right _ (List.mem_singleton_self _)
  | enqueueFuture name future =>
      rw [current] at taken informed
      cases taken
      simp only [List.append_nil]
      rw [Host.unlock_setEvent]
      refine Takes.hostThread coherent idle rfl coherent.submitsNothing ?_ ?_ (.inl trivial)
      · rw [current]
        exact turn_unlock rfl
      · refine eventSteps coherent rfl (coherent.events name).ready le_rfl (.inr informed)
          (.inl rfl)
          fun other mine => .inr ⟨?_, informed⟩
        cases mine
        rw [renews_host idle, current]
        rfl
  | waitForLock queue name =>
      rw [current] at taken
      simp only [List.append_nil]
      exact coherent.hostLock current _ idle taken rfl rfl trivial
  | waitForCheck queue name =>
      rw [current] at taken known
      simp only [List.append_nil]
      dsimp only at taken
      split at taken
      case isTrue pending =>
        cases taken
        refine coherent.hostUnlock current (.waitForSubmit queue name _ _) idle rfl rfl rfl
          (known rfl rfl ?_) _
        have bound := (coherent.events name).ready
        simp only [Event.isReady, decide_eq_true_eq] at pending
        omega
      case isFalse =>
        cases taken
        exact coherent.hostUnlock current .idle idle rfl rfl rfl trivial _
  | waitForSubmit queue name oldFuture latest =>
      rw [current] at taken informed
      cases taken
      refine coherent.hostSubmit current .idle queue (.wait name oldFuture) idle rfl
        (fun _ _ same => ?_) rfl rfl (fun _ => trivial) _
      cases same
      exact informed
  | waitLock name =>
      rw [current] at taken
      simp only [List.append_nil]
      exact coherent.hostLock current _ idle taken rfl rfl trivial
  | waitRead name =>
      rw [current] at taken
      cases taken
      simp only [List.append_nil]
      exact coherent.hostMove current (.waitCheck name _) idle rfl rfl le_rfl
  | waitCheck name enqueueCount =>
      rw [current] at taken known informed
      simp only [List.append_nil]
      dsimp only at taken
      split at taken
      case isTrue pending =>
        cases taken
        refine coherent.hostUnlock current (.waitGet name enqueueCount _) idle rfl rfl rfl
          ⟨known rfl rfl ?_, informed⟩ _
        have bound : enqueueCount ≤ (mixed.host.events name).enqueueCount := informed
        omega
      case isFalse =>
        cases taken
        exact coherent.hostUnlock current .idle idle rfl rfl rfl trivial _
  | waitGet name enqueueCount future =>
      rw [current] at taken informed
      obtain ⟨outcome, -, same⟩ := Option.map_eq_some_iff.mp taken
      subst same
      simp only [List.append_nil]
      exact coherent.hostMove current (.waitRelock name enqueueCount) idle rfl rfl informed.2
  | waitRelock name enqueueCount =>
      rw [current] at taken informed
      simp only [List.append_nil]
      exact coherent.hostLock current _ idle taken rfl rfl informed

end HostThread

/-! ## Calls on blocking queues -/

section Queues

variable [DecidableEq Blocking] {queue : Blocking} {changed : BlockingQueue Thread}

theorem blocking_setBlocking (other : Blocking) :
    (mixed.setBlocking queue changed).blocking other =
      if other = queue then changed else mixed.blocking other :=
  Function.update_apply _ _ _ _

private theorem turn_lockQueue (free : (mixed.blocking queue).mutex = none)
    (locked : changed.mutex = some thread) :
    Turn thread (fun other => (mixed.blocking other).mutex)
      (fun other => ((mixed.setBlocking queue changed).blocking other).mutex) none
      (some queue) := by
  refine .lock free ?_ fun other different => ?_
  · rw [blocking_setBlocking, if_pos rfl, locked]
  · rw [blocking_setBlocking, if_neg different]

private theorem turn_unlockQueue (unlocked : changed.mutex = none) :
    Turn thread (fun other => (mixed.blocking other).mutex)
      (fun other => ((mixed.setBlocking queue changed).blocking other).mutex) (some queue)
      none := by
  refine .unlock ?_ fun other different => ?_
  · rw [blocking_setBlocking, if_pos rfl, unlocked]
  · rw [blocking_setBlocking, if_neg different]

theorem lockQueue_cases (locked : mixed.lockQueue queue thread = some next) :
    (mixed.blocking queue).mutex = none ∧
      next = mixed.setBlocking queue { mixed.blocking queue with mutex := some thread } := by
  unfold lockQueue at locked
  split at locked
  case isTrue free => exact ⟨free, (Option.some.inj locked).symm⟩
  case isFalse => cases locked

private theorem setDepth_setBlocking (depth : ℕ) :
    (mixed.setBlocking queue changed).setDepth queue depth =
      mixed.setBlocking queue { changed with blockingTaskExecutionDepth := depth } := by
  unfold setDepth setBlocking
  dsimp only
  rw [Function.update_self, Function.update_idem]

private theorem unlockQueue_setBlocking :
    (mixed.setBlocking queue changed).unlockQueue queue =
      mixed.setBlocking queue { changed with mutex := none } := by
  unfold unlockQueue setBlocking
  dsimp only
  rw [Function.update_self, Function.update_idem]

end Queues

section BlockingThread

variable [DecidableEq Queue] [DecidableEq Ev] [DecidableEq Thread]
  {here : BlockingPoint Queue Blocking Ev}

omit [DecidableEq Queue] [DecidableEq Ev] [DecidableEq Thread] in
private theorem renews_blocking (idle : mixed.host.threads thread = .idle) :
    mixed.renews thread = pointRenews (mixed.points thread) := by
  unfold renews
  rw [idle]
  rfl

omit [DecidableEq Queue] [DecidableEq Ev] in
private theorem renews_setPoint {point : BlockingPoint Queue Blocking Ev}
    (idle : mixed.host.threads thread = .idle) :
    (mixed.setPoint thread point).renews thread = pointRenews point := by
  unfold renews setPoint
  dsimp only
  rw [idle, Function.update_self]
  rfl

/-- A thread acquires the mutex of an event. -/
theorem Coherent.pointLock (coherent : mixed.Coherent) (current : mixed.points thread = here)
    (point : BlockingPoint Queue Blocking Ev) (idle : mixed.host.threads thread = .idle)
    (locked : (mixed.lockEvent name thread).map (setPoint thread point) = some next)
    (unheld : pointHolds here = none) (settled : pointRenews here = none)
    (holds : pointHolds point = some name) (same : holdsQueue here = holdsQueue point)
    (informed : ∀ next : MixedHost Queue Blocking Ev Thread, next.PointInformed point) :
    Takes (.thread thread) mixed next := by
  rw [← current] at unheld settled same
  obtain ⟨middle, locks, rfl⟩ := Option.map_eq_some_iff.mp locked
  obtain ⟨host, acquired, rfl⟩ := Option.map_eq_some_iff.mp locks
  obtain ⟨free, rfl⟩ := lock_cases acquired
  refine Takes.pointThread coherent idle rfl rfl rfl rfl ?_ ?_ ?_ (informed _)
  · rw [unheld, holds]
    exact turn_lock free rfl
  · rw [same]
    exact .keep (fun _ => rfl) _
  · refine eventSteps_mutex coherent rfl fun other mine => ?_
    cases mine
    exact (renews_blocking idle).trans settled

/-- A thread releases the mutex of an event, which it does not renew. -/
theorem Coherent.pointUnlock (coherent : mixed.Coherent) (current : mixed.points thread = here)
    (point : BlockingPoint Queue Blocking Ev) (idle : mixed.host.threads thread = .idle)
    (held : pointHolds here = some name) (settled : pointRenews here = none)
    (releases : pointHolds point = none) (same : holdsQueue here = holdsQueue point)
    (informed : ((mixed.unlockEvent name).setPoint thread point).PointInformed point) :
    Takes (.thread thread) mixed ((mixed.unlockEvent name).setPoint thread point) := by
  rw [← current] at held settled same
  refine Takes.pointThread coherent idle rfl rfl rfl rfl ?_ ?_ ?_ informed
  · rw [held, releases]
    exact turn_unlock rfl
  · rw [same]
    exact .keep (fun _ => rfl) _
  · refine eventSteps_mutex coherent rfl fun other mine => ?_
    cases mine
    exact (renews_blocking idle).trans settled

omit [DecidableEq Ev] in
/-- A thread changes no event. -/
theorem Coherent.pointMove (coherent : mixed.Coherent) (current : mixed.points thread = here)
    (point : BlockingPoint Queue Blocking Ev) (idle : mixed.host.threads thread = .idle)
    {blocking : Blocking → BlockingQueue Thread}
    (turnQueue : Turn thread (fun queue => (mixed.blocking queue).mutex)
      (fun queue => (blocking queue).mutex) (holdsQueue here) (holdsQueue point))
    (held : pointHolds here = pointHolds point) (renews : pointRenews here = pointRenews point)
    (informed : mixed.PointInformed point) :
    Takes (.thread thread) mixed ({ mixed with blocking := blocking }.setPoint thread point) := by
  rw [← current] at held renews turnQueue
  refine Takes.pointThread coherent idle rfl rfl rfl rfl ?_ turnQueue ?_ ?_
  · rw [held]
    exact .keep (fun _ => rfl) _
  · refine eventSteps_unchanged coherent ?_ ?_ ?_ fun other mine => ?_
    · exact fun _ => rfl
    · exact fun _ => rfl
    · exact fun _ => rfl
    · cases mine
      refine .inr ?_
      rw [renews_setPoint, renews_blocking idle, renews]
      exact idle
  · cases point with
    | waitForQueueLock | waitForUnlock | waitForGet => exact informed
    | _ => trivial

/-- **A step of a thread in a call on a blocking queue.** -/
theorem Coherent.blockingStep [DecidableEq Blocking] (coherent : mixed.Coherent)
    (taken : mixed.blockingStep thread = some next) : Takes (.thread thread) mixed next := by
  unfold MixedHost.blockingStep at taken
  have informed := (coherent.informed thread).2
  by_cases resting : mixed.points thread = .idle
  · rw [resting] at taken
    cases taken
  have idle : mixed.host.threads thread = .idle := (coherent.single thread).resolve_right resting
  have holds : mixed.holdsEvent (.thread thread) = pointHolds (mixed.points thread) := by
    rw [holdsEvent_thread, idle]
    rfl
  cases current : mixed.points thread with
  | idle => exact absurd current resting
  | hostFnLock queue =>
      rw [current] at taken
      obtain ⟨middle, locked, rfl⟩ := Option.map_eq_some_iff.mp taken
      obtain ⟨free, rfl⟩ := lockQueue_cases locked
      rw [setDepth_setBlocking]
      exact coherent.pointMove current (.hostFnRun queue) idle (turn_lockQueue free rfl) rfl rfl
        trivial
  | hostFnRun queue =>
      rw [current] at taken
      cases taken
      rw [setDepth, unlockQueue_setBlocking]
      exact coherent.pointMove current .idle idle (turn_unlockQueue rfl) rfl rfl trivial
  | enqueueLock queue name =>
      rw [current] at taken
      exact coherent.pointLock current (.enqueueCount queue name) idle taken rfl rfl rfl rfl
        fun _ => trivial
  | enqueueCount queue name =>
      rw [current] at taken
      cases taken
      refine Takes.pointThread coherent idle rfl rfl rfl rfl ?_ ?_ ?_ trivial
      · rw [current]
        refine turn_keep ?_ _
        rfl
      · rw [current]
        exact .keep (fun _ => rfl) _
      · refine eventSteps coherent rfl ?_ (Nat.le_succ _) (.inl rfl) (.inr ?_) fun other mine => ?_
        · exact (coherent.events name).ready.trans (Nat.le_succ _)
        · refine ⟨thread, ?_⟩
          rw [renews_setPoint]
          · rfl
          · exact idle
        · cases mine
          exact .inl (by rw [renews_blocking idle, current]; rfl)
  | enqueueQueueLock queue name enqueueCount =>
      rw [current] at taken
      obtain ⟨middle, locked, rfl⟩ := Option.map_eq_some_iff.mp taken
      obtain ⟨free, rfl⟩ := lockQueue_cases locked
      exact coherent.pointMove current (.enqueueComplete queue name enqueueCount) idle
        (turn_lockQueue free rfl) rfl rfl trivial
  | enqueueComplete queue name enqueueCount =>
      rw [current] at taken
      have bound := (coherent.events name).ready
      have kept : ∀ event : Event Queue Thread, event =
          (if enqueueCount = (mixed.host.events name).enqueueCount then
            { mixed.host.events name with
              lastReadyEnqueueCount :=
                max enqueueCount (mixed.host.events name).lastReadyEnqueueCount }
          else mixed.host.events name) → event.mutex = (mixed.host.events name).mutex ∧
            event.enqueueCount = (mixed.host.events name).enqueueCount ∧
              event.lastReadyEnqueueCount ≤ (mixed.host.events name).enqueueCount := by
        intro event same
        rw [same]
        split
        case isTrue latest => exact ⟨rfl, rfl, max_le latest.le bound⟩
        case isFalse => exact ⟨rfl, rfl, bound⟩
      obtain ⟨mutex, count, ready⟩ := kept _ rfl
      cases taken
      refine Takes.pointThread coherent idle rfl rfl rfl rfl ?_ ?_ ?_ trivial
      · rw [current]
        refine turn_keep ?_ _
        exact mutex
      · rw [current]
        exact turn_unlockQueue rfl
      · refine eventSteps coherent rfl (ready.trans count.ge) count.ge (.inr trivial) (.inl count)
          fun other mine => .inr ⟨?_, trivial⟩
        cases mine
        rw [renews_blocking idle, current]
        rfl
  | enqueueUnlock name =>
      rw [current] at taken
      cases taken
      exact coherent.pointUnlock current .idle idle rfl rfl rfl rfl trivial
  | waitForLock queue name =>
      rw [current] at taken
      exact coherent.pointLock current (.waitForCheck queue name) idle taken rfl rfl rfl rfl
        fun _ => trivial
  | waitForCheck queue name =>
      rw [current] at taken holds
      dsimp only at taken
      split at taken
      case isTrue pending =>
        cases taken
        refine coherent.pointMove current (.waitForQueueLock queue name) idle
          (.keep (fun _ => rfl) _) rfl rfl (coherent.known_of_held holds ?_ ?_)
        · rw [renews_blocking idle, current]
          rfl
        · have bound := (coherent.events name).ready
          simp only [Event.isReady, decide_eq_true_eq] at pending
          omega
      case isFalse =>
        cases taken
        exact coherent.pointUnlock current .idle idle rfl rfl rfl rfl trivial
  | waitForQueueLock queue name =>
      rw [current] at taken informed
      obtain ⟨middle, locked, rfl⟩ := Option.map_eq_some_iff.mp taken
      obtain ⟨free, rfl⟩ := lockQueue_cases locked
      exact coherent.pointMove current (.waitForUnlock queue name _) idle
        (turn_lockQueue free rfl) rfl rfl informed
  | waitForUnlock queue name sFuture =>
      rw [current] at taken informed
      cases taken
      exact coherent.pointUnlock current (.waitForGet queue sFuture) idle rfl rfl rfl rfl informed
  | waitForGet queue sFuture =>
      rw [current] at taken
      obtain ⟨outcome, -, rfl⟩ := Option.map_eq_some_iff.mp taken
      exact coherent.pointMove current .idle idle (turn_unlockQueue rfl) rfl rfl trivial
  | completeLock name =>
      rw [current] at taken
      exact coherent.pointLock current (.completeRead name) idle taken rfl rfl rfl rfl
        fun _ => trivial
  | completeRead name =>
      rw [current] at taken
      cases taken
      exact coherent.pointUnlock current .idle idle rfl rfl rfl rfl trivial

end BlockingThread

/-! ## Workers -/

section Worker

variable [DecidableEq Queue] {queue : Queue}
  {changed : CallbackThread (QueueTask Queue Ev) TaskPoint} {events : Ev → Event Queue Thread}

theorem Coherent.ofWorker (coherent : mixed.Coherent) (ok : Going changed)
    (submitted : changed.submitted = (mixed.host.queues queue).submitted)
    (turn : Turn (.worker queue) (fun name => (mixed.host.events name).mutex)
      (fun name => (events name).mutex) (workerHolds (mixed.host.queues queue).worker)
      (workerHolds changed.worker))
    (steps : ∀ name, EventStep (.worker queue) mixed
      { mixed with host := { mixed.host with events := events }.setQueue queue changed } name) :
    Takes (.worker queue) mixed
      { mixed with host := { mixed.host with events := events }.setQueue queue changed } where
  workers := fun other => by
    dsimp only
    rw [Host.queues_setQueue]
    split
    case isTrue => exact ok
    case isFalse => exact coherent.workers other
  logged := coherent.log.congr fun other => by
    rw [Host.queues_setQueue]
    split
    case isTrue same => rw [same, submitted]
    case isFalse => rfl
  grows := List.Subset.refl _
  events := steps
  ownedEvents := by
    have here : workerHolds (({ mixed.host with events := events }.setQueue queue changed).queues
        queue).worker = workerHolds changed.worker := by
      rw [Host.queues_setQueue, if_pos rfl]
    refine Owned.turn coherent.ownedEvents _ (here.symm ▸ turn) fun other different => ?_
    cases other with
    | thread thread => rfl
    | worker other =>
        change workerHolds (({ mixed.host with events := events }.setQueue queue changed).queues
          other).worker = workerHolds (mixed.host.queues other).worker
        rw [Host.queues_setQueue, if_neg fun same => different (congrArg _ same)]
  ownedQueues := coherent.ownedQueues
  elsewhere := fun _ _ => ⟨rfl, rfl⟩
  single := fun _ impossible => nomatch impossible
  informed := fun _ impossible => nomatch impossible

variable [DecidableEq Ev] {host : Host Queue Ev Thread}

omit [DecidableEq Ev] in
/-- The events stay as they are while a worker goes on without a mutex. -/
theorem Coherent.workerMove (coherent : mixed.Coherent) (ok : Going changed)
    (submitted : changed.submitted = (mixed.host.queues queue).submitted)
    (unheld : workerHolds (mixed.host.queues queue).worker = none)
    (still : workerHolds changed.worker = none) :
    Takes (.worker queue) mixed { mixed with host := mixed.host.setQueue queue changed } := by
  refine coherent.ofWorker ok submitted ?_ fun name => ?_
  · rw [unheld, still]
    exact .keep (fun _ => rfl) _
  · exact EventStep.unchanged coherent rfl rfl rfl fun _ impossible => nomatch impossible

theorem Coherent.taskStep (coherent : mixed.Coherent)
    {package : TaskPackage (QueueTask Queue Ev)} {point : TaskPoint} {outcome : Outcome}
    (working : (mixed.host.queues queue).worker = .running package point)
    (taken : mixed.host.taskStep queue package point outcome = some host) :
    Takes (.worker queue) mixed { mixed with host := host } := by
  have ok := coherent.workers queue
  unfold Host.taskStep at taken
  rcases package with ⟨task, promise⟩
  cases task with
  | hostFn =>
      cases taken
      refine coherent.workerMove (ok.finish working outcome) rfl ?_ rfl
      rw [working]
      rfl
  | wait name future =>
      obtain ⟨result, -, rfl⟩ := Option.map_eq_some_iff.mp taken
      refine coherent.workerMove (ok.finish working result) rfl ?_ rfl
      rw [working]
      rfl
  | completion name enqueueCount =>
      cases point with
      | begin =>
          obtain ⟨locked, acquired, rfl⟩ := Option.map_eq_some_iff.mp taken
          obtain ⟨free, rfl⟩ := lock_cases acquired
          refine coherent.ofWorker (ok.moveTo working .locked) rfl ?_ ?_
          · rw [working]
            exact turn_lock free rfl
          · exact eventSteps_mutex coherent rfl fun _ impossible => nomatch impossible
      | locked =>
          cases taken
          obtain ⟨mutex, future, count⟩ :=
            Host.unchanged_complete enqueueCount (mixed.host.events name)
          refine coherent.ofWorker (ok.moveTo working .signalled) rfl ?_ ?_
          · rw [working]
            refine turn_keep ?_ _
            exact mutex
          · refine eventSteps coherent rfl ?_ count.ge (.inl future) (.inl count)
              fun _ impossible => nomatch impossible
            rw [count]
            exact (coherent.events name).ready_complete enqueueCount
      | signalled =>
          cases taken
          refine coherent.ofWorker (ok.moveTo working .unlocked) rfl ?_ ?_
          · rw [working]
            exact turn_unlock rfl
          · exact eventSteps_mutex coherent rfl fun _ impossible => nomatch impossible
      | unlocked =>
          cases taken
          refine coherent.workerMove (ok.finish working .value) rfl ?_ rfl
          rw [working]
          rfl

/-- **A step of a worker.** -/
theorem Coherent.workerStep (coherent : mixed.Coherent) {outcome : Outcome}
    (taken : mixed.host.workerStep queue outcome = some host) :
    Takes (.worker queue) mixed { mixed with host := host } := by
  unfold Host.workerStep at taken
  split at taken
  case h_1 package point working => exact coherent.taskStep working taken
  case h_2 idle =>
    obtain ⟨worker, advanced, rfl⟩ := Option.map_eq_some_iff.mp taken
    obtain ⟨-, submitted, -, begins⟩ := advance_history advanced
    refine coherent.workerMove ((coherent.workers queue).advance advanced) submitted ?_ ?_
    · cases working : (mixed.host.queues queue).worker with
      | running package point => exact absurd working (idle package point)
      | _ => rfl
    · cases working : worker.worker with
      | running package point =>
          cases begins package point working
          rcases package with ⟨task, promise⟩
          cases task with
          | hostFn | wait | completion => rfl
      | _ => rfl

end Worker

/-! ## Every step -/

variable [DecidableEq Queue] [DecidableEq Blocking] [DecidableEq Ev] [DecidableEq Thread]

/-- What happens on the non-blocking queues moves no thread in a call on a blocking one. -/
theorem step_host {action : HostAction Queue Ev Thread}
    (taken : mixed.step (.host action) = some next) :
    mixed.host.step action = some next.host ∧ next.points = mixed.points := by
  unfold step at taken
  cases action with
  | call thread call =>
      dsimp only at taken
      split at taken
      case isFalse => cases taken
      case isTrue =>
        obtain ⟨host, steps, rfl⟩ := Option.map_eq_some_iff.mp taken
        exact ⟨steps, rfl⟩
  | thread | worker =>
      obtain ⟨host, steps, rfl⟩ := Option.map_eq_some_iff.mp taken
      exact ⟨steps, rfl⟩

private theorem Coherent.stepTakes (coherent : mixed.Coherent)
    {action : MixedAction Queue Blocking Ev Thread} (taken : mixed.step action = some next) :
    Takes action.agent mixed next := by
  unfold step at taken
  cases action with
  | host action =>
      cases action with
      | call thread call =>
          dsimp only at taken
          split at taken
          case isFalse => cases taken
          case isTrue idle =>
            obtain ⟨host, begins, rfl⟩ := Option.map_eq_some_iff.mp taken
            unfold Host.step at begins
            dsimp only at begins
            split at begins
            case isFalse => cases begins
            case isTrue resting =>
              cases begins
              refine coherent.hostMove resting (Host.entry call) idle ?_ rfl ?_
              · cases call with
                | enqueueHostFn | enqueue | waitFor | wait => rfl
              · cases call with
                | enqueueHostFn | enqueue | waitFor | wait => trivial
      | thread thread =>
          obtain ⟨host, steps, rfl⟩ := Option.map_eq_some_iff.mp taken
          exact coherent.threadStep steps
      | worker queue outcome =>
          obtain ⟨host, steps, rfl⟩ := Option.map_eq_some_iff.mp taken
          exact coherent.workerStep steps
  | call thread call =>
      dsimp only at taken
      split at taken
      case isFalse => cases taken
      case isTrue idle =>
        cases taken
        cases call with
        | enqueueHostFn | enqueue | waitFor | isEventComplete =>
            exact coherent.pointMove idle.2 _ idle.1 (.keep (fun _ => rfl) _) rfl rfl trivial
  | thread thread => exact coherent.blockingStep taken

omit [DecidableEq Blocking] [DecidableEq Ev] [DecidableEq Thread] in
private theorem coherent_initial : ({} : MixedHost Queue Blocking Ev Thread).Coherent where
  workers := fun _ => going_initial
  log := by
    refine ⟨fun future => ?_, ?_, ?_⟩
    · exact iff_of_false List.not_mem_nil (Nat.not_lt_zero _)
    · exact fun _ impossible => nomatch impossible
    · exact fun _ _ _ _ impossible => nomatch impossible
  events := fun _ => ⟨le_rfl, fun impossible => nomatch impossible⟩
  ownedEvents := fun _ agent => by
    cases agent with
    | thread | worker =>
        exact iff_of_false (fun impossible => nomatch impossible)
          (fun impossible => nomatch impossible)
  ownedQueues := fun _ _ => iff_of_false (fun impossible => nomatch impossible)
    (fun impossible => nomatch impossible)
  single := fun _ => .inl rfl
  informed := fun _ => ⟨trivial, trivial⟩

theorem coherent_reachable (reachable : Reachable step {} mixed) : mixed.Coherent :=
  reachable.induction coherent_initial fun _ _ _ coherent taken =>
    coherent.takes (coherent.stepTakes taken)

end Alpaka.MixedHost
