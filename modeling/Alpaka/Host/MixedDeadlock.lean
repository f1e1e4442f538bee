import Alpaka.Host.MixedProgress

/-! # When queues of both kinds go on

A deadlock is closed by a thread that holds the mutex of an event and goes on to wait for
the mutex of a blocking queue, or by one that takes the mutex of a blocking queue and goes on
to wait for a future. As long as no such step closes a circle, every unfinished thread or
worker can take a step or waits, over other ones, for one that can
(`Alpaka.MixedHost.goes_on`).
-/

namespace Alpaka.MixedHost

open CallbackThread Math.WaitFor Math.Interleaving

variable {Queue Blocking Ev Thread : Type*} {mixed next : MixedHost Queue Blocking Ev Thread}

/-! ## Steps that close a circle -/

/-- The mutex of the queue is held for a future that depends on the mutex of the event. -/
def Closes (mixed : MixedHost Queue Blocking Ev Thread) (queue : Blocking) (name : Ev) : Prop :=
  ∃ first last sFuture queue' future task,
    inWait (mixed.points first) = some (queue, sFuture) ∧
      Relation.ReflTransGen mixed.Depends first last ∧
        inWait (mixed.points last) = some (queue', .ofTask future) ∧
          Needs mixed.host.queues future task ∧ mixed.Pending task name

/-- The future depends on a thread that comes for the mutex of the queue. -/
def ClosesFor (mixed : MixedHost Queue Blocking Ev Thread) (thread : Thread) (queue : Blocking)
    (sFuture : SharedFuture Queue) : Prop :=
  ∃ first last queue' name name' future task,
    sFuture = .ofTask future ∧ Needs mixed.host.queues future task ∧ mixed.Pending task name ∧
      first ≠ thread ∧ comesFor (mixed.points first) = some (queue', name) ∧
        Relation.ReflTransGen mixed.Depends first last ∧
          last ≠ thread ∧ comesFor (mixed.points last) = some (queue, name')

/-- A step that closes no circle. -/
def Admissible (mixed : MixedHost Queue Blocking Ev Thread) :
    MixedAction Queue Blocking Ev Thread → Prop
  | .thread thread =>
      match mixed.points thread with
      | .enqueueCount queue name => ¬ mixed.Closes queue name
      | .waitForCheck queue name => (mixed.host.events name).isReady ∨ ¬ mixed.Closes queue name
      | .waitForQueueLock queue name =>
          ¬ mixed.ClosesFor thread queue (mixed.host.events name).future
      | _ => True
  | _ => True

/-! ## What becomes of the tasks -/

/-- Tasks stay where they are, and none gets back behind its first step. -/
structure Follows (before after : CallbackThread (QueueTask Queue Ev) TaskPoint) : Prop where
  submitted : before.submitted <+: after.submitted
  through : ∀ promise, Through before promise → Through after promise

variable {worker after : CallbackThread (QueueTask Queue Ev) TaskPoint}

theorem Follows.refl (worker : CallbackThread (QueueTask Queue Ev) TaskPoint) :
    Follows worker worker := ⟨List.prefix_rfl, fun _ through => through⟩

/-- The tasks that have been past their first step are where they were. -/
theorem Follows.of (submitted : worker.submitted <+: after.submitted)
    (fulfilled : ∀ promise, (worker.fulfilled promise).isSome → (after.fulfilled promise).isSome)
    (passes : ∀ promise, passed worker.worker = some promise → Through after promise) :
    Follows worker after := by
  refine ⟨submitted, fun promise through => ?_⟩
  rcases through with ready | before
  · exact .inl (fulfilled promise ready)
  · exact passes promise before

private theorem follows_submit (task : QueueTask Queue Ev) :
    Follows worker (worker.submit task).2 := by
  refine .of (List.prefix_append _ _) (fun _ ready => ready) fun promise passes => ?_
  rcases worker_submit worker task with same | ⟨absent, -⟩
  · exact .inr (same ▸ passes)
  · rw [absent] at passes
    cases passes

/-- A running task comes to a later point, or returns. -/
theorem follows_running {package : TaskPackage (QueueTask Queue Ev)} {point : TaskPoint}
    (working : worker.worker = .running package point)
    (submitted : after.submitted = worker.submitted)
    (fulfilled : after.fulfilled = worker.fulfilled)
    (passes : passed after.worker = some package.promise) : Follows worker after := by
  refine .of (submitted ▸ List.prefix_rfl) (fun _ ready => fulfilled ▸ ready)
    fun promise before => .inr (passes.trans ?_)
  rw [working] at before
  cases point with
  | begin => cases before
  | locked | signalled | unlocked => exact before

private theorem follows_advance {entry : TaskPoint} (advanced : worker.advance entry = some after) :
    Follows worker after := by
  rcases advance_cases advanced with ⟨package, rest, working, -, rfl⟩ | ⟨working, -, -, rfl⟩ |
    ⟨package, working, rfl⟩ | ⟨package, outcome, working, rfl⟩ | ⟨package, outcome, working, rfl⟩ |
    ⟨number, outcome, working, rfl⟩
  · refine .of List.prefix_rfl (fun _ ready => ready) fun promise passes => ?_
    rw [working] at passes
    cases passes
  · refine .of List.prefix_rfl (fun _ ready => ready) fun promise passes => ?_
    rw [working] at passes
    cases passes
  · refine .of List.prefix_rfl (fun _ ready => ready) fun promise passes => ?_
    rw [working] at passes
    cases passes
  · refine .of List.prefix_rfl (fun _ ready => ready) fun promise passes => .inr ?_
    rw [working] at passes
    exact passes
  · refine .of List.prefix_rfl (fun _ ready => ready) fun promise passes => .inr ?_
    rw [working] at passes
    exact passes
  · -- The task is done with, and its future fulfilled.
    refine .of List.prefix_rfl (fun promise ready => ?_) fun promise passes => .inl ?_
    · dsimp only
      rw [Function.update_apply]
      split
      · rfl
      · exact ready
    · rw [working] at passes
      cases passes
      exact Option.isSome_of_eq_some (Function.update_self _ _ _)

section Follows

variable [DecidableEq Queue] {queue : Queue} {host later : Host Queue Ev Thread}
  {changed : CallbackThread (QueueTask Queue Ev) TaskPoint}

private theorem follows_setQueue (follows : Follows (host.queues queue) changed) (other : Queue) :
    Follows (host.queues other) ((host.setQueue queue changed).queues other) := by
  rw [Host.queues_setQueue]
  split
  case isTrue same => exact same ▸ follows
  case isFalse => exact .refl _

private theorem follows_workerStep [DecidableEq Ev] {outcome : Outcome}
    (taken : host.workerStep queue outcome = some later) (other : Queue) :
    Follows (host.queues other) (later.queues other) := by
  unfold Host.workerStep at taken
  split at taken
  case h_1 package point working =>
    unfold Host.taskStep at taken
    rcases package with ⟨task, promise⟩
    cases task with
    | hostFn =>
        cases taken
        refine follows_setQueue ?_ other
        exact follows_running working rfl rfl rfl
    | wait name future =>
        obtain ⟨result, -, rfl⟩ := Option.map_eq_some_iff.mp taken
        refine follows_setQueue ?_ other
        exact follows_running working rfl rfl rfl
    | completion name enqueueCount =>
        cases point with
        | begin =>
            obtain ⟨locked, acquired, rfl⟩ := Option.map_eq_some_iff.mp taken
            unfold Host.lock at acquired
            split at acquired
            case isFalse => cases acquired
            case isTrue =>
              cases acquired
              refine follows_setQueue ?_ other
              exact follows_running working rfl rfl rfl
        | locked | signalled | unlocked =>
            cases taken
            refine follows_setQueue ?_ other
            exact follows_running working rfl rfl rfl
  case h_2 =>
    obtain ⟨worker, advanced, rfl⟩ := Option.map_eq_some_iff.mp taken
    exact follows_setQueue (follows_advance advanced) other

private theorem follows_threadStep [DecidableEq Ev] [DecidableEq Thread] {thread : Thread}
    (taken : host.threadStep thread = some later) (other : Queue) :
    Follows (host.queues other) (later.queues other) := by
  have locks {name : Ev} {point : ThreadPoint Queue Ev}
      (locked : (host.lock name (.thread thread)).map (Host.setThread thread point) = some later) :
      Follows (host.queues other) (later.queues other) := by
    obtain ⟨locked, acquired, rfl⟩ := Option.map_eq_some_iff.mp locked
    unfold Host.lock at acquired
    split at acquired
    case isFalse => cases acquired
    case isTrue =>
      cases acquired
      exact .refl _
  unfold Host.threadStep at taken
  cases point : host.threads thread with
  | idle =>
      rw [point] at taken
      cases taken
  | submitHostFn queue | enqueueSubmit queue _ _ | waitForSubmit queue _ _ _ =>
      rw [point] at taken
      cases taken
      exact follows_setQueue (follows_submit _) other
  | enqueueLock | waitForLock | waitLock | waitRelock =>
      rw [point] at taken
      exact locks taken
  | enqueueCount | enqueueFuture | waitRead =>
      rw [point] at taken
      cases taken
      exact .refl _
  | waitForCheck | waitCheck =>
      rw [point] at taken
      dsimp only at taken
      split at taken
      · cases taken
        exact .refl _
      · cases taken
        exact .refl _
  | waitGet name enqueueCount future =>
      rw [point] at taken
      obtain ⟨outcome, -, rfl⟩ := Option.map_eq_some_iff.mp taken
      exact .refl _

end Follows

/-! ## What becomes of the threads -/

/-- What a step of a thread in a call on a blocking queue does to its dependencies. -/
inductive Moved (mixed : MixedHost Queue Blocking Ev Thread) (thread : Thread) :
    BlockingPoint Queue Blocking Ev → Prop
  | away {point : BlockingPoint Queue Blocking Ev} (leaves : comesFor point = none)
      (stays : inWait point = none ∨ inWait point = inWait (mixed.points thread)) :
      Moved mixed thread point
  | enqueue {queue : Blocking} {name : Ev} (enqueueCount : ℕ)
      (here : mixed.points thread = .enqueueCount queue name) :
      Moved mixed thread (.enqueueQueueLock queue name enqueueCount)
  | waitFor {queue : Blocking} {name : Ev} (here : mixed.points thread = .waitForCheck queue name)
      (pending : ¬ (mixed.host.events name).isReady) :
      Moved mixed thread (.waitForQueueLock queue name)
  | takes {queue : Blocking} {name : Ev}
      (here : mixed.points thread = .waitForQueueLock queue name) :
      Moved mixed thread (.waitForUnlock queue name (mixed.host.events name).future)

private theorem blockingStep_moved [DecidableEq Blocking] [DecidableEq Ev] [DecidableEq Thread]
    {thread : Thread} (taken : mixed.blockingStep thread = some next) :
    next.host.queues = mixed.host.queues ∧
      ∃ point, next.points = Function.update mixed.points thread point ∧
        Moved mixed thread point := by
  have locks {name : Ev} {point : BlockingPoint Queue Blocking Ev}
      (leaves : comesFor point = none) (rests : inWait point = none)
      (locked : (mixed.lockEvent name thread).map (setPoint thread point) = some next) :
      next.host.queues = mixed.host.queues ∧
        ∃ point, next.points = Function.update mixed.points thread point ∧
          Moved mixed thread point := by
    obtain ⟨middle, takes, rfl⟩ := Option.map_eq_some_iff.mp locked
    obtain ⟨host, acquired, rfl⟩ := Option.map_eq_some_iff.mp takes
    obtain ⟨-, rfl⟩ := lock_cases acquired
    exact ⟨rfl, point, rfl, .away leaves (.inl rests)⟩
  unfold MixedHost.blockingStep at taken
  cases here : mixed.points thread with
  | idle =>
      rw [here] at taken
      cases taken
  | hostFnLock queue =>
      rw [here] at taken
      obtain ⟨middle, locked, rfl⟩ := Option.map_eq_some_iff.mp taken
      obtain ⟨-, rfl⟩ := lockQueue_cases locked
      exact ⟨rfl, _, rfl, .away rfl (.inl rfl)⟩
  | enqueueLock | waitForLock | completeLock =>
      rw [here] at taken
      exact locks rfl rfl taken
  | hostFnRun | enqueueComplete | enqueueUnlock | completeRead =>
      rw [here] at taken
      cases taken
      exact ⟨rfl, _, rfl, .away rfl (.inl rfl)⟩
  | enqueueCount queue name =>
      rw [here] at taken
      cases taken
      exact ⟨rfl, _, rfl, .enqueue _ here⟩
  | enqueueQueueLock queue name enqueueCount =>
      rw [here] at taken
      obtain ⟨middle, locked, rfl⟩ := Option.map_eq_some_iff.mp taken
      obtain ⟨-, rfl⟩ := lockQueue_cases locked
      exact ⟨rfl, _, rfl, .away rfl (.inl rfl)⟩
  | waitForCheck queue name =>
      rw [here] at taken
      dsimp only at taken
      split at taken
      case isTrue pending =>
        cases taken
        exact ⟨rfl, _, rfl, .waitFor here pending⟩
      case isFalse =>
        cases taken
        exact ⟨rfl, _, rfl, .away rfl (.inl rfl)⟩
  | waitForQueueLock queue name =>
      rw [here] at taken
      obtain ⟨middle, locked, rfl⟩ := Option.map_eq_some_iff.mp taken
      obtain ⟨-, rfl⟩ := lockQueue_cases locked
      exact ⟨rfl, _, rfl, .takes here⟩
  | waitForUnlock queue name sFuture =>
      rw [here] at taken
      cases taken
      exact ⟨rfl, _, rfl, .away rfl (.inr (by rw [here]; rfl))⟩
  | waitForGet queue sFuture =>
      rw [here] at taken
      obtain ⟨outcome, -, rfl⟩ := Option.map_eq_some_iff.mp taken
      exact ⟨rfl, _, rfl, .away rfl (.inl rfl)⟩

/-! ## Circles -/

section Circles

variable [DecidableEq Queue]

/-- What a task needs it has needed from the beginning. -/
theorem Coherent.needs_of_later (coherent : mixed.Coherent)
    (follows : ∀ queue, Follows (mixed.host.queues queue) (next.host.queues queue))
    {future task : Future Queue} (member : future ∈ mixed.log)
    (needs : Needs next.host.queues future task) :
    Needs mixed.host.queues future task := by
  induction needs with
  | here => exact .here
  | earlier _ before ih => exact ih.earlier before
  | @awaited task awaited name needs waits ih =>
      have logged := coherent.logged_of_needs ih member
      have inside := (coherent.log.submitted task).mp logged
      obtain ⟨further, same⟩ := (follows task.queue).submitted
      rw [← same, List.getElem?_append_left inside] at waits
      exact ih.awaited waits

private theorem Coherent.pending_of_later (coherent : mixed.Coherent)
    (follows : ∀ queue, Follows (mixed.host.queues queue) (next.host.queues queue))
    {task : Future Queue} {name : Ev} (member : task ∈ mixed.log)
    (pending : next.Pending task name) :
    mixed.Pending task name := by
  obtain ⟨⟨enqueueCount, found⟩, behind⟩ := pending
  refine ⟨⟨enqueueCount, ?_⟩, fun through => behind ((follows task.queue).through _ through)⟩
  have inside := (coherent.log.submitted task).mp member
  obtain ⟨further, same⟩ := (follows task.queue).submitted
  unfold Host.CompletionAt at found ⊢
  rw [← same, List.getElem?_append_left inside] at found
  exact found

/-- A thread has no new dependencies. -/
def Settled (mixed next : MixedHost Queue Blocking Ev Thread) (thread : Thread) : Prop :=
  (∀ comes, comesFor (next.points thread) = some comes →
    comesFor (mixed.points thread) = some comes) ∧
  ∀ holds, inWait (next.points thread) = some holds → inWait (mixed.points thread) = some holds

omit [DecidableEq Queue] in
private theorem settled_of_eq {thread : Thread} (same : next.points thread = mixed.points thread) :
    Settled mixed next thread := by
  unfold Settled
  rw [same]
  exact ⟨fun _ comes => comes, fun _ holds => holds⟩

omit [DecidableEq Queue] in
/-- A thread that comes for no mutex and holds none for another future than before. -/
theorem settled_of_away {thread : Thread} (leaves : comesFor (next.points thread) = none)
    (stays : inWait (next.points thread) = none ∨
      inWait (next.points thread) = inWait (mixed.points thread)) :
    Settled mixed next thread := by
  refine ⟨fun comes coming => ?_, fun holds holding => ?_⟩
  · rw [leaves] at coming
    cases coming
  · rcases stays with rests | same
    · rw [rests] at holding
      cases holding
    · exact same ▸ holding

/-- The future that a thread awaits with the mutex of a queue. -/
theorem Coherent.known_of_inWait (coherent : mixed.Coherent) {thread : Thread} {queue : Blocking}
    {sFuture : SharedFuture Queue} (holds : inWait (mixed.points thread) = some (queue, sFuture)) :
    mixed.Known sFuture := by
  have informed := (coherent.informed thread).2
  cases point : mixed.points thread with
  | waitForUnlock | waitForGet =>
      rw [point] at holds informed
      cases holds
      exact informed
  | _ =>
      rw [point] at holds
      cases holds

/-- A dependency between threads that have no new ones is an old one. -/
theorem Coherent.depends_of_later (coherent : mixed.Coherent)
    (follows : ∀ queue, Follows (mixed.host.queues queue) (next.host.queues queue))
    {thread other : Thread} (first : Settled mixed next thread) (second : Settled mixed next other)
    (depends : next.Depends thread other) : mixed.Depends thread other := by
  cases depends with
  | queue comes holds => exact .queue (first.1 _ comes) (second.2 _ holds)
  | event awaits needs pending holds =>
      have member := coherent.known_of_inWait (first.2 _ awaits)
      have old := coherent.needs_of_later follows member needs
      exact .event (first.2 _ awaits) old
        (coherent.pending_of_later follows (coherent.logged_of_needs old member) pending)
        (second.1 _ holds)

/-- No thread has new dependencies. -/
theorem Coherent.wellFounded_of_settled (coherent : mixed.Coherent)
    (follows : ∀ queue, Follows (mixed.host.queues queue) (next.host.queues queue))
    (settled : ∀ thread, Settled mixed next thread)
    (wellFounded : WellFounded (Function.swap mixed.Depends)) :
    WellFounded (Function.swap next.Depends) :=
  Subrelation.wf (fun {_ _} depends =>
    coherent.depends_of_later follows (settled _) (settled _) depends) wellFounded

omit [DecidableEq Queue] in
private theorem inWait_of_comesFor {point : BlockingPoint Queue Blocking Ev} {comes : Blocking × Ev}
    (coming : comesFor point = some comes) : inWait point = none := by
  cases point with
  | enqueueQueueLock | waitForQueueLock => rfl
  | _ => cases coming

/-- A thread that comes for the mutex of a queue closes no circle if the future for which
the mutex is held does not depend on its event. -/
theorem Coherent.wellFounded_of_comes (coherent : mixed.Coherent)
    (follows : ∀ queue, Follows (mixed.host.queues queue) (next.host.queues queue))
    {thread : Thread} {queue : Blocking} {name : Ev}
    (settled : ∀ other, other ≠ thread → Settled mixed next other)
    (comes : comesFor (next.points thread) = some (queue, name))
    (opens : ¬ mixed.Closes queue name) (wellFounded : WellFounded (Function.swap mixed.Depends)) :
    WellFounded (Function.swap next.Depends) := by
  have rests := inWait_of_comesFor comes
  have elsewhere (first second : Thread) (apart : first ≠ thread) (apart' : second ≠ thread)
      (depends : next.Depends first second) : mixed.Depends first second :=
    coherent.depends_of_later follows (settled first apart) (settled second apart') depends
  refine wellFounded_of_moved wellFounded elsewhere fun first depends chain => ?_
  cases depends with
  | event awaits =>
      rw [rests] at awaits
      cases awaits
  | @queue queue' name' sFuture comes' holds =>
      cases comes.symm.trans comes'
      have different : first ≠ thread := by
        rintro rfl
        rw [rests] at holds
        cases holds
      obtain ⟨last, apart, between, back⟩ := exists_first_return elsewhere chain different
      cases back with
      | queue _ holds' =>
          rw [rests] at holds'
          cases holds'
      | event awaits needs pending holds' =>
          cases comes.symm.trans holds'
          have awaits' := (settled last apart).2 _ awaits
          have member := coherent.known_of_inWait awaits'
          have needs' := coherent.needs_of_later follows member needs
          exact opens ⟨first, last, _, _, _, _, (settled first different).2 _ holds, between,
            awaits', needs', coherent.pending_of_later follows
              (coherent.logged_of_needs needs' member) pending⟩

/-- A thread that takes the mutex of a queue for a future closes no circle if the future
does not depend on one that comes for this mutex. -/
theorem Coherent.wellFounded_of_holds (coherent : mixed.Coherent)
    (follows : ∀ queue, Follows (mixed.host.queues queue) (next.host.queues queue))
    {thread : Thread} {queue : Blocking} {sFuture : SharedFuture Queue}
    (settled : ∀ other, other ≠ thread → Settled mixed next other)
    (holds : inWait (next.points thread) = some (queue, sFuture))
    (known : mixed.Known sFuture) (opens : ¬ mixed.ClosesFor thread queue sFuture)
    (wellFounded : WellFounded (Function.swap mixed.Depends)) :
    WellFounded (Function.swap next.Depends) := by
  have stays : comesFor (next.points thread) = none := by
    cases coming : comesFor (next.points thread) with
    | none => rfl
    | some comes =>
        rw [inWait_of_comesFor coming] at holds
        cases holds
  have elsewhere (first second : Thread) (apart : first ≠ thread) (apart' : second ≠ thread)
      (depends : next.Depends first second) : mixed.Depends first second :=
    coherent.depends_of_later follows (settled first apart) (settled second apart') depends
  refine wellFounded_of_moved wellFounded elsewhere fun first depends chain => ?_
  cases depends with
  | queue comes =>
      rw [stays] at comes
      cases comes
  | event awaits needs pending comes =>
      cases holds.symm.trans awaits
      have different : first ≠ thread := by
        rintro rfl
        rw [stays] at comes
        cases comes
      obtain ⟨last, apart, between, back⟩ := exists_first_return elsewhere chain different
      cases back with
      | event _ _ _ comes' =>
          rw [stays] at comes'
          cases comes'
      | queue comes' holds' =>
          cases holds.symm.trans holds'
          have needs' := coherent.needs_of_later follows known needs
          exact opens ⟨first, last, _, _, _, _, _, rfl, needs', coherent.pending_of_later follows
            (coherent.logged_of_needs needs' known) pending, different,
            (settled first different).1 _ comes, between, apart, (settled last apart).1 _ comes'⟩

end Circles

/-! ## Every run -/

section Run

variable [DecidableEq Queue] [DecidableEq Blocking] [DecidableEq Ev] [DecidableEq Thread]

private theorem follows_host {action : HostAction Queue Ev Thread}
    (taken : mixed.step (.host action) = some next) (queue : Queue) :
    Follows (mixed.host.queues queue) (next.host.queues queue) := by
  have steps := (step_host taken).1
  unfold Host.step at steps
  cases action with
  | call thread call =>
      dsimp only at steps
      split at steps
      case isFalse => cases steps
      case isTrue =>
        rw [← Option.some.inj steps]
        exact .refl _
  | thread thread => exact follows_threadStep steps queue
  | worker other outcome => exact follows_workerStep steps queue

/-- **A step that closes no circle.** -/
theorem Coherent.wellFounded_step (coherent : mixed.Coherent)
    {action : MixedAction Queue Blocking Ev Thread} (admissible : mixed.Admissible action)
    (taken : mixed.step action = some next)
    (wellFounded : WellFounded (Function.swap mixed.Depends)) :
    WellFounded (Function.swap next.Depends) := by
  cases action with
  | host action =>
      exact coherent.wellFounded_of_settled (follows_host taken)
        (fun thread => settled_of_eq (congrFun (step_host taken).2 thread)) wellFounded
  | call thread call =>
      unfold step at taken
      dsimp only at taken
      split at taken
      case isFalse => cases taken
      case isTrue =>
        cases taken
        refine coherent.wellFounded_of_settled (fun _ => .refl _) (fun other => ?_) wellFounded
        by_cases same : other = thread
        · have here : (mixed.setPoint thread (entry call)).points other = entry call := by
            rw [same]
            exact Function.update_self _ _ _
          refine settled_of_away ?_ (.inl ?_)
          all_goals
            rw [here]
            cases call with
            | enqueueHostFn | enqueue | waitFor | isEventComplete => rfl
        · exact settled_of_eq (Function.update_of_ne same _ _)
  | thread thread =>
      obtain ⟨queues, point, points, moved⟩ := blockingStep_moved taken
      have follows (queue : Queue) :
          Follows (mixed.host.queues queue) (next.host.queues queue) := by
        rw [queues]
        exact .refl _
      have settled (other : Thread) (different : other ≠ thread) : Settled mixed next other := by
        apply settled_of_eq
        rw [points]
        exact Function.update_of_ne different _ _
      have here : next.points thread = point := by
        rw [points]
        exact Function.update_self _ _ _
      unfold Admissible at admissible
      dsimp only at admissible
      cases moved with
      | away leaves stays =>
          refine coherent.wellFounded_of_settled follows (fun other => ?_) wellFounded
          by_cases same : other = thread
          · rw [same]
            exact settled_of_away (here.symm ▸ leaves) (here.symm ▸ stays)
          · exact settled other same
      | @enqueue queue name enqueueCount point =>
          rw [point] at admissible
          exact coherent.wellFounded_of_comes follows settled (congrArg comesFor here) admissible
            wellFounded
      | @waitFor queue name point pending =>
          rw [point] at admissible
          exact coherent.wellFounded_of_comes follows settled (congrArg comesFor here)
            (admissible.resolve_left pending) wellFounded
      | @takes queue name point =>
          rw [point] at admissible
          have informed := (coherent.informed thread).2
          rw [point] at informed
          exact coherent.wellFounded_of_holds follows settled (congrArg inWait here) informed
            admissible wellFounded

/-! ## One thread alone -/

/-- The action is no step of another thread in a call on a blocking queue. -/
def OnlyBlocking (thread : Thread) : MixedAction Queue Blocking Ev Thread → Prop
  | .host _ => True
  | .call other _ => other = thread
  | .thread other => other = thread

omit [DecidableEq Queue] [DecidableEq Blocking] [DecidableEq Ev] [DecidableEq Thread] in
/-- A thread that is alone in calls on blocking queues closes no circle. -/
theorem admissible_of_alone {thread : Thread} (alone : ∀ other, other ≠ thread →
    mixed.points other = .idle) : mixed.Admissible (.thread thread) := by
  have opens {queue : Blocking} {name : Ev} (rests : inWait (mixed.points thread) = none) :
      ¬ mixed.Closes queue name := by
    rintro ⟨first, last, sFuture, queue', future, task, holds, -⟩
    by_cases same : first = thread
    · rw [same, rests] at holds
      cases holds
    · rw [alone first same] at holds
      cases holds
  unfold Admissible
  dsimp only
  cases point : mixed.points thread with
  | enqueueCount queue name => exact opens (by rw [point]; rfl)
  | waitForCheck queue name => exact .inr (opens (by rw [point]; rfl))
  | waitForQueueLock queue name =>
      rintro ⟨first, last, queue', name', name'', future, task, -, -, -, apart, comes, -⟩
      rw [alone first apart] at comes
      cases comes
  | _ => trivial

/-- **One thread alone** that uses blocking queues closes no circle, whatever the others do
on the non-blocking ones. -/
theorem reachableBy_of_alone {thread : Thread}
    {actions : List (MixedAction Queue Blocking Ev Thread)}
    (all : ∀ action ∈ actions, OnlyBlocking thread action)
    (runs : run step {} actions = some mixed) : ReachableBy Admissible step {} mixed := by
  refine ReachableBy.of_run (fun mixed action next
    (alone : ∀ other, other ≠ thread → mixed.points other = .idle) kind taken => ?_) .start
    (fun _ _ => rfl) all runs
  cases action with
  | host action =>
      refine ⟨trivial, fun other apart => ?_⟩
      rw [(step_host taken).2]
      exact alone other apart
  | call other call =>
      cases kind
      refine ⟨trivial, fun other' apart => ?_⟩
      unfold step at taken
      dsimp only at taken
      split at taken
      case isFalse => cases taken
      case isTrue =>
        cases taken
        exact (Function.update_of_ne apart _ _).trans (alone other' apart)
  | thread other =>
      cases kind
      refine ⟨admissible_of_alone alone, fun other' apart => ?_⟩
      obtain ⟨-, point, points, -⟩ := blockingStep_moved taken
      rw [points, Function.update_of_ne apart]
      exact alone other' apart

/-! ## Going on -/

/-- **Going on.** In a run none of whose steps closes a circle, every unfinished thread or
worker can take a step or waits, over other ones, for one that can; there is no circle of
threads and workers that wait for one another. -/
theorem goes_on (reached : ReachableBy Admissible step {} mixed) :
    (∀ agent, mixed.Unfinished agent →
      ∃ last, Ends mixed.waits agent last ∧ mixed.CanStep last) ∧
    ∀ agent, ¬ Relation.TransGen (fun first second => mixed.waits first = some second)
      agent agent := by
  have wellFounded : WellFounded (Function.swap mixed.Depends) := by
    induction reached with
    | start =>
        refine ⟨fun thread => ⟨thread, fun other depends => ?_⟩⟩
        cases depends with
        | queue comes => cases comes
        | event awaits => cases awaits
    | step reached meets taken ih =>
        exact (coherent_reachable reached.reachable).wellFounded_step meets taken ih
  have coherent := coherent_reachable reached.reachable
  refine ⟨fun agent unfinished => ?_, fun agent => ?_⟩
  · obtain ⟨last, ends_, steps⟩ := coherent.progress wellFounded agent
    exact ⟨last, ends_, steps unfinished⟩
  · obtain ⟨last, ends_, -⟩ := coherent.progress wellFounded agent
    exact ends_.acyclic

end Run

/-- A thread enqueues an event into a non-blocking queue, and another one lets a blocking
queue wait for it. -/
private def waitsForHost : List (MixedAction Unit Unit Unit Bool) :=
  .host (.call false (.enqueue () ())) :: List.replicate 4 (.host (.thread false)) ++
  .call true (.waitFor () ()) :: List.replicate 4 (.thread true)

private theorem waitsForHost_runs : (run step {} waitsForHost).isSome := by decide

theorem goes_on_waitsForHost : ∃ mixed : MixedHost Unit Unit Unit Bool,
    mixed.waits (.thread true) = some (.worker ()) ∧
      ∃ last, Ends mixed.waits (.thread true) last ∧ mixed.CanStep last := by
  have reached : ReachableBy Admissible step {}
      ((run step {} waitsForHost).get waitsForHost_runs) := by
    have alone : ∀ action ∈ waitsForHost, OnlyBlocking true action := by
      simp [waitsForHost, OnlyBlocking]
    exact reachableBy_of_alone alone (Option.some_get waitsForHost_runs).symm
  exact ⟨_, by decide, (goes_on reached).1 (.thread true) (.inr (by decide))⟩

/-- Two threads let a blocking queue wait for an event that is pending in a non-blocking
queue. The first one has released the event and holds the mutex of the queue when the second
one takes the event. -/
private def crossing : List (MixedAction Unit Unit Unit Bool) :=
  .host (.call false (.enqueue () ())) :: List.replicate 4 (.host (.thread false)) ++
  .call false (.waitFor () ()) :: List.replicate 4 (.thread false) ++
  .call true (.waitFor () ()) :: List.replicate 2 (.thread true) ++
  List.replicate 2 (.host (.worker () .value))

private theorem crossing_runs : (run step {} crossing).isSome := by decide

/-- **A deadlock.** The completion task of the event, the second thread and the first one
wait for one another, and nobody can take a step. -/
theorem crossing_deadlocks : ∃ mixed : MixedHost Unit Unit Unit Bool,
    Reachable step {} mixed ∧ (∃ agent, mixed.Unfinished agent) ∧
      (∀ agent, ¬ mixed.CanStep agent) ∧
        Relation.TransGen (fun first second => mixed.waits first = some second)
          (.worker ()) (.worker ()) := by
  refine ⟨(run step {} crossing).get crossing_runs,
    ⟨crossing, (Option.some_get crossing_runs).symm⟩, ?_, ?_, ?_⟩
  · exact ⟨.thread false, .inr (by decide)⟩
  · rintro (thread | queue) steps
    · rcases steps with steps | steps
      · cases thread <;> exact absurd steps (by decide)
      · cases thread <;> exact absurd steps (by decide)
    · cases queue
      exact absurd (steps .value) (by decide)
  · have third : ((run step {} crossing).get crossing_runs).waits (.thread false) =
        some (.worker ()) := by decide
    have second : ((run step {} crossing).get crossing_runs).waits (.thread true) =
        some (.thread false) := by decide
    have first : ((run step {} crossing).get crossing_runs).waits (.worker ()) =
        some (.thread true) := by decide
    exact .tail (.tail (.single first) second) third

end Alpaka.MixedHost
