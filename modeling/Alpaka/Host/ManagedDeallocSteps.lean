import Alpaka.Host.ManagedDealloc

/-! # The steps of the deallocation

A step is one of few kinds (`Alpaka.ManagedDealloc.Takes`,
`Alpaka.ManagedDealloc.Destructs`). A task that carries a copy of the pointer has it until it
is destroyed (`Alpaka.ManagedDealloc.Carried.takes`).
-/

namespace Alpaka

namespace ManagedDealloc

open CallbackThread

variable {Queue Thread Action : Type*} [DecidableEq Queue] [DecidableEq Thread]
  {config : BufferConfig Queue} {memory next : ManagedDealloc Queue Thread Action}

/-! ## What a step can be -/

/-- What a step of the destructor can be. -/
inductive Destructs (config : BufferConfig Queue) (agent : Agent Queue Thread)
    (memory : ManagedDealloc Queue Thread Action) :
    DestructorPoint Queue → ManagedDealloc Queue Thread Action → Prop
  | user {index : ℕ} {action : Action} (found : memory.actions[index]? = some (.user action)) :
      Destructs config agent memory (.action index) (memory.ran agent index)
  | waitEmpty {index : ℕ} {queue : Queue} (found : memory.actions[index]? = some (.waitFor queue))
      (empty : memory.isQueueEmpty config queue = true) :
      Destructs config agent memory (.action index) (memory.ran agent index)
  | waitSubmit {index : ℕ} {queue : Queue} (found : memory.actions[index]? = some (.waitFor queue))
      (busy : memory.isQueueEmpty config queue = false) :
      Destructs config agent memory (.action index)
        { memory with destructor := .running agent (.waitSubmit index queue) }
  | markerRun {index : ℕ} {queue : Queue} (blocking : config.isBlocking queue = true)
      (free : (memory.blocking queue).mutex = none) :
      Destructs config agent memory (.waitSubmit index queue) (memory.ran agent index)
  | marker {index : ℕ} {queue : Queue} (nonBlocking : config.isBlocking queue = false) :
      Destructs config agent memory (.waitSubmit index queue)
        { memory.submit queue (.hostFn false) with
          destructor := .running agent (.waits index
            ⟨queue, (memory.queues queue).submitted.length⟩) }
  | markerDone {index : ℕ} {marker : Future Queue}
      (fulfilled : ((memory.queues marker.queue).fulfilled marker.promise).isSome) :
      Destructs config agent memory (.waits index marker) (memory.ran agent index)
  | actionsDone {index : ℕ} (done : memory.actions.length ≤ index) :
      Destructs config agent memory (.action index)
        { memory with destructor := .running agent .freeOp }
  | free (direct : config.deferred = none) :
      Destructs config agent memory .freeOp ({ memory with freed := memory.freed + 1 }.leave agent)
  | lock {queue : Queue} (deferred : config.deferred = some queue)
      (blocking : config.isBlocking queue = true) (free : (memory.blocking queue).mutex = none) :
      Destructs config agent memory .freeOp
        { memory.setBlocking queue { memory.blocking queue with mutex := some agent } with
          destructor := .running agent .freeLocked }
  | submit {queue : Queue} (deferred : config.deferred = some queue)
      (blocking : config.isBlocking queue = false) :
      Destructs config agent memory .freeOp ((memory.submit queue .free).leave agent)
  | freeLocked {queue : Queue} (deferred : config.deferred = some queue) :
      Destructs config agent memory .freeLocked
        (({ memory with freed := memory.freed + 1 }.unlock queue).leave agent)

omit [DecidableEq Thread] in
theorem lock_cases {queue : Queue} {agent : Agent Queue Thread}
    (locked : memory.lock queue agent = some next) :
    (memory.blocking queue).mutex = none ∧
      next = memory.setBlocking queue { memory.blocking queue with mutex := some agent } := by
  unfold lock at locked
  split at locked
  case isTrue free => exact ⟨free, (Option.some.inj locked).symm⟩
  case isFalse => cases locked

omit [DecidableEq Thread] in
/-- The mutex is acquired and released at once. -/
theorem unlock_setBlocking {queue : Queue} {agent : Agent Queue Thread}
    (free : (memory.blocking queue).mutex = none) :
    (memory.setBlocking queue { memory.blocking queue with mutex := some agent }).unlock queue =
      memory := by
  have back : { memory.blocking queue with mutex := none } = memory.blocking queue := by
    rw [← free]
  unfold unlock setBlocking
  dsimp only
  rw [Function.update_self, Function.update_idem, back, Function.update_eq_self]

private theorem destructs_of_destruct {agent : Agent Queue Thread} {point : DestructorPoint Queue}
    (taken : memory.destruct config agent point = some next) :
    Destructs config agent memory point next := by
  unfold destruct at taken
  split at taken
  case h_1 index _ =>
    split at taken
    case h_1 action found =>
      cases taken
      exact .user found
    case h_2 queue found =>
      split at taken
      case isTrue empty =>
        cases taken
        exact .waitEmpty found empty
      case isFalse busy =>
        cases taken
        exact .waitSubmit found (Bool.eq_false_iff.mpr busy)
    case h_3 missing =>
      cases taken
      exact .actionsDone (List.getElem?_eq_none_iff.mp missing)
  case h_2 index queue _ =>
    split at taken
    case isTrue blocking =>
      obtain ⟨_, locked, rfl⟩ := Option.map_eq_some_iff.mp taken
      obtain ⟨free, rfl⟩ := lock_cases locked
      rw [unlock_setBlocking free]
      exact .markerRun blocking free
    case isFalse nonBlocking =>
      cases taken
      exact .marker (Bool.eq_false_iff.mpr nonBlocking)
  case h_3 index marker _ =>
    split at taken
    case isTrue fulfilled =>
      cases taken
      exact .markerDone fulfilled
    case isFalse => cases taken
  case h_4 direct =>
    cases taken
    exact .free direct
  case h_5 queue deferred =>
    split at taken
    case isTrue blocking =>
      obtain ⟨_, locked, rfl⟩ := Option.map_eq_some_iff.mp taken
      obtain ⟨free, rfl⟩ := lock_cases locked
      exact .lock deferred blocking free
    case isFalse blocking =>
      cases taken
      exact .submit deferred (Bool.eq_false_iff.mpr blocking)
  case h_6 => cases taken
  case h_7 queue deferred =>
    cases taken
    exact .freeLocked deferred

/-- Where an agent is that is in the destructor. -/
def InDestructor (memory : ManagedDealloc Queue Thread Action) : Agent Queue Thread → Prop
  | .thread thread => memory.points thread = .destroy
  | .worker queue => ∃ package outcome, (memory.queues queue).worker = .popped package outcome

/-- What a step can be. -/
inductive Takes (config : BufferConfig Queue) (memory : ManagedDealloc Queue Thread Action) :
    ManagedDealloc Queue Thread Action → Prop
  | copy {thread receiver : Thread} (owner : Owner.thread thread ∈ memory.owners) :
      Takes config memory { memory with owners := memory.owners ++ [.thread receiver] }
  | addDestructorAction {thread : Thread} {action : DestructorAction Queue Action}
      (owner : Owner.thread thread ∈ memory.owners) :
      Takes config memory { memory with actions := memory.actions ++ [action] }
  | keepAlive {thread : Thread} {call : KeepAlive Queue} (idle : memory.points thread = .idle)
      (owner : Owner.thread thread ∈ memory.owners)
      (position : call.position = (memory.queues call.queue).submitted.length)
      (started : call.started = (memory.blocking call.queue).started) :
      Takes config memory ({ memory with
        owners := memory.owners ++ [Owner.thread thread]
        kept := memory.kept ++ [call] }.setPoint thread
          (if config.isBlocking call.queue then .keepAliveLock call else .keepAliveSubmit call))
  | enqueue {thread : Thread} {queue : Queue} {carries : Bool}
      (idle : memory.points thread = .idle)
      (owner : carries = true → Owner.thread thread ∈ memory.owners) :
      Takes config memory (memory.setPoint thread
        (if config.isBlocking queue then .submitLock queue else .submit queue carries))
  | drop {thread : Thread} (point : memory.points thread = .idle ∧
        Owner.thread thread ∈ memory.owners ∨ memory.points thread = .keepAliveReturn) :
      Takes config memory (memory.drop thread)
  | submit {thread : Thread} {queue : Queue} {carries : Bool}
      (point : memory.points thread = .submit queue carries) :
      Takes config memory ((memory.submit queue (.hostFn carries)).setPoint thread .idle)
  | submitLock {thread : Thread} {queue : Queue} (point : memory.points thread = .submitLock queue)
      (free : (memory.blocking queue).mutex = none) :
      Takes config memory ((memory.setBlocking queue
        ⟨some (.thread thread), (memory.blocking queue).started + 1,
          (memory.blocking queue).finished⟩).setPoint thread (.submitRun queue))
  | submitRun {thread : Thread} {queue : Queue} (point : memory.points thread = .submitRun queue) :
      Takes config memory ((memory.setBlocking queue
        ⟨none, (memory.blocking queue).started,
          (memory.blocking queue).finished + 1⟩).setPoint thread .idle)
  | keepAliveLock {thread : Thread} {call : KeepAlive Queue}
      (point : memory.points thread = .keepAliveLock call)
      (free : (memory.blocking call.queue).mutex = none) :
      Takes config memory ((memory.setBlocking call.queue
        { memory.blocking call.queue with mutex := some (.thread thread) }).setPoint thread
          (.keepAliveSubmit call))
  | keepAliveSubmit {thread : Thread} {call : KeepAlive Queue}
      (point : memory.points thread = .keepAliveSubmit call) :
      Takes config memory { (memory.submit call.queue (.hostFn true)).setPoint thread
          .keepAliveReturn with
        blocking :=
          if config.isBlocking call.queue then Function.update memory.blocking call.queue
            { memory.blocking call.queue with mutex := none }
          else memory.blocking }
  | finish {queue : Queue} {package : TaskPackage BufferTask} {outcome : Outcome}
      (working : (memory.queues queue).worker = .running package ()) :
      Takes config memory
        { memory.setQueue queue ((memory.queues queue).finish package outcome) with
        freed := if package.task = .free then memory.freed + 1 else memory.freed }
  | release {queue : Queue} {package : TaskPackage BufferTask} {outcome : Outcome}
      (working : (memory.queues queue).worker = .popped package outcome)
      (owner : Owner.task ⟨queue, package.promise⟩ ∈ memory.owners) :
      Takes config memory (memory.release (.worker queue) (.task ⟨queue, package.promise⟩))
  | advance {queue : Queue} {thread : CallbackThread BufferTask Unit}
      (advanced : (memory.queues queue).advance () = some thread)
      (dropped : ∀ package outcome, (memory.queues queue).worker = .popped package outcome →
        Owner.task ⟨queue, package.promise⟩ ∉ memory.owners ∧
          ∀ point, memory.destructor ≠ .running (.worker queue) point) :
      Takes config memory (memory.setQueue queue thread)
  | destruct {agent : Agent Queue Thread} {point : DestructorPoint Queue}
      {next : ManagedDealloc Queue Thread Action}
      (running : memory.destructor = .running agent point) (inside : memory.InDestructor agent)
      (destructs : Destructs config agent memory point next) : Takes config memory next

theorem destructing_iff {agent : Agent Queue Thread} {point : DestructorPoint Queue} :
    memory.destructing agent = some point ↔ memory.destructor = .running agent point := by
  unfold destructing
  cases memory.destructor with
  | pending | returned => simp
  | running runner at_ =>
      dsimp only
      split
      case isTrue same => simp [same]
      case isFalse different => simp [different]

private theorem takes_of_call {thread : Thread} {operation : BufferCall Queue Thread Action}
    (idle : memory.points thread = .idle)
    (taken : memory.call config thread operation = some next) : Takes config memory next := by
  cases operation with
  | copy receiver =>
      obtain ⟨owner, same⟩ := Option.ite_none_right_eq_some.mp taken
      cases same
      exact .copy owner
  | drop =>
      obtain ⟨owner, same⟩ := Option.ite_none_right_eq_some.mp taken
      cases same
      exact .drop (.inl ⟨idle, owner⟩)
  | addDestructorAction action =>
      obtain ⟨owner, same⟩ := Option.ite_none_right_eq_some.mp taken
      cases same
      exact .addDestructorAction owner
  | keepAlive queue =>
      obtain ⟨owner, same⟩ := Option.ite_none_right_eq_some.mp taken
      cases same
      exact .keepAlive idle owner rfl rfl
  | enqueueHostFn queue carries =>
      obtain ⟨owner, same⟩ := Option.ite_none_right_eq_some.mp taken
      cases same
      exact .enqueue idle owner

omit [DecidableEq Thread] in
private theorem setBlocking_setBlocking (queue : Queue)
    (first second : BlockingTasks Queue Thread) :
    (memory.setBlocking queue first).setBlocking queue second =
      memory.setBlocking queue second := by
  unfold setBlocking
  rw [Function.update_idem]

omit [DecidableEq Thread] in
theorem blocking_setBlocking (queue : Queue) (changed : BlockingTasks Queue Thread) :
    (memory.setBlocking queue changed).blocking queue = changed := Function.update_self ..

private theorem takes_of_threadStep {thread : Thread}
    (taken : memory.threadStep config thread = some next) : Takes config memory next := by
  unfold threadStep at taken
  cases point : memory.points thread with
  | idle =>
      rw [point] at taken
      cases taken
  | submit queue carries =>
      rw [point] at taken
      cases taken
      exact .submit point
  | submitLock queue =>
      rw [point] at taken
      obtain ⟨_, locked, rfl⟩ := Option.map_eq_some_iff.mp taken
      obtain ⟨free, rfl⟩ := lock_cases locked
      simp only [blocking_setBlocking, setBlocking_setBlocking]
      exact .submitLock point free
  | submitRun queue =>
      rw [point] at taken
      cases taken
      simp only [unlock, blocking_setBlocking, setBlocking_setBlocking]
      exact .submitRun point
  | keepAliveLock call =>
      rw [point] at taken
      obtain ⟨_, locked, rfl⟩ := Option.map_eq_some_iff.mp taken
      obtain ⟨free, rfl⟩ := lock_cases locked
      exact .keepAliveLock point free
  | keepAliveSubmit call =>
      rw [point] at taken
      cases taken
      have steps : Takes config memory _ := .keepAliveSubmit point
      split
      case isTrue blocking =>
        rw [if_pos blocking] at steps
        exact steps
      case isFalse blocking =>
        rw [if_neg blocking] at steps
        exact steps
  | keepAliveReturn =>
      rw [point] at taken
      cases taken
      exact .drop (.inr point)
  | destroy =>
      rw [point] at taken
      obtain ⟨at_, inside, destructed⟩ := Option.bind_eq_some_iff.mp taken
      exact .destruct (destructing_iff.mp inside) point (destructs_of_destruct destructed)

private theorem takes_of_workerStep {queue : Queue} {outcome : Outcome}
    (taken : memory.workerStep config queue outcome = some next) : Takes config memory next := by
  unfold workerStep at taken
  dsimp only at taken
  split at taken
  case h_1 package _ working =>
    cases taken
    exact .finish working
  case h_2 package result working =>
    split at taken
    case isTrue owner =>
      cases taken
      exact .release working owner
    case isFalse dropped =>
      split at taken
      case h_1 point inside =>
        exact .destruct (destructing_iff.mp inside) ⟨package, result, working⟩
          (destructs_of_destruct taken)
      case h_2 outside =>
        obtain ⟨thread, advanced, rfl⟩ := Option.map_eq_some_iff.mp taken
        refine .advance advanced fun other _ same => ?_
        rw [working] at same
        cases same
        refine ⟨dropped, fun point running => ?_⟩
        rw [destructing_iff.mpr running] at outside
        cases outside
  case h_3 _ unpopped =>
    obtain ⟨thread, advanced, rfl⟩ := Option.map_eq_some_iff.mp taken
    exact .advance advanced fun package outcome same => absurd same (unpopped package outcome)

theorem takes_of_step {action : BufferAction Queue Thread Action}
    (taken : memory.step config action = some next) : Takes config memory next := by
  cases action with
  | call thread call =>
      unfold step at taken
      dsimp only at taken
      split at taken
      case isTrue idle => exact takes_of_call idle taken
      case isFalse => cases taken
  | thread thread => exact takes_of_threadStep taken
  | worker queue outcome => exact takes_of_workerStep taken

/-! ## The tasks that carry a copy -/

/-- A task that carries a copy has it until it is destroyed. -/
structure Carried (memory : ManagedDealloc Queue Thread Action) : Prop where
  going : ∀ queue, (memory.queues queue).Going
  carries : ∀ task : Future Queue,
    (memory.queues task.queue).submitted[task.promise]? = some (.hostFn true) →
      Owner.task task ∈ memory.owners ∨ task.promise ∈ (memory.queues task.queue).finished
  keeps : ∀ task : Future Queue, Owner.task task ∈ memory.owners →
    (memory.queues task.queue).submitted[task.promise]? = some (.hostFn true) ∧
      (memory.queues task.queue).Keeps task.promise

omit [DecidableEq Queue] [DecidableEq Thread] in
theorem carried_allocated (creator : Thread) :
    (allocated creator : ManagedDealloc Queue Thread Action).Carried where
  going := fun _ => going_initial
  carries := fun _ found => nomatch found
  keeps := fun task owner => by
    cases List.mem_singleton.mp owner

omit [DecidableEq Queue] [DecidableEq Thread] in
/-- Steps that leave the queues alone and the copies of the tasks. -/
theorem Carried.congr (carried : memory.Carried) (queues : next.queues = memory.queues)
    (owners : ∀ task, Owner.task task ∈ next.owners ↔ Owner.task task ∈ memory.owners) :
    next.Carried where
  going := queues ▸ carried.going
  carries := fun task found => by
    rw [queues] at found ⊢
    rw [owners]
    exact carried.carries task found
  keeps := fun task owner => by
    rw [queues]
    exact carried.keeps task ((owners task).mp owner)

omit [DecidableEq Queue] [DecidableEq Thread] in
private theorem task_mem_append_thread {owners : List (Owner Queue Thread)} {thread : Thread}
    {task : Future Queue} : Owner.task task ∈ owners ++ [.thread thread] ↔
      Owner.task task ∈ owners := by
  simp

private theorem task_mem_erase_thread {owners : List (Owner Queue Thread)} {thread : Thread}
    {task : Future Queue} : Owner.task task ∈ owners.erase (.thread thread) ↔
      Owner.task task ∈ owners :=
  List.mem_erase_of_ne fun impossible => nomatch impossible

omit [DecidableEq Thread] in
theorem queues_setQueue {queue : Queue} {changed : CallbackThread BufferTask Unit} (other : Queue) :
    (memory.setQueue queue changed).queues other =
      if other = queue then changed else memory.queues other :=
  Function.update_apply ..

omit [DecidableEq Thread] in
/-- A step of a worker. -/
theorem Carried.setQueue (carried : memory.Carried) {queue : Queue}
    {changed : CallbackThread BufferTask Unit} (going : changed.Going)
    (submitted : changed.submitted = (memory.queues queue).submitted)
    (finished : (memory.queues queue).finished ⊆ changed.finished)
    (keeps : ∀ promise, Owner.task ⟨queue, promise⟩ ∈ memory.owners →
      (memory.queues queue).Keeps promise → changed.Keeps promise) :
    (memory.setQueue queue changed).Carried where
  going := fun other => by
    rw [queues_setQueue]
    split
    · exact going
    · exact carried.going other
  carries := fun ⟨other, promise⟩ found => by
    rw [queues_setQueue] at found ⊢
    split at found
    case isTrue same =>
      rw [if_pos same]
      rw [submitted] at found
      subst same
      exact (carried.carries ⟨other, promise⟩ found).imp_right fun member => finished member
    case isFalse different =>
      rw [if_neg different]
      exact carried.carries ⟨other, promise⟩ found
  keeps := fun ⟨other, promise⟩ owner => by
    obtain ⟨found, kept⟩ := carried.keeps ⟨other, promise⟩ owner
    rw [queues_setQueue]
    split
    case isTrue same =>
      subst same
      rw [submitted]
      exact ⟨found, keeps promise owner kept⟩
    case isFalse => exact ⟨found, kept⟩

omit [DecidableEq Thread] in
theorem queues_submit {queue : Queue} {task : BufferTask} (other : Queue) :
    (memory.submit queue task).queues other =
      if other = queue then ((memory.queues queue).submit task).2 else memory.queues other :=
  Function.update_apply ..

omit [DecidableEq Thread] in
/-- The submitted tasks are those before, and the new one. -/
theorem submitted_submit {queue : Queue} {task found : BufferTask} {other : Future Queue} :
    ((memory.submit queue task).queues other.queue).submitted[other.promise]? = some found ↔
      (memory.queues other.queue).submitted[other.promise]? = some found ∨
        other = ⟨queue, (memory.queues queue).submitted.length⟩ ∧ found = task := by
  rcases other with ⟨other, promise⟩
  rw [queues_submit]
  split
  case isTrue same =>
    dsimp only at same
    subst same
    refine ⟨fun present => ?_, ?_⟩
    · exact (getElem?_submit present).imp_right fun last =>
        ⟨congrArg (Future.mk other) last.1, last.2⟩
    · rintro (before | ⟨last, rfl⟩)
      · exact (submit_extends task).getElem? before
      · cases last
        exact getElem?_submit_self found
  case isFalse different =>
    refine ⟨.inl, ?_⟩
    rintro (before | ⟨last, -⟩)
    · exact before
    · cases last
      exact absurd rfl different

omit [DecidableEq Thread] in
theorem finished_submit {queue : Queue} {task : BufferTask} (other : Queue) :
    ((memory.submit queue task).queues other).finished = (memory.queues other).finished := by
  rw [queues_submit]
  split
  case isTrue same => rw [same]; rfl
  case isFalse => rfl

omit [DecidableEq Thread] in
/-- The copies after a task has been submitted. -/
theorem task_mem_submit {queue : Queue} {task : BufferTask} {other : Future Queue} :
    Owner.task other ∈ (memory.submit queue task).owners ↔ Owner.task other ∈ memory.owners ∨
      task = .hostFn true ∧ other = ⟨queue, (memory.queues queue).submitted.length⟩ := by
  change Owner.task other ∈ (if task = .hostFn true then _ else _) ↔ _
  split
  case isTrue same => simp [same]
  case isFalse different => simp [different]

omit [DecidableEq Thread] in
theorem mem_submit {queue : Queue} {task : BufferTask} {owner : Owner Queue Thread}
    (member : owner ∈ memory.owners) : owner ∈ (memory.submit queue task).owners := by
  change owner ∈ (if task = .hostFn true then _ else _)
  split
  · exact List.mem_append_left _ member
  · exact member

omit [DecidableEq Thread] in
theorem Carried.submit (carried : memory.Carried) (queue : Queue) (task : BufferTask) :
    (memory.submit queue task).Carried := by
  refine ⟨fun other => ?_, fun other found => ?_, fun ⟨other, promise⟩ owner => ?_⟩
  · rw [queues_submit]
    split
    · exact (carried.going queue).submit task
    · exact carried.going other
  · rw [task_mem_submit, finished_submit]
    rcases submitted_submit.mp found with before | ⟨last, carries⟩
    · exact (carried.carries other before).imp_left .inl
    · exact .inl (.inr ⟨carries.symm, last⟩)
  · rw [submitted_submit, queues_submit]
    rcases task_mem_submit.mp owner with before | ⟨carries, last⟩
    · obtain ⟨found, kept⟩ := carried.keeps ⟨other, promise⟩ before
      refine ⟨.inl found, ?_⟩
      split
      case isTrue same =>
        subst same
        exact kept.submit task
      case isFalse => exact kept
    · refine ⟨.inr ⟨last, carries.symm⟩, ?_⟩
      cases last
      rw [if_pos rfl]
      have ordered := (carried.going queue).ordered
      refine (ordered.submit task).keeps fun member => ?_
      exact lt_irrefl _ (ordered.submitted_of_finished member)

/-- A worker drops the copy of the task that it destroys. -/
theorem Carried.release (carried : memory.Carried) {queue : Queue}
    {package : TaskPackage BufferTask} {outcome : Outcome}
    (working : (memory.queues queue).worker = .popped package outcome) :
    (memory.release (.worker queue) (.task ⟨queue, package.promise⟩)).Carried where
  going := carried.going
  carries := fun task found => by
    by_cases same : task = ⟨queue, package.promise⟩
    · rw [same]
      exact .inr ((carried.going queue).ordered.finished_of_popped working)
    · have different : Owner.task task ≠ (.task ⟨queue, package.promise⟩ : Owner Queue Thread) :=
        fun equal => same (Owner.task.inj equal)
      exact (carried.carries task found).imp_left (List.mem_erase_of_ne different).mpr
  keeps := fun task owner => carried.keeps task (List.mem_of_mem_erase owner)

theorem Carried.destructs (carried : memory.Carried) {agent : Agent Queue Thread}
    {point : DestructorPoint Queue} (destructs : Destructs config agent memory point next) :
    next.Carried := by
  cases destructs with
  | @submit queue => exact (carried.submit queue .free).congr rfl fun _ => .rfl
  | @marker _ queue => exact (carried.submit queue (.hostFn false)).congr rfl fun _ => .rfl
  | _ => exact carried.congr rfl fun _ => .rfl

theorem Carried.takes (carried : memory.Carried) (takes : Takes config memory next) :
    next.Carried := by
  cases takes with
  | copy | keepAlive => exact carried.congr rfl fun _ => task_mem_append_thread
  | addDestructorAction | enqueue | submitLock | submitRun | keepAliveLock =>
      exact carried.congr rfl fun _ => .rfl
  | drop => exact carried.congr rfl fun _ => task_mem_erase_thread
  | @submit _ queue carries =>
      exact (carried.submit queue (.hostFn carries)).congr rfl fun _ => .rfl
  | @keepAliveSubmit _ call =>
      exact (carried.submit call.queue (.hostFn true)).congr rfl fun _ => .rfl
  | @finish queue package outcome working =>
      have ran := carried.setQueue ((carried.going queue).finish working outcome) rfl
        (List.subset_append_left _ _) fun promise _ kept =>
          ⟨kept.unfulfilled, fun _ impossible => nomatch impossible⟩
      exact ran.congr rfl fun _ => .rfl
  | release working => exact carried.release working
  | @advance queue thread advanced dropped =>
      obtain ⟨extends_, submitted, -⟩ := advance_history advanced
      refine carried.setQueue ((carried.going queue).advance advanced) submitted extends_.finished
        fun promise owner kept => kept.advance advanced fun package outcome working same => ?_
      exact (dropped package outcome working).1 (same ▸ owner)
  | destruct _ _ destructs => exact carried.destructs destructs

end ManagedDealloc

end Alpaka
