import Alpaka.Host.ManagedDeallocPhase
import Alpaka.Math.Interleaving
import Alpaka.Math.WaitFor

/-! # The memory is freed once

The destructor is entered by whoever drops the last copy. By then every task that carries a
copy has returned, and with it all tasks that were submitted before it; the registered
actions are executed in their order before the memory is freed, and it is freed at most once
(`Alpaka.ManagedDealloc.Sound.freed`).
-/

namespace Alpaka

namespace ManagedDealloc

open CallbackThread Math.Interleaving Math.WaitFor

variable {Queue Thread Action : Type*} [DecidableEq Queue] [DecidableEq Thread]
  {config : BufferConfig Queue} {memory next : ManagedDealloc Queue Thread Action}

/-! ## The mutexes of blocking queues -/

/-- The mutex that a thread holds at a point. -/
def pointHolds (config : BufferConfig Queue) : BufferPoint Queue → Option Queue
  | .submitRun queue => some queue
  | .keepAliveSubmit call => if config.isBlocking call.queue then some call.queue else none
  | _ => none

def agentHolds (config : BufferConfig Queue) (points : Thread → BufferPoint Queue) :
    Agent Queue Thread → Option Queue
  | .thread thread => pointHolds config (points thread)
  | .worker _ => none

/-- Who holds a mutex in the destructor. -/
def lockedBy : Destructor Queue Thread → Option (Agent Queue Thread)
  | .running agent .freeLocked => some agent
  | _ => none

/-- The mutex that an agent holds. -/
def holds (config : BufferConfig Queue) (memory : ManagedDealloc Queue Thread Action)
    (agent : Agent Queue Thread) : Option Queue :=
  if lockedBy memory.destructor = some agent then config.deferred
  else agentHolds config memory.points agent

/-- A mutex is held by the agent that is at a point where it has it. -/
def Mutexes (config : BufferConfig Queue) (memory : ManagedDealloc Queue Thread Action) : Prop :=
  Owned (fun queue => (memory.blocking queue).mutex) (memory.holds config)

private theorem mutexes_allocated (creator : Thread) :
    (allocated creator : ManagedDealloc Queue Thread Action).Mutexes config := by
  intro queue agent
  refine iff_of_false (by rintro ⟨⟩) ?_
  cases agent <;> rintro ⟨⟩

/-- A step that moves nobody to or from a mutex. -/
theorem Mutexes.congr (mutexes : memory.Mutexes config)
    (blocking : next.blocking = memory.blocking) (points : next.points = memory.points)
    (destructor : lockedBy next.destructor = lockedBy memory.destructor) :
    next.Mutexes config := by
  unfold Mutexes holds
  rw [blocking, points, destructor]
  exact mutexes

omit [DecidableEq Queue] [DecidableEq Thread] in
/-- A thread that is not in the destructor has no mutex there. -/
theorem Placed.unlocked (placed : memory.Placed) {thread : Thread} {point : BufferPoint Queue}
    (at_ : memory.points thread = point) (outside : point ≠ .destroy) :
    lockedBy memory.destructor ≠ some (.thread thread) := by
  intro locked
  cases running : memory.destructor with
  | pending | returned =>
      rw [running] at locked
      cases locked
  | running agent here =>
      have inside := placed.runner agent here running
      rw [running] at locked
      cases here <;> cases locked
      exact outside (at_.symm.trans inside)

/-- A thread that is not in the destructor moves on. -/
theorem Mutexes.moves (mutexes : memory.Mutexes config) (placed : memory.Placed) {thread : Thread}
    {point point' : BufferPoint Queue} (at_ : memory.points thread = point)
    (outside : point ≠ .destroy)
    (points : next.points = Function.update memory.points thread point')
    (destructor : lockedBy next.destructor = lockedBy memory.destructor)
    (turn : Turn (.thread thread) (fun queue => (memory.blocking queue).mutex)
      (fun queue => (next.blocking queue).mutex) (pointHolds config point)
      (pointHolds config point')) : next.Mutexes config := by
  have unlocked := placed.unlocked at_ outside
  refine Owned.turn mutexes (.thread thread) ?_ fun other different => ?_
  · have before : memory.holds config (.thread thread) = pointHolds config point :=
      (if_neg unlocked).trans (congrArg (pointHolds config) at_)
    have after : next.holds config (.thread thread) = pointHolds config point' := by
      refine (if_neg (destructor ▸ unlocked)).trans (congrArg (pointHolds config) ?_)
      rw [points, Function.update_self]
    rw [before, after]
    exact turn
  · have same : agentHolds config next.points other = agentHolds config memory.points other := by
      cases other with
      | thread other =>
          refine congrArg (pointHolds config) ?_
          rw [points, Function.update_of_ne fun equal => different (congrArg Agent.thread equal)]
      | worker => rfl
    unfold holds
    rw [destructor, same]

/-- A thread that runs a task in a blocking queue holds its mutex. -/
theorem Mutexes.submitRun (mutexes : memory.Mutexes config) (placed : memory.Placed)
    {thread : Thread} {queue : Queue} (running : memory.points thread = .submitRun queue) :
    (memory.blocking queue).mutex = some (.thread thread) := by
  refine (mutexes queue (.thread thread)).mpr ((if_neg ?_).trans ?_)
  · exact placed.unlocked running (by rintro ⟨⟩)
  · exact congrArg (pointHolds config) running

/-- The next step of the destructor. -/
theorem Mutexes.destructs (mutexes : memory.Mutexes config) {agent : Agent Queue Thread}
    {point : DestructorPoint Queue} (running : memory.destructor = .running agent point)
    (inside : memory.InDestructor agent) (destructs : Destructs config agent memory point next) :
    next.Mutexes config := by
  have none_ : agentHolds config memory.points agent = none := by
    cases agent with
    | thread thread => exact congrArg (pointHolds config) inside
    | worker => rfl
  have away (other : Agent Queue Thread) (different : other ≠ agent) :
      memory.holds config other = agentHolds config memory.points other := by
    refine if_neg fun locked => different ?_
    rw [running] at locked
    cases point <;> cases locked
    rfl
  have left (changed : ManagedDealloc Queue Thread Action)
      (points : changed.points = memory.points) :
      (changed.leave agent).holds config agent = none ∧ ∀ other, other ≠ agent →
        (changed.leave agent).holds config other = memory.holds config other := by
    refine ⟨?_, fun other different => ?_⟩
    · cases agent with
      | thread thread =>
          change pointHolds config (Function.update changed.points thread .idle thread) = none
          rw [Function.update_self]
          rfl
      | worker => rfl
    · rw [away other different, ← points]
      cases other with
      | worker => rfl
      | thread other =>
          refine congrArg (pointHolds config) ?_
          cases agent with
          | worker => rfl
          | thread thread =>
              exact Function.update_of_ne (fun equal => different (congrArg Agent.thread equal)) ..
  have unlocked (outside : point ≠ .freeLocked) : memory.holds config agent = none := by
    refine (if_neg ?_).trans none_
    rw [running]
    cases point <;> rintro ⟨⟩
    exact outside rfl
  cases destructs with
  | user | waitEmpty | waitSubmit | markerRun | marker | markerDone | actionsDone =>
      refine mutexes.congr rfl rfl ?_
      rw [running]
      rfl
  | free =>
      obtain ⟨own, others⟩ := left { memory with freed := memory.freed + 1 } rfl
      refine Owned.turn mutexes agent ?_ others
      rw [unlocked (by rintro ⟨⟩), own]
      exact .keep (fun _ => rfl) none
  | @submit queue =>
      obtain ⟨own, others⟩ := left (memory.submit queue .free) rfl
      refine Owned.turn mutexes agent ?_ others
      rw [unlocked (by rintro ⟨⟩), own]
      exact .keep (fun _ => rfl) none
  | @lock queue deferred blocking free =>
      refine Owned.turn mutexes agent ?_ fun other different => ?_
      · rw [unlocked (by rintro ⟨⟩)]
        change Turn agent _ _ none (if some agent = some agent then config.deferred else _)
        rw [if_pos rfl, deferred]
        refine .lock free ?_ fun other different => ?_
        · exact congrArg _ (Function.update_self ..)
        · exact congrArg _ (Function.update_of_ne different ..)
      · rw [away other different]
        exact if_neg fun same => different (Option.some.inj same).symm
  | @freeLocked queue deferred =>
      obtain ⟨own, others⟩ := left ({ memory with freed := memory.freed + 1 }.unlock queue) rfl
      refine Owned.turn mutexes agent ?_ others
      have held : memory.holds config agent = some queue := by
        refine (if_pos ?_).trans deferred
        rw [running]
        rfl
      rw [held, own]
      refine .unlock ?_ fun other different => ?_
      · exact congrArg _ (Function.update_self ..)
      · exact congrArg _ (Function.update_of_ne different ..)

theorem Mutexes.takes (mutexes : memory.Mutexes config) (phase : memory.Phase config)
    (placed : memory.Placed)
    (locks : ∀ thread call, memory.points thread = .keepAliveLock call →
      config.isBlocking call.queue = true) (takes : Takes config memory next) :
    next.Mutexes config := by
  -- Whoever drops the last copy comes to the first action of the destructor.
  have entered {owner : Owner Queue Thread} (member : owner ∈ memory.owners)
      (agent : Agent Queue Thread) :
      lockedBy (memory.release agent owner).destructor = lockedBy memory.destructor := by
    obtain ⟨pending, -⟩ := phase.pending_of_mem member
    change lockedBy (if memory.owners.erase owner = [] then _ else _) = _
    split
    · rw [pending]
      rfl
    · rfl
  cases takes with
  | copy | addDestructorAction | finish | advance => exact mutexes.congr rfl rfl rfl
  | @keepAlive thread call idle =>
      refine mutexes.moves placed idle (by rintro ⟨⟩) rfl rfl ?_
      cases blocking : config.isBlocking call.queue with
      | false =>
          simp only [Bool.false_eq_true, if_false, pointHolds, blocking]
          exact .keep (fun _ => rfl) none
      | true => exact .keep (fun _ => rfl) none
  | @enqueue thread queue _ idle =>
      refine mutexes.moves placed idle (by rintro ⟨⟩) rfl rfl ?_
      split
      · exact .keep (fun _ => rfl) none
      · exact .keep (fun _ => rfl) none
  | @drop thread point =>
      have owner : Owner.thread thread ∈ memory.owners := by
        rcases point with ⟨-, owner⟩ | returns
        · exact owner
        · exact placed.handles thread (by rw [returns]; trivial)
      have stands : pointHolds config (memory.points thread) = none ∧
          memory.points thread ≠ .destroy := by
        rcases point with ⟨idle, -⟩ | returns
        · rw [idle]
          exact ⟨rfl, by rintro ⟨⟩⟩
        · rw [returns]
          exact ⟨rfl, by rintro ⟨⟩⟩
      refine mutexes.moves placed rfl stands.2 rfl (entered owner (.thread thread)) ?_
      rw [stands.1]
      split
      · exact .keep (fun _ => rfl) none
      · exact .keep (fun _ => rfl) none
  | submit point =>
      exact mutexes.moves placed point (by rintro ⟨⟩) rfl rfl (.keep (fun _ => rfl) none)
  | submitLock point free =>
      refine mutexes.moves placed point (by rintro ⟨⟩) rfl rfl
        (.lock free ?_ fun other different => ?_)
      · exact congrArg _ (Function.update_self ..)
      · exact congrArg _ (Function.update_of_ne different ..)
  | submitRun point =>
      refine mutexes.moves placed point (by rintro ⟨⟩) rfl rfl
        (.unlock ?_ fun other different => ?_)
      · exact congrArg _ (Function.update_self ..)
      · exact congrArg _ (Function.update_of_ne different ..)
  | @keepAliveLock thread call point free =>
      refine mutexes.moves placed point (by rintro ⟨⟩) rfl rfl ?_
      rw [pointHolds, if_pos (locks thread call point)]
      refine .lock free ?_ fun other different => ?_
      · exact congrArg _ (Function.update_self ..)
      · exact congrArg _ (Function.update_of_ne different ..)
  | @keepAliveSubmit thread call point =>
      refine mutexes.moves placed point (by rintro ⟨⟩) rfl rfl ?_
      rw [pointHolds]
      split
      case isTrue =>
        refine .unlock ?_ fun other different => ?_
        · exact congrArg _ (Function.update_self ..)
        · exact congrArg _ (Function.update_of_ne different ..)
      case isFalse => exact .keep (fun _ => rfl) none
  | release _ owner => exact mutexes.congr rfl rfl (entered owner _)
  | destruct running inside destructs => exact mutexes.destructs running inside destructs

/-! ## The tasks of blocking queues -/

/-- A blocking queue has finished the tasks that it has started, apart from one that a thread
runs. -/
def Counted (memory : ManagedDealloc Queue Thread Action) (queue : Queue) : Prop :=
  ((memory.blocking queue).started = (memory.blocking queue).finished ∧
      ∀ thread, memory.points thread ≠ .submitRun queue) ∨
    (memory.blocking queue).started = (memory.blocking queue).finished + 1 ∧
      ∃ thread, memory.points thread = .submitRun queue

/-- While nobody holds the mutex, all started tasks are finished. -/
theorem Counted.finished (mutexes : memory.Mutexes config) (placed : memory.Placed) {queue : Queue}
    (counted : memory.Counted queue) (free : (memory.blocking queue).mutex = none) :
    (memory.blocking queue).started = (memory.blocking queue).finished := by
  rcases counted with ⟨same, -⟩ | ⟨-, thread, running⟩
  · exact same
  · have held := mutexes.submitRun placed running
    rw [free] at held
    cases held

omit [DecidableEq Queue] in
/-- A thread moves on that does not run a task. -/
theorem Counted.moves {queue : Queue} (counted : memory.Counted queue) {thread : Thread}
    {point point' : BufferPoint Queue} (at_ : memory.points thread = point)
    (before : point ≠ .submitRun queue) (after : point' ≠ .submitRun queue)
    (points : next.points = Function.update memory.points thread point')
    (started : (next.blocking queue).started = (memory.blocking queue).started)
    (finished : (next.blocking queue).finished = (memory.blocking queue).finished) :
    next.Counted queue := by
  have same (other : Thread) : next.points other = .submitRun queue ↔
      memory.points other = .submitRun queue := by
    rw [points, Function.update_apply]
    split
    case isTrue this =>
      rw [this, at_]
      exact iff_of_false after before
    case isFalse => exact .rfl
  unfold Counted
  rw [started, finished]
  simp only [ne_eq, same]
  exact counted

omit [DecidableEq Queue] in
/-- An agent leaves the destructor. -/
theorem Counted.leave {queue : Queue} (counted : memory.Counted queue)
    {agent : Agent Queue Thread} (inside : memory.InDestructor agent)
    (points : next.points = memory.points)
    (started : (next.blocking queue).started = (memory.blocking queue).started)
    (finished : (next.blocking queue).finished = (memory.blocking queue).finished) :
    (next.leave agent).Counted queue := by
  cases agent with
  | thread thread =>
      have idle : (next.leave (.thread thread)).points =
          Function.update memory.points thread .idle := by
        rw [← points]
        rfl
      exact counted.moves inside (by rintro ⟨⟩) (by rintro ⟨⟩) idle started finished
  | worker =>
      change ((next.blocking queue).started = (next.blocking queue).finished ∧
        ∀ thread, next.points thread ≠ .submitRun queue) ∨
          (next.blocking queue).started = (next.blocking queue).finished + 1 ∧
            ∃ thread, next.points thread = .submitRun queue
      rw [started, finished, points]
      exact counted

omit [DecidableEq Thread] in
/-- Acquiring or releasing a mutex is no task. -/
theorem counts_setBlocking (memory : ManagedDealloc Queue Thread Action) (queue : Queue)
    (mutex : Option (Agent Queue Thread)) (other : Queue) :
    ((memory.setBlocking queue { memory.blocking queue with mutex := mutex }).blocking
        other).started = (memory.blocking other).started ∧
      ((memory.setBlocking queue { memory.blocking queue with mutex := mutex }).blocking
        other).finished = (memory.blocking other).finished := by
  unfold setBlocking
  dsimp only
  rw [Function.update_apply]
  split
  case isTrue same =>
    rw [same]
    exact ⟨rfl, rfl⟩
  case isFalse => exact ⟨rfl, rfl⟩

theorem Counted.destructs {other : Queue} (counted : memory.Counted other)
    {agent : Agent Queue Thread} {point : DestructorPoint Queue}
    (inside : memory.InDestructor agent)
    (destructs : Destructs config agent memory point next) : next.Counted other := by
  cases destructs with
  | user | waitEmpty | waitSubmit | markerRun | marker | markerDone | actionsDone => exact counted
  | free => exact counted.leave inside rfl rfl rfl
  | submit => exact counted.leave inside rfl rfl rfl
  | @lock queue =>
      obtain ⟨started, finished⟩ := counts_setBlocking memory queue
        (some agent) other
      unfold Counted
      dsimp only
      rw [started, finished]
      exact counted
  | @freeLocked queue =>
      obtain ⟨started, finished⟩ := counts_setBlocking memory queue none other
      exact counted.leave inside rfl started finished

theorem Counted.takes {other : Queue} (counted : memory.Counted other)
    (mutexes : memory.Mutexes config) (placed : memory.Placed)
    (takes : Takes config memory next) : next.Counted other := by
  cases takes with
  | copy | addDestructorAction | finish | release | advance => exact counted
  | @keepAlive thread call idle =>
      refine counted.moves idle (by rintro ⟨⟩) ?_ rfl rfl rfl
      split <;> rintro ⟨⟩
  | @enqueue thread queue _ idle =>
      refine counted.moves idle (by rintro ⟨⟩) ?_ rfl rfl rfl
      split <;> rintro ⟨⟩
  | @drop thread point =>
      have stands : memory.points thread ≠ .submitRun other := by
        rcases point with ⟨idle, -⟩ | returns
        · rw [idle]
          rintro ⟨⟩
        · rw [returns]
          rintro ⟨⟩
      refine counted.moves rfl stands ?_ rfl rfl rfl
      split <;> rintro ⟨⟩
  | submit point => exact counted.moves point (by rintro ⟨⟩) (by rintro ⟨⟩) rfl rfl rfl
  | @submitLock thread queue point free =>
      by_cases same : other = queue
      · subst same
        refine .inr ⟨?_, thread, Function.update_self ..⟩
        have finished := counted.finished mutexes placed free
        change (Function.update memory.blocking other _ other).started =
          (Function.update memory.blocking other _ other).finished + 1
        rw [Function.update_self]
        exact congrArg (· + 1) finished
      · refine counted.moves point (by rintro ⟨⟩) (fun equal => same ?_) rfl ?_ ?_
        · cases equal
          rfl
        · exact congrArg _ (Function.update_of_ne same ..)
        · exact congrArg _ (Function.update_of_ne same ..)
  | @submitRun thread queue point =>
      by_cases same : other = queue
      · subst same
        refine .inl ⟨?_, fun others running => ?_⟩
        · rcases counted with ⟨-, nobody⟩ | ⟨started, -⟩
          · exact absurd point (nobody thread)
          · change (Function.update memory.blocking other _ other).started =
              (Function.update memory.blocking other _ other).finished
            rw [Function.update_self]
            exact started
        · rw [points_setPoint] at running
          split at running
          case isTrue => cases running
          case isFalse different =>
            have first := mutexes.submitRun placed point
            rw [mutexes.submitRun placed running] at first
            exact different (Agent.thread.inj (Option.some.inj first))
      · refine counted.moves point (fun equal => same ?_) (by rintro ⟨⟩) rfl ?_ ?_
        · cases equal
          rfl
        · exact congrArg _ (Function.update_of_ne same ..)
        · exact congrArg _ (Function.update_of_ne same ..)
  | @keepAliveLock thread call point =>
      obtain ⟨started, finished⟩ := counts_setBlocking memory call.queue
        (some (.thread thread)) other
      exact counted.moves point (by rintro ⟨⟩) (by rintro ⟨⟩) rfl started finished
  | @keepAliveSubmit thread call point =>
      obtain ⟨started, finished⟩ := counts_setBlocking memory call.queue
        none other
      refine counted.moves point (by rintro ⟨⟩) (by rintro ⟨⟩) rfl ?_ ?_
      · dsimp only
        split
        · exact started
        · rfl
      · dsimp only
        split
        · exact finished
        · rfl
  | destruct _ inside destructs => exact counted.destructs inside destructs

/-! ## The calls of `keepAlive` -/

/-- The call of `keepAlive` that a thread is in. -/
def callAt : BufferPoint Queue → Option (KeepAlive Queue)
  | .keepAliveLock call | .keepAliveSubmit call => some call
  | _ => none

/-- The tasks that a blocking queue had started by a call are finished. -/
def Waited (config : BufferConfig Queue) (memory : ManagedDealloc Queue Thread Action)
    (call : KeepAlive Queue) : Prop :=
  config.isBlocking call.queue = true → call.started ≤ (memory.blocking call.queue).finished

/-- A call has put a copy behind the tasks that had been given to the queue. -/
def Passed (config : BufferConfig Queue) (memory : ManagedDealloc Queue Thread Action)
    (call : KeepAlive Queue) : Prop :=
  (∃ promise, call.position ≤ promise ∧
    (memory.queues call.queue).submitted[promise]? = some (.hostFn true)) ∧
      memory.Waited config call

/-- Every call is being executed, or has put its copy. -/
structure Kept (config : BufferConfig Queue) (memory : ManagedDealloc Queue Thread Action) :
    Prop where
  bounded : ∀ thread call, callAt (memory.points thread) = some call →
    call.position ≤ (memory.queues call.queue).submitted.length ∧
      call.started ≤ (memory.blocking call.queue).started
  locks : ∀ thread call, memory.points thread = .keepAliveLock call →
    config.isBlocking call.queue = true
  locked : ∀ thread call, memory.points thread = .keepAliveSubmit call → memory.Waited config call
  passed : ∀ call ∈ memory.kept, (∃ thread, callAt (memory.points thread) = some call) ∨
    memory.Passed config call

/-- Later in a run. -/
structure Grows (memory next : ManagedDealloc Queue Thread Action) : Prop where
  submitted : ∀ queue, (memory.queues queue).submitted <+: (next.queues queue).submitted
  started : ∀ queue, (memory.blocking queue).started ≤ (next.blocking queue).started
  finished : ∀ queue, (memory.blocking queue).finished ≤ (next.blocking queue).finished

omit [DecidableEq Queue] [DecidableEq Thread] in
theorem Grows.refl (memory : ManagedDealloc Queue Thread Action) : memory.Grows memory :=
  ⟨fun _ => List.prefix_rfl, fun _ => le_rfl, fun _ => le_rfl⟩

omit [DecidableEq Queue] [DecidableEq Thread] in
theorem Grows.congr {changed : ManagedDealloc Queue Thread Action} (grows : memory.Grows changed)
    (queues : next.queues = changed.queues) (blocking : next.blocking = changed.blocking) :
    memory.Grows next :=
  ⟨queues ▸ grows.submitted, blocking ▸ grows.started, blocking ▸ grows.finished⟩

omit [DecidableEq Queue] [DecidableEq Thread] in
theorem Grows.waited (grows : memory.Grows next) {call : KeepAlive Queue}
    (waited : memory.Waited config call) : next.Waited config call :=
  fun blocking => (waited blocking).trans (grows.finished call.queue)

omit [DecidableEq Queue] [DecidableEq Thread] in
theorem Grows.passed (grows : memory.Grows next) {call : KeepAlive Queue}
    (passed : memory.Passed config call) : next.Passed config call := by
  obtain ⟨⟨promise, behind, found⟩, waited⟩ := passed
  refine ⟨⟨promise, behind, ?_⟩, grows.waited waited⟩
  obtain ⟨further, same⟩ := grows.submitted call.queue
  rw [← same, List.getElem?_append_left (List.getElem?_eq_some_iff.mp found).1]
  exact found

omit [DecidableEq Thread] in
theorem grows_submit (queue : Queue) (task : BufferTask) :
    memory.Grows (memory.submit queue task) where
  submitted := fun other => by
    rw [queues_submit]
    split
    case isTrue same =>
      rw [same]
      exact List.prefix_append _ _
    case isFalse => exact List.prefix_rfl
  started := fun _ => le_rfl
  finished := fun _ => le_rfl

omit [DecidableEq Thread] in
private theorem grows_setQueue {queue : Queue} (changed : CallbackThread BufferTask Unit)
    (submitted : changed.submitted = (memory.queues queue).submitted) :
    memory.Grows (memory.setQueue queue changed) where
  submitted := fun other => by
    rw [queues_setQueue]
    split
    case isTrue same => rw [submitted, same]
    case isFalse => exact List.prefix_rfl
  started := fun _ => le_rfl
  finished := fun _ => le_rfl

omit [DecidableEq Thread] in
private theorem grows_setBlocking (memory : ManagedDealloc Queue Thread Action) (queue : Queue)
    (changed : BlockingTasks Queue Thread)
    (started : (memory.blocking queue).started ≤ changed.started)
    (finished : (memory.blocking queue).finished ≤ changed.finished) :
    memory.Grows (memory.setBlocking queue changed) where
  submitted := fun _ => List.prefix_rfl
  started := fun other => by
    change _ ≤ (Function.update memory.blocking queue changed other).started
    rw [Function.update_apply]
    split
    case isTrue same => exact same ▸ started
    case isFalse => exact le_rfl
  finished := fun other => by
    change _ ≤ (Function.update memory.blocking queue changed other).finished
    rw [Function.update_apply]
    split
    case isTrue same => exact same ▸ finished
    case isFalse => exact le_rfl

theorem Destructs.grows {agent : Agent Queue Thread} {point : DestructorPoint Queue}
    (destructs : Destructs config agent memory point next) : memory.Grows next := by
  cases destructs with
  | user | waitEmpty | waitSubmit | markerRun | markerDone | actionsDone | free =>
      exact (Grows.refl memory).congr rfl rfl
  | submit => exact (grows_submit _ .free).congr rfl rfl
  | marker => exact (grows_submit _ (.hostFn false)).congr rfl rfl
  | lock | freeLocked => refine (grows_setBlocking memory _ _ ?_ ?_).congr rfl rfl <;> exact le_rfl

theorem Takes.grows (takes : Takes config memory next) : memory.Grows next := by
  cases takes with
  | copy | addDestructorAction | keepAlive | enqueue | drop | release =>
      exact (Grows.refl memory).congr rfl rfl
  | submit => exact (grows_submit _ (.hostFn _)).congr rfl rfl
  | submitLock =>
      refine (grows_setBlocking memory _ _ ?_ ?_).congr rfl rfl
      · exact Nat.le_succ _
      · exact le_rfl
  | submitRun =>
      refine (grows_setBlocking memory _ _ ?_ ?_).congr rfl rfl
      · exact le_rfl
      · exact Nat.le_succ _
  | keepAliveLock => refine (grows_setBlocking memory _ _ ?_ ?_).congr rfl rfl <;> exact le_rfl
  | @keepAliveSubmit _ call =>
      have unlocks := grows_setBlocking memory call.queue
        { memory.blocking call.queue with mutex := none } le_rfl le_rfl
      refine ⟨(grows_submit call.queue (.hostFn true)).submitted, fun queue => ?_, fun queue => ?_⟩
      · dsimp only
        split
        · exact unlocks.started queue
        · exact le_rfl
      · dsimp only
        split
        · exact unlocks.finished queue
        · exact le_rfl
  | finish =>
      refine (grows_setQueue (CallbackThread.finish _ _ _) ?_).congr rfl rfl
      rfl
  | advance advanced => exact grows_setQueue _ (advance_history advanced).2.1
  | destruct _ _ destructs => exact destructs.grows

omit [DecidableEq Queue] [DecidableEq Thread] in
private theorem kept_allocated (creator : Thread) :
    (allocated creator : ManagedDealloc Queue Thread Action).Kept config :=
  ⟨fun _ _ => by rintro ⟨⟩, fun _ _ => by rintro ⟨⟩, fun _ _ => by rintro ⟨⟩, fun _ => by rintro ⟨⟩⟩

omit [DecidableEq Queue] [DecidableEq Thread] in
theorem Grows.bounded (grows : memory.Grows next) {call : KeepAlive Queue}
    (bounded : call.position ≤ (memory.queues call.queue).submitted.length ∧
      call.started ≤ (memory.blocking call.queue).started) :
    call.position ≤ (next.queues call.queue).submitted.length ∧
      call.started ≤ (next.blocking call.queue).started :=
  ⟨bounded.1.trans (grows.submitted call.queue).length_le,
    bounded.2.trans (grows.started call.queue)⟩

omit [DecidableEq Queue] [DecidableEq Thread] in
/-- A step of a worker, or in the destructor. -/
theorem Kept.congr (kept : memory.Kept config) (grows : memory.Grows next)
    (points : next.points = memory.points) (records : next.kept = memory.kept) :
    next.Kept config where
  bounded := fun thread call at_ => grows.bounded (kept.bounded thread call (points ▸ at_))
  locks := fun thread call at_ => kept.locks thread call (points ▸ at_)
  locked := fun thread call at_ => grows.waited (kept.locked thread call (points ▸ at_))
  passed := fun call member => by
    rw [points]
    exact (kept.passed call (records ▸ member)).imp_right grows.passed

omit [DecidableEq Queue] in
/-- A thread comes to a point. -/
theorem Kept.moves (kept : memory.Kept config) (grows : memory.Grows next) {thread : Thread}
    {point : BufferPoint Queue} (points : next.points = Function.update memory.points thread point)
    (bounded : ∀ call, callAt point = some call →
      call.position ≤ (next.queues call.queue).submitted.length ∧
        call.started ≤ (next.blocking call.queue).started)
    (locks : ∀ call, point = .keepAliveLock call → config.isBlocking call.queue = true)
    (locked : ∀ call, point = .keepAliveSubmit call → next.Waited config call)
    (passed : ∀ call ∈ next.kept, callAt point = some call ∨ next.Passed config call ∨
      call ∈ memory.kept ∧ callAt (memory.points thread) ≠ some call) : next.Kept config where
  bounded := fun other call at_ => by
    rw [points, Function.update_apply] at at_
    split at at_
    · exact bounded call at_
    · exact grows.bounded (kept.bounded other call at_)
  locks := fun other call at_ => by
    rw [points, Function.update_apply] at at_
    split at at_
    · exact locks call at_
    · exact kept.locks other call at_
  locked := fun other call at_ => by
    rw [points, Function.update_apply] at at_
    split at at_
    · exact locked call at_
    · exact grows.waited (kept.locked other call at_)
  passed := fun call member => by
    rcases passed call member with here | put | ⟨before, elsewhere⟩
    · refine .inl ⟨thread, ?_⟩
      rw [points, Function.update_self]
      exact here
    · exact .inr put
    · rcases kept.passed call before with ⟨other, at_⟩ | put
      · refine .inl ⟨other, ?_⟩
        have different : other ≠ thread := by
          rintro rfl
          exact elsewhere at_
        rw [points, Function.update_of_ne different]
        exact at_
      · exact .inr (grows.passed put)

omit [DecidableEq Queue] in
/-- A thread moves on that is not in a call of `keepAlive`. -/
theorem Kept.elsewhere (kept : memory.Kept config) (grows : memory.Grows next) {thread : Thread}
    {point : BufferPoint Queue} (points : next.points = Function.update memory.points thread point)
    (records : next.kept = memory.kept) (before : callAt (memory.points thread) = none)
    (after : callAt point = none) : next.Kept config := by
  refine kept.moves grows points (fun call at_ => ?_) (fun call at_ => ?_) (fun call at_ => ?_)
    fun call member => .inr (.inr ⟨records ▸ member, ?_⟩)
  · rw [after] at at_
    cases at_
  · rw [at_] at after
    cases after
  · rw [at_] at after
    cases after
  · rw [before]
    rintro ⟨⟩

theorem Kept.destructs (kept : memory.Kept config) {agent : Agent Queue Thread}
    {point : DestructorPoint Queue} (inside : memory.InDestructor agent)
    (destructs : Destructs config agent memory point next) : next.Kept config := by
  have grows := destructs.grows
  have leaves (changed : ManagedDealloc Queue Thread Action) (grows : memory.Grows changed)
      (points : changed.points = memory.points) (records : changed.kept = memory.kept) :
      (changed.leave agent).Kept config := by
    have later : memory.Grows (changed.leave agent) := grows.congr rfl rfl
    cases agent with
    | thread thread =>
        have idle : (changed.leave (.thread thread)).points =
            Function.update memory.points thread .idle := by
          rw [← points]
          rfl
        exact kept.elsewhere later idle records (congrArg callAt inside) rfl
    | worker =>
        exact kept.congr later points records
  cases destructs with
  | user | waitEmpty | waitSubmit | markerRun | marker | markerDone | actionsDone | lock =>
      exact kept.congr grows rfl rfl
  | free => exact leaves _ (grows.congr rfl rfl) rfl rfl
  | submit => exact leaves _ (grows.congr rfl rfl) rfl rfl
  | freeLocked => exact leaves _ (grows.congr rfl rfl) rfl rfl

theorem Kept.takes (kept : memory.Kept config) (mutexes : memory.Mutexes config)
    (placed : memory.Placed) (counted : ∀ queue, memory.Counted queue)
    (takes : Takes config memory next) : next.Kept config := by
  have grows := takes.grows
  cases takes with
  | copy | addDestructorAction | finish | release | advance =>
      exact kept.congr grows rfl rfl
  | @keepAlive thread call idle _ position started =>
      have here : callAt (if config.isBlocking call.queue then BufferPoint.keepAliveLock call
          else .keepAliveSubmit call) = some call := by
        split <;> rfl
      refine kept.moves grows rfl (fun other at_ => ?_) (fun other at_ => ?_) (fun other at_ => ?_)
        fun other member => ?_
      · cases here.symm.trans at_
        exact ⟨position.le, started.le⟩
      · split at at_
        case isTrue blocking =>
          cases at_
          exact blocking
        case isFalse => cases at_
      · split at at_
        case isTrue => cases at_
        case isFalse nonBlocking =>
          cases at_
          exact fun blocking => absurd blocking nonBlocking
      · rcases List.mem_append.mp member with before | last
        · refine .inr (.inr ⟨before, ?_⟩)
          rw [idle]
          rintro ⟨⟩
        · cases List.mem_singleton.mp last
          exact .inl here
  | @enqueue thread queue _ idle =>
      refine kept.elsewhere grows rfl rfl (by rw [idle]; rfl) ?_
      split <;> rfl
  | @drop thread point =>
      refine kept.elsewhere grows rfl rfl ?_ ?_
      · rcases point with ⟨idle, -⟩ | returns
        · rw [idle]
          rfl
        · rw [returns]
          rfl
      · split <;> rfl
  | submit point | submitLock point | submitRun point =>
      exact kept.elsewhere grows rfl rfl (by rw [point]; rfl) rfl
  | @keepAliveLock thread call point free =>
      have bounded := kept.bounded thread call (by rw [point]; rfl)
      refine kept.moves grows rfl (fun other at_ => ?_) (fun other impossible => nomatch impossible)
        (fun other at_ => ?_) fun other member => ?_
      · cases at_
        exact grows.bounded bounded
      · -- Whoever holds the mutex has waited for the tasks that were started.
        cases at_
        have finished := (counted call.queue).finished mutexes placed free
        exact grows.waited fun _ => bounded.2.trans finished.le
      · by_cases same : other = call
        · exact .inl (by rw [same]; rfl)
        · refine .inr (.inr ⟨member, fun at_ => same ?_⟩)
          rw [point] at at_
          exact (Option.some.inj at_).symm
  | @keepAliveSubmit thread call point =>
      have bounded := kept.bounded thread call (by rw [point]; rfl)
      refine kept.moves grows rfl (fun other impossible => nomatch impossible)
        (fun other impossible => nomatch impossible) (fun other impossible => nomatch impossible)
        fun other member => ?_
      by_cases same : other = call
      · subst same
        refine .inr (.inl ⟨⟨_, bounded.1, ?_⟩, grows.waited (kept.locked thread other point)⟩)
        exact submitted_submit.mpr (.inr ⟨rfl, rfl⟩)
      · refine .inr (.inr ⟨member, fun at_ => same ?_⟩)
        rw [point] at at_
        exact (Option.some.inj at_).symm
  | destruct _ inside destructs => exact kept.destructs inside destructs

/-! ## Every reachable state -/

structure Sound (config : BufferConfig Queue) (memory : ManagedDealloc Queue Thread Action) :
    Prop where
  carried : memory.Carried
  placed : memory.Placed
  phase : memory.Phase config
  behind : ∀ queue, memory.dropped queue ≤ (memory.queues queue).submitted.length
  marked : ∀ agent index marker, memory.destructor = .running agent (.waits index marker) →
    config.isBlocking marker.queue = false ∧
      marker.promise < (memory.queues marker.queue).submitted.length
  mutexes : memory.Mutexes config
  counted : ∀ queue, memory.Counted queue
  kept : memory.Kept config

private theorem sound_allocated (creator : Thread) :
    (allocated creator : ManagedDealloc Queue Thread Action).Sound config where
  carried := carried_allocated creator
  placed := ⟨fun _ => False.elim, fun _ _ => by rintro ⟨⟩⟩
  phase := .pending rfl (by rintro ⟨⟩) rfl rfl fun _ => by simp [allocated]
  behind := fun _ => le_rfl
  marked := fun _ _ _ => by rintro ⟨⟩
  mutexes := mutexes_allocated creator
  counted := fun _ => .inl ⟨rfl, fun _ => by rintro ⟨⟩⟩
  kept := kept_allocated creator

/-- What was counted at the last drop has been submitted. -/
theorem Takes.behind (takes : Takes config memory next)
    (behind : ∀ queue, memory.dropped queue ≤ (memory.queues queue).submitted.length)
    (queue : Queue) : next.dropped queue ≤ (next.queues queue).submitted.length := by
  have later := (behind queue).trans (takes.grows.submitted queue).length_le
  have released (agent : Agent Queue Thread) (owner : Owner Queue Thread) :
      (memory.release agent owner).dropped queue ≤ (memory.queues queue).submitted.length := by
    change (if memory.owners.erase owner = [] then _ else memory.dropped) queue ≤ _
    split
    · exact le_rfl
    · exact behind queue
  cases takes with
  | @drop thread => exact released (.thread thread) (.thread thread)
  | @release worker => exact released (.worker worker) _
  | destruct _ _ destructs => cases destructs <;> exact later
  | _ => exact later

/-- The marker that the destructor waits for has been submitted to a non-blocking queue. -/
theorem Takes.marked (takes : Takes config memory next)
    (marked : ∀ agent index marker, memory.destructor = .running agent (.waits index marker) →
      config.isBlocking marker.queue = false ∧
        marker.promise < (memory.queues marker.queue).submitted.length)
    (agent : Agent Queue Thread) (index : ℕ) (marker : Future Queue)
    (running : next.destructor = .running agent (.waits index marker)) :
    config.isBlocking marker.queue = false ∧
      marker.promise < (next.queues marker.queue).submitted.length := by
  have later (before : memory.destructor = .running agent (.waits index marker)) :=
    (marked agent index marker before).imp_right fun inside =>
      inside.trans_le (takes.grows.submitted marker.queue).length_le
  cases takes with
  | drop | release =>
      change (if _ = [] then _ else memory.destructor) = _ at running
      split at running
      case isTrue => cases running
      case isFalse => exact later running
  | destruct _ _ destructs =>
      cases destructs with
      | marker nonBlocking =>
          cases running
          refine ⟨nonBlocking, ?_⟩
          dsimp only
          rw [queues_submit, if_pos rfl]
          change _ < (_ ++ [_]).length
          rw [List.length_append]
          exact Nat.lt_succ_self _
      | _ => cases running
  | _ => exact later running

theorem Sound.takes (sound : memory.Sound config) (takes : Takes config memory next) :
    next.Sound config where
  carried := sound.carried.takes takes
  placed := sound.placed.takes takes
  phase := sound.phase.takes sound.carried sound.placed sound.behind takes
  behind := takes.behind sound.behind
  marked := takes.marked sound.marked
  mutexes := sound.mutexes.takes sound.phase sound.placed sound.kept.locks takes
  counted := fun queue => (sound.counted queue).takes sound.mutexes sound.placed takes
  kept := sound.kept.takes sound.mutexes sound.placed sound.counted takes

theorem sound_reachable {creator : Thread}
    (reachable : Reachable (step config) (allocated creator) memory) : memory.Sound config :=
  reachable.induction (sound_allocated creator) fun _ _ _ sound taken =>
    sound.takes (takes_of_step taken)

/-! ## When the memory has been freed -/

/-- All tasks up to a number have finished. -/
def AllFinished (memory : ManagedDealloc Queue Thread Action) (queue : Queue) (count : ℕ) : Prop :=
  ∀ promise < count, promise ∈ (memory.queues queue).finished

/-- The memory is not freed before all this has been done. -/
theorem Sound.freed (sound : memory.Sound config) (freed : memory.freed ≠ 0) :
    memory.owners = [] ∧ memory.executed = memory.actions ∧ memory.freed = 1 ∧
      ∀ queue, config.deferred = some queue → config.isBlocking queue = false →
        memory.AllFinished queue (memory.dropped queue) := by
  cases sound.phase with
  | pending _ _ _ unfreed | running _ _ _ unfreed => exact absurd unfreed freed
  | freed _ empty executed direct once =>
      refine ⟨empty, executed, once, fun queue deferred nonBlocking => ?_⟩
      rw [direct queue deferred] at nonBlocking
      cases nonBlocking
  | @submitted task _ empty executed deferred _ behind once =>
      split at once
      case isTrue finished =>
        refine ⟨empty, executed, once, fun queue same _ earlier before => ?_⟩
        cases deferred.symm.trans same
        have ordered := (sound.carried.going task.queue).ordered
        exact ordered.finished_of_le (before.le.trans behind) finished
      case isFalse => exact absurd once freed

end ManagedDealloc

end Alpaka
