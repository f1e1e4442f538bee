import Alpaka.Host.ManagedDeallocSteps

/-! # The phases of the release

The destructor is entered with the last copy; it executes the actions and then frees the
memory, or submits the task that does (`Alpaka.ManagedDealloc.Phase.takes`).
-/

namespace Alpaka

namespace ManagedDealloc

open CallbackThread

variable {Queue Thread Action : Type*} [DecidableEq Queue] [DecidableEq Thread]
  {config : BufferConfig Queue} {memory next : ManagedDealloc Queue Thread Action}

/-! ## Who is in a call or in the destructor -/

/-- The points at which a thread uses its copy. -/
def uses : BufferPoint Queue → Prop
  | .submit _ carries => carries = true
  | .keepAliveLock _ | .keepAliveSubmit _ | .keepAliveReturn => True
  | .idle | .submitLock _ | .submitRun _ | .destroy => False

/-- The agents are where the destructor and the copies need them. -/
structure Placed (memory : ManagedDealloc Queue Thread Action) : Prop where
  handles : ∀ thread, uses (memory.points thread) → Owner.thread thread ∈ memory.owners
  runner : ∀ agent point, memory.destructor = .running agent point → memory.InDestructor agent

omit [DecidableEq Queue] in
theorem points_setPoint {thread : Thread} {point : BufferPoint Queue} (other : Thread) :
    (memory.setPoint thread point).points other =
      if other = thread then point else memory.points other :=
  Function.update_apply ..

omit [DecidableEq Queue] in
/-- A thread moves on, and is not in the destructor. -/
theorem Placed.moves (placed : memory.Placed) {thread : Thread} {point : BufferPoint Queue}
    (outside : memory.points thread ≠ .destroy)
    (points : next.points = Function.update memory.points thread point)
    (own : uses point → Owner.thread thread ∈ next.owners)
    (owners : ∀ other, other ≠ thread → Owner.thread other ∈ memory.owners →
      Owner.thread other ∈ next.owners)
    (destructor : next.destructor = memory.destructor)
    (workers : ∀ queue package outcome, (memory.queues queue).worker = .popped package outcome →
      (next.queues queue).worker = .popped package outcome) : next.Placed where
  handles := fun other used => by
    rw [points, Function.update_apply] at used
    split at used
    case isTrue same => exact same ▸ own used
    case isFalse different => exact owners other different (placed.handles other used)
  runner := fun agent at_ running => by
    have inside := placed.runner agent at_ (destructor ▸ running)
    cases agent with
    | thread other =>
        have different : other ≠ thread := by
          rintro rfl
          exact outside inside
        exact (congrFun points other).trans ((Function.update_of_ne different ..).trans inside)
    | worker queue =>
        obtain ⟨package, outcome, working⟩ := inside
        exact ⟨package, outcome, workers queue package outcome working⟩

omit [DecidableEq Queue] [DecidableEq Thread] in
/-- A worker takes a step outside of the destructor. -/
theorem Placed.works (placed : memory.Placed) (queue : Queue)
    (outside : ∀ point, memory.destructor ≠ .running (.worker queue) point)
    (points : next.points = memory.points) (owners : next.owners = memory.owners)
    (destructor : next.destructor = memory.destructor)
    (workers : ∀ other, other ≠ queue → next.queues other = memory.queues other) :
    next.Placed where
  handles := by
    rw [points, owners]
    exact placed.handles
  runner := fun agent point running => by
    have before := destructor ▸ running
    have inside := placed.runner agent point before
    cases agent with
    | thread thread => exact (congrFun points thread).trans inside
    | worker other =>
        have different : other ≠ queue := by
          rintro rfl
          exact outside point before
        obtain ⟨package, outcome, working⟩ := inside
        exact ⟨package, outcome, (congrArg _ (workers other different)).trans working⟩

omit [DecidableEq Thread] in
/-- Submitting a task does not wake a worker that destroys one. -/
theorem popped_submit {queue : Queue} {task : BufferTask} {other : Queue}
    {package : TaskPackage BufferTask} {outcome : Outcome}
    (working : (memory.queues other).worker = .popped package outcome) :
    ((memory.submit queue task).queues other).worker = .popped package outcome := by
  rw [queues_submit]
  split
  case isTrue same =>
    subst same
    rcases worker_submit (memory.queues other) task with kept | ⟨absent, -⟩
    · exact kept.trans working
    · rw [absent] at working
      cases working
  case isFalse => exact working

omit [DecidableEq Queue] in
theorem Placed.leave (placed : memory.Placed) (agent : Agent Queue Thread)
    (points : next.points = memory.points) (owners : next.owners = memory.owners) :
    (next.leave agent).Placed where
  handles := fun thread used => by
    have before : uses (memory.points thread) := by
      cases agent with
      | thread leaving =>
          change uses (Function.update next.points leaving .idle thread) at used
          rw [Function.update_apply, points] at used
          split at used
          case isTrue => exact used.elim
          case isFalse => exact used
      | worker => exact points ▸ used
    exact owners.symm ▸ placed.handles thread before
  runner := fun _ _ impossible => nomatch impossible

theorem Placed.destructs (placed : memory.Placed) {agent : Agent Queue Thread}
    {point : DestructorPoint Queue} (inside : memory.InDestructor agent)
    (destructs : Destructs config agent memory point next) : next.Placed := by
  cases destructs with
  | user | waitEmpty | waitSubmit | markerRun | markerDone | actionsDone | lock =>
      refine ⟨placed.handles, fun other at_ same => ?_⟩
      cases same
      exact inside
  | marker =>
      refine ⟨placed.handles, fun other at_ same => ?_⟩
      cases same
      cases agent with
      | thread => exact inside
      | worker =>
          obtain ⟨package, outcome, working⟩ := inside
          exact ⟨package, outcome, popped_submit working⟩
  | free | freeLocked => exact placed.leave agent rfl rfl
  | submit => exact placed.leave agent rfl rfl

/-- A thread drops a copy. -/
theorem Placed.drop (placed : memory.Placed) {thread : Thread}
    (outside : memory.points thread ≠ .destroy) : (memory.drop thread).Placed := by
  have points (other : Thread) : (memory.drop thread).points other =
      if other = thread then if memory.owners.erase (.thread thread) = [] then .destroy else .idle
      else memory.points other := Function.update_apply ..
  refine ⟨fun other used => ?_, fun agent point running => ?_⟩
  · rw [points] at used
    split at used
    case isTrue => split at used <;> exact used.elim
    case isFalse different =>
      refine (List.mem_erase_of_ne ?_).mpr (placed.handles other used)
      exact fun equal => different (Owner.thread.inj equal)
  · change (if memory.owners.erase (.thread thread) = [] then _ else _) = _ at running
    split at running
    case isTrue last =>
      cases running
      change (memory.drop thread).points thread = _
      rw [points, if_pos rfl, if_pos last]
    case isFalse =>
      have inside := placed.runner agent point running
      cases agent with
      | thread other =>
          have different : other ≠ thread := by
            rintro rfl
            exact outside inside
          exact (points other).trans ((if_neg different).trans inside)
      | worker queue => exact inside

theorem Placed.release (placed : memory.Placed) {queue : Queue}
    {package : TaskPackage BufferTask} {outcome : Outcome}
    (working : (memory.queues queue).worker = .popped package outcome) :
    (memory.release (.worker queue) (.task ⟨queue, package.promise⟩)).Placed where
  handles := fun thread used =>
    (List.mem_erase_of_ne (by rintro ⟨⟩)).mpr (placed.handles thread used)
  runner := fun agent point running => by
    change (if memory.owners.erase _ = [] then _ else _) = _ at running
    split at running
    case isTrue =>
      cases running
      exact ⟨package, outcome, working⟩
    case isFalse => exact placed.runner agent point running

theorem Placed.takes (placed : memory.Placed) (takes : Takes config memory next) :
    next.Placed := by
  have unchanged (queue : Queue) (package : TaskPackage BufferTask) (outcome : Outcome)
      (working : (memory.queues queue).worker = .popped package outcome) := working
  have outside {thread : Thread} {point : BufferPoint Queue} (at_ : memory.points thread = point)
      (different : point ≠ .destroy) : memory.points thread ≠ .destroy := at_ ▸ different
  cases takes with
  | copy =>
      exact ⟨fun thread used => List.mem_append_left _ (placed.handles thread used), placed.runner⟩
  | addDestructorAction => exact ⟨placed.handles, placed.runner⟩
  | @keepAlive thread call idle owner =>
      refine placed.moves (outside idle (by rintro ⟨⟩)) rfl (fun _ => List.mem_append_left _ owner)
        (fun other _ member => List.mem_append_left _ member) rfl unchanged
  | @enqueue thread queue carries idle owner =>
      refine placed.moves (outside idle (by rintro ⟨⟩)) rfl (fun used => ?_)
        (fun other _ member => member) rfl unchanged
      split at used
      · exact used.elim
      · exact owner used
  | @drop thread point =>
      rcases point with ⟨idle, -⟩ | returns
      · exact placed.drop (outside idle (by rintro ⟨⟩))
      · exact placed.drop (outside returns (by rintro ⟨⟩))
  | @submit thread queue carries point =>
      refine placed.moves (outside point (by rintro ⟨⟩)) rfl False.elim
        (fun other _ member => mem_submit member) rfl fun _ _ _ => popped_submit
  | @submitLock thread queue point | @submitRun thread queue point =>
      exact placed.moves (outside point (by rintro ⟨⟩)) rfl False.elim
        (fun other _ member => member) rfl unchanged
  | @keepAliveLock thread call point =>
      have owner := placed.handles thread (by rw [point]; trivial)
      exact placed.moves (outside point (by rintro ⟨⟩)) rfl (fun _ => owner)
        (fun other _ member => member) rfl unchanged
  | @keepAliveSubmit thread call point =>
      have owner := placed.handles thread (by rw [point]; trivial)
      exact placed.moves (outside point (by rintro ⟨⟩)) rfl
        (fun _ => List.mem_append_left _ owner)
        (fun other _ member => List.mem_append_left _ member)
        rfl fun _ _ _ => popped_submit
  | @finish queue package outcome working =>
      refine placed.works queue (fun point running => ?_) rfl rfl rfl
        fun other different => Function.update_of_ne different ..
      obtain ⟨other, result, popped⟩ := placed.runner _ point running
      rw [working] at popped
      cases popped
  | release working => exact placed.release working
  | @advance queue thread advanced dropped =>
      refine placed.works queue (fun point running => ?_) rfl rfl rfl
        fun other different => Function.update_of_ne different ..
      obtain ⟨other, result, popped⟩ := placed.runner _ point running
      exact (dropped other result popped).2 point running
  | destruct _ inside destructs => exact placed.destructs inside destructs

/-! ## How far the release is -/

/-- The task that frees the memory, if there is one, is the only one. -/
def FreeTask (memory : ManagedDealloc Queue Thread Action) (free : Option (Future Queue)) : Prop :=
  ∀ task : Future Queue,
    (memory.queues task.queue).submitted[task.promise]? = some .free ↔ free = some task

/-- The actions that have been executed when the destructor is at a point. -/
def executedAt (actions : List (DestructorAction Queue Action)) :
    DestructorPoint Queue → List (DestructorAction Queue Action)
  | .action index | .waitSubmit index _ | .waits index _ => actions.take index
  | .freeOp | .freeLocked => actions

/-- What has been done at the points of the destructor. -/
inductive Phase (config : BufferConfig Queue) (memory : ManagedDealloc Queue Thread Action) : Prop
  | pending (destructor : memory.destructor = .pending) (owned : memory.owners ≠ [])
      (executed : memory.executed = []) (freed : memory.freed = 0) (free : memory.FreeTask none)
  | running {agent : Agent Queue Thread} {point : DestructorPoint Queue}
      (destructor : memory.destructor = .running agent point) (dropped : memory.owners = [])
      (executed : memory.executed = executedAt memory.actions point) (freed : memory.freed = 0)
      (free : memory.FreeTask none)
      (blocking : point = .freeLocked → ∃ queue, config.deferred = some queue ∧
        config.isBlocking queue = true)
  | freed (destructor : memory.destructor = .returned) (dropped : memory.owners = [])
      (executed : memory.executed = memory.actions)
      (direct : ∀ queue, config.deferred = some queue → config.isBlocking queue = true)
      (freed : memory.freed = 1) (free : memory.FreeTask none)
  | submitted (task : Future Queue) (destructor : memory.destructor = .returned)
      (dropped : memory.owners = []) (executed : memory.executed = memory.actions)
      (deferred : config.deferred = some task.queue)
      (nonBlocking : config.isBlocking task.queue = false)
      (behind : memory.dropped task.queue ≤ task.promise)
      (freed : memory.freed = if task.promise ∈ (memory.queues task.queue).finished then 1 else 0)
      (free : memory.FreeTask (some task))

omit [DecidableEq Queue] [DecidableEq Thread] in
/-- A step that has nothing to do with the release. -/
theorem Phase.congr (phase : memory.Phase config) (destructor : next.destructor = memory.destructor)
    (executed : next.executed = memory.executed) (actions : next.actions = memory.actions)
    (freed : next.freed = memory.freed) (dropped : next.dropped = memory.dropped)
    (owners : next.owners = [] ↔ memory.owners = [])
    (free : ∀ task : Future Queue, (next.queues task.queue).submitted[task.promise]? = some .free ↔
      (memory.queues task.queue).submitted[task.promise]? = some .free)
    (finished : ∀ task : Future Queue,
      (memory.queues task.queue).submitted[task.promise]? = some .free →
        (task.promise ∈ (next.queues task.queue).finished ↔
          task.promise ∈ (memory.queues task.queue).finished)) : next.Phase config := by
  have same {free' : Option (Future Queue)} (before : memory.FreeTask free') :
      next.FreeTask free' := fun task => (free task).trans (before task)
  cases phase with
  | pending pending owned none_ unfreed before =>
      exact .pending (destructor.trans pending) (owners.not.mpr owned) (executed.trans none_)
        (freed.trans unfreed) (same before)
  | running running empty some_ unfreed before blocking =>
      rw [← actions] at some_
      exact .running (destructor.trans running) (owners.mpr empty) (executed.trans some_)
        (freed.trans unfreed) (same before) blocking
  | freed returned empty all direct once before =>
      rw [← actions] at all
      exact .freed (destructor.trans returned) (owners.mpr empty) (executed.trans all) direct
        (freed.trans once) (same before)
  | @submitted task returned empty all deferred nonBlocking behind once before =>
      rw [← actions] at all
      rw [← dropped] at behind
      refine .submitted task (destructor.trans returned) (owners.mpr empty) (executed.trans all)
        deferred
        nonBlocking behind ?_ (same before)
      rw [freed, once, if_congr (finished task ((before task).mpr rfl)) rfl rfl]

omit [DecidableEq Queue] [DecidableEq Thread] in
/-- Before the last copy is dropped. -/
theorem Phase.pending_of_mem (phase : memory.Phase config) {owner : Owner Queue Thread}
    (member : owner ∈ memory.owners) : memory.destructor = .pending ∧ memory.executed = [] ∧
      memory.freed = 0 ∧ memory.FreeTask none := by
  have some_ := List.ne_nil_of_mem member
  cases phase with
  | pending pending _ executed freed free => exact ⟨pending, executed, freed, free⟩
  | running _ empty | freed _ empty | submitted _ _ empty => exact absurd empty some_

omit [DecidableEq Queue] [DecidableEq Thread] in
theorem Phase.running_point (phase : memory.Phase config) {agent : Agent Queue Thread}
    {point : DestructorPoint Queue} (running : memory.destructor = .running agent point) :
    memory.owners = [] ∧ memory.executed = executedAt memory.actions point ∧ memory.freed = 0 ∧
      memory.FreeTask none ∧ (point = .freeLocked → ∃ queue, config.deferred = some queue ∧
        config.isBlocking queue = true) := by
  cases phase with
  | running at_ empty executed freed free blocking =>
      cases at_.symm.trans running
      exact ⟨empty, executed, freed, free, blocking⟩
  | pending at_ | freed at_ | submitted _ at_ =>
      rw [running] at at_
      cases at_

theorem Phase.destructs (phase : memory.Phase config) {agent : Agent Queue Thread}
    {point : DestructorPoint Queue} (running : memory.destructor = .running agent point)
    (ordered : ∀ queue, (memory.queues queue).Ordered)
    (behind : ∀ queue, memory.dropped queue ≤ (memory.queues queue).submitted.length)
    (destructs : Destructs config agent memory point next) : next.Phase config := by
  obtain ⟨empty, executed, unfreed, none_, blocking⟩ := phase.running_point running
  cases destructs with
  | @user index | @waitEmpty index | @markerRun index | @markerDone index =>
      refine .running rfl empty ?_ unfreed none_ (by rintro ⟨⟩)
      change memory.executed ++ _ = memory.actions.take (index + 1)
      rw [executed, List.take_add_one]
      rfl
  | waitSubmit => exact .running rfl empty executed unfreed none_ (by rintro ⟨⟩)
  | @marker _ queue =>
      refine .running rfl empty executed unfreed (fun task => ?_) (by rintro ⟨⟩)
      refine submitted_submit.trans ⟨?_, fun free => .inl ((none_ task).mpr free)⟩
      rintro (before | ⟨-, free⟩)
      · exact (none_ task).mp before
      · cases free
  | actionsDone done =>
      refine .running rfl empty ?_ unfreed none_ (by rintro ⟨⟩)
      exact executed.trans (List.take_of_length_le done)
  | free direct =>
      refine .freed rfl empty executed (fun queue deferred => ?_) (congrArg (· + 1) unfreed) none_
      rw [direct] at deferred
      cases deferred
  | @lock queue deferred blocks free =>
      exact .running rfl empty executed unfreed none_ fun _ => ⟨queue, deferred, blocks⟩
  | @submit queue deferred nonBlocking =>
      have fresh : (memory.queues queue).submitted.length ∉ (memory.queues queue).finished :=
        fun member => lt_irrefl _ ((ordered queue).submitted_of_finished member)
      refine .submitted ⟨queue, (memory.queues queue).submitted.length⟩ rfl empty executed
        deferred nonBlocking (behind queue) ?_ fun other => ?_
      · have unreturned : (memory.queues queue).submitted.length ∉
            ((memory.submit queue .free).queues queue).finished := by
          rw [finished_submit]
          exact fresh
        exact unfreed.trans (if_neg unreturned).symm
      · refine submitted_submit.trans ⟨?_, fun same => .inr ⟨(Option.some.inj same).symm, rfl⟩⟩
        rintro (before | ⟨last, -⟩)
        · cases (none_ other).mp before
        · rw [last]
  | @freeLocked queue deferred =>
      obtain ⟨other, deferred', blocks⟩ := blocking rfl
      refine .freed rfl empty executed (fun queue deferred => ?_) (congrArg (· + 1) unfreed) none_
      cases deferred.symm.trans deferred'
      exact blocks

/-- **The last copy.** Whoever drops it enters the destructor. -/
theorem Phase.release (phase : memory.Phase config) (agent : Agent Queue Thread)
    {owner : Owner Queue Thread} (member : owner ∈ memory.owners) :
    (memory.release agent owner).Phase config := by
  obtain ⟨pending, executed, freed, free⟩ := phase.pending_of_mem member
  by_cases last : memory.owners.erase owner = []
  · have entered : (memory.release agent owner).destructor = .running agent (.action 0) :=
      if_pos last
    exact .running entered last executed freed free (by rintro ⟨⟩)
  · exact .pending ((if_neg last).trans pending) last executed freed free

omit [DecidableEq Thread] in
/-- A task of the user is submitted. -/
theorem Phase.submit (phase : memory.Phase config) (queue : Queue) (task : BufferTask)
    (hostFn : task ≠ .free) (owned : task = .hostFn true → memory.owners ≠ []) :
    (memory.submit queue task).Phase config := by
  refine phase.congr rfl rfl rfl rfl rfl ?_ (fun other => ?_) fun other _ => ?_
  · change (if task = .hostFn true then _ else _) = [] ↔ _
    split
    case isTrue carries =>
        exact iff_of_false (List.append_ne_nil_of_right_ne_nil _ (by simp)) (owned carries)
    case isFalse => exact .rfl
  · refine submitted_submit.trans ⟨?_, .inl⟩
    rintro (before | ⟨-, same⟩)
    · exact before
    · exact absurd same.symm hostFn
  · rw [finished_submit]

omit [DecidableEq Thread] in
/-- A task returns; the one that frees the memory does so. -/
theorem Phase.finish (phase : memory.Phase config) {queue : Queue}
    (ordered : (memory.queues queue).Ordered) {package : TaskPackage BufferTask}
    {outcome : Outcome} (working : (memory.queues queue).worker = .running package ()) :
    ({ memory.setQueue queue ((memory.queues queue).finish package outcome) with
      freed := if package.task = .free then memory.freed + 1 else memory.freed } :
        ManagedDealloc Queue Thread Action).Phase config := by
  obtain ⟨submitted, -, unfinished⟩ := ordered.running working
  have queues (other : Queue) :
      (memory.setQueue queue ((memory.queues queue).finish package outcome)).queues other =
        if other = queue then (memory.queues queue).finish package outcome
        else memory.queues other := queues_setQueue other
  have tasks (other : Queue) :
      ((memory.setQueue queue ((memory.queues queue).finish package outcome)).queues
        other).submitted = (memory.queues other).submitted := by
    rw [queues]
    split
    case isTrue same => rw [same]; rfl
    case isFalse => rfl
  by_cases frees : package.task = .free
  · rw [frees] at submitted
    cases phase with
    | pending _ _ _ _ free | running _ _ _ _ free _ | freed _ _ _ _ _ free =>
        cases (free ⟨queue, package.promise⟩).mp submitted
    | submitted task returned empty all deferred nonBlocking behind freed free =>
        cases (free ⟨queue, package.promise⟩).mp submitted
        refine .submitted ⟨queue, package.promise⟩ returned empty all deferred nonBlocking
          behind ?_ fun other => ?_
        · have member : package.promise ∈
              ((memory.setQueue queue ((memory.queues queue).finish package outcome)).queues
                queue).finished := by
            rw [queues, if_pos rfl]
            exact List.mem_append_right _ (List.mem_singleton_self _)
          rw [if_neg unfinished] at freed
          exact (if_pos frees).trans ((congrArg (· + 1) freed).trans (if_pos member).symm)
        · exact (iff_of_eq (by rw [← tasks])).trans (free other)
  · refine phase.congr rfl rfl rfl (if_neg frees) rfl .rfl (fun other => ?_) fun other found => ?_
    · exact iff_of_eq (by rw [← tasks])
    · change other.promise ∈ ((memory.setQueue queue _).queues other.queue).finished ↔ _
      rw [queues]
      split
      case isTrue same =>
        have different : other.promise ≠ package.promise := by
          intro equal
          rw [same, equal, submitted] at found
          exact frees (Option.some.inj found)
        rw [same]
        simp [CallbackThread.finish, different]
      case isFalse => exact .rfl

theorem Phase.takes (phase : memory.Phase config) (carried : memory.Carried)
    (placed : memory.Placed)
    (behind : ∀ queue, memory.dropped queue ≤ (memory.queues queue).submitted.length)
    (takes : Takes config memory next) : next.Phase config := by
  have ordered (queue : Queue) := (carried.going queue).ordered
  have owned {thread : Thread} {point : BufferPoint Queue} (at_ : memory.points thread = point)
      (used : uses point) : Owner.thread thread ∈ memory.owners :=
    placed.handles thread (at_ ▸ used)
  cases takes with
  | copy owner | keepAlive _ owner =>
      exact phase.congr rfl rfl rfl rfl rfl
        (iff_of_false (List.append_ne_nil_of_right_ne_nil _ (by simp)) (List.ne_nil_of_mem owner))
        (fun _ => .rfl) fun _ _ => .rfl
  | addDestructorAction owner =>
      obtain ⟨pending, executed, freed, free⟩ := phase.pending_of_mem owner
      exact .pending pending (List.ne_nil_of_mem owner) executed freed free
  | enqueue | submitLock | submitRun | keepAliveLock =>
      exact phase.congr rfl rfl rfl rfl rfl .rfl (fun _ => .rfl) fun _ _ => .rfl
  | @drop thread point =>
      have owner : Owner.thread thread ∈ memory.owners :=
        point.elim And.right fun returns => owned returns trivial
      exact (phase.release (.thread thread) owner).congr rfl rfl rfl rfl rfl .rfl (fun _ => .rfl)
        fun _ _ => .rfl
  | @submit thread queue carries point =>
      have submitted := phase.submit queue (.hostFn carries) (by rintro ⟨⟩) fun same =>
        List.ne_nil_of_mem (owned point (BufferTask.hostFn.inj same))
      exact submitted.congr rfl rfl rfl rfl rfl .rfl (fun _ => .rfl) fun _ _ => .rfl
  | @keepAliveSubmit thread call point =>
      have submitted := phase.submit call.queue (.hostFn true) (by rintro ⟨⟩) fun _ =>
        List.ne_nil_of_mem (owned point trivial)
      exact submitted.congr rfl rfl rfl rfl rfl .rfl (fun _ => .rfl) fun _ _ => .rfl
  | @finish queue _ _ working => exact phase.finish (ordered queue) working
  | release _ owner => exact phase.release _ owner
  | @advance queue thread advanced _ =>
      obtain ⟨-, submitted, finished, -⟩ := advance_history advanced
      refine phase.congr rfl rfl rfl rfl rfl .rfl (fun other => ?_) fun other _ => ?_
      · rw [queues_setQueue]
        split
        case isTrue same => rw [submitted, same]
        case isFalse => exact .rfl
      · rw [queues_setQueue]
        split
        case isTrue same => rw [finished, same]
        case isFalse => exact .rfl
  | destruct running _ destructs => exact phase.destructs running ordered behind destructs

end ManagedDealloc

end Alpaka
