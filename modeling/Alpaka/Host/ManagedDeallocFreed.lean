import Alpaka.Host.ManagedDeallocSound

/-! # The memory is freed

Once no thread has a copy, the tasks drop theirs, and whoever drops the last one executes the
destructor. It returns unless the worker of a queue is in it and waits for its own queue:
`destructorWaitFor` submits a marker behind the other tasks of the queue, and only this worker
could run it. Apart from that the memory can be freed
(`Alpaka.ManagedDealloc.freed_once_iff`).
-/

namespace Alpaka

namespace ManagedDealloc

open CallbackThread Math.Interleaving Math.WaitFor

variable {Queue Thread Action : Type*} [DecidableEq Queue] [DecidableEq Thread]
  {config : BufferConfig Queue} {memory next : ManagedDealloc Queue Thread Action}

/-! ## The copies are dropped -/

/-- The steps apart from new calls. -/
def GoesOn : BufferAction Queue Thread Action → Prop
  | .call _ _ => False
  | .thread _ | .worker _ _ => True

private theorem workerStep_of_advance (config : BufferConfig Queue) {queue : Queue}
    {thread : CallbackThread BufferTask Unit}
    (advanced : (memory.queues queue).advance () = some thread)
    (dropped : ∀ package outcome, (memory.queues queue).worker = .popped package outcome →
      Owner.task ⟨queue, package.promise⟩ ∉ memory.owners ∧
        ∀ point, memory.destructor ≠ .running (.worker queue) point) (outcome : Outcome) :
    memory.workerStep config queue outcome = some (memory.setQueue queue thread) := by
  unfold workerStep
  dsimp only
  split
  case h_1 package _ working =>
    unfold advance at advanced
    rw [working] at advanced
    cases advanced
  case h_2 package result working =>
    obtain ⟨absent, outside⟩ := dropped package result working
    rw [if_neg absent]
    split
    case h_1 point inside => exact absurd (destructing_iff.mp inside) (outside point)
    case h_2 => rw [advanced, Option.map_some]
  case h_3 => rw [advanced, Option.map_some]

/-- A worker with a task that it has not destroyed, and that is not in the destructor, can go
on: it comes closer to the end of its tasks, or drops the copy of the task it destroys. -/
theorem Sound.works (sound : memory.Sound config) {queue : Queue} {promise : ℕ}
    (submitted : promise < (memory.queues queue).submitted.length)
    (unfulfilled : (memory.queues queue).fulfilled promise = none)
    (outside : ∀ point, memory.destructor ≠ .running (.worker queue) point) :
    (∃ next, memory.step config (.worker queue .value) = some next ∧
        (next.queues queue).remaining < (memory.queues queue).remaining ∧
          next.owners = memory.owners ∧ next.destructor = memory.destructor ∧
            next.actions = memory.actions ∧
              ∀ other, other ≠ queue → next.queues other = memory.queues other) ∨
      ∃ package outcome, (memory.queues queue).worker = .popped package outcome ∧
        Owner.task ⟨queue, package.promise⟩ ∈ memory.owners := by
  have going := sound.carried.going queue
  have advances (unready : ∀ package point, (memory.queues queue).worker ≠ .running package point)
      (dropped : ∀ package outcome, (memory.queues queue).worker = .popped package outcome →
        Owner.task ⟨queue, package.promise⟩ ∉ memory.owners) :
      ∃ next, memory.step config (.worker queue .value) = some next ∧
        (next.queues queue).remaining < (memory.queues queue).remaining ∧
          next.owners = memory.owners ∧ next.destructor = memory.destructor ∧
            next.actions = memory.actions ∧
              ∀ other, other ≠ queue → next.queues other = memory.queues other := by
    obtain ⟨thread, advanced, closer⟩ := going.ordered.advances () (fun empty rests => by
      have fulfilled := going.ordered.fulfilled_of_isEmpty empty rests submitted
      rw [unfulfilled] at fulfilled
      cases fulfilled) going.unended unready
    have steps := workerStep_of_advance config advanced
      (fun package outcome working => ⟨dropped package outcome working, outside⟩) .value
    refine ⟨_, steps, ?_, rfl, rfl, rfl, fun other different => ?_⟩
    · rw [queues_setQueue, if_pos rfl]
      exact closer
    · rw [queues_setQueue, if_neg different]
  cases working : (memory.queues queue).worker with
  | running package point =>
      have steps : memory.step config (.worker queue .value) =
          some { memory.setQueue queue ((memory.queues queue).finish package .value) with
            freed := if package.task = .free then memory.freed + 1 else memory.freed } := by
        change memory.workerStep config queue .value = _
        unfold workerStep
        simp only [working]
      refine .inl ⟨_, steps, ?_, rfl, rfl, rfl, fun other different => ?_⟩
      · change ((memory.setQueue queue _).queues queue).remaining < _
        rw [queues_setQueue, if_pos rfl]
        unfold remaining
        rw [working]
        exact Nat.add_lt_add_left (Nat.lt_succ_self 3) _
      · change (memory.setQueue queue _).queues other = _
        rw [queues_setQueue, if_neg different]
  | popped package outcome =>
      by_cases owner : Owner.task ⟨queue, package.promise⟩ ∈ memory.owners
      · exact .inr ⟨package, outcome, rfl, owner⟩
      · refine .inl (advances (fun _ _ => by rw [working]; rintro ⟨⟩) fun other _ same => ?_)
        rw [working] at same
        cases same
        exact owner
  | _ =>
      exact .inl (advances (fun _ _ => by rw [working]; rintro ⟨⟩)
        fun _ _ => by rw [working]; rintro ⟨⟩)

/-- Whoever is in the destructor takes its steps. -/
theorem Sound.destruct_step (sound : memory.Sound config) {agent : Agent Queue Thread}
    {point : DestructorPoint Queue} (running : memory.destructor = .running agent point)
    (destructed : memory.destruct config agent point = some next) :
    ∃ action, GoesOn action ∧ memory.step config action = some next := by
  have inside := sound.placed.runner agent point running
  have none_ := (sound.phase.running_point running).1
  have at_ := destructing_iff.mpr running
  cases agent with
  | thread thread =>
      refine ⟨.thread thread, trivial, ?_⟩
      change memory.threadStep config thread = some next
      unfold threadStep
      simp only [show memory.points thread = .destroy from inside, at_, Option.bind_some]
      exact destructed
  | worker queue =>
      obtain ⟨package, outcome, working⟩ := inside
      refine ⟨.worker queue .value, trivial, ?_⟩
      change memory.workerStep config queue .value = some next
      unfold workerStep
      simp only [working, none_, List.not_mem_nil, if_false, at_]
      exact destructed

/-- In the destructor or after it, without copies. -/
structure Released (config : BufferConfig Queue) (memory : ManagedDealloc Queue Thread Action) :
    Prop where
  sound : memory.Sound config
  dropped : memory.owners = []

/-- While the destructor waits, it stays where it is, and the worker that is in it does nothing
else. -/
structure Keeps (memory : ManagedDealloc Queue Thread Action) (agent : Agent Queue Thread)
    (next : ManagedDealloc Queue Thread Action) : Prop where
  destructor : next.destructor = memory.destructor
  actions : next.actions = memory.actions
  own : ∀ queue, agent = .worker queue → next.queues queue = memory.queues queue

/-- The mutex of a blocking queue becomes free for the destructor. -/
theorem Released.leads_unlocked (released : memory.Released config) {agent : Agent Queue Thread}
    {point : DestructorPoint Queue} (running : memory.destructor = .running agent point)
    (outside : point ≠ .freeLocked) (queue : Queue) :
    Leads GoesOn (step config) (fun next => next.Released config ∧ memory.Keeps agent next ∧
      (next.blocking queue).mutex = none) memory := by
  obtain ⟨sound, dropped⟩ := released
  cases held : (memory.blocking queue).mutex with
  | none => exact .here ⟨⟨sound, dropped⟩, ⟨rfl, rfl, fun _ _ => rfl⟩, held⟩
  | some holder =>
      have holds_ : memory.holds config holder = some queue := (sound.mutexes queue holder).mp held
      have away : lockedBy memory.destructor ≠ some holder := by
        rw [running]
        cases point <;> rintro ⟨⟩
        exact outside rfl
      unfold holds at holds_
      rw [if_neg away] at holds_
      cases holder with
      | worker => cases holds_
      | thread thread =>
          change pointHolds config (memory.points thread) = some queue at holds_
          cases point : memory.points thread with
          | submitRun running_ =>
              rw [point] at holds_
              cases holds_
              have steps : memory.step config (.thread thread) =
                  some (((memory.setBlocking queue { memory.blocking queue with
                    finished := (memory.blocking queue).finished + 1 }).unlock queue).setPoint
                      thread .idle) := by
                change memory.threadStep config thread = _
                unfold threadStep
                simp only [point]
              refine .next ?_ steps
                (.here ⟨⟨sound.takes (takes_of_step steps), dropped⟩,
                  ⟨rfl, rfl, fun _ _ => rfl⟩, ?_⟩)
              · trivial
              · exact congrArg _ (Function.update_self ..)
          | keepAliveSubmit call =>
              have owner := sound.placed.handles thread (by rw [point]; trivial)
              rw [dropped] at owner
              cases owner
          | _ =>
              rw [point] at holds_
              cases holds_

/-- The steps lead to the end of the destructor. -/
def LeadsReturned (config : BufferConfig Queue) (memory : ManagedDealloc Queue Thread Action) :
    Prop :=
  Leads GoesOn (step config)
    (fun next => next.Released config ∧ next.destructor = .returned) memory

theorem Released.destruct (released : memory.Released config) {agent : Agent Queue Thread}
    {point : DestructorPoint Queue} (running : memory.destructor = .running agent point)
    (destructed : memory.destruct config agent point = some next) (dropped : next.owners = [])
    (rest : next.Released config → next.LeadsReturned config) : memory.LeadsReturned config := by
  obtain ⟨action, allowed, taken⟩ := released.sound.destruct_step running destructed
  exact .next allowed taken (rest ⟨released.sound.takes (takes_of_step taken), dropped⟩)

theorem Released.freeLocked (released : memory.Released config) {agent : Agent Queue Thread}
    (running : memory.destructor = .running agent .freeLocked) : memory.LeadsReturned config := by
  obtain ⟨-, -, -, -, blocking⟩ := released.sound.phase.running_point running
  obtain ⟨queue, deferred, -⟩ := blocking rfl
  have destructed : memory.destruct config agent .freeLocked =
      some (({ memory with freed := memory.freed + 1 }.unlock queue).leave agent) := by
    unfold ManagedDealloc.destruct
    simp only [deferred]
  exact released.destruct running destructed released.dropped fun later => .here ⟨later, rfl⟩

theorem Released.freeOp (released : memory.Released config) {agent : Agent Queue Thread}
    (running : memory.destructor = .running agent .freeOp) : memory.LeadsReturned config := by
  cases deferred : config.deferred with
  | none =>
      have destructed : memory.destruct config agent .freeOp =
          some ({ memory with freed := memory.freed + 1 }.leave agent) := by
        unfold ManagedDealloc.destruct
        simp only [deferred]
      exact released.destruct running destructed released.dropped fun later => .here ⟨later, rfl⟩
  | some queue =>
      cases blocking : config.isBlocking queue with
      | false =>
          have destructed : memory.destruct config agent .freeOp =
              some ((memory.submit queue .free).leave agent) := by
            unfold ManagedDealloc.destruct
            simp only [deferred, blocking, Bool.false_eq_true, if_false]
          exact released.destruct running destructed released.dropped fun later =>
            .here ⟨later, rfl⟩
      | true =>
          refine (released.leads_unlocked running (by rintro ⟨⟩) queue).trans ?_
          rintro unlocked ⟨later, keeps, free⟩
          have destructed : unlocked.destruct config agent .freeOp =
              some { unlocked.setBlocking queue
                { unlocked.blocking queue with mutex := some agent } with
                  destructor := .running agent .freeLocked } := by
            unfold ManagedDealloc.destruct lock
            simp only [deferred, blocking, if_true, free, Option.map_some]
          exact later.destruct (keeps.destructor.trans running) destructed later.dropped
            fun locked => locked.freeLocked rfl

/-- The worker of another queue comes to a task that has been submitted to it, and fulfils its
promise. -/
theorem Released.leads_fulfilled (released : memory.Released config) {agent : Agent Queue Thread}
    {point : DestructorPoint Queue} (running : memory.destructor = .running agent point)
    {task : Future Queue} (other : agent ≠ .worker task.queue)
    (submitted : task.promise < (memory.queues task.queue).submitted.length) :
    Leads GoesOn (step config) (fun next => next.Released config ∧ memory.Keeps agent next ∧
      ((next.queues task.queue).fulfilled task.promise).isSome) memory := by
  induction closer : (memory.queues task.queue).remaining using Nat.strong_induction_on
    generalizing memory with
  | h count ih =>
      obtain ⟨sound, dropped⟩ := released
      cases fulfilled : (memory.queues task.queue).fulfilled task.promise with
      | some outcome =>
          refine .here ⟨⟨sound, dropped⟩, ⟨rfl, rfl, fun _ _ => rfl⟩, ?_⟩
          rw [fulfilled]
          rfl
      | none =>
          have outside (point' : DestructorPoint Queue) :
              memory.destructor ≠ .running (.worker task.queue) point' := by
            rw [running]
            rintro ⟨⟩
            exact other rfl
          rcases sound.works submitted fulfilled outside with
            ⟨next, steps, less, owners, destructor, actions, queues⟩ | ⟨_, _, _, owner⟩
          · have takes := takes_of_step steps
            have own (queue : Queue) (worker : agent = .worker queue) :
                next.queues queue = memory.queues queue := by
              refine queues queue fun same => other ?_
              rw [worker, same]
            have rest := ih _ (closer ▸ less) ⟨sound.takes takes, owners.trans dropped⟩
              (destructor.trans running)
              (submitted.trans_le (takes.grows.submitted task.queue).length_le) rfl
            refine .next ?_ steps (rest.trans ?_)
            · trivial
            · rintro final ⟨later, ⟨sameDestructor, sameActions, sameQueues⟩, done⟩
              exact .here ⟨later, ⟨sameDestructor.trans destructor, sameActions.trans actions,
                fun queue worker => (sameQueues queue worker).trans (own queue worker)⟩, done⟩
          · rw [dropped] at owner
            cases owner

/-- What remains to be done once an action has returned. -/
def AfterAction (config : BufferConfig Queue) (memory : ManagedDealloc Queue Thread Action)
    (agent : Agent Queue Thread) (index : ℕ) : Prop :=
  ∀ next : ManagedDealloc Queue Thread Action, next.Released config →
    next.destructor = .running agent (.action (index + 1)) → next.actions = memory.actions →
    (∀ queue, agent = .worker queue → next.queues queue = memory.queues queue) →
      next.LeadsReturned config

/-- The destructor waits for a marker in the queue of another worker. -/
theorem Released.waits (released : memory.Released config) {agent : Agent Queue Thread}
    {index : ℕ} {marker : Future Queue}
    (running : memory.destructor = .running agent (.waits index marker))
    (either : agent ≠ .worker marker.queue ∨
      ((memory.queues marker.queue).fulfilled marker.promise).isSome)
    (rest : memory.AfterAction config agent index) : memory.LeadsReturned config := by
  have ended {reached : ManagedDealloc Queue Thread Action} (later : reached.Released config)
      (keeps : memory.Keeps agent reached)
      (done : ((reached.queues marker.queue).fulfilled marker.promise).isSome) :
      reached.LeadsReturned config := by
    have destructed : reached.destruct config agent (.waits index marker) =
        some (reached.ran agent index) := by
      unfold ManagedDealloc.destruct
      exact if_pos done
    exact later.destruct (keeps.destructor.trans running) destructed later.dropped fun ran =>
      rest _ ran rfl keeps.actions keeps.own
  rcases either with other | done
  · refine (released.leads_fulfilled running other
      (released.sound.marked _ _ _ running).2).trans ?_
    rintro reached ⟨later, keeps, done⟩
    exact ended later keeps done
  · exact ended released ⟨rfl, rfl, fun _ _ => rfl⟩ done

/-- The destructor waits for a blocking queue, or for that of another worker. -/
theorem Released.waitSubmit (released : memory.Released config) {agent : Agent Queue Thread}
    {index : ℕ} {queue : Queue}
    (running : memory.destructor = .running agent (.waitSubmit index queue))
    (other : config.isBlocking queue = false → agent ≠ .worker queue)
    (rest : memory.AfterAction config agent index) : memory.LeadsReturned config := by
  cases blocking : config.isBlocking queue with
  | true =>
      refine (released.leads_unlocked running (by rintro ⟨⟩) queue).trans ?_
      rintro unlocked ⟨later, keeps, free⟩
      have destructed : unlocked.destruct config agent (.waitSubmit index queue) =
          some (unlocked.ran agent index) := by
        unfold ManagedDealloc.destruct lock
        simp only [blocking, if_true, free, Option.map_some, unlock_setBlocking free]
      exact later.destruct (keeps.destructor.trans running) destructed later.dropped fun ran =>
        rest _ ran rfl keeps.actions keeps.own
  | false =>
      have destructed : memory.destruct config agent (.waitSubmit index queue) =
          some { memory.submit queue (.hostFn false) with
            destructor := .running agent (.waits index
              ⟨queue, (memory.queues queue).submitted.length⟩) } := by
        unfold ManagedDealloc.destruct
        simp only [blocking, Bool.false_eq_true, if_false]
      refine released.destruct running destructed released.dropped fun later =>
        later.waits rfl (.inl (other blocking)) fun next ran at_ actions own =>
          rest next ran at_ actions fun same worker => (own same worker).trans ?_
      have different : same ≠ queue := by
        rintro rfl
        exact other blocking worker
      exact (queues_submit same).trans (if_neg different)

/-- A worker in the destructor has no further tasks if it will wait for its own queue. -/
def Quiet (config : BufferConfig Queue) (agent : Agent Queue Thread) (index : ℕ)
    (memory : ManagedDealloc Queue Thread Action) : Prop :=
  ∀ queue, agent = .worker queue → config.isBlocking queue = false →
    .waitFor queue ∈ memory.actions.drop index → (memory.queues queue).isEmpty = true

omit [DecidableEq Queue] [DecidableEq Thread] in
/-- It stays like this when an action has returned. -/
theorem Quiet.succ {agent : Agent Queue Thread} {index : ℕ}
    (quiet : memory.Quiet config agent index)
    (actions : next.actions = memory.actions)
    (own : ∀ queue, agent = .worker queue → next.queues queue = memory.queues queue) :
    next.Quiet config agent (index + 1) := by
  intro queue worker nonBlocking member
  rw [actions] at member
  rw [own queue worker]
  refine quiet queue worker nonBlocking (List.mem_of_mem_drop (i := 1) ?_)
  rwa [List.drop_drop]

theorem Released.action (released : memory.Released config) {agent : Agent Queue Thread}
    {index : ℕ} (running : memory.destructor = .running agent (.action index))
    (quiet : memory.Quiet config agent index) : memory.LeadsReturned config := by
  induction left : memory.actions.length - index generalizing memory index with
  | zero =>
      have destructed : memory.destruct config agent (.action index) =
          some { memory with destructor := .running agent .freeOp } := by
        unfold ManagedDealloc.destruct
        simp only [List.getElem?_eq_none_iff.mpr (Nat.le_of_sub_eq_zero left)]
      exact released.destruct running destructed released.dropped fun later => later.freeOp rfl
  | succ left' ih =>
      have inside : index < memory.actions.length := by omega
      have rest : memory.AfterAction config agent index := fun next later at_ actions own =>
        ih later at_ (quiet.succ actions own) (by rw [actions]; omega)
      have returns (destructed : memory.destruct config agent (.action index) =
          some (memory.ran agent index)) : memory.LeadsReturned config :=
        released.destruct running destructed released.dropped fun later =>
          rest _ later rfl rfl fun _ _ => rfl
      have found := List.getElem?_eq_getElem inside
      cases action : memory.actions[index] with
      | user function =>
          rw [action] at found
          apply returns
          unfold ManagedDealloc.destruct
          simp only [found]
      | waitFor queue =>
          rw [action] at found
          by_cases empty : memory.isQueueEmpty config queue = true
          · apply returns
            unfold ManagedDealloc.destruct
            simp only [found, empty, if_true]
          · have destructed : memory.destruct config agent (.action index) =
                some { memory with destructor := .running agent (.waitSubmit index queue) } := by
              unfold ManagedDealloc.destruct
              simp only [found, empty, if_false, Bool.false_eq_true]
            refine released.destruct running destructed released.dropped fun later =>
              later.waitSubmit rfl (fun nonBlocking worker => empty ?_) rest
            unfold isQueueEmpty
            rw [nonBlocking]
            refine quiet queue worker nonBlocking (List.mem_of_getElem? (i := 0) ?_)
            rw [List.getElem?_drop]
            exact found

/-! ## The worker that waits for its own queue -/

/-- The actions behind the point where the destructor is. -/
def remainingAt (actions : List (DestructorAction Queue Action)) :
    DestructorPoint Queue → List (DestructorAction Queue Action)
  | .action index => actions.drop index
  | .waitSubmit index _ | .waits index _ => actions.drop (index + 1)
  | .freeOp | .freeLocked => []

/-- The worker of a queue is in the destructor and waits for this queue, or has further tasks and
will wait for it. -/
def WaitsForItself (config : BufferConfig Queue) (memory : ManagedDealloc Queue Thread Action) :
    Prop :=
  ∃ queue point, memory.destructor = .running (.worker queue) point ∧
    config.isBlocking queue = false ∧
      ((∃ index, point = .waitSubmit index queue) ∨
        (∃ index promise, point = .waits index ⟨queue, promise⟩ ∧
          (memory.queues queue).fulfilled promise = none) ∨
        .waitFor queue ∈ remainingAt memory.actions point ∧
          (memory.queues queue).isEmpty = false)

omit [DecidableEq Queue] [DecidableEq Thread] in
/-- Where neither the destructor nor its actions change, and the queue of the worker in it at most
gets further tasks, it goes on waiting. -/
theorem WaitsForItself.congr (waits : memory.WaitsForItself config)
    (destructor : next.destructor = memory.destructor) (actions : next.actions = memory.actions)
    (queues : ∀ queue point, memory.destructor = .running (.worker queue) point →
      (next.queues queue).fulfilled = (memory.queues queue).fulfilled ∧
        ((memory.queues queue).isEmpty = false → (next.queues queue).isEmpty = false)) :
    next.WaitsForItself config := by
  obtain ⟨queue, point, running, nonBlocking, waits⟩ := waits
  obtain ⟨fulfilled, busy⟩ := queues queue point running
  refine ⟨queue, point, destructor.trans running, nonBlocking, ?_⟩
  rw [fulfilled, actions]
  exact waits.imp_right (Or.imp_right (And.imp_right busy))

omit [DecidableEq Thread] in
/-- A submitted task is behind the others, and nothing is fulfilled by that. -/
private theorem queues_submit_behind (queue : Queue) (task : BufferTask) (other : Queue) :
    ((memory.submit queue task).queues other).fulfilled = (memory.queues other).fulfilled ∧
      ((memory.queues other).isEmpty = false →
        ((memory.submit queue task).queues other).isEmpty = false) := by
  rw [queues_submit]
  split
  case isTrue same =>
    subst same
    refine ⟨rfl, fun _ => ?_⟩
    unfold CallbackThread.submit isEmpty
    rw [List.isEmpty_eq_false_iff]
    exact List.append_ne_nil_of_right_ne_nil _ (by rintro ⟨⟩)
  case isFalse => exact ⟨rfl, id⟩

/-- The next step of a destructor that waits for itself. -/
private theorem WaitsForItself.destructs (sound : memory.Sound config) {queue : Queue}
    {point : DestructorPoint Queue} (nonBlocking : config.isBlocking queue = false)
    (waits : (∃ index, point = .waitSubmit index queue) ∨
      (∃ index promise, point = .waits index ⟨queue, promise⟩ ∧
        (memory.queues queue).fulfilled promise = none) ∨
      .waitFor queue ∈ remainingAt memory.actions point ∧ (memory.queues queue).isEmpty = false)
    (destructs : Destructs config (.worker queue) memory point next) :
    next.WaitsForItself config := by
  have later {index : ℕ} {action : DestructorAction Queue Action}
      (found : memory.actions[index]? = some action) (different : action ≠ .waitFor queue)
      (member : .waitFor queue ∈ memory.actions.drop index) :
      .waitFor queue ∈ memory.actions.drop (index + 1) := by
    obtain ⟨inside, same⟩ := List.getElem?_eq_some_iff.mp found
    rw [List.drop_eq_getElem_cons inside, same] at member
    exact (List.mem_cons.mp member).resolve_left different.symm
  cases destructs with
  | @user index action found =>
      rcases waits with ⟨_, ⟨⟩⟩ | ⟨_, _, ⟨⟩, _⟩ | ⟨member, busy⟩
      exact ⟨queue, _, rfl, nonBlocking, .inr (.inr ⟨later found (by rintro ⟨⟩) member, busy⟩)⟩
  | @waitEmpty index other found empty =>
      rcases waits with ⟨_, ⟨⟩⟩ | ⟨_, _, ⟨⟩, _⟩ | ⟨member, busy⟩
      refine ⟨queue, _, rfl, nonBlocking, .inr (.inr ⟨later found ?_ member, busy⟩)⟩
      rintro ⟨⟩
      rw [isQueueEmpty, nonBlocking] at empty
      exact Bool.eq_false_iff.mp busy empty
  | @waitSubmit index other found =>
      rcases waits with ⟨_, ⟨⟩⟩ | ⟨_, _, ⟨⟩, _⟩ | ⟨member, busy⟩
      by_cases same : other = queue
      · subst same
        exact ⟨other, _, rfl, nonBlocking, .inl ⟨index, rfl⟩⟩
      · refine ⟨queue, _, rfl, nonBlocking, .inr (.inr ⟨later found ?_ member, busy⟩)⟩
        rintro ⟨⟩
        exact same rfl
  | markerRun blocking =>
      rcases waits with ⟨_, ⟨⟩⟩ | ⟨_, _, ⟨⟩, _⟩ | waits
      · rw [nonBlocking] at blocking
        cases blocking
      · exact ⟨queue, _, rfl, nonBlocking, .inr (.inr waits)⟩
  | @marker index other =>
      rcases waits with ⟨_, ⟨⟩⟩ | ⟨_, _, ⟨⟩, _⟩ | ⟨member, busy⟩
      · refine ⟨queue, _, rfl, nonBlocking, .inr (.inl ⟨index, _, rfl, ?_⟩)⟩
        refine (congrFun (queues_submit_behind queue (.hostFn false) queue).1 _).trans ?_
        obtain ⟨done, inOrder⟩ := (sound.carried.going queue).ordered
        rw [← Option.not_isSome_iff_eq_none, inOrder.fulfilled]
        exact not_lt.mpr ((Nat.le_add_right _ _).trans inOrder.bound)
      · exact ⟨queue, _, rfl, nonBlocking, .inr (.inr ⟨member,
          (queues_submit_behind other (.hostFn false) queue).2 busy⟩)⟩
  | @markerDone index marker fulfilled =>
      rcases waits with ⟨_, ⟨⟩⟩ | ⟨_, promise, ⟨⟩, unfulfilled⟩ | waits
      · rw [unfulfilled] at fulfilled
        cases fulfilled
      · exact ⟨queue, _, rfl, nonBlocking, .inr (.inr waits)⟩
  | @actionsDone index done =>
      rcases waits with ⟨_, ⟨⟩⟩ | ⟨_, _, ⟨⟩, _⟩ | ⟨member, _⟩
      rw [remainingAt, List.drop_eq_nil_of_le done] at member
      cases member
  | free | lock | submit | freeLocked =>
      rcases waits with ⟨_, ⟨⟩⟩ | ⟨_, _, ⟨⟩, _⟩ | ⟨⟨⟩, _⟩

/-- **Waiting for oneself.** A worker that waits for its own queue waits forever. -/
theorem WaitsForItself.takes (waits : memory.WaitsForItself config) (sound : memory.Sound config)
    (takes : Takes config memory next) : next.WaitsForItself config := by
  obtain ⟨queue, point, running, nonBlocking, blocks⟩ := waits
  have waits : memory.WaitsForItself config := ⟨queue, point, running, nonBlocking, blocks⟩
  have none_ := (sound.phase.running_point running).1
  obtain ⟨package, outcome, working⟩ := sound.placed.runner _ _ running
  have unowned {owner : Owner Queue Thread} (member : owner ∈ memory.owners) : False := by
    rw [none_] at member
    cases member
  have set {other : Queue} (changed : CallbackThread BufferTask Unit) (different : other ≠ queue) :
      ((memory.setQueue other changed).queues queue).fulfilled =
          (memory.queues queue).fulfilled ∧
        ((memory.queues queue).isEmpty = false →
          ((memory.setQueue other changed).queues queue).isEmpty = false) := by
    rw [queues_setQueue, if_neg different.symm]
    exact ⟨rfl, id⟩
  have own {worker : Queue} {point' : DestructorPoint Queue}
      (at_ : memory.destructor = .running (.worker worker) point') : worker = queue := by
    rw [running] at at_
    cases at_
    rfl
  cases takes with
  | copy owner | addDestructorAction owner => exact (unowned owner).elim
  | keepAlive _ owner => exact (unowned owner).elim
  | release _ owner => exact (unowned owner).elim
  | @drop thread point' =>
      rcases point' with ⟨_, owner⟩ | at_
      · exact (unowned owner).elim
      · exact (unowned (sound.placed.handles thread (by rw [at_]; trivial))).elim
  | @keepAliveSubmit thread _ at_ =>
      exact (unowned (sound.placed.handles thread (by rw [at_]; trivial))).elim
  | enqueue | submitLock | submitRun | keepAliveLock =>
      exact waits.congr rfl rfl fun _ _ _ => ⟨rfl, id⟩
  | @submit _ other carries =>
      exact waits.congr rfl rfl fun worker _ _ =>
        queues_submit_behind other (.hostFn carries) worker
  | @finish other _ _ runs =>
      refine waits.congr rfl rfl fun worker _ at_ => ?_
      obtain rfl := own at_
      refine set _ ?_
      rintro rfl
      rw [working] at runs
      cases runs
  | @advance other _ _ dropped =>
      refine waits.congr rfl rfl fun worker _ at_ => ?_
      obtain rfl := own at_
      refine set _ ?_
      rintro rfl
      exact (dropped package outcome working).2 point running
  | destruct running' _ destructs =>
      rw [running] at running'
      cases running'
      exact WaitsForItself.destructs sound nonBlocking blocks destructs

/-! ## The memory is freed -/

/-- Two queues, and a deferred allocation in the second one. -/
private def twoQueues : BufferConfig Bool := ⟨fun _ => false, some true⟩

end ManagedDealloc

end Alpaka
