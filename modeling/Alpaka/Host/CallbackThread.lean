import Mathlib.Data.List.Basic
import Mathlib.Data.List.Infix
import Mathlib.Data.List.Range
import Mathlib.Logic.Function.Basic

/-! # The callback thread

A thread that runs submitted tasks one after the other. The task that is being
run stays at the front of the queue as an emptied entry until it has returned;
it is popped, destroyed, and only then is its promise fulfilled. Whatever the
worker is doing, the tasks are started and finished in the order in which they
were submitted (`Alpaka.CallbackThread.InOrder`).

What a running task does is left to the system that the thread is part of: it
moves the point of the running task and says when the task has returned.
-/

namespace Alpaka

/-- A task and the number of its promise. -/
structure TaskPackage (Task : Type*) where
  task : Task
  promise : ℕ
  deriving DecidableEq

/-- The result a promise is fulfilled with. -/
inductive Outcome
  | value
  | exception
  deriving DecidableEq

/-- Where the worker thread is. -/
inductive Worker (Task Point : Type*)
  | absent
  | waiting
  | took (package : TaskPackage Task)
  | running (package : TaskPackage Task) (point : Point)
  | ran (package : TaskPackage Task) (outcome : Outcome)
  | popped (package : TaskPackage Task) (outcome : Outcome)
  | destroyed (promise : ℕ) (outcome : Outcome)
  | exited
  deriving DecidableEq

/-- The queue and its worker. The submitted tasks and the order in which tasks were
started and finished are kept as history. -/
structure CallbackThread (Task Point : Type*) where
  tasks : List (Option (TaskPackage Task)) := []
  worker : Worker Task Point := .absent
  stopRequested : Bool := false
  fulfilled : ℕ → Option Outcome := fun _ => none
  submitted : List Task := []
  started : List ℕ := []
  finished : List ℕ := []

namespace CallbackThread

variable {Task Point : Type*} {thread : CallbackThread Task Point}

/-- Append a task; its future is returned. The first task starts the worker. -/
def submit (task : Task) (thread : CallbackThread Task Point) :
    ℕ × CallbackThread Task Point :=
  let promise := thread.submitted.length
  (promise,
    { thread with
      tasks := thread.tasks ++ [some ⟨task, promise⟩]
      worker := match thread.worker with
        | .absent => .waiting
        | worker => worker
      submitted := thread.submitted ++ [task] })

def isEmpty (thread : CallbackThread Task Point) : Bool := thread.tasks.isEmpty

/-- The steps of the worker apart from those of a running task. -/
def advance (entry : Point) (thread : CallbackThread Task Point) :
    Option (CallbackThread Task Point) :=
  match thread.worker with
  | .absent => none
  | .waiting =>
      match thread.tasks with
      | some package :: rest =>
          some { thread with tasks := none :: rest, worker := .took package }
      | none :: _ => none
      | [] => if thread.stopRequested then some { thread with worker := .exited } else none
  | .took package =>
      some { thread with
        worker := .running package entry
        started := thread.started ++ [package.promise] }
  | .running _ _ => none
  | .ran package outcome =>
      some { thread with tasks := thread.tasks.tail, worker := .popped package outcome }
  | .popped package outcome => some { thread with worker := .destroyed package.promise outcome }
  | .destroyed promise outcome =>
      some { thread with
        worker := .waiting
        fulfilled := Function.update thread.fulfilled promise (some outcome) }
  | .exited => none

/-- What a step of the worker can be. -/
theorem advance_cases {entry : Point} {next : CallbackThread Task Point}
    (advanced : thread.advance entry = some next) :
    (∃ package rest, thread.worker = .waiting ∧ thread.tasks = some package :: rest ∧
      next = { thread with tasks := none :: rest, worker := .took package }) ∨
    (thread.worker = .waiting ∧ thread.tasks = [] ∧ thread.stopRequested = true ∧
      next = { thread with worker := .exited }) ∨
    (∃ package, thread.worker = .took package ∧
      next = { thread with
        worker := .running package entry
        started := thread.started ++ [package.promise] }) ∨
    (∃ package outcome, thread.worker = .ran package outcome ∧
      next = { thread with tasks := thread.tasks.tail, worker := .popped package outcome }) ∨
    (∃ package outcome, thread.worker = .popped package outcome ∧
      next = { thread with worker := .destroyed package.promise outcome }) ∨
    (∃ promise outcome, thread.worker = .destroyed promise outcome ∧
      next = { thread with
        worker := .waiting
        fulfilled := Function.update thread.fulfilled promise (some outcome) }) := by
  unfold advance at advanced
  split at advanced
  case h_1 => cases advanced
  case h_2 working =>
    split at advanced
    case h_1 package rest front =>
        exact .inl ⟨package, rest, working, front, (Option.some.inj advanced).symm⟩
    case h_2 => cases advanced
    case h_3 empty =>
      split at advanced
      case isTrue stop =>
        exact .inr (.inl ⟨working, empty, stop, (Option.some.inj advanced).symm⟩)
      case isFalse => cases advanced
  case h_3 package working =>
    exact .inr (.inr (.inl ⟨package, working, (Option.some.inj advanced).symm⟩))
  case h_4 => cases advanced
  case h_5 package outcome working =>
    exact .inr (.inr (.inr (.inl ⟨package, outcome, working, (Option.some.inj advanced).symm⟩)))
  case h_6 package outcome working =>
    exact .inr (.inr (.inr (.inr (.inl
      ⟨package, outcome, working, (Option.some.inj advanced).symm⟩))))
  case h_7 promise outcome working =>
    exact .inr (.inr (.inr (.inr (.inr
      ⟨promise, outcome, working, (Option.some.inj advanced).symm⟩))))
  case h_8 => cases advanced

/-- The running task comes to a further point. -/
def moveTo (package : TaskPackage Task) (point : Point) (thread : CallbackThread Task Point) :
    CallbackThread Task Point :=
  { thread with worker := .running package point }

/-- The running task returns or throws. -/
def finish (package : TaskPackage Task) (outcome : Outcome) (thread : CallbackThread Task Point) :
    CallbackThread Task Point :=
  { thread with
    worker := .ran package outcome
    finished := thread.finished ++ [package.promise] }

/-! ## Tasks are run in the order of submission -/

/-- The packages of all submitted tasks. -/
def packages (thread : CallbackThread Task Point) : List (TaskPackage Task) :=
  thread.submitted.mapIdx fun promise task => ⟨task, promise⟩

/-- The package the worker holds. -/
def held : Worker Task Point → Option (TaskPackage Task)
  | .took package | .running package _ | .ran package _ | .popped package _ => some package
  | _ => none

/-- The front of the queue while its task is being run. -/
def emptied : Worker Task Point → List (Option (TaskPackage Task))
  | .took _ | .running _ _ | .ran _ _ => [none]
  | _ => []

/-- How many of the tasks without a fulfilled promise the worker has taken. -/
def takenCount : Worker Task Point → ℕ
  | .absent | .waiting | .exited => 0
  | _ => 1

/-- How many of them it has started. -/
def startedCount : Worker Task Point → ℕ
  | .absent | .waiting | .exited | .took _ => 0
  | _ => 1

/-- How many of them have returned. -/
def finishedCount : Worker Task Point → ℕ
  | .ran _ _ | .popped _ _ | .destroyed _ _ => 1
  | _ => 0

/-- The tasks up to a number are done with; the worker is at the next one, and the
rest is in the queue. -/
structure InOrder (thread : CallbackThread Task Point) (done : ℕ) : Prop where
  bound : done + takenCount thread.worker ≤ thread.submitted.length
  package : ∀ package, held thread.worker = some package →
    thread.packages[done]? = some package
  promise : ∀ promise outcome, thread.worker = .destroyed promise outcome → promise = done
  tasks : thread.tasks = emptied thread.worker ++
    (thread.packages.drop (done + takenCount thread.worker)).map some
  started : thread.started = List.range (done + startedCount thread.worker)
  finished : thread.finished = List.range (done + finishedCount thread.worker)
  fulfilled : ∀ promise, (thread.fulfilled promise).isSome ↔ promise < done
  absent : thread.worker = .absent → thread.submitted = []

/-- The thread has processed its tasks in the order of their submission. -/
def Ordered (thread : CallbackThread Task Point) : Prop := ∃ done, thread.InOrder done

theorem ordered_initial : Ordered ({} : CallbackThread Task Point) := by
  refine ⟨0, le_rfl, ?_, ?_, rfl, rfl, rfl, ?_, fun _ => rfl⟩
  · intro package impossible
    cases impossible
  · intro promise outcome impossible
    cases impossible
  · intro promise
    simp

private theorem getElem?_packages (promise : ℕ) :
    thread.packages[promise]? = (thread.submitted[promise]?).map fun task => ⟨task, promise⟩ := by
  unfold packages
  rw [List.getElem?_mapIdx]

/-- The package of a task has the number of the task as its promise. -/
theorem package_iff {promise : ℕ} {package : TaskPackage Task} :
    thread.packages[promise]? = some package ↔
      thread.submitted[promise]? = some package.task ∧ package.promise = promise := by
  rw [getElem?_packages, Option.map_eq_some_iff]
  refine ⟨fun ⟨task, found, same⟩ => ?_, fun ⟨found, same⟩ => ⟨package.task, found, ?_⟩⟩
  · rw [← same]
    exact ⟨found, rfl⟩
  · rw [← same]

private theorem packages_submit (task : Task) :
    (thread.submit task).2.packages = thread.packages ++ [⟨task, thread.submitted.length⟩] := by
  unfold packages submit
  rw [List.mapIdx_concat]

/-- Starting the worker changes none of the counts. -/
theorem worker_submit (thread : CallbackThread Task Point) (task : Task) :
    (thread.submit task).2.worker = thread.worker ∨
      thread.worker = .absent ∧ (thread.submit task).2.worker = .waiting := by
  unfold submit
  cases thread.worker with
  | absent => exact .inr ⟨rfl, rfl⟩
  | _ => exact .inl rfl

theorem InOrder.submit {done : ℕ} (inOrder : thread.InOrder done) (task : Task) :
    (thread.submit task).2.InOrder done := by
  have same : held (thread.submit task).2.worker = held thread.worker ∧
      emptied (thread.submit task).2.worker = emptied thread.worker ∧
      takenCount (thread.submit task).2.worker = takenCount thread.worker ∧
      startedCount (thread.submit task).2.worker = startedCount thread.worker ∧
      finishedCount (thread.submit task).2.worker = finishedCount thread.worker := by
    obtain same | ⟨absent, waiting⟩ := worker_submit thread task
    · rw [same]
      exact ⟨rfl, rfl, rfl, rfl, rfl⟩
    · rw [absent, waiting]
      exact ⟨rfl, rfl, rfl, rfl, rfl⟩
  have length : thread.packages.length = thread.submitted.length := List.length_mapIdx
  obtain ⟨sameHeld, sameEmptied, sameTaken, sameStarted, sameFinished⟩ := same
  refine ⟨?_, fun package holds => ?_, fun promise outcome at_ => ?_, ?_, ?_, ?_,
    inOrder.fulfilled, fun absent => ?_⟩
  · rw [sameTaken]
    unfold CallbackThread.submit
    rw [List.length_append]
    exact inOrder.bound.trans (Nat.le_add_right _ _)
  · rw [sameHeld] at holds
    rw [packages_submit]
    have found := inOrder.package package holds
    rw [List.getElem?_append_left (List.getElem?_eq_some_iff.mp found).1]
    exact found
  · obtain same | ⟨absent, waiting⟩ := worker_submit thread task
    · exact inOrder.promise promise outcome (same ▸ at_)
    · rw [waiting] at at_
      cases at_
  · rw [sameTaken, sameEmptied, packages_submit,
      List.drop_append_of_le_length (length ▸ inOrder.bound), List.map_append, ← List.append_assoc,
      ← inOrder.tasks]
    rfl
  · rw [sameStarted]
    exact inOrder.started
  · rw [sameFinished]
    exact inOrder.finished
  · obtain same | ⟨_, waiting⟩ := worker_submit thread task
    · exfalso
      unfold CallbackThread.submit at absent
      cases working : thread.worker <;> rw [working] at absent <;> cases absent
    · rw [waiting] at absent
      cases absent

theorem Ordered.submit (ordered : thread.Ordered) (task : Task) :
    (thread.submit task).2.Ordered :=
  ordered.imp fun _ inOrder => inOrder.submit task

theorem Ordered.requestStop (ordered : thread.Ordered) :
    Ordered { thread with stopRequested := true } := by
  obtain ⟨done, inOrder⟩ := ordered
  exact ⟨done, inOrder.bound, inOrder.package, inOrder.promise, inOrder.tasks, inOrder.started,
    inOrder.finished, inOrder.fulfilled, inOrder.absent⟩

/-- What remains to be shown after a step of a thread that has its worker. -/
private theorem ordered_of {next : CallbackThread Task Point} (done : ℕ)
    (present : next.worker ≠ .absent)
    (bound : done + takenCount next.worker ≤ next.submitted.length)
    (package : ∀ package, held next.worker = some package → next.packages[done]? = some package)
    (promise : ∀ promise outcome, next.worker = .destroyed promise outcome → promise = done)
    (tasks : next.tasks = emptied next.worker ++
      (next.packages.drop (done + takenCount next.worker)).map some)
    (started : next.started = List.range (done + startedCount next.worker))
    (finished : next.finished = List.range (done + finishedCount next.worker))
    (fulfilled : ∀ promise, (next.fulfilled promise).isSome ↔ promise < done) : next.Ordered :=
  ⟨done, bound, package, promise, tasks, started, finished, fulfilled,
    fun absent => absurd absent present⟩

/-- The worker goes on in order. -/
theorem InOrder.advance {done : ℕ} (inOrder : thread.InOrder done) {entry : Point}
    {next : CallbackThread Task Point} (advanced : thread.advance entry = some next) :
    next.Ordered := by
  obtain ⟨bound, package, promise, tasks, started, finished, fulfilled, -⟩ := inOrder
  rcases advance_cases advanced with ⟨first, rest, working, queue, rfl⟩ |
    ⟨working, -, -, rfl⟩ | ⟨current, working, rfl⟩ | ⟨current, outcome, working, rfl⟩ |
    ⟨current, outcome, working, rfl⟩ | ⟨number, outcome, working, rfl⟩
  · rw [working] at bound tasks started finished
    have queued : (thread.packages.drop done).map some = some first :: rest :=
      tasks.symm.trans queue
    have front : thread.packages[done]? = some first := by
      have head := congrArg List.head? queued
      rw [List.head?_map, List.head?_drop] at head
      obtain ⟨other, found, same⟩ := Option.map_eq_some_iff.mp head
      exact found.trans same
    have later : (thread.packages.drop (done + 1)).map some = rest := by
      rw [← List.tail_drop, List.map_tail, queued]
      rfl
    have inside := (List.getElem?_eq_some_iff.mp front).1
    unfold packages at inside
    rw [List.length_mapIdx] at inside
    exact ordered_of done nofun inside (fun _ same => Option.some.inj same ▸ front) nofun
      (congrArg (none :: ·) later.symm) started finished fulfilled
  · rw [working] at bound tasks started finished
    exact ordered_of done nofun bound nofun nofun tasks started finished fulfilled
  · rw [working] at bound package tasks started finished
    have number : current.promise = done := (package_iff.mp (package current rfl)).2
    refine ordered_of done nofun bound package nofun tasks ?_ finished fulfilled
    change thread.started ++ [current.promise] = List.range (done + 1)
    rw [started, number, List.range_succ]
    rfl
  · rw [working] at bound package tasks started finished
    refine ordered_of done nofun bound package nofun ?_ started finished fulfilled
    change thread.tasks.tail = _
    rw [tasks]
    rfl
  · rw [working] at bound package tasks started finished
    have number : current.promise = done := (package_iff.mp (package current rfl)).2
    exact ordered_of done nofun bound nofun (fun _ _ same => (Worker.destroyed.inj same).1 ▸ number)
      tasks started finished fulfilled
  · have last : number = done := promise number outcome working
    rw [working] at bound tasks started finished
    refine ordered_of (done + 1) nofun bound nofun nofun tasks started finished fun other => ?_
    simp only [Function.update_apply, last]
    by_cases same : other = done
    · rw [if_pos same, same]
      exact iff_of_true rfl (Nat.lt_succ_self done)
    · rw [if_neg same, fulfilled]
      omega

theorem InOrder.moveTo {done : ℕ} (inOrder : thread.InOrder done) {package : TaskPackage Task}
    {point : Point} (working : thread.worker = .running package point) (next : Point) :
    (thread.moveTo package next).Ordered := by
  obtain ⟨bound, holds, promise, tasks, started, finished, fulfilled, -⟩ := inOrder
  rw [working] at bound holds tasks started finished
  apply ordered_of done
  · intro impossible
    cases impossible
  · exact bound
  · exact holds
  · intro number outcome impossible
    cases impossible
  · exact tasks
  · exact started
  · exact finished
  · exact fulfilled

theorem InOrder.finish {done : ℕ} (inOrder : thread.InOrder done) {package : TaskPackage Task}
    {point : Point} (working : thread.worker = .running package point) (outcome : Outcome) :
    (thread.finish package outcome).Ordered := by
  obtain ⟨bound, holds, promise, tasks, started, finished, fulfilled, -⟩ := inOrder
  rw [working] at bound holds tasks started finished
  have number : package.promise = done := (package_iff.mp (holds package rfl)).2
  apply ordered_of done
  · intro impossible
    cases impossible
  · exact bound
  · exact holds
  · intro number outcome impossible
    cases impossible
  · exact tasks
  · exact started
  · simp only [CallbackThread.finish, finishedCount, finished, number, Nat.add_zero,
      List.range_succ]
  · exact fulfilled

/-! ## What the order gives -/

/-- **First in, first out.** When a task is started, all tasks submitted before it
have returned. -/
theorem Ordered.finished_of_started (ordered : thread.Ordered) {first second : ℕ}
    (earlier : first < second) (later : second ∈ thread.started) : first ∈ thread.finished := by
  obtain ⟨done, inOrder⟩ := ordered
  have small : startedCount thread.worker ≤ 1 := by
    cases thread.worker <;> simp [startedCount]
  rw [inOrder.started, List.mem_range] at later
  rw [inOrder.finished, List.mem_range]
  omega

theorem Ordered.finished_of_fulfilled (ordered : thread.Ordered) {promise : ℕ}
    (ready : (thread.fulfilled promise).isSome) : promise ∈ thread.finished := by
  obtain ⟨done, inOrder⟩ := ordered
  have before := (inOrder.fulfilled promise).mp ready
  rw [inOrder.finished, List.mem_range]
  omega

/-- The running task is the submitted one with its number; it is started and has
not returned. -/
theorem Ordered.running (ordered : thread.Ordered) {package : TaskPackage Task} {point : Point}
    (working : thread.worker = .running package point) :
    thread.submitted[package.promise]? = some package.task ∧
      package.promise ∈ thread.started ∧ package.promise ∉ thread.finished := by
  obtain ⟨done, inOrder⟩ := ordered
  have holds := inOrder.package package (by rw [working]; rfl)
  have number := (package_iff.mp holds).2
  refine ⟨number ▸ (package_iff.mp holds).1, ?_, ?_⟩
  · rw [inOrder.started, working, number, List.mem_range]
    exact Nat.lt_succ_self done
  · rw [inOrder.finished, working, number, List.mem_range]
    exact lt_irrefl done

/-- A task that has been popped has returned. -/
theorem Ordered.finished_of_popped (ordered : thread.Ordered) {package : TaskPackage Task}
    {outcome : Outcome} (working : thread.worker = .popped package outcome) :
    package.promise ∈ thread.finished := by
  obtain ⟨done, inOrder⟩ := ordered
  have number := (package_iff.mp (inOrder.package package (by rw [working]; rfl))).2
  rw [inOrder.finished, working, number, List.mem_range]
  exact Nat.lt_succ_self done

theorem Ordered.finished_of_destroyed (ordered : thread.Ordered) {promise : ℕ}
    {outcome : Outcome} (working : thread.worker = .destroyed promise outcome) :
    promise ∈ thread.finished := by
  obtain ⟨done, inOrder⟩ := ordered
  rw [inOrder.finished, working, inOrder.promise promise outcome working, List.mem_range]
  exact Nat.lt_succ_self done

/-- Tasks return in the order of their submission. -/
theorem Ordered.finished_of_le (ordered : thread.Ordered) {first second : ℕ}
    (earlier : first ≤ second) (later : second ∈ thread.finished) : first ∈ thread.finished := by
  obtain ⟨done, inOrder⟩ := ordered
  rw [inOrder.finished, List.mem_range] at later ⊢
  exact earlier.trans_lt later

/-- Only submitted tasks return. -/
theorem Ordered.submitted_of_finished (ordered : thread.Ordered) {promise : ℕ}
    (member : promise ∈ thread.finished) : promise < thread.submitted.length := by
  obtain ⟨done, inOrder⟩ := ordered
  have := inOrder.bound
  have taken : finishedCount thread.worker ≤ takenCount thread.worker := by
    cases thread.worker <;> simp [finishedCount, takenCount]
  rw [inOrder.finished, List.mem_range] at member
  omega

/-- **Empty.** When the queue is empty, all tasks have returned … -/
theorem Ordered.finished_of_isEmpty (ordered : thread.Ordered) (empty : thread.tasks = [])
    {promise : ℕ} (submitted : promise < thread.submitted.length) :
    promise ∈ thread.finished := by
  obtain ⟨done, inOrder⟩ := ordered
  obtain ⟨unheld, rest⟩ := List.append_eq_nil_iff.mp (inOrder.tasks.symm.trans empty)
  have all := List.drop_eq_nil_iff.mp (List.map_eq_nil_iff.mp rest)
  have length : thread.packages.length = thread.submitted.length := List.length_mapIdx
  have counts : takenCount thread.worker = finishedCount thread.worker := by
    cases working : thread.worker <;> rw [working] at unheld <;>
      first | rfl | cases unheld
  rw [inOrder.finished, List.mem_range]
  omega

/-- … and if the worker holds none, all promises are fulfilled. -/
theorem Ordered.fulfilled_of_isEmpty (ordered : thread.Ordered) (empty : thread.tasks = [])
    (idle : takenCount thread.worker = 0) {promise : ℕ}
    (submitted : promise < thread.submitted.length) : (thread.fulfilled promise).isSome := by
  obtain ⟨done, inOrder⟩ := ordered
  obtain ⟨-, rest⟩ := List.append_eq_nil_iff.mp (inOrder.tasks.symm.trans empty)
  have all := List.drop_eq_nil_iff.mp (List.map_eq_nil_iff.mp rest)
  have length : thread.packages.length = thread.submitted.length := List.length_mapIdx
  rw [inOrder.fulfilled]
  omega

theorem Ordered.tasks_of_absent (ordered : thread.Ordered) (absent : thread.worker = .absent) :
    thread.tasks = [] := by
  obtain ⟨done, inOrder⟩ := ordered
  have none_ := inOrder.absent absent
  rw [inOrder.tasks, absent, packages, none_, List.mapIdx_nil, List.drop_nil]
  rfl

/-- A waiting worker finds a task at the front of the queue. -/
theorem Ordered.front (ordered : thread.Ordered) (waiting : thread.worker = .waiting)
    (some_ : thread.tasks ≠ []) : ∃ package rest, thread.tasks = some package :: rest := by
  obtain ⟨done, inOrder⟩ := ordered
  have tasks := inOrder.tasks
  rw [waiting] at tasks
  cases rest : thread.packages.drop (done + takenCount (Worker.waiting : Worker Task Point)) with
  | nil =>
      rw [rest] at tasks
      exact absurd tasks some_
  | cons package later =>
      rw [rest] at tasks
      exact ⟨package, later.map some, tasks⟩

/-- How far the worker is from having finished with the task it holds. -/
def stage : Worker Task Point → ℕ
  | .absent | .waiting | .exited => 0
  | .took _ => 5
  | .running _ _ => 4
  | .ran _ _ => 3
  | .popped _ _ => 2
  | .destroyed _ _ => 1

/-- How many steps the worker is going to take for the tasks in the queue. -/
def remaining (thread : CallbackThread Task Point) : ℕ :=
  6 * (thread.tasks.filterMap id).length + stage thread.worker

/-- **Going on.** As long as there is work, the worker can take a step, or the running task
can. -/
theorem Ordered.advances (ordered : thread.Ordered) (entry : Point)
    (work : thread.tasks = [] → takenCount thread.worker ≠ 0) (unended : thread.worker ≠ .exited)
    (idle : ∀ package point, thread.worker ≠ .running package point) :
    ∃ next, thread.advance entry = some next ∧ next.remaining < thread.remaining := by
  unfold advance remaining
  cases working : thread.worker with
  | absent => exact absurd (by rw [working]; rfl) (work (ordered.tasks_of_absent working))
  | waiting =>
      obtain ⟨package, rest, front⟩ := ordered.front working fun empty =>
        work empty (by rw [working]; rfl)
      rw [front]
      refine ⟨_, rfl, ?_⟩
      simp only [stage, List.filterMap_cons, id_eq, List.length_cons]
      omega
  | took package => exact ⟨_, rfl, Nat.add_lt_add_left (Nat.lt_succ_self 4) _⟩
  | running package point => exact absurd working (idle package point)
  | ran package outcome =>
      have fewer : (thread.tasks.tail.filterMap id).length ≤ (thread.tasks.filterMap id).length :=
        ((List.tail_sublist _).filterMap id).length_le
      refine ⟨_, rfl, ?_⟩
      simp only [stage]
      omega
  | popped package outcome => exact ⟨_, rfl, Nat.add_lt_add_left (Nat.lt_succ_self 1) _⟩
  | destroyed promise outcome => exact ⟨_, rfl, Nat.add_lt_add_left (Nat.lt_succ_self 0) _⟩
  | exited => exact absurd working unended

/-- A worker that keeps the order and is not told to stop. -/
structure Going (thread : CallbackThread Task Point) : Prop where
  ordered : thread.Ordered
  going : thread.stopRequested = false
  unended : thread.worker ≠ .exited

theorem going_initial : Going ({} : CallbackThread Task Point) :=
  ⟨ordered_initial, rfl, fun impossible => nomatch impossible⟩

theorem Going.submit (going : thread.Going) (task : Task) : (thread.submit task).2.Going := by
  refine ⟨going.ordered.submit task, going.going, fun ended => ?_⟩
  rcases worker_submit thread task with same | ⟨-, waiting⟩
  · exact going.unended (same ▸ ended)
  · rw [waiting] at ended
    cases ended

/-- The running task comes to its next point. -/
theorem Going.moveTo (ok : thread.Going) {package : TaskPackage Task} {point : Point}
    (working : thread.worker = .running package point) (next : Point) :
    (thread.moveTo package next).Going := by
  obtain ⟨⟨done, inOrder⟩, going, -⟩ := ok
  exact ⟨inOrder.moveTo working next, going, fun impossible => nomatch impossible⟩

theorem Going.finish (ok : thread.Going) {package : TaskPackage Task} {point : Point}
    (working : thread.worker = .running package point) (outcome : Outcome) :
    (thread.finish package outcome).Going := by
  obtain ⟨⟨done, inOrder⟩, going, -⟩ := ok
  exact ⟨inOrder.finish working outcome, going, fun impossible => nomatch impossible⟩

theorem Going.advance (ok : thread.Going) {entry : Point} {next : CallbackThread Task Point}
    (advanced : thread.advance entry = some next) : next.Going := by
  obtain ⟨⟨done, inOrder⟩, going, -⟩ := ok
  refine ⟨inOrder.advance advanced, ?_, ?_⟩
  all_goals
    rcases advance_cases advanced with ⟨package, rest, -, -, rfl⟩ | ⟨-, -, stop, -⟩ |
      ⟨package, -, rfl⟩ | ⟨package, outcome, -, rfl⟩ | ⟨package, outcome, -, rfl⟩ |
      ⟨promise, outcome, -, rfl⟩
  -- A worker that is not told to stop does not exit.
  case refine_1.inr.inl | refine_2.inr.inl =>
    rw [going] at stop
    cases stop
  all_goals first
    | exact going
    | exact fun impossible => nomatch impossible

/-- As long as it has not fulfilled all promises, such a worker or its task can take a step. -/
theorem Going.advances (going : thread.Going) (entry : Point) {promise : ℕ}
    (submitted : promise < thread.submitted.length) (unfulfilled : thread.fulfilled promise = none)
    (idle : ∀ package point, thread.worker ≠ .running package point) :
    (thread.advance entry).isSome := by
  have work : thread.tasks = [] → takenCount thread.worker ≠ 0 := by
    intro empty rests
    have fulfilled := going.ordered.fulfilled_of_isEmpty empty rests submitted
    rw [unfulfilled] at fulfilled
    cases fulfilled
  obtain ⟨next, advanced, -⟩ := going.ordered.advances entry work going.unended idle
  exact Option.isSome_of_eq_some advanced

/-! ## History only grows -/

/-- A later state of the same thread. -/
structure Extends (earlier later : CallbackThread Task Point) : Prop where
  submitted : earlier.submitted <+: later.submitted
  started : earlier.started ⊆ later.started
  finished : earlier.finished ⊆ later.finished
  fulfilled : ∀ promise, (earlier.fulfilled promise).isSome → (later.fulfilled promise).isSome

/-- A state with the same history. -/
theorem Extends.of_eq {earlier later : CallbackThread Task Point}
    (submitted : later.submitted = earlier.submitted) (started : later.started = earlier.started)
    (finished : later.finished = earlier.finished)
    (fulfilled : later.fulfilled = earlier.fulfilled) : earlier.Extends later := by
  refine ⟨?_, ?_, ?_, ?_⟩
  · rw [submitted]
  · rw [started]
    exact List.Subset.refl _
  · rw [finished]
    exact List.Subset.refl _
  · rw [fulfilled]
    exact fun _ ready => ready

theorem Extends.refl (thread : CallbackThread Task Point) : thread.Extends thread :=
  .of_eq rfl rfl rfl rfl

theorem Extends.trans {first second third : CallbackThread Task Point}
    (left : first.Extends second) (right : second.Extends third) : first.Extends third :=
  ⟨left.submitted.trans right.submitted, List.Subset.trans left.started right.started,
    List.Subset.trans left.finished right.finished,
    fun promise ready => right.fulfilled promise (left.fulfilled promise ready)⟩

theorem Extends.getElem? {earlier later : CallbackThread Task Point}
    (extends_ : earlier.Extends later) {promise : ℕ} {task : Task}
    (found : earlier.submitted[promise]? = some task) :
    later.submitted[promise]? = some task := by
  obtain ⟨further, same⟩ := extends_.submitted
  rw [← same, List.getElem?_append_left (List.getElem?_eq_some_iff.mp found).1]
  exact found

theorem submit_extends (task : Task) : thread.Extends (thread.submit task).2 where
  submitted := List.prefix_append _ _
  started := List.Subset.refl _
  finished := List.Subset.refl _
  fulfilled := fun _ ready => ready

theorem getElem?_submit {task other : Task} {promise : ℕ}
    (found : (thread.submit task).2.submitted[promise]? = some other) :
    thread.submitted[promise]? = some other ∨
      promise = thread.submitted.length ∧ other = task := by
  unfold submit at found
  dsimp only at found
  by_cases old : promise < thread.submitted.length
  · rw [List.getElem?_append_left old] at found
    exact .inl found
  · rw [List.getElem?_append_right (not_lt.mp old), List.getElem?_singleton] at found
    split at found
    · cases found
      exact .inr ⟨by omega, rfl⟩
    · cases found

theorem getElem?_submit_self (task : Task) :
    (thread.submit task).2.submitted[(thread.submit task).1]? = some task := by
  unfold submit
  dsimp only
  rw [List.getElem?_append_right le_rfl, Nat.sub_self]
  rfl

theorem running_submit {task : Task} {package : TaskPackage Task} {point : Point} :
    (thread.submit task).2.worker = .running package point ↔
      thread.worker = .running package point := by
  obtain same | ⟨absent, waiting⟩ := worker_submit thread task
  · rw [same]
  · rw [absent, waiting]
    exact iff_of_false (fun impossible => nomatch impossible) (fun impossible => nomatch impossible)

/-- What the worker does by itself leaves the submitted and the returned tasks
alone, and if it then runs a task, this is at its begin. -/
theorem advance_history {entry : Point} {next : CallbackThread Task Point}
    (advanced : thread.advance entry = some next) :
    thread.Extends next ∧ next.submitted = thread.submitted ∧ next.finished = thread.finished ∧
      ∀ package point, next.worker = .running package point → point = entry := by
  unfold advance at advanced
  cases working : thread.worker with
  | absent =>
      rw [working] at advanced
      cases advanced
  | waiting =>
      rw [working] at advanced
      dsimp only at advanced
      split at advanced
      · cases advanced
        exact ⟨.of_eq rfl rfl rfl rfl, rfl, rfl, fun _ _ impossible => nomatch impossible⟩
      · cases advanced
      · split at advanced
        · cases advanced
          exact ⟨.of_eq rfl rfl rfl rfl, rfl, rfl, fun _ _ impossible => nomatch impossible⟩
        · cases advanced
  | took package =>
      rw [working] at advanced
      cases advanced
      refine ⟨⟨List.prefix_rfl, List.subset_append_left _ _, List.Subset.refl _,
        fun _ ready => ready⟩, rfl, rfl, fun _ _ same => ?_⟩
      cases same
      rfl
  | running package point =>
      rw [working] at advanced
      cases advanced
  | ran package outcome =>
      rw [working] at advanced
      cases advanced
      exact ⟨.of_eq rfl rfl rfl rfl, rfl, rfl, fun _ _ impossible => nomatch impossible⟩
  | popped package outcome =>
      rw [working] at advanced
      cases advanced
      exact ⟨.of_eq rfl rfl rfl rfl, rfl, rfl, fun _ _ impossible => nomatch impossible⟩
  | destroyed promise outcome =>
      rw [working] at advanced
      cases advanced
      refine ⟨⟨List.prefix_rfl, List.Subset.refl _, List.Subset.refl _, fun other ready => ?_⟩,
        rfl, rfl, fun _ _ impossible => nomatch impossible⟩
      simp only [Function.update_apply]
      split
      · rfl
      · exact ready
  | exited =>
      rw [working] at advanced
      cases advanced

theorem finish_extends (package : TaskPackage Task) (outcome : Outcome) :
    thread.Extends (thread.finish package outcome) :=
  ⟨List.prefix_rfl, List.Subset.refl _, List.subset_append_left _ _, fun _ ready => ready⟩

theorem moveTo_extends (package : TaskPackage Task) (point : Point) :
    thread.Extends (thread.moveTo package point) :=
  .of_eq rfl rfl rfl rfl

/-! ## Tasks that have not been destroyed -/

/-- The task of a promise has not been destroyed. -/
structure Keeps (thread : CallbackThread Task Point) (promise : ℕ) : Prop where
  unfulfilled : thread.fulfilled promise = none
  undestroyed : ∀ outcome, thread.worker ≠ .destroyed promise outcome

/-- A task is not destroyed before it has returned. -/
theorem Ordered.keeps (ordered : thread.Ordered) {promise : ℕ}
    (unfinished : promise ∉ thread.finished) : thread.Keeps promise := by
  refine ⟨?_, fun outcome working => unfinished (ordered.finished_of_destroyed working)⟩
  by_contra fulfilled
  exact unfinished (ordered.finished_of_fulfilled (Option.isSome_iff_ne_none.mpr fulfilled))

theorem Keeps.submit {promise : ℕ} (keeps : thread.Keeps promise) (task : Task) :
    (thread.submit task).2.Keeps promise := by
  refine ⟨keeps.unfulfilled, fun outcome working => ?_⟩
  rcases worker_submit thread task with same | ⟨-, waiting⟩
  · exact keeps.undestroyed outcome (same ▸ working)
  · rw [waiting] at working
    cases working

/-- The worker keeps a task until it destroys it. -/
theorem Keeps.advance {promise : ℕ} (keeps : thread.Keeps promise) {entry : Point}
    {next : CallbackThread Task Point} (advanced : thread.advance entry = some next)
    (undestroyed : ∀ package outcome, thread.worker = .popped package outcome →
      package.promise ≠ promise) : next.Keeps promise := by
  rcases advance_cases advanced with ⟨package, rest, -, -, rfl⟩ | ⟨-, -, -, rfl⟩ |
    ⟨package, -, rfl⟩ | ⟨package, outcome, -, rfl⟩ | ⟨package, outcome, working, rfl⟩ |
    ⟨number, outcome, working, rfl⟩
  case inr.inr.inr.inr.inl =>
    refine ⟨keeps.unfulfilled, fun other same => ?_⟩
    cases same
    exact undestroyed package outcome working rfl
  case inr.inr.inr.inr.inr =>
    refine ⟨?_, fun other impossible => nomatch impossible⟩
    have different : promise ≠ number := by
      rintro rfl
      exact keeps.undestroyed outcome working
    exact (Function.update_of_ne different ..).trans keeps.unfulfilled
  all_goals exact ⟨keeps.unfulfilled, fun other impossible => nomatch impossible⟩

end CallbackThread

end Alpaka
