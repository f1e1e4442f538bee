import Alpaka.Math.Interleaving
import Alpaka.Math.SharedSum
import Alpaka.Vec
import Mathlib.Data.BitVec

/-! # The progress counter of collective queues

Threads inside a parallel region take part in single-thread tasks and kernels; each
raises a counter before and lowers it behind, by hand. An operation issued outside of
the region waits until the counter is zero. An exception between the two leaves the
counter raised, so that the counter counts the threads inside an operation and the
operations left so (`Alpaka.OmpCollective.counter_eq`); with no thread inside it is
zero exactly when the latter make up a multiple of its range
(`Alpaka.OmpCollective.balanced_iff`).
-/

namespace Alpaka.OmpCollective

open Math.Interleaving

/-- The operations on a collective queue: single-thread tasks without and with a
barrier at the end, and kernels. -/
inductive Operation
  | invokeSingleNowait
  | invokeSingleAndWait
  | threadSpecKernel {bits dim : ℕ} (numThreads : Vec (BitVec bits) (dim + 1))
  | frameSpecKernel

/-- The constructors of the executors throw unless a block has one thread, which is how
`adjustThreadSpec` makes the blocks of a frame specification. -/
def Operation.rejected : Operation → Bool
  | .threadSpecKernel numThreads => numThreads.product ≠ 1
  | _ => false

def Operation.isKernel : Operation → Bool
  | .threadSpecKernel _ => true
  | .frameSpecKernel => true
  | _ => false

/-- How far a thread is in its operation. For a single-thread task, one thread is
elected to execute it, in the parent queue. The last three points are those of an
operation outside of a parallel region. -/
inductive Point
  | outside
  | waitUntilParentQueueIsEmpty (operation : Operation) (elected : Bool)
  | increment (operation : Operation) (elected : Bool)
  | kernel (operation : Operation)
  | submit
  | execute
  | decrement
  | waitForNonOmpParallelOps
  | parentSubmit
  | parentExecute

/-- The queue and its threads. How many operations have been left by an exception with
the counter raised is kept as history. -/
structure Queue (Thread : Type*) where
  numCollectiveTasksExecuted : BitVec 32 := 0
  blockingTaskExecutionDepth : BitVec 32 := 0
  points : Thread → Point := fun _ => .outside
  left : ℕ := 0

/-- A thread begins an operation, or takes its next step, in which the kernel or the
task may throw. -/
inductive Action (Thread : Type*)
  | call (thread : Thread) (operation : Operation) (inParallel elected : Bool)
  | advance (thread : Thread) (throws : Bool)

variable {Thread : Type*} [DecidableEq Thread]

def Queue.goTo (queue : Queue Thread) (thread : Thread) (point : Point) : Queue Thread :=
  { queue with points := Function.update queue.points thread point }

/-- The exception leaves the operation, and the caller catches it. -/
def Queue.leave (queue : Queue Thread) (thread : Thread) : Queue Thread :=
  { queue with left := queue.left + 1 }.goTo thread .outside

/-- The next step of an operation. -/
def Queue.advance (queue : Queue Thread) (thread : Thread) (throws : Bool) :
    Option (Queue Thread) :=
  match queue.points thread with
  | .outside => none
  | .waitUntilParentQueueIsEmpty operation elected =>
      if queue.blockingTaskExecutionDepth = 0 then
        some (queue.goTo thread (.increment operation elected))
      else none
  | .increment operation elected =>
      some ({ queue with
        numCollectiveTasksExecuted := queue.numCollectiveTasksExecuted + 1 }.goTo thread
          (if operation.isKernel then .kernel operation
          else if elected then .submit
          else .decrement))
  | .kernel operation =>
      if operation.rejected || throws then some (queue.leave thread)
      else some (queue.goTo thread .decrement)
  | .submit =>
      some ({ queue with
        blockingTaskExecutionDepth := queue.blockingTaskExecutionDepth + 1 }.goTo thread .execute)
  | .execute =>
      -- the guard lowers the depth on every exit path
      let queue := { queue with
        blockingTaskExecutionDepth := queue.blockingTaskExecutionDepth - 1 }
      if throws then some (queue.leave thread) else some (queue.goTo thread .decrement)
  | .decrement =>
      some ({ queue with
        numCollectiveTasksExecuted := queue.numCollectiveTasksExecuted - 1 }.goTo thread .outside)
  | .waitForNonOmpParallelOps =>
      if queue.numCollectiveTasksExecuted = 0 then some (queue.goTo thread .parentSubmit) else none
  | .parentSubmit =>
      some ({ queue with
        blockingTaskExecutionDepth := queue.blockingTaskExecutionDepth + 1 }.goTo thread
          .parentExecute)
  | .parentExecute =>
      some ({ queue with
        blockingTaskExecutionDepth := queue.blockingTaskExecutionDepth - 1 }.goTo thread .outside)

/-- Where an operation begins. Of those that take part in a single-thread task with a
barrier, only the elected thread does anything else than wait for the others. -/
def Operation.begin (inParallel elected : Bool) : Operation → Point
  | .invokeSingleAndWait =>
      if inParallel then
        if elected then .waitUntilParentQueueIsEmpty .invokeSingleAndWait true else .outside
      else .waitForNonOmpParallelOps
  | operation =>
      if inParallel then .waitUntilParentQueueIsEmpty operation elected
      else .waitForNonOmpParallelOps

/-- Whether a thread is outside of every operation. -/
def Point.isOutside : Point → Bool
  | .outside => true
  | _ => false

def step (queue : Queue Thread) : Action Thread → Option (Queue Thread)
  | .call thread operation inParallel elected =>
      if (queue.points thread).isOutside then
        some (queue.goTo thread (operation.begin inParallel elected))
      else none
  | .advance thread throws => queue.advance thread throws

/-! ## What the counter counts -/

/-- Whether a thread has raised the counter. -/
def Point.raised : Point → ℕ
  | .kernel _ => 1
  | .submit => 1
  | .execute => 1
  | .decrement => 1
  | _ => 0

section

variable [Fintype Thread] {queue next : Queue Thread}

/-- The invariant: the counter counts, within its range, the threads that have raised
it and the operations that have been left. -/
def Counts (queue : Queue Thread) : Prop :=
  queue.numCollectiveTasksExecuted =
    BitVec.ofNat 32 ((∑ thread, (queue.points thread).raised) + queue.left)

/-- A step keeps the invariant if the counter changes with the point of the thread. -/
theorem Counts.move (counts : Counts queue) {thread : Thread} {point : Point}
    (moved : next.points = Function.update queue.points thread point)
    (balance : next.numCollectiveTasksExecuted +
        BitVec.ofNat 32 ((queue.points thread).raised + queue.left) =
      queue.numCollectiveTasksExecuted + BitVec.ofNat 32 (point.raised + next.left)) :
    Counts next := by
  have sums := Math.sum_update_add Point.raised queue.points thread point
  unfold Counts at counts ⊢
  rw [← BitVec.add_left_inj (BitVec.ofNat 32 ((queue.points thread).raised + queue.left)), balance,
    counts, moved, ← BitVec.ofNat_add, ← BitVec.ofNat_add]
  congr 1
  omega

omit [DecidableEq Thread] [Fintype Thread] in
private theorem raised_incremented (operation : Operation) (elected : Bool) :
    (if operation.isKernel then Point.kernel operation
      else if elected then .submit else .decrement).raised = 1 := by
  split
  · rfl
  · split <;> rfl

theorem Counts.advance {thread : Thread} {throws : Bool} (counts : Counts queue)
    (taken : queue.advance thread throws = some next) : Counts next := by
  unfold Queue.advance at taken
  cases at' : queue.points thread with
  | outside => simp [at'] at taken
  | waitUntilParentQueueIsEmpty operation elected =>
      simp only [at'] at taken
      obtain ⟨-, ⟨⟩⟩ := Option.ite_none_right_eq_some.mp taken
      apply counts.move rfl
      rw [at']
      rfl
  | increment operation elected =>
      simp only [at', Option.some.injEq] at taken
      subst taken
      apply counts.move rfl
      rw [at', raised_incremented]
      simp only [Queue.goTo, Point.raised]
      bv_omega
  | kernel operation =>
      simp only [at'] at taken
      split at taken <;> cases taken
      · apply counts.move rfl
        rw [at']
        simp only [Queue.leave, Queue.goTo, Point.raised]
        rw [Nat.zero_add, Nat.add_comm]
      · apply counts.move rfl
        rw [at']
        rfl
  | submit =>
      simp only [at', Option.some.injEq] at taken
      subst taken
      apply counts.move rfl
      rw [at']
      rfl
  | execute =>
      simp only [at'] at taken
      split at taken <;> cases taken
      · apply counts.move rfl
        rw [at']
        simp only [Queue.leave, Queue.goTo, Point.raised]
        rw [Nat.zero_add, Nat.add_comm]
      · apply counts.move rfl
        rw [at']
        rfl
  | decrement =>
      simp only [at', Option.some.injEq] at taken
      subst taken
      apply counts.move rfl
      rw [at']
      simp only [Queue.goTo, Point.raised]
      bv_omega
  | waitForNonOmpParallelOps =>
      simp only [at'] at taken
      obtain ⟨-, ⟨⟩⟩ := Option.ite_none_right_eq_some.mp taken
      apply counts.move rfl
      rw [at']
      rfl
  | parentSubmit =>
      simp only [at', Option.some.injEq] at taken
      subst taken
      apply counts.move rfl
      rw [at']
      rfl
  | parentExecute =>
      simp only [at', Option.some.injEq] at taken
      subst taken
      apply counts.move rfl
      rw [at']
      rfl

private theorem raised_begin (operation : Operation) (inParallel elected : Bool) :
    (operation.begin inParallel elected).raised = 0 := by
  cases operation <;> cases inParallel <;> cases elected <;> rfl

private theorem raised_of_isOutside {point : Point} (outside : point.isOutside = true) :
    point = .outside := by
  cases point <;> first | rfl | cases outside

/-- Every step keeps the invariant. -/
theorem Counts.step {action : Action Thread} (counts : Counts queue)
    (taken : step queue action = some next) : Counts next := by
  cases action with
  | call thread operation inParallel elected =>
      obtain ⟨outside, ⟨⟩⟩ := Option.ite_none_right_eq_some.mp taken
      apply counts.move rfl
      rw [raised_begin, raised_of_isOutside outside]
      rfl
  | advance thread throws => exact counts.advance taken

/-- **The counter.** In every reachable state it counts the threads that have raised it
and the operations that have been left by an exception. -/
theorem counter_eq (reachable : Reachable step {} queue) :
    queue.numCollectiveTasksExecuted =
      BitVec.ofNat 32 ((∑ thread, (queue.points thread).raised) + queue.left) := by
  have counts : Counts queue := by
    apply reachable.induction
    · unfold Counts
      simp [Point.raised]
    · intro queue action next counts taken
      exact counts.step taken
  exact counts

/-- With no thread inside an operation only the operations that have been left count. -/
theorem counter_eq_zero_iff (reachable : Reachable step {} queue)
    (outside : ∀ thread, queue.points thread = .outside) :
    queue.numCollectiveTasksExecuted = 0 ↔ 2 ^ 32 ∣ queue.left := by
  have none : ∑ thread, (queue.points thread).raised = 0 := by
    apply Finset.sum_eq_zero
    intro thread _
    rw [outside thread]
    rfl
  rw [counter_eq reachable, none, Nat.zero_add, ← BitVec.toNat_inj, BitVec.toNat_ofNat,
    Nat.dvd_iff_mod_eq_zero]
  rfl

end

/-- An operation issued outside of the region gets past its wait when the counter is
zero. -/
theorem run_outside_iff {queue : Queue Thread} {thread : Thread} (operation : Operation)
    (outside : queue.points thread = .outside) :
    (∃ next, run step queue [.call thread operation false false, .advance thread false] =
      some next) ↔ queue.numCollectiveTasksExecuted = 0 := by
  have begins : operation.begin false false = .waitForNonOmpParallelOps := by
    cases operation <;> rfl
  have calls : step queue (.call thread operation false false) =
      some (queue.goTo thread .waitForNonOmpParallelOps) := by
    simp [step, outside, begins, Point.isOutside]
  have waits : step (queue.goTo thread .waitForNonOmpParallelOps) (.advance thread false) =
      if queue.numCollectiveTasksExecuted = 0 then
        some ((queue.goTo thread .waitForNonOmpParallelOps).goTo thread .parentSubmit)
      else none := by
    simp [step, Queue.advance, Queue.goTo]
  simp only [run, List.foldlM_cons, List.foldlM_nil, calls, waits, Option.bind_eq_bind,
    Option.bind_some]
  by_cases zero : queue.numCollectiveTasksExecuted = 0
  · simp [zero]
  · simp only [zero, if_false, Option.bind_none, reduceCtorEq, exists_false]

/-- Operations issued outside of the region. -/
def Action.isOutside : Action Thread → Bool
  | .call _ _ inParallel _ => !inParallel
  | .advance _ _ => true

/-- A counter that is not zero with no thread inside an operation stays as it is: no
operation issued outside of the region ever gets past its wait. -/
theorem waits_forever {queue final : Queue Thread}
    (outside : ∀ thread, queue.points thread = .outside)
    (raised : queue.numCollectiveTasksExecuted ≠ 0)
    (reached : ReachableBy (fun _ action => action.isOutside = true) step queue final) :
    final.numCollectiveTasksExecuted = queue.numCollectiveTasksExecuted ∧
      ∀ thread, final.points thread = .outside ∨
        final.points thread = .waitForNonOmpParallelOps := by
  induction reached with
  | start => exact ⟨rfl, fun thread => .inl (outside thread)⟩
  | @step middle next action _ isOutside taken ih =>
      obtain ⟨same, waiting⟩ := ih
      cases action with
      | call thread operation inParallel elected =>
          obtain ⟨-, ⟨⟩⟩ := Option.ite_none_right_eq_some.mp taken
          cases inParallel with
          | true => cases isOutside
          | false =>
              refine ⟨same, fun other => ?_⟩
              by_cases own : other = thread
              · subst own
                right
                simp only [Queue.goTo, Function.update_self]
                cases operation <;> rfl
              · simp only [Queue.goTo, Function.update_of_ne own]
                exact waiting other
      | advance thread throws =>
          have stuck : middle.advance thread throws = none := by
            unfold Queue.advance
            rcases waiting thread with out | waits
            · rw [out]
            · rw [waits]
              exact if_neg (same ▸ raised)
          exact absurd (stuck.symm.trans taken) (by simp)

/-- **Balance.** When no thread is inside an operation, the counter is zero, and an
operation issued outside of the region gets past its wait, exactly when the number of
operations that have been left by an exception with the counter raised is a multiple of
the counter's range. -/
theorem balanced_iff [Fintype Thread] {queue : Queue Thread}
    (reachable : Reachable step {} queue) (outside : ∀ thread, queue.points thread = .outside) :
    (queue.numCollectiveTasksExecuted = 0 ↔ 2 ^ 32 ∣ queue.left) ∧
      ∀ thread operation, (∃ next, run step queue
          [.call thread operation false false, .advance thread false] = some next) ↔
        2 ^ 32 ∣ queue.left := by
  have zero := counter_eq_zero_iff reachable outside
  refine ⟨zero, fun thread operation => ?_⟩
  exact (run_outside_iff operation (outside thread)).trans zero

/-- Both threads of a team enqueue a kernel with two threads for each block, which is
rejected, and the counter stays raised. -/
theorem balanced_lost :
    ¬ ∀ queue : Queue (Fin 2), Reachable step {} queue →
      (∀ thread, queue.points thread = .outside) → queue.numCollectiveTasksExecuted = 0 := by
  intro law
  have zero := law _ ⟨[.call 0 (.threadSpecKernel (![2] : Vec (BitVec 32) 1)) true true,
    .call 1 (.threadSpecKernel (![2] : Vec (BitVec 32) 1)) true false,
    .advance 0 false, .advance 0 false, .advance 1 false, .advance 1 false, .advance 0 false,
    .advance 1 false], rfl⟩ fun thread => by
      rcases Fin.exists_fin_two.mp ⟨thread, rfl⟩ with rfl | rfl <;> rfl
  revert zero
  decide

/-- A kernel with one thread for each block, enqueued by both threads of a team, runs to its
end. -/
theorem balanced_oneKernel :
    ∃ queue : Queue (Fin 2), Reachable step {} queue ∧ queue.left = 0 ∧
      (queue.numCollectiveTasksExecuted = 0 ↔ 2 ^ 32 ∣ queue.left) ∧
      ∀ thread operation, (∃ next, run step queue
          [.call thread operation false false, .advance thread false] = some next) ↔
        2 ^ 32 ∣ queue.left := by
  have reachable : Reachable step ({} : Queue (Fin 2)) _ :=
    ⟨[.call 0 (.threadSpecKernel (![1] : Vec (BitVec 32) 1)) true true,
      .call 1 (.threadSpecKernel (![1] : Vec (BitVec 32) 1)) true false, .advance 0 false,
      .advance 0 false, .advance 1 false, .advance 1 false, .advance 0 false, .advance 1 false,
      .advance 0 false, .advance 1 false], rfl⟩
  refine ⟨_, reachable, rfl, balanced_iff reachable fun thread => ?_⟩
  rcases Fin.exists_fin_two.mp ⟨thread, rfl⟩ with rfl | rfl <;> rfl

end Alpaka.OmpCollective
