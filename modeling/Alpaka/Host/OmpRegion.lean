import Alpaka.Math.Interleaving
import Alpaka.Math.SharedSum
import Mathlib.Algebra.Order.BigOperators.Group.Finset
import Mathlib.Data.Fintype.EquivFin
import Mathlib.Data.Fintype.Lattice

/-! # Parallel regions on a collective queue

The threads of a parallel region call the operations of a collective queue collectively, that
is, all of them in the same order. For a single-thread task one of them is elected, and the
others go on, unless the task has a barrier at its end. In every order of steps everything is
executed at most once, what was enqueued before an operation with a barrier at its end is done
when a thread returns from this one, and the threads only stop when they have returned from
all operations and everything has been executed (`Alpaka.OmpRegion.region_sound`).
-/

namespace Alpaka.OmpRegion

open Math.Interleaving

/-- The operations: single-thread tasks without a barrier, with one in front, which are events
and deferred tasks, and with one at the end; waits for the queue; and kernels. -/
inductive Operation
  | invokeSingleNowait
  | barrierAndSingleNowait
  | invokeSingleAndWait
  | wait
  | kernel
  deriving DecidableEq

/-- Whether an operation has a barrier at its end. -/
def Operation.waits : Operation → Bool
  | .invokeSingleAndWait => true
  | .wait => true
  | _ => false

/-- Whether an operation has a barrier in front or at its end. -/
def Operation.hasBarrier (operation : Operation) : Bool :=
  operation.waits || operation = .barrierAndSingleNowait

/-- How far a thread is in an operation. At a kernel, all threads take part in the construct. A
thread that waits for the queue asks first whether it is empty, and submits a marker if not. -/
inductive Stage
  | fresh
  | barrier
  | waitUntilParentQueueIsEmpty
  | construct
  | elected
  | isQueueEmpty
  | submit
  | executing
  deriving DecidableEq

/-- Whether a thread is elected for a task that has not ended. -/
def Stage.isElected : Stage → Bool
  | .elected => true
  | .isQueueEmpty => true
  | .submit => true
  | .executing => true
  | _ => false

/-- The first stage of an operation. -/
def Operation.begin : Operation → Stage
  | .barrierAndSingleNowait => .barrier
  | .invokeSingleAndWait => .construct
  | .wait => .construct
  | _ => .waitUntilParentQueueIsEmpty

structure Point where
  operation : ℕ
  stage : Stage

/-- The threads, the tasks that a thread has been elected for, and the depth of the parent
queue. How often tasks and shares of kernels have been executed is kept as history; a deferred
task has been when the callback thread has got it. -/
structure Region (Thread : Type*) where
  points : Thread → Point := fun _ => ⟨0, .fresh⟩
  claimed : Finset ℕ := ∅
  blockingTaskExecutionDepth : ℕ := 0
  executed : ℕ → ℕ := fun _ => 0
  shares : Thread → ℕ → ℕ := fun _ _ => 0

variable {Thread : Type*}

section Steps

variable (operations : List Operation)

/-- The number of barriers that a thread has entered. -/
def Point.entered (point : Point) : ℕ :=
  (operations.take point.operation).countP Operation.hasBarrier +
    match operations[point.operation]? with
    | some .barrierAndSingleNowait => if point.stage = .fresh then 0 else 1
    | some operation => if operation.waits ∧ point.stage = .barrier then 1 else 0
    | none => 0

/-- A barrier lets a thread through. -/
def Region.Released (region : Region Thread) (thread : Thread) : Prop :=
  ∀ other, (region.points thread).entered operations ≤ (region.points other).entered operations

instance instDecidableReleased [Fintype Thread] (region : Region Thread) (thread : Thread) :
    Decidable (region.Released operations thread) :=
  inferInstanceAs (Decidable (∀ _, _))

variable [DecidableEq Thread]

def Region.goTo (region : Region Thread) (thread : Thread) (stage : Stage) : Region Thread :=
  { region with
    points := Function.update region.points thread ⟨(region.points thread).operation, stage⟩ }

/-- A thread returns from an operation. -/
def Region.next (region : Region Thread) (thread : Thread) : Region Thread :=
  { region with
    points := Function.update region.points thread
      ⟨(region.points thread).operation + 1, .fresh⟩ }

/-- What follows a single construct. -/
def Region.leave (region : Region Thread) (operation : Operation) (thread : Thread) :
    Region Thread :=
  if operation.waits then region.goTo thread .barrier else region.next thread

/-- What a thread has been elected for is done. -/
def Region.execute (region : Region Thread) (operation : Operation) (thread : Thread) :
    Region Thread :=
  { region with
    executed := Function.update region.executed (region.points thread).operation
      (region.executed (region.points thread).operation + 1) }.leave operation thread

/-- The parent queue begins with a task if its mutex is free. -/
def Region.submit (region : Region Thread) (thread : Thread) : Option (Region Thread) :=
  if region.blockingTaskExecutionDepth = 0 then
    some ({ region with
      blockingTaskExecutionDepth := region.blockingTaskExecutionDepth + 1 }.goTo thread .executing)
  else none

/-- The next step of a thread, if it has not returned from all operations and nothing holds it
up. Tasks are submitted to the parent queue, which executes one after the other. -/
def step [Fintype Thread] (region : Region Thread) (thread : Thread) : Option (Region Thread) :=
  let current := (region.points thread).operation
  operations[current]?.bind fun operation =>
    match (region.points thread).stage with
    | .fresh => some (region.goTo thread operation.begin)
    | .barrier =>
        if region.Released operations thread then
          some (if operation.waits then region.next thread
            else region.goTo thread .waitUntilParentQueueIsEmpty)
        else none
    | .waitUntilParentQueueIsEmpty =>
        if region.blockingTaskExecutionDepth = 0 then some (region.goTo thread .construct)
        else none
    | .construct =>
        -- of a single construct the first thread is elected
        if operation = .kernel then
          some ({ region with
            shares := Function.update region.shares thread
              (Function.update (region.shares thread) current
                (region.shares thread current + 1)) }.next thread)
        else if current ∈ region.claimed then some (region.leave operation thread)
        else some ({ region with claimed := insert current region.claimed }.goTo thread .elected)
    | .elected =>
        -- the parent queue is empty and its mutex is free
        match operation with
        | .barrierAndSingleNowait =>
            -- the callback thread gets it under the mutex, and the depth stays as it is
            if region.blockingTaskExecutionDepth = 0 then some (region.execute operation thread)
            else none
        | .wait =>
            if region.blockingTaskExecutionDepth = 0 then some (region.goTo thread .isQueueEmpty)
            else none
        | _ => region.submit thread
    | .isQueueEmpty =>
        -- somebody else may have submitted a task by now
        if region.blockingTaskExecutionDepth = 0 then some (region.execute operation thread)
        else some (region.goTo thread .submit)
    | .submit => region.submit thread
    | .executing =>
        some ({ region with
          blockingTaskExecutionDepth := region.blockingTaskExecutionDepth - 1 }.execute operation
            thread)

end Steps

/-- Everything of an operation has been executed, and that once. -/
def Region.Complete (region : Region Thread) (k : ℕ) (operation : Operation) : Prop :=
  if operation = .kernel then ∀ thread, region.shares thread k = 1 else region.executed k = 1

/-! ## What holds in every order of steps -/

/-- A thread has entered the barriers up to its operation at most. -/
private theorem Point.entered_le (operations : List Operation) (point : Point) :
    point.entered operations ≤
      (operations.take (point.operation + 1)).countP Operation.hasBarrier := by
  unfold Point.entered
  rw [List.take_add_one, List.countP_append]
  refine Nat.add_le_add_left ?_ _
  cases operations[point.operation]? with
  | none => exact le_rfl
  | some operation =>
      cases operation with
      | invokeSingleNowait => exact Nat.zero_le _
      | kernel => exact Nat.zero_le _
      | barrierAndSingleNowait =>
          dsimp only
          split
          · exact Nat.zero_le _
          · exact le_rfl
      | invokeSingleAndWait =>
          dsimp only
          split
          · exact le_rfl
          · exact Nat.zero_le _
      | wait =>
          dsimp only
          split
          · exact le_rfl
          · exact Nat.zero_le _

/-- Whether a thread is elected for a task. -/
def Point.executes (k : ℕ) (point : Point) : ℕ :=
  if point.operation = k ∧ point.stage.isElected then 1 else 0

/-- Whether the parent queue executes the task of a thread. -/
def Point.executing (point : Point) : ℕ := if point.stage = .executing then 1 else 0

/-- A thread is through with an operation, up to the barrier at its end. -/
def Point.Past (k : ℕ) (operation : Operation) (point : Point) : Prop :=
  k < point.operation ∨
    k = point.operation ∧ point.stage = .barrier ∧ operation.waits

/-- What holds at any time: a task that a thread was elected for is executed once or has this
thread, and the threads that have returned from a barrier had waited for the others. -/
structure Region.Sound [Fintype Thread] (operations : List Operation) (region : Region Thread) :
    Prop where
  bounded : ∀ t, (region.points t).operation ≤ operations.length
  count : ∀ k, region.executed k + ∑ t, (region.points t).executes k =
    if k ∈ region.claimed then 1 else 0
  depth : region.blockingTaskExecutionDepth = ∑ t, (region.points t).executing
  depth_le : region.blockingTaskExecutionDepth ≤ 1
  single : ∀ k ∈ region.claimed, ∃ operation,
    operations[k]? = some operation ∧ operation ≠ .kernel
  claimed : ∀ t k operation, operations[k]? = some operation → operation ≠ .kernel →
    (region.points t).Past k operation → k ∈ region.claimed
  shares : ∀ t k, region.shares t k =
    if operations[k]? = some .kernel ∧ k < (region.points t).operation then 1 else 0
  waited : ∀ t k operation, operations[k]? = some operation → operation.waits →
    k < (region.points t).operation → ∀ other, (region.points other).Past k operation

namespace Region.Sound

variable [Fintype Thread] {operations : List Operation} {region next : Region Thread} {t : Thread}

theorem start (operations : List Operation) : ({} : Region Thread).Sound operations where
  bounded := fun _ => Nat.zero_le _
  count := fun k => by simp [Point.executes, Stage.isElected]
  depth := by simp [Point.executing]
  depth_le := Nat.zero_le 1
  single := fun k member => absurd member (Finset.notMem_empty k)
  claimed := fun _ k _ _ _ past => by simp [Point.Past] at past
  shares := fun _ k => by simp
  waited := fun _ k _ _ _ past => absurd past (Nat.not_lt_zero k)

variable [DecidableEq Thread]

/-- A step changes the point of a thread and what depends on it. -/
private theorem update (sound : region.Sound operations) {point : Point} {claimed : Finset ℕ}
    {depth : ℕ} {executed : ℕ → ℕ} {shares : Thread → ℕ → ℕ}
    (bounded : point.operation ≤ operations.length)
    (count : ∀ k, executed k + point.executes k + (if k ∈ region.claimed then 1 else 0) =
      region.executed k + (region.points t).executes k + if k ∈ claimed then 1 else 0)
    (balance : depth + (region.points t).executing =
      region.blockingTaskExecutionDepth + point.executing) (depth_le : depth ≤ 1)
    (grows : region.claimed ⊆ claimed)
    (single : ∀ k ∈ claimed, ∃ operation,
      operations[k]? = some operation ∧ operation ≠ .kernel)
    (past : ∀ k operation, operations[k]? = some operation → operation ≠ .kernel →
      point.Past k operation → k ∈ claimed)
    (own : ∀ k, shares t k =
      if operations[k]? = some .kernel ∧ k < point.operation then 1 else 0)
    (others : ∀ j ≠ t, shares j = region.shares j)
    (kept : ∀ k operation, operations[k]? = some operation → operation.waits →
      (region.points t).Past k operation → point.Past k operation)
    (waited : ∀ k operation, operations[k]? = some operation → operation.waits →
      k < point.operation → ∀ other, (region.points other).Past k operation) :
    (⟨Function.update region.points t point, claimed, depth, executed, shares⟩ :
      Region Thread).Sound operations := by
  have keeps (k : ℕ) (operation : Operation) (valid : operations[k]? = some operation)
      (waits : operation.waits) (other : Thread)
      (before : (region.points other).Past k operation) :
      (Function.update region.points t point other).Past k operation := by
    by_cases same : other = t
    · subst same
      rw [Function.update_self]
      exact kept k operation valid waits before
    · rwa [Function.update_of_ne same]
  refine ⟨fun j => ?_, fun k => ?_, ?_, depth_le, single, fun j k operation at' task behind => ?_,
    fun j k => ?_, fun j k operation valid waits behind other => ?_⟩
  · change (Function.update region.points t point j).operation ≤ _
    by_cases same : j = t
    · subst same
      rwa [Function.update_self]
    · rw [Function.update_of_ne same]
      exact sound.bounded j
  · have sums := Math.sum_update_add (Point.executes k) region.points t point
    have before := sound.count k
    have change := count k
    change executed k + ∑ j, (Function.update region.points t point j).executes k =
      if k ∈ claimed then 1 else 0
    omega
  · have sums := Math.sum_update_add Point.executing region.points t point
    have before := sound.depth
    change depth = ∑ j, (Function.update region.points t point j).executing
    omega
  · change (Function.update region.points t point j).Past k operation at behind
    by_cases same : j = t
    · subst same
      rw [Function.update_self] at behind
      exact past k operation at' task behind
    · rw [Function.update_of_ne same] at behind
      exact grows (sound.claimed j k operation at' task behind)
  · by_cases same : j = t
    · subst same
      simpa only [Function.update_self] using own k
    · simpa only [Function.update_of_ne same, others j same] using sound.shares j k
  · change k < (Function.update region.points t point j).operation at behind
    refine keeps k operation valid waits other ?_
    by_cases same : j = t
    · subst same
      rw [Function.update_self] at behind
      exact waited k operation valid waits behind other
    · rw [Function.update_of_ne same] at behind
      exact sound.waited j k operation valid waits behind other

omit [Fintype Thread] [DecidableEq Thread] in
private theorem executing_of_not_elected {point : Point} (idle : point.stage.isElected = false) :
    point.executing = 0 := by
  refine if_neg fun stage => ?_
  rw [stage] at idle
  cases idle

omit [Fintype Thread] [DecidableEq Thread] in
private theorem executes_of_not_elected {point : Point} (idle : point.stage.isElected = false)
    (k : ℕ) : point.executes k = 0 := by
  refine if_neg fun both => ?_
  rw [idle] at both
  cases both.2

/-- A step within an operation of a thread that is not elected. -/
private theorem goTo (sound : region.Sound operations) {stage : Stage}
    (before : (region.points t).stage.isElected = false) (after : stage.isElected = false)
    (inside : (region.points t).stage = .barrier → ∀ operation,
      operations[(region.points t).operation]? = some operation → operation.waits = false)
    (claimed : stage = .barrier → ∀ operation,
      operations[(region.points t).operation]? = some operation → operation.waits →
        (region.points t).operation ∈ region.claimed) :
    (region.goTo t stage).Sound operations := by
  refine sound.update (sound.bounded t) (fun k => ?_) ?_ sound.depth_le subset_rfl sound.single
    (fun k operation valid task past => ?_) (sound.shares t) (fun _ _ => rfl)
    (fun k operation valid waits past => ?_) (sound.waited t)
  · rw [executes_of_not_elected before, executes_of_not_elected after]
  · rw [executing_of_not_elected before, executing_of_not_elected after]
  · rcases past with earlier | ⟨rfl, barrier, waits⟩
    · exact sound.claimed t k operation valid task (.inl earlier)
    · exact claimed barrier operation valid waits
  · rcases past with earlier | ⟨rfl, barrier, -⟩
    · exact .inl earlier
    · rw [inside barrier operation valid] at waits
      cases waits

/-- A thread that is not elected returns from an operation. -/
private theorem goNext (sound : region.Sound operations) {operation : Operation}
    {shares : Thread → ℕ → ℕ} (before : (region.points t).stage.isElected = false)
    (valid : operations[(region.points t).operation]? = some operation)
    (claimed : operation ≠ .kernel → (region.points t).operation ∈ region.claimed)
    (own : ∀ k, shares t k =
      if operations[k]? = some .kernel ∧ k < (region.points t).operation + 1 then 1 else 0)
    (others : ∀ j ≠ t, shares j = region.shares j)
    (waited : operation.waits → ∀ other,
      (region.points other).Past (region.points t).operation operation) :
    ({ region with shares := shares }.next t).Sound operations := by
  refine sound.update (List.getElem?_eq_some_iff.mp valid).1 (fun k => ?_) ?_ sound.depth_le
    subset_rfl sound.single (fun k operation' valid' task past => ?_) own others
    (fun k operation' valid' waits past => ?_) fun k operation' valid' waits past => ?_
  · rw [executes_of_not_elected before, executes_of_not_elected rfl]
  · rw [executing_of_not_elected before, executing_of_not_elected rfl]
  · rcases past with earlier | ⟨-, barrier, -⟩
    · rcases (Nat.lt_succ_iff.mp earlier).lt_or_eq with earlier | rfl
      · exact sound.claimed t k operation' valid' task (.inl earlier)
      · obtain rfl := Option.some.inj (valid.symm.trans valid')
        exact claimed task
    · cases barrier
  · rcases past with earlier | ⟨rfl, -, -⟩
    · exact .inl (Nat.lt_succ_of_lt earlier)
    · exact .inl (Nat.lt_succ_self _)
  · rcases (Nat.lt_succ_iff.mp past).lt_or_eq with earlier | rfl
    · exact sound.waited t k operation' valid' waits earlier
    · obtain rfl := Option.some.inj (valid.symm.trans valid')
      exact waited waits

/-- The first thread at a single construct is elected. -/
private theorem claim (sound : region.Sound operations) {operation : Operation}
    (stage : (region.points t).stage = .construct)
    (valid : operations[(region.points t).operation]? = some operation)
    (task : operation ≠ .kernel) (free : (region.points t).operation ∉ region.claimed) :
    ({ region with
      claimed := insert (region.points t).operation region.claimed }.goTo t .elected).Sound
        operations := by
  refine sound.update (sound.bounded t) (fun k => ?_) ?_ sound.depth_le
    (Finset.subset_insert _ _) (fun k member => ?_) (fun k operation' valid' task past => ?_)
    (sound.shares t) (fun _ _ => rfl) (fun k operation' valid' waits past => ?_) (sound.waited t)
  · by_cases same : k = (region.points t).operation
    · subst same
      simp [Point.executes, Stage.isElected, stage, free]
    · simp [Point.executes, Stage.isElected, stage, same, Ne.symm same]
  · simp [Point.executing, stage]
  · rcases Finset.mem_insert.mp member with rfl | earlier
    · exact ⟨operation, valid, task⟩
    · exact sound.single k earlier
  · rcases past with earlier | ⟨-, barrier, -⟩
    · exact Finset.mem_insert_of_mem (sound.claimed t k operation' valid' task (.inl earlier))
    · cases barrier
  · rcases past with earlier | ⟨-, barrier, -⟩
    · exact .inl earlier
    · rw [stage] at barrier
      cases barrier

/-- A thread that is elected goes on with its task, which the parent queue may begin with. -/
private theorem goOn (sound : region.Sound operations) {stage : Stage} {depth : ℕ}
    (before : (region.points t).stage.isElected) (after : stage.isElected)
    (balance : depth + (region.points t).executing = region.blockingTaskExecutionDepth +
      Point.executing ⟨(region.points t).operation, stage⟩) (depth_le : depth ≤ 1) :
    ({ region with blockingTaskExecutionDepth := depth }.goTo t stage).Sound operations := by
  have different {other : Stage} (elected : other.isElected) : other ≠ .barrier := by
    rintro rfl
    cases elected
  refine sound.update (sound.bounded t) (fun k => ?_) balance depth_le subset_rfl
    sound.single (fun k operation' valid' task past => ?_) (sound.shares t) (fun _ _ => rfl)
    (fun k operation' valid' waits past => ?_) (sound.waited t)
  · simp only [Point.executes, before, after]
  · rcases past with earlier | ⟨-, barrier, -⟩
    · exact sound.claimed t k operation' valid' task (.inl earlier)
    · exact absurd barrier (different after)
  · rcases past with earlier | ⟨-, barrier, -⟩
    · exact .inl earlier
    · exact absurd barrier (different before)

/-- The parent queue begins with the task. -/
private theorem submit (sound : region.Sound operations)
    (stage : (region.points t).stage.isElected) (waiting : (region.points t).stage ≠ .executing)
    (submitted : region.submit t = some next) : next.Sound operations := by
  obtain ⟨empty, taken⟩ := Option.ite_none_right_eq_some.mp submitted
  obtain rfl := Option.some.inj taken
  refine sound.goOn stage rfl ?_ (Nat.succ_le_succ empty.le)
  simp [Point.executing, waiting]

omit [DecidableEq Thread] in
/-- The task of a thread that is elected has been claimed and not been executed. -/
private theorem claimed_of_elected (sound : region.Sound operations)
    (elected : (region.points t).stage.isElected) :
    (region.points t).operation ∈ region.claimed := by
  by_contra free
  have count := sound.count (region.points t).operation
  have own : (region.points t).executes (region.points t).operation = 1 := if_pos ⟨rfl, elected⟩
  have least := Finset.single_le_sum
    (fun j _ => Nat.zero_le ((region.points j).executes (region.points t).operation))
    (Finset.mem_univ t)
  rw [if_neg free] at count
  omega

omit [DecidableEq Thread] in
/-- A thread that returns from a single-thread task has the same shares in kernels. -/
private theorem shares_succ (sound : region.Sound operations) {operation : Operation}
    (valid : operations[(region.points t).operation]? = some operation)
    (task : operation ≠ .kernel) (k : ℕ) : region.shares t k =
      if operations[k]? = some .kernel ∧ k < (region.points t).operation + 1 then 1 else 0 := by
  rw [sound.shares t k]
  congr 1
  refine propext (and_congr_right fun kernel => ?_)
  have different : k ≠ (region.points t).operation := by
    rintro rfl
    exact task (Option.some.inj (valid.symm.trans kernel))
  omega

/-- A thread leaves the task that it has executed. -/
private theorem executed (sound : region.Sound operations) {point : Point} {depth : ℕ}
    (elected : (region.points t).stage.isElected) (idle : point.stage.isElected = false)
    (balance : depth + (region.points t).executing = region.blockingTaskExecutionDepth)
    (bounded : point.operation ≤ operations.length)
    (past : ∀ k operation, operations[k]? = some operation → operation ≠ .kernel →
      point.Past k operation → k ∈ region.claimed)
    (own : ∀ k, region.shares t k =
      if operations[k]? = some .kernel ∧ k < point.operation then 1 else 0)
    (later : (region.points t).operation ≤ point.operation)
    (waited : ∀ k operation, operations[k]? = some operation → operation.waits →
      k < point.operation → ∀ other, (region.points other).Past k operation) :
    ({ region with
      points := Function.update region.points t point
      blockingTaskExecutionDepth := depth
      executed := Function.update region.executed (region.points t).operation
        (region.executed (region.points t).operation + 1) } : Region Thread).Sound
          operations := by
  have less : depth ≤ 1 := (Nat.le_add_right _ _).trans (balance.trans_le sound.depth_le)
  refine sound.update bounded (fun k => ?_) ?_ less subset_rfl sound.single past own
    (fun _ _ => rfl) (fun k operation _ _ before => ?_) waited
  · have once : Function.update region.executed (region.points t).operation
        (region.executed (region.points t).operation + 1) k =
          region.executed k + (region.points t).executes k := by
      by_cases same : k = (region.points t).operation
      · subst same
        rw [Function.update_self, show (region.points t).executes (region.points t).operation = 1
          from if_pos ⟨rfl, elected⟩]
      · rw [Function.update_of_ne same, show (region.points t).executes k = 0
          from if_neg fun both => same both.1.symm, Nat.add_zero]
    rw [executes_of_not_elected idle, once, Nat.add_zero]
  · rw [executing_of_not_elected idle]
    exact balance
  · rcases before with earlier | ⟨-, barrier, -⟩
    · exact .inl (earlier.trans_le later)
    · rw [barrier] at elected
      cases elected

/-- The task has been executed. -/
private theorem execute (sound : region.Sound operations) {operation : Operation} {depth : ℕ}
    (elected : (region.points t).stage.isElected)
    (valid : operations[(region.points t).operation]? = some operation)
    (balance : depth + (region.points t).executing = region.blockingTaskExecutionDepth) :
    ({ region with blockingTaskExecutionDepth := depth }.execute operation t).Sound
      operations := by
  have member := sound.claimed_of_elected elected
  obtain ⟨operation', valid', task⟩ := sound.single _ member
  obtain rfl := Option.some.inj (valid'.symm.trans valid)
  unfold Region.execute leave
  split
  · refine sound.executed elected rfl balance (sound.bounded t)
      (fun k operation valid task past => ?_) (sound.shares t) le_rfl (sound.waited t)
    rcases past with earlier | ⟨rfl, -, -⟩
    · exact sound.claimed t k operation valid task (.inl earlier)
    · exact member
  · rename_i nowait
    refine sound.executed elected rfl balance (List.getElem?_eq_some_iff.mp valid).1
      (fun k operation valid task past => ?_) (sound.shares_succ valid task) (Nat.le_succ _)
      fun k operation' valid' waits past => ?_
    · rcases past with earlier | ⟨-, barrier, -⟩
      · rcases (Nat.lt_succ_iff.mp earlier).lt_or_eq with earlier | rfl
        · exact sound.claimed t k operation valid task (.inl earlier)
        · exact member
      · cases barrier
    · rcases (Nat.lt_succ_iff.mp past).lt_or_eq with earlier | rfl
      · exact sound.waited t k operation' valid' waits earlier
      · obtain rfl := Option.some.inj (valid.symm.trans valid')
        exact absurd waits nowait

/-- Somebody else is elected, or the task has been executed. -/
private theorem skip (sound : region.Sound operations) {operation : Operation}
    (stage : (region.points t).stage = .construct)
    (valid : operations[(region.points t).operation]? = some operation)
    (task : operation ≠ .kernel) (member : (region.points t).operation ∈ region.claimed) :
    (region.leave operation t).Sound operations := by
  unfold leave
  split
  · exact sound.goTo (stage ▸ rfl) rfl (by simp [stage]) fun _ _ _ _ => member
  · rename_i nowait
    exact sound.goNext (stage ▸ rfl) valid (fun _ => member) (sound.shares_succ valid task)
      (fun _ _ => rfl) fun waits => absurd waits nowait

/-- A thread takes its part in a kernel. -/
private theorem share (sound : region.Sound operations)
    (stage : (region.points t).stage = .construct)
    (valid : operations[(region.points t).operation]? = some .kernel) :
    ({ region with
      shares := Function.update region.shares t (Function.update (region.shares t)
        (region.points t).operation (region.shares t (region.points t).operation + 1)) }.next
          t).Sound operations := by
  refine sound.goNext (stage ▸ rfl) valid (fun task => absurd rfl task) (fun k => ?_)
    (fun j different => Function.update_of_ne different _ _) fun waits => by cases waits
  rw [Function.update_self]
  by_cases same : k = (region.points t).operation
  · subst same
    rw [Function.update_self, sound.shares t, if_neg fun both => lt_irrefl _ both.2,
      if_pos ⟨valid, Nat.lt_succ_self _⟩]
  · rw [Function.update_of_ne same, sound.shares t k]
    congr 1
    exact propext (and_congr_right fun _ => by omega)

omit [Fintype Thread] [DecidableEq Thread] in
/-- At an operation with a barrier at its end, a thread has entered this one when it waits there. -/
private theorem entered_of_waits {operation : Operation} {point : Point}
    (valid : operations[point.operation]? = some operation) (waits : operation.waits) :
    point.entered operations = (operations.take point.operation).countP Operation.hasBarrier +
      if point.stage = .barrier then 1 else 0 := by
  unfold Point.entered
  rw [valid]
  cases operation with
  | invokeSingleAndWait => simp [Operation.waits]
  | wait => simp [Operation.waits]
  | _ => cases waits

omit [Fintype Thread] [DecidableEq Thread] in
/-- The barrier at the end of an operation lets a thread through when all have come to it. -/
private theorem past_of_released (released : region.Released operations t) {operation : Operation}
    (stage : (region.points t).stage = .barrier)
    (valid : operations[(region.points t).operation]? = some operation)
    (waits : operation.waits) (other : Thread) :
    (region.points other).Past (region.points t).operation operation := by
  have entered := released other
  rw [entered_of_waits valid waits, if_pos stage] at entered
  by_contra notPast
  obtain ⟨notBehind, notThere⟩ := not_or.mp notPast
  rcases (not_lt.mp notBehind).lt_or_eq with earlier | same
  · have less := ((region.points other).entered_le operations).trans
      (List.take_sublist_take_left earlier).countP_le
    omega
  · have inside : (region.points other).stage ≠ .barrier := fun barrier =>
      notThere ⟨same.symm, barrier, waits⟩
    rw [← same] at valid entered
    rw [entered_of_waits valid waits, if_neg inside] at entered
    omega

omit [Fintype Thread] [DecidableEq Thread] in
private theorem begin_of_waits {operation : Operation} (waits : operation.waits) :
    operation.begin = .construct := by
  cases operation with
  | invokeSingleAndWait => rfl
  | wait => rfl
  | _ => cases waits

/-- A task that the thread has been elected for begins, or has been executed at once. -/
private theorem begin (sound : region.Sound operations) {operation : Operation}
    (stage : (region.points t).stage = .elected)
    (valid : operations[(region.points t).operation]? = some operation)
    (stepped : OmpRegion.step operations region t = some next) : next.Sound operations := by
  have elected : (region.points t).stage.isElected := stage ▸ rfl
  have waiting : (region.points t).stage ≠ .executing := by simp [stage]
  have idle : (region.points t).executing = 0 := if_neg waiting
  simp only [OmpRegion.step, valid, Option.bind_some, stage] at stepped
  cases operation with
  | barrierAndSingleNowait =>
      obtain ⟨-, taken⟩ := Option.ite_none_right_eq_some.mp stepped
      obtain rfl := Option.some.inj taken
      exact sound.execute elected valid (by rw [idle, Nat.add_zero])
  | wait =>
      obtain ⟨-, taken⟩ := Option.ite_none_right_eq_some.mp stepped
      obtain rfl := Option.some.inj taken
      exact sound.goOn elected rfl (by rw [idle]; rfl) sound.depth_le
  | _ => exact sound.submit elected waiting stepped

/-- A step keeps what holds at any time. -/
theorem step (sound : region.Sound operations)
    (stepped : OmpRegion.step operations region t = some next) : next.Sound operations := by
  have whole := stepped
  obtain ⟨operation, valid, stepped⟩ := Option.bind_eq_some_iff.mp stepped
  cases stage : (region.points t).stage with
  | fresh =>
      simp only [stage, Option.some.injEq] at stepped
      rw [← stepped]
      refine sound.goTo (stage ▸ rfl) ?_ (by simp [stage]) fun barrier operation' valid' waits => ?_
      · cases operation <;> rfl
      · obtain rfl := Option.some.inj (valid.symm.trans valid')
        rw [begin_of_waits waits] at barrier
        cases barrier
  | barrier =>
      simp only [stage] at stepped
      obtain ⟨released, taken⟩ := Option.ite_none_right_eq_some.mp stepped
      obtain rfl := Option.some.inj taken
      split
      · rename_i waits
        have task : operation ≠ .kernel := by
          rintro rfl
          cases waits
        exact sound.goNext (stage ▸ rfl) valid
          (fun task => sound.claimed t _ _ valid task (.inr ⟨rfl, stage, waits⟩))
          (sound.shares_succ valid task) (fun _ _ => rfl)
          fun _ => past_of_released released stage valid waits
      · rename_i nowait
        refine sound.goTo (stage ▸ rfl) rfl (fun _ operation' valid' => ?_) (by simp)
        obtain rfl := Option.some.inj (valid.symm.trans valid')
        exact Bool.eq_false_iff.mpr nowait
  | waitUntilParentQueueIsEmpty =>
      simp only [stage] at stepped
      obtain ⟨-, taken⟩ := Option.ite_none_right_eq_some.mp stepped
      obtain rfl := Option.some.inj taken
      exact sound.goTo (stage ▸ rfl) rfl (by simp [stage]) (by simp)
  | construct =>
      simp only [stage] at stepped
      split at stepped
      · rename_i kernel
        subst kernel
        obtain rfl := Option.some.inj stepped
        exact sound.share stage valid
      · rename_i task
        split at stepped
        · rename_i member
          obtain rfl := Option.some.inj stepped
          exact sound.skip stage valid task member
        · rename_i free
          obtain rfl := Option.some.inj stepped
          exact sound.claim stage valid task free
  | elected => exact sound.begin stage valid whole
  | isQueueEmpty =>
      simp only [stage] at stepped
      have idle : (region.points t).executing = 0 := if_neg (by simp [stage])
      split at stepped
      · obtain rfl := Option.some.inj stepped
        exact sound.execute (stage ▸ rfl) valid (by rw [idle, Nat.add_zero])
      · obtain rfl := Option.some.inj stepped
        exact sound.goOn (stage ▸ rfl) rfl (by rw [idle]; rfl) sound.depth_le
  | submit =>
      simp only [stage] at stepped
      exact sound.submit (stage ▸ rfl) (by simp [stage]) stepped
  | executing =>
      simp only [stage, Option.some.injEq] at stepped
      rw [← stepped]
      have busy : (region.points t).executing = 1 := if_pos stage
      have least := Finset.single_le_sum (fun j _ => Nat.zero_le (region.points j).executing)
        (Finset.mem_univ t)
      have depth := sound.depth
      refine sound.execute (stage ▸ rfl) valid ?_
      omega

/-- What holds at any time holds of every region that can be reached. -/
theorem of_reachable (reachable : Reachable (OmpRegion.step operations) {} region) :
    region.Sound operations :=
  reachable.induction (start operations) fun _ _ _ sound stepped => sound.step stepped

/-! ## What has been executed -/

omit [DecidableEq Thread] in
/-- An operation that all threads are through with has been executed. -/
theorem complete (sound : region.Sound operations) {k : ℕ} {operation : Operation}
    (valid : operations[k]? = some operation)
    (claimed : operation ≠ .kernel → k ∈ region.claimed)
    (past : ∀ other, (region.points other).Past k operation) : region.Complete k operation := by
  unfold Complete
  split
  · rename_i kernel
    subst kernel
    intro thread
    rw [sound.shares thread k]
    rcases past thread with earlier | ⟨-, -, waits⟩
    · exact if_pos ⟨valid, earlier⟩
    · cases waits
  · rename_i task
    have none (other : Thread) : (region.points other).executes k = 0 := by
      refine if_neg ?_
      rintro ⟨rfl, elected⟩
      rcases past other with earlier | ⟨-, barrier, -⟩
      · exact lt_irrefl _ earlier
      · rw [barrier] at elected
        cases elected
    have count := sound.count k
    rwa [Finset.sum_eq_zero fun other _ => none other, if_pos (claimed task)] at count

/-! ## Progress -/

omit [DecidableEq Thread] in
private theorem executing_of_depth (sound : region.Sound operations)
    (busy : region.blockingTaskExecutionDepth ≠ 0) :
    ∃ j, (region.points j).stage = .executing := by
  rw [sound.depth] at busy
  obtain ⟨j, -, executing⟩ := Finset.exists_ne_zero_of_sum_ne_zero busy
  exact ⟨j, (ite_ne_right_iff.mp executing).1⟩

/-- When no thread can go on, those that have operations left are held up by barriers. -/
private theorem barrier_of_stuck (sound : region.Sound operations)
    (stuck : ∀ j, OmpRegion.step operations region j = none)
    (more : (region.points t).operation < operations.length) :
    ¬region.Released operations t := by
  have empty : region.blockingTaskExecutionDepth = 0 := by
    by_contra busy
    obtain ⟨j, stage⟩ := sound.executing_of_depth busy
    have elected : (region.points j).stage.isElected := stage ▸ rfl
    obtain ⟨operation, valid, -⟩ := sound.single _ (sound.claimed_of_elected elected)
    have step := stuck j
    simp [OmpRegion.step, valid, stage] at step
  have valid := List.getElem?_eq_getElem more
  have step := stuck t
  simp only [OmpRegion.step, valid, Option.bind_some] at step
  intro released
  cases stage : (region.points t).stage with
  | fresh => simp [stage] at step
  | barrier => simp [stage, released] at step
  | waitUntilParentQueueIsEmpty => simp [stage, empty] at step
  | construct =>
      simp only [stage] at step
      split at step
      · cases step
      · split at step
        · cases step
        · cases step
  | elected =>
      simp only [stage] at step
      split at step <;> simp [Region.submit, empty] at step
  | isQueueEmpty => simp [stage, empty] at step
  | submit => simp [stage, Region.submit, empty] at step
  | executing => simp [stage] at step

/-- Threads only stop when they have returned from all operations. -/
theorem finished (sound : region.Sound operations)
    (stuck : ∀ j, OmpRegion.step operations region j = none) (t : Thread) :
    (region.points t).operation = operations.length := by
  by_contra unfinished
  have more := lt_of_le_of_ne (sound.bounded t) unfinished
  have : Nonempty Thread := ⟨t⟩
  obtain ⟨j, least⟩ := Finite.exists_min fun j => (region.points j).entered operations
  by_cases ended : (region.points j).operation < operations.length
  · exact sound.barrier_of_stuck stuck ended least
  · -- nobody has entered more barriers than a thread that has returned from all operations
    refine sound.barrier_of_stuck stuck more fun other => le_trans ?_ (least other)
    have last : (region.points j).entered operations =
        operations.countP Operation.hasBarrier := by
      unfold Point.entered
      rw [List.take_of_length_le (not_lt.mp ended), List.getElem?_eq_none (not_lt.mp ended)]
      rfl
    rw [last]
    exact ((region.points t).entered_le operations).trans (List.take_sublist _ _).countP_le

end Region.Sound

/-! ## The length of runs -/

section Length

variable (operations : List Operation)

/-- What every step of a thread raises. -/
def Point.progress (point : Point) : ℕ :=
  9 * point.operation +
    match point.stage with
    | .fresh => 0
    | .barrier => if (operations[point.operation]?.map Operation.waits).getD false then 8 else 1
    | .waitUntilParentQueueIsEmpty => 2
    | .construct => 3
    | .elected => 4
    | .isQueueEmpty => 5
    | .submit => 6
    | .executing => 7

variable {operations} [Fintype Thread] [DecidableEq Thread] {region next : Region Thread}
  {t : Thread}

omit [Fintype Thread] in
private theorem Region.leave_points (region : Region Thread) {operation : Operation}
    (valid : operations[(region.points t).operation]? = some operation)
    (early : (region.points t).progress operations ≤ 9 * (region.points t).operation + 7) :
    ∃ point, (region.leave operation t).points = Function.update region.points t point ∧
      (region.points t).progress operations < point.progress operations := by
  unfold leave
  split
  · rename_i waits
    refine ⟨_, rfl, early.trans_lt ?_⟩
    simp [Point.progress, valid, waits]
  · refine ⟨_, rfl, early.trans_lt ?_⟩
    simp only [Point.progress]
    omega

omit [Fintype Thread] in
private theorem Region.submit_points {region : Region Thread}
    (submitted : region.submit t = some next)
    (early : (region.points t).progress operations ≤ 9 * (region.points t).operation + 6) :
    ∃ point, next.points = Function.update region.points t point ∧
      (region.points t).progress operations < point.progress operations := by
  obtain ⟨-, taken⟩ := Option.ite_none_right_eq_some.mp submitted
  obtain rfl := Option.some.inj taken
  refine ⟨_, rfl, early.trans_lt ?_⟩
  simp only [Point.progress]
  omega

/-- A step moves one thread, and forward. -/
private theorem step_points (stepped : step operations region t = some next) :
    ∃ point, next.points = Function.update region.points t point ∧
      (region.points t).progress operations < point.progress operations := by
  obtain ⟨operation, valid, stepped⟩ := Option.bind_eq_some_iff.mp stepped
  cases stage : (region.points t).stage with
  | fresh =>
      simp only [stage, Option.some.injEq] at stepped
      rw [← stepped]
      refine ⟨_, rfl, ?_⟩
      cases operation <;> simp [Point.progress, Operation.begin, Operation.waits, stage, valid]
  | barrier =>
      simp only [stage] at stepped
      obtain ⟨-, taken⟩ := Option.ite_none_right_eq_some.mp stepped
      obtain rfl := Option.some.inj taken
      split
      · refine ⟨_, rfl, ?_⟩
        simp only [Point.progress, stage]
        split <;> omega
      · rename_i nowait
        refine ⟨_, rfl, ?_⟩
        simp [Point.progress, stage, valid, nowait]
  | waitUntilParentQueueIsEmpty =>
      simp only [stage] at stepped
      obtain ⟨-, taken⟩ := Option.ite_none_right_eq_some.mp stepped
      obtain rfl := Option.some.inj taken
      exact ⟨_, rfl, by simp [Point.progress, stage]⟩
  | construct =>
      simp only [stage] at stepped
      split at stepped
      · obtain rfl := Option.some.inj stepped
        refine ⟨_, rfl, ?_⟩
        simp only [Point.progress, stage]
        omega
      · split at stepped
        · obtain rfl := Option.some.inj stepped
          exact region.leave_points valid (by simp [Point.progress, stage])
        · obtain rfl := Option.some.inj stepped
          exact ⟨_, rfl, by simp [Point.progress, stage]⟩
  | elected =>
      have early : (region.points t).progress operations ≤
          9 * (region.points t).operation + 6 := by simp [Point.progress, stage]
      simp only [stage] at stepped
      cases operation with
      | barrierAndSingleNowait =>
          obtain ⟨-, taken⟩ := Option.ite_none_right_eq_some.mp stepped
          obtain rfl := Option.some.inj taken
          exact Region.leave_points _ valid (early.trans (Nat.le_succ _))
      | wait =>
          obtain ⟨-, taken⟩ := Option.ite_none_right_eq_some.mp stepped
          obtain rfl := Option.some.inj taken
          exact ⟨_, rfl, by simp [Point.progress, stage]⟩
      | _ => exact Region.submit_points stepped early
  | isQueueEmpty =>
      simp only [stage] at stepped
      split at stepped
      · obtain rfl := Option.some.inj stepped
        exact Region.leave_points _ valid (by simp [Point.progress, stage])
      · obtain rfl := Option.some.inj stepped
        exact ⟨_, rfl, by simp [Point.progress, stage]⟩
  | submit =>
      simp only [stage] at stepped
      exact Region.submit_points stepped (by simp [Point.progress, stage])
  | executing =>
      simp only [stage, Option.some.injEq] at stepped
      rw [← stepped]
      exact Region.leave_points _ valid (by simp [Point.progress, stage])

private theorem progress_le {point : Point} (bounded : point.operation ≤ operations.length) :
    point.progress operations ≤ 9 * operations.length + 8 := by
  have stages : point.progress operations ≤ 9 * point.operation + 8 := by
    unfold Point.progress
    refine Nat.add_le_add_left ?_ _
    cases point.stage with
    | barrier =>
        dsimp only
        split <;> decide
    | _ => simp
  omega

/-- What every step raises. -/
def Region.progress (operations : List Operation) (region : Region Thread) : ℕ :=
  ∑ t, (region.points t).progress operations

private theorem progress_lt (stepped : step operations region t = some next) :
    region.progress operations < next.progress operations := by
  obtain ⟨point, moved, forward⟩ := step_points stepped
  have sums := Math.sum_update_add (Point.progress operations) region.points t point
  unfold Region.progress
  rw [moved]
  omega

/-- A run has at most a fixed number of steps for each operation and thread. -/
theorem run_length {actions : List Thread}
    (reached : run (step operations) {} actions = some region) :
    actions.length ≤ Fintype.card Thread * (9 * operations.length + 8) := by
  have grown : actions.length + ({} : Region Thread).progress operations ≤
      region.progress operations :=
    run_length_le (fun _ _ _ sound stepped => Region.Sound.step sound stepped)
      (fun _ _ _ _ stepped => progress_lt stepped) (Region.Sound.start operations) reached
  have sound := Region.Sound.of_reachable ⟨actions, reached⟩
  have most : region.progress operations ≤ Fintype.card Thread * (9 * operations.length + 8) :=
    Finset.sum_le_card_nsmul Finset.univ _ _ fun t _ => progress_le (sound.bounded t)
  omega

end Length

/-- **Parallel regions.** In every order of steps, nothing is executed twice. When a thread
returns from an operation with a barrier at its end, this operation and the earlier ones have
been executed. Runs are bounded, and threads only stop when they have returned from all
operations and everything has been executed. -/
theorem region_sound [Fintype Thread] [DecidableEq Thread] {operations : List Operation}
    {actions : List Thread} {region : Region Thread}
    (reached : run (step operations) {} actions = some region) :
    (∀ k, region.executed k ≤ 1 ∧ ∀ t, region.shares t k ≤ 1) ∧
      (∀ t k last, operations[k]? = some last → last.waits → k < (region.points t).operation →
        ∀ j ≤ k, ∀ operation, operations[j]? = some operation →
          region.Complete j operation) ∧
      actions.length ≤ Fintype.card Thread * (9 * operations.length + 8) ∧
      ((∀ t, step operations region t = none) →
        ∀ t, (region.points t).operation = operations.length ∧
          ∀ k operation, operations[k]? = some operation → region.Complete k operation) := by
  have sound := Region.Sound.of_reachable ⟨actions, reached⟩
  refine ⟨fun k => ⟨?_, fun t => ?_⟩, fun t k last ends waits returned j le operation valid => ?_,
    run_length reached, fun stuck t => ⟨sound.finished stuck t, fun k operation valid => ?_⟩⟩
  · have count := sound.count k
    split at count
    · omega
    · omega
  · rw [sound.shares t k]
    split
    · exact le_rfl
    · exact Nat.zero_le 1
  · refine sound.complete valid (fun task => ?_) fun other => ?_
    · exact sound.claimed t j operation valid task (.inl (le.trans_lt returned))
    · rcases sound.waited t k last ends waits returned other with earlier | ⟨there, barrier, -⟩
      · exact .inl (le.trans_lt earlier)
      · rcases le.lt_or_eq with before | rfl
        · exact .inl (before.trans_eq there)
        · obtain rfl := Option.some.inj (valid.symm.trans ends)
          exact .inr ⟨there, barrier, waits⟩
  · have inside := (List.getElem?_eq_some_iff.mp valid).1
    have past (other : Thread) : k < (region.points other).operation :=
      inside.trans_eq (sound.finished stuck other).symm
    exact sound.complete valid
      (fun task => sound.claimed t k operation valid task (.inl (past t)))
      fun other => .inl (past other)

/-- The second thread is elected for a task, and the first one has gone on to the kernel. -/
theorem region_sound_twoThreads : ∃ region : Region (Fin 2),
    region.Complete 0 .invokeSingleNowait ∧ region.Complete 1 .kernel ∧
      (region.points 0).operation = 3 := by
  obtain ⟨region, reached, returned⟩ : ∃ region,
      run (step [.invokeSingleNowait, .kernel, .invokeSingleAndWait]) {}
        ([1, 0, 0, 1, 1, 0, 0, 0, 0, 0, 1, 1, 1, 1, 1, 1, 0, 0, 0, 1, 0] : List (Fin 2)) =
          some region ∧
      (region.points 0).operation = 3 := ⟨_, rfl, by decide⟩
  obtain ⟨-, complete, -, -⟩ := region_sound reached
  have all := complete 0 2 _ rfl rfl (by omega)
  exact ⟨region, all 0 (by omega) _ rfl, all 1 (by omega) _ rfl, returned⟩

/-- Without a barrier a task can overtake the one before. -/
example : (run (step [.invokeSingleNowait, .invokeSingleNowait]) {}
    ([1, 0, 0, 1, 1, 0, 0, 0, 0, 0, 0] : List (Fin 2))).map (fun region =>
      (region.executed 0, region.executed 1)) = some (0, 1) := by
  decide

end Alpaka.OmpRegion
