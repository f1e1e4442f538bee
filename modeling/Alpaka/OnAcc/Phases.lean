import Alpaka.OnAcc.IdxMap

/-! # Threads between barriers

A kernel of one-dimensional thread blocks goes from barrier to barrier. In such a
phase every thread loops over its share of a range and runs the body of the loop for
each index; the threads come in any order. A phase settles, and what it does is to
run the body once for every index of the range (`Alpaka.Phase.run_settles`,
`Alpaka.Phase.elements_mem_iff`).
-/

namespace Alpaka

open Math (Settles Partitions)
open Math.Loop (Fault)

/-- How loops over index maps are shared out. -/
structure Policy where
  traverse : Traverse
  layout : Layout
  deriving DecidableEq

/-- The indices `first`, `first + step`, … below `stop` that a worker of a
one-dimensional group loops over. -/
def lineIdxs {T : Type} [Add T] [Sub T] [Mul T] [Div T] [Mod T] [LT T] [DecidableLT T] [LE T]
    [DecidableLE T] [OfNat T 0] [OfNat T 1] [DecidableEq T] (policy : Policy)
    (worker workers first stop step : T) (fuel : ℕ) : Except Fault (List T) := do
  let idxs ← (makeIdxMap ⟨![worker], ![workers]⟩ ⟨![first], ![stop], ![step]⟩ policy.traverse
    policy.layout).run fuel
  return idxs.map fun idx => idx 0

/-- The share of a worker. -/
def lineShare (policy : Policy) (worker workers first stop step : ℕ) : List ℕ :=
  (makeIdxMap ⟨![worker], ![workers]⟩ ⟨![first], ![stop], ![step]⟩ policy.traverse
    policy.layout).indices.map fun idx => idx 0

section Line

variable {worker workers first stop step : ℕ}

private theorem line_proper (ordered : first ≤ stop) (positive : 0 < step) :
    (⟨![first], ![stop], ![step]⟩ : IdxRange ℕ 1).Proper where
  ordered := fun d => by
    rw [Fin.fin_one_eq_zero d]
    exact ordered
  positive := fun d => by
    rw [Fin.fin_one_eq_zero d]
    exact positive

theorem line_member : ![worker] ∈ threadIdxs ![workers] ↔ worker < workers := by
  refine ⟨fun member => member 0, fun below d => ?_⟩
  rw [Fin.fin_one_eq_zero d]
  exact below

theorem line_positive (member : worker < workers) (d : Fin 1) : 0 < ![workers] d := by
  rw [Fin.fin_one_eq_zero d]
  exact Nat.zero_lt_of_lt member

theorem lineIdxs_settles (policy : Policy) (ordered : first ≤ stop) (positive : 0 < step)
    (member : worker < workers) :
    Settles (lineIdxs policy worker workers first stop step)
      (lineShare policy worker workers first stop step) :=
  ((IdxContainer.makeIdxMap_partitions (line_proper ordered positive) (line_positive member)
    policy.traverse policy.layout).1 _ (line_member.mpr member)).bind (Settles.pure _)

/-- The workers share out the range. -/
theorem lineShare_partitions (policy : Policy) (ordered : first ≤ stop) (positive : 0 < step)
    (several : 0 < workers) :
    Partitions {worker | worker < workers}
      (fun worker => lineShare policy worker workers first stop step)
      {x | ∃ count, x = first + count * step ∧ x < stop} := by
  have shared := (IdxContainer.makeIdxMap_partitions (line_proper ordered positive)
    (line_positive several) policy.traverse policy.layout).2
  have named : Set.BijOn (fun worker => (![worker] : Vec ℕ 1)) {worker | worker < workers}
      (threadIdxs ![workers]) := by
    refine ⟨fun worker member => line_member.mpr member, fun _ _ _ _ same => congrFun same 0,
      fun idx member => ⟨idx 0, member 0, ?_⟩⟩
    funext d
    rw [Fin.fin_one_eq_zero d]
    rfl
  have read : Set.BijOn (fun idx : Vec ℕ 1 => idx 0)
      (IdxRange.lattice ⟨![first], ![stop], ![step]⟩ (id : CSelect 1 1))
      {x | ∃ count, x = first + count * step ∧ x < stop} := by
    refine ⟨fun idx member => member.1 0, fun idx _ other _ same => ?_,
      fun x member => ⟨![x], ⟨fun d => ?_, fun d outside => absurd rfl (outside d)⟩, rfl⟩⟩
    · funext d
      rw [Fin.fin_one_eq_zero d]
      exact same
    · rw [Fin.fin_one_eq_zero d]
      exact member
  exact (shared.comp named).map read

/-- With as many workers as indices every worker has one. -/
theorem lineShare_single (policy : Policy) (positive : 0 < step) (member : worker < workers) :
    ∃ x, lineShare policy worker workers first (first + workers * step) step = [x] := by
  have even : (⟨![first], ![first + workers * step], ![step]⟩ : IdxRange ℕ 1).logicalExtent
      (id : CSelect 1 1) 0 = 1 * ![workers] 0 := by
    refine eq_of_forall_lt_iff fun count => ?_
    rw [IdxRange.lt_logicalExtent_iff (line_proper (Nat.le_add_right _ _) positive)]
    change first + count * step < first + workers * step ↔ count < 1 * workers
    rw [Nat.one_mul, Nat.add_lt_add_iff_left, Nat.mul_lt_mul_right positive]
  have length := IdxContainer.length_single (line_proper (Nat.le_add_right first _) positive)
    (line_positive member) policy.traverse policy.layout (line_member.mpr member) even
  obtain ⟨idx, same⟩ := List.length_eq_one_iff.mp length
  refine ⟨idx 0, ?_⟩
  unfold lineShare
  rw [same]
  rfl

/-- With as many workers as indices every index has its worker. -/
theorem exists_frames (policy : Policy) (workers : ℕ) (positive : 0 < step) :
    ∃ frame : ℕ → ℕ,
      (∀ worker < workers, lineShare policy worker workers 0 (workers * step) step =
        [frame worker]) ∧
      Set.BijOn frame (Set.Iio workers) {x | step ∣ x ∧ x < workers * step} := by
  have single (worker : ℕ) (member : worker < workers) :
      ∃ x, lineShare policy worker workers 0 (workers * step) step = [x] := by
    have one : ∃ x, lineShare policy worker workers 0 (0 + workers * step) step = [x] :=
      lineShare_single policy positive member
    rwa [Nat.zero_add] at one
  choose! frame same using single
  refine ⟨frame, same, ?_⟩
  rcases Nat.eq_zero_or_pos workers with none | several
  · subst none
    refine ⟨fun worker member => absurd member (Nat.not_lt_zero worker), fun worker member =>
      absurd member (Nat.not_lt_zero worker), fun x member => ?_⟩
    exact absurd member.2 (by simp)
  · have shared := lineShare_partitions policy (Nat.zero_le (workers * step)) positive several
    refine ⟨fun worker member => ?_, fun first member second member' frames => ?_,
      fun x member => ?_⟩
    · have held : frame worker ∈ lineShare policy worker workers 0 (workers * step) step := by
        rw [same worker member]
        exact List.mem_singleton_self _
      obtain ⟨count, index, below⟩ := shared.sound member held
      exact ⟨⟨count, by rw [index, Nat.zero_add, Nat.mul_comm]⟩, below⟩
    · apply shared.unique first member second member' (frame first)
      · rw [same first member]
        exact List.mem_singleton_self _
      · rw [same second member', frames]
        exact List.mem_singleton_self _
    · obtain ⟨⟨count, rfl⟩, below⟩ := member
      obtain ⟨worker, inside, held⟩ := (shared.mem_iff (step * count)).mp
        ⟨count, by rw [Nat.zero_add, Nat.mul_comm], below⟩
      rw [same worker inside] at held
      exact ⟨worker, inside, (List.mem_singleton.mp held).symm⟩

end Line

/-- What all threads of a block do between two barriers: the body of a loop over
`first`, `first + step`, … below `stop`. -/
structure Phase (Memory : Type) where
  first : ℕ
  stop : ℕ
  step : ℕ
  body : (thread frameElem : ℕ) → Memory → Memory

namespace Phase

variable {Memory : Type}

/-- The threads run one after the other. -/
def run (policy : Policy) (numThreads : ℕ) (order : List ℕ) (phase : Phase Memory) (fuel : ℕ)
    (memory : Memory) : Except Fault Memory :=
  order.foldlM (fun memory thread => do
    let frameElems ← lineIdxs policy thread numThreads phase.first phase.stop phase.step fuel
    return frameElems.foldl (fun memory frameElem => phase.body thread frameElem memory) memory)
    memory

/-- The threads with the indices they run the body for, one after the other. -/
def tasks (policy : Policy) (numThreads : ℕ) (order : List ℕ) (phase : Phase Memory) :
    List (ℕ × ℕ) :=
  order.flatMap fun thread =>
    (lineShare policy thread numThreads phase.first phase.stop phase.step).map (thread, ·)

/-- A loop that the threads can run. -/
structure Proper (phase : Phase Memory) : Prop where
  ordered : phase.first ≤ phase.stop
  positive : 0 < phase.step

variable {phase : Phase Memory} {numThreads : ℕ} {order : List ℕ}

/-- **A phase settles.** -/
theorem run_settles (policy : Policy) (proper : phase.Proper)
    (members : ∀ thread ∈ order, thread < numThreads) (memory : Memory) :
    Settles (fun fuel => phase.run policy numThreads order fuel memory)
      ((phase.tasks policy numThreads order).foldl
        (fun memory task => phase.body task.1 task.2 memory) memory) := by
  unfold run tasks
  rw [List.foldl_flatMap]
  simp only [List.foldl_map]
  refine Settles.foldlM (fun thread member memory => ?_) memory
  exact (lineIdxs_settles policy proper.ordered proper.positive (members thread member)).bind
    (Settles.pure _)

private theorem mem_tasks (policy : Policy) {task : ℕ × ℕ} :
    task ∈ phase.tasks policy numThreads order ↔ task.1 ∈ order ∧
      task.2 ∈ lineShare policy task.1 numThreads phase.first phase.stop phase.step := by
  unfold tasks
  rw [List.mem_flatMap]
  refine ⟨fun ⟨thread, member, held⟩ => ?_, fun ⟨member, held⟩ =>
    ⟨task.1, member, List.mem_map.mpr ⟨task.2, held, rfl⟩⟩⟩
  obtain ⟨frameElem, inShare, rfl⟩ := List.mem_map.mp held
  exact ⟨member, inShare⟩

/-- A block runs all its threads. -/
theorem nodup_tasks (policy : Policy) (proper : phase.Proper)
    (complete : order.Perm (List.range numThreads)) :
    (phase.tasks policy numThreads order).Nodup := by
  refine List.nodup_flatMap.mpr ⟨fun thread member => ?_, ?_⟩
  · have below : thread < numThreads := List.mem_range.mp (complete.mem_iff.mp member)
    exact ((lineShare_partitions policy proper.ordered proper.positive
      (Nat.zero_lt_of_lt below)).nodup thread below).map fun _ _ same => congrArg Prod.snd same
  · refine (complete.nodup_iff.mpr List.nodup_range).imp fun different task held held' => ?_
    obtain ⟨_, _, rfl⟩ := List.mem_map.mp held
    obtain ⟨_, _, same⟩ := List.mem_map.mp held'
    exact different (congrArg Prod.fst same).symm

private theorem mem_tasks_of_perm (policy : Policy) (complete : order.Perm (List.range numThreads))
    {task : ℕ × ℕ} :
    task ∈ phase.tasks policy numThreads order ↔ task.1 < numThreads ∧
      task.2 ∈ lineShare policy task.1 numThreads phase.first phase.stop phase.step := by
  rw [mem_tasks, complete.mem_iff, List.mem_range]

/-- Every index of the range is run once, by one of the threads. -/
theorem nodup_elements (policy : Policy) (proper : phase.Proper)
    (complete : order.Perm (List.range numThreads)) :
    ((phase.tasks policy numThreads order).map Prod.snd).Nodup := by
  refine (nodup_tasks policy proper complete).map_on fun first member second member' same => ?_
  obtain ⟨below, held⟩ := (mem_tasks_of_perm policy complete).mp member
  obtain ⟨below', held'⟩ := (mem_tasks_of_perm policy complete).mp member'
  have thread := (lineShare_partitions policy proper.ordered proper.positive
    (Nat.zero_lt_of_lt below)).unique _ below _ below' _ held (same ▸ held')
  exact Prod.ext thread same

theorem mem_elements (policy : Policy) (proper : phase.Proper) (several : 0 < numThreads)
    (complete : order.Perm (List.range numThreads)) {frameElem : ℕ} :
    frameElem ∈ (phase.tasks policy numThreads order).map Prod.snd ↔
      ∃ count, frameElem = phase.first + count * phase.step ∧ frameElem < phase.stop := by
  have shared := lineShare_partitions policy proper.ordered proper.positive several
  rw [List.mem_map]
  refine ⟨fun ⟨task, member, same⟩ => ?_, fun inside => ?_⟩
  · obtain ⟨below, held⟩ := (mem_tasks_of_perm policy complete).mp member
    exact same ▸ shared.sound below held
  · obtain ⟨thread, below, held⟩ := (shared.mem_iff frameElem).mp inside
    exact ⟨(thread, frameElem), (mem_tasks_of_perm policy complete).mpr ⟨below, held⟩, rfl⟩

/-- What the threads do depends on the body at the indices of the range only. -/
theorem foldl_tasks_congr (policy : Policy) (proper : phase.Proper)
    (members : ∀ thread ∈ order, thread < numThreads) (other : ℕ → ℕ → Memory → Memory)
    (agree : ∀ thread count, phase.first + count * phase.step < phase.stop → ∀ memory,
      phase.body thread (phase.first + count * phase.step) memory =
        other thread (phase.first + count * phase.step) memory) (memory : Memory) :
    (phase.tasks policy numThreads order).foldl
        (fun memory task => phase.body task.1 task.2 memory) memory =
      (phase.tasks policy numThreads order).foldl
        (fun memory task => other task.1 task.2 memory) memory := by
  refine List.foldl_ext _ _ _ fun memory task member => ?_
  obtain ⟨listed, held⟩ := (mem_tasks policy).mp member
  have below := members task.1 listed
  obtain ⟨count, index, inside⟩ := (lineShare_partitions policy proper.ordered proper.positive
    (Nat.zero_lt_of_lt below)).sound below held
  rw [index] at inside ⊢
  exact agree task.1 count inside memory

/-- Every thread has one index. -/
theorem tasks_of_frames (policy : Policy) {frame : ℕ → ℕ}
    (frames : ∀ thread < numThreads,
      lineShare policy thread numThreads phase.first phase.stop phase.step = [frame thread])
    (members : ∀ thread ∈ order, thread < numThreads) :
    phase.tasks policy numThreads order = order.map fun thread => (thread, frame thread) := by
  unfold tasks
  rw [List.map_eq_flatMap]
  refine List.flatMap_congr fun thread member => ?_
  rw [frames thread (members thread member)]
  rfl

end Phase

/-- The phases of a block, a barrier between one and the next; each phase has its own
order of the threads. -/
def runPhases {Memory : Type} (policy : Policy) (numThreads : ℕ) (orders : ℕ → List ℕ)
    (phases : List (Phase Memory)) (fuel : ℕ) (memory : Memory) : Except Fault Memory :=
  phases.zipIdx.foldlM
    (fun memory phase => phase.1.run policy numThreads (orders phase.2) fuel memory) memory

/-- The memory after phases that start with a given number. -/
def afterPhases {Memory : Type} (policy : Policy) (numThreads : ℕ) (orders : ℕ → List ℕ)
    (phases : List (Phase Memory)) (number : ℕ) (memory : Memory) : Memory :=
  (phases.zipIdx number).foldl (fun memory phase =>
    (phase.1.tasks policy numThreads (orders phase.2)).foldl
      (fun memory task => phase.1.body task.1 task.2 memory) memory) memory

theorem runPhases_settles {Memory : Type} (policy : Policy) {numThreads : ℕ}
    {orders : ℕ → List ℕ} (complete : ∀ number, (orders number).Perm (List.range numThreads))
    {phases : List (Phase Memory)} (proper : ∀ phase ∈ phases, phase.Proper) (memory : Memory) :
    Settles (fun fuel => runPhases policy numThreads orders phases fuel memory)
      (afterPhases policy numThreads orders phases 0 memory) := by
  unfold runPhases afterPhases
  refine Settles.foldlM (fun phase member memory => ?_) memory
  refine Phase.run_settles policy (proper phase.1 (List.fst_mem_of_mem_zipIdx member))
    (fun thread inOrder => ?_) memory
  exact List.mem_range.mp ((complete phase.2).mem_iff.mp inOrder)

theorem afterPhases_append {Memory : Type} (policy : Policy) (numThreads : ℕ)
    (orders : ℕ → List ℕ) (first second : List (Phase Memory)) (number : ℕ) (memory : Memory) :
    afterPhases policy numThreads orders (first ++ second) number memory =
      afterPhases policy numThreads orders second (number + first.length)
        (afterPhases policy numThreads orders first number memory) := by
  unfold afterPhases
  rw [List.zipIdx_append, List.foldl_append]

theorem afterPhases_single {Memory : Type} (policy : Policy) (numThreads : ℕ)
    (orders : ℕ → List ℕ) (phase : Phase Memory) (number : ℕ) (memory : Memory) :
    afterPhases policy numThreads orders [phase] number memory =
      (phase.tasks policy numThreads (orders number)).foldl
        (fun memory task => phase.body task.1 task.2 memory) memory :=
  rfl

end Alpaka
