import Mathlib.Data.List.Perm.Basic
import Mathlib.Data.List.Nodup
import Mathlib.Data.Set.Function
import Mathlib.Algebra.BigOperators.Group.List.Basic

/-! # Sharing a set out among workers

Every worker is handed a list of elements. The lists *partition* a target set
when every element of the target is handed to exactly one worker, exactly once,
and nothing else is handed out (`Math.Partitions`). Partitions compose: workers
can be renamed along a bijection, the elements can be renamed injectively or
replaced by disjoint blocks, two disjoint targets can be served one after the
other, and the elements handed to one group of workers can be shared out again
in a second group, and tuples are shared out by sharing out every component
(`Math.Partitions.pi`). In whatever order the workers are taken, together they
make one pass over the target (`Math.Partitions.flatMap_perm`).
-/

namespace Math

variable {ι κ α β : Type*}

/-- Every element of `target` is handed to exactly one worker, exactly once,
and nothing else is handed out. -/
structure Partitions (workers : Set ι) (share : ι → List α) (target : Set α) : Prop where
  nodup : ∀ worker ∈ workers, (share worker).Nodup
  unique : ∀ first ∈ workers, ∀ second ∈ workers, ∀ x ∈ share first, x ∈ share second →
    first = second
  mem_iff : ∀ x, x ∈ target ↔ ∃ worker ∈ workers, x ∈ share worker

namespace Partitions

variable {workers : Set ι} {share : ι → List α} {target : Set α}

/-- A share only holds elements of the target. -/
theorem sound (partition : Partitions workers share target) {worker : ι}
    (member : worker ∈ workers) {x : α} (held : x ∈ share worker) : x ∈ target :=
  (partition.mem_iff x).mpr ⟨worker, member, held⟩

/-- Only the shares of the participating workers matter. -/
theorem congr_share {other : ι → List α} (partition : Partitions workers share target)
    (same : ∀ worker ∈ workers, other worker = share worker) :
    Partitions workers other target where
  nodup := fun worker member => by
    rw [same worker member]
    exact partition.nodup worker member
  unique := fun first firstIn second secondIn x heldFirst heldSecond => by
    rw [same first firstIn] at heldFirst
    rw [same second secondIn] at heldSecond
    exact partition.unique first firstIn second secondIn x heldFirst heldSecond
  mem_iff := fun x => by
    rw [partition.mem_iff]
    constructor
    · rintro ⟨worker, member, held⟩
      exact ⟨worker, member, (same worker member).symm ▸ held⟩
    · rintro ⟨worker, member, held⟩
      exact ⟨worker, member, same worker member ▸ held⟩

/-- Workers renamed along a bijection share out the same target. -/
theorem comp (partition : Partitions workers share target) {others : Set κ} {rename : κ → ι}
    (bijective : Set.BijOn rename others workers) :
    Partitions others (fun worker => share (rename worker)) target where
  nodup := fun worker member => partition.nodup _ (bijective.mapsTo member)
  unique := fun first firstIn second secondIn x heldFirst heldSecond =>
    bijective.injOn firstIn secondIn
      (partition.unique _ (bijective.mapsTo firstIn) _ (bijective.mapsTo secondIn) x heldFirst
        heldSecond)
  mem_iff := fun x => by
    rw [partition.mem_iff]
    constructor
    · rintro ⟨worker, member, held⟩
      obtain ⟨original, originalIn, rfl⟩ := bijective.surjOn member
      exact ⟨original, originalIn, held⟩
    · rintro ⟨worker, member, held⟩
      exact ⟨rename worker, bijective.mapsTo member, held⟩

/-- **Sharing out twice.** The elements handed to the outer workers are blocks
whose contents are shared out among the inner workers; the contents of distinct
blocks are disjoint. -/
theorem bind (outer : Partitions workers share target) {inner : Set κ}
    {cells : α → κ → List β} {region : α → Set β}
    (partition : ∀ x ∈ target, Partitions inner (cells x) (region x))
    (disjoint : ∀ x ∈ target, ∀ y ∈ target, ∀ cell ∈ region x, cell ∈ region y → x = y) :
    Partitions (workers ×ˢ inner)
      (fun worker => (share worker.1).flatMap fun x => cells x worker.2)
      {cell | ∃ x ∈ target, cell ∈ region x} where
  nodup := by
    rintro ⟨worker, lane⟩ ⟨workerIn, laneIn⟩
    rw [List.nodup_flatMap]
    refine ⟨fun x held => (partition x (outer.sound workerIn held)).nodup lane laneIn, ?_⟩
    refine (outer.nodup worker workerIn).imp_of_mem ?_
    intro x y heldX heldY different cell inX inY
    have targetX := outer.sound workerIn heldX
    have targetY := outer.sound workerIn heldY
    exact different (disjoint x targetX y targetY cell
      ((partition x targetX).sound laneIn inX) ((partition y targetY).sound laneIn inY))
  unique := by
    rintro ⟨first, firstLane⟩ ⟨firstIn, firstLaneIn⟩ ⟨second, secondLane⟩ ⟨secondIn, secondLaneIn⟩
      cell heldFirst heldSecond
    obtain ⟨x, inFirst, cellFirst⟩ := List.mem_flatMap.mp heldFirst
    obtain ⟨y, inSecond, cellSecond⟩ := List.mem_flatMap.mp heldSecond
    have targetX := outer.sound firstIn inFirst
    have targetY := outer.sound secondIn inSecond
    obtain rfl := disjoint x targetX y targetY cell
      ((partition x targetX).sound firstLaneIn cellFirst)
      ((partition y targetY).sound secondLaneIn cellSecond)
    have sameWorker := outer.unique first firstIn second secondIn x inFirst inSecond
    have sameLane := (partition x targetX).unique firstLane firstLaneIn secondLane secondLaneIn
      cell cellFirst cellSecond
    exact Prod.ext sameWorker sameLane
  mem_iff := by
    intro cell
    constructor
    · rintro ⟨x, targetX, inX⟩
      obtain ⟨worker, workerIn, held⟩ := (outer.mem_iff x).mp targetX
      obtain ⟨lane, laneIn, inCell⟩ := ((partition x targetX).mem_iff cell).mp inX
      exact ⟨(worker, lane), ⟨workerIn, laneIn⟩, List.mem_flatMap.mpr ⟨x, held, inCell⟩⟩
    · rintro ⟨⟨worker, lane⟩, ⟨workerIn, laneIn⟩, held⟩
      obtain ⟨x, heldX, inCell⟩ := List.mem_flatMap.mp held
      have targetX := outer.sound workerIn heldX
      exact ⟨x, targetX, (partition x targetX).sound laneIn inCell⟩

/-- Replacing every element by a block: the blocks are disjoint and cover the
new target. -/
theorem flatMap (partition : Partitions workers share target) {block : α → List β}
    {cells : Set β} (nodup : ∀ x ∈ target, (block x).Nodup)
    (disjoint : ∀ x ∈ target, ∀ y ∈ target, ∀ cell ∈ block x, cell ∈ block y → x = y)
    (cover : ∀ cell, cell ∈ cells ↔ ∃ x ∈ target, cell ∈ block x) :
    Partitions workers (fun worker => (share worker).flatMap block) cells := by
  have blocks : ∀ x ∈ target, Partitions (Set.univ : Set Unit) (fun _ => block x)
      {cell | cell ∈ block x} := fun x member =>
    { nodup := fun _ _ => nodup x member
      unique := fun _ _ _ _ _ _ _ => rfl
      mem_iff := fun cell => ⟨fun held => ⟨(), Set.mem_univ _, held⟩, fun ⟨_, _, held⟩ => held⟩ }
  have paired : Partitions (workers ×ˢ Set.univ)
      (fun worker => (share worker.1).flatMap fun x => block x)
      {cell | ∃ x ∈ target, cell ∈ {cell | cell ∈ block x}} := partition.bind blocks disjoint
  have single : Set.BijOn (fun worker => (worker, ())) workers (workers ×ˢ Set.univ) :=
    ⟨fun worker member => ⟨member, Set.mem_univ _⟩,
      fun first _ second _ same => congrArg Prod.fst same,
      fun ⟨worker, _⟩ ⟨member, _⟩ => ⟨worker, member, rfl⟩⟩
  have targetEq : {cell | ∃ x ∈ target, cell ∈ {cell | cell ∈ block x}} = cells :=
    Set.ext fun cell => (cover cell).symm
  have renamed := paired.comp single
  rw [targetEq] at renamed
  exact renamed

/-- Renaming the elements injectively. -/
theorem map (partition : Partitions workers share target) {rename : α → β} {cells : Set β}
    (bijective : Set.BijOn rename target cells) :
    Partitions workers (fun worker => (share worker).map rename) cells := by
  have blocks : Partitions workers (fun worker => (share worker).flatMap fun x => [rename x])
      cells := by
    apply partition.flatMap
    · intro x _
      exact List.nodup_singleton _
    · intro x inX y inY cell cellX cellY
      rw [List.mem_singleton] at cellX cellY
      exact bijective.injOn inX inY (cellX.symm.trans cellY)
    · intro cell
      constructor
      · intro member
        obtain ⟨x, inX, rfl⟩ := bijective.surjOn member
        exact ⟨x, inX, List.mem_singleton_self _⟩
      · rintro ⟨x, inX, cellX⟩
        rw [List.mem_singleton.mp cellX]
        exact bijective.mapsTo inX
  refine blocks.congr_share fun worker _ => ?_
  exact (List.flatMap_pure_eq_map rename (share worker)).symm

/-- Leaving elements out. -/
theorem filter (partition : Partitions workers share target) (keep : α → Prop)
    [DecidablePred keep] :
    Partitions workers (fun worker => (share worker).filter fun x => keep x)
      {x | x ∈ target ∧ keep x} where
  nodup := fun worker member => (partition.nodup worker member).filter _
  unique := fun first firstIn second secondIn x heldFirst heldSecond =>
    partition.unique first firstIn second secondIn x (List.mem_filter.mp heldFirst).1
      (List.mem_filter.mp heldSecond).1
  mem_iff := fun x => by
    change x ∈ target ∧ keep x ↔ _
    rw [partition.mem_iff]
    constructor
    · rintro ⟨⟨worker, member, held⟩, kept⟩
      exact ⟨worker, member, List.mem_filter.mpr ⟨held, decide_eq_true kept⟩⟩
    · rintro ⟨worker, member, held⟩
      obtain ⟨held, kept⟩ := List.mem_filter.mp held
      exact ⟨⟨worker, member, held⟩, of_decide_eq_true kept⟩

/-- Two disjoint targets served one after the other. -/
theorem append (first : Partitions workers share target) {later : ι → List α} {rest : Set α}
    (second : Partitions workers later rest) (disjoint : ∀ x ∈ target, x ∉ rest) :
    Partitions workers (fun worker => share worker ++ later worker) (target ∪ rest) where
  nodup := fun worker member => List.nodup_append'.mpr
    ⟨first.nodup worker member, second.nodup worker member, fun x heldFirst heldSecond =>
      disjoint x (first.sound member heldFirst) (second.sound member heldSecond)⟩
  unique := by
    intro left leftIn right rightIn x heldLeft heldRight
    rcases List.mem_append.mp heldLeft with heldLeft | heldLeft <;>
      rcases List.mem_append.mp heldRight with heldRight | heldRight
    · exact first.unique left leftIn right rightIn x heldLeft heldRight
    · exact (disjoint x (first.sound leftIn heldLeft) (second.sound rightIn heldRight)).elim
    · exact (disjoint x (first.sound rightIn heldRight) (second.sound leftIn heldLeft)).elim
    · exact second.unique left leftIn right rightIn x heldLeft heldRight
  mem_iff := by
    intro x
    rw [Set.mem_union, first.mem_iff, second.mem_iff]
    constructor
    · rintro (⟨worker, member, held⟩ | ⟨worker, member, held⟩)
      · exact ⟨worker, member, List.mem_append_left _ held⟩
      · exact ⟨worker, member, List.mem_append_right _ held⟩
    · rintro ⟨worker, member, held⟩
      rcases List.mem_append.mp held with held | held
      · exact .inl ⟨worker, member, held⟩
      · exact .inr ⟨worker, member, held⟩

/-- Tuples are shared out by sharing out every component. -/
theorem pi {n : ℕ} {workers : Fin n → Set ι} {share : Fin n → ι → List α} {target : Fin n → Set α}
    (partition : ∀ i, Partitions (workers i) (share i) (target i))
    {joint : (Fin n → ι) → List (Fin n → α)}
    (nodup : ∀ worker, (∀ i, worker i ∈ workers i) → (joint worker).Nodup)
    (mem_joint : ∀ worker, (∀ i, worker i ∈ workers i) →
      ∀ x, x ∈ joint worker ↔ ∀ i, x i ∈ share i (worker i)) :
    Partitions {worker | ∀ i, worker i ∈ workers i} joint {x | ∀ i, x i ∈ target i} where
  nodup := nodup
  unique := fun first firstIn second secondIn x heldFirst heldSecond => by
    rw [mem_joint first firstIn] at heldFirst
    rw [mem_joint second secondIn] at heldSecond
    funext i
    exact (partition i).unique _ (firstIn i) _ (secondIn i) _ (heldFirst i) (heldSecond i)
  mem_iff := fun x => by
    refine ⟨fun member => ?_, fun ⟨worker, workerIn, held⟩ i => ?_⟩
    · choose worker workerIn held using fun i => ((partition i).mem_iff _).mp (member i)
      exact ⟨worker, workerIn, (mem_joint worker workerIn x).mpr held⟩
    · exact (partition i).sound (workerIn i) ((mem_joint worker workerIn x).mp held i)

/-- In whatever order the workers are taken, no element comes twice. -/
theorem nodup_flatMap (partition : Partitions workers share target) {order : List ι}
    (orderNodup : order.Nodup) (orderMem : ∀ worker, worker ∈ order ↔ worker ∈ workers) :
    (order.flatMap share).Nodup := by
  rw [List.nodup_flatMap]
  refine ⟨fun worker member => partition.nodup worker ((orderMem worker).mp member), ?_⟩
  refine orderNodup.imp_of_mem ?_
  intro first second firstIn secondIn different x heldFirst heldSecond
  exact different (partition.unique first ((orderMem first).mp firstIn) second
    ((orderMem second).mp secondIn) x heldFirst heldSecond)

/-- The shares joined together hold the elements of the target. -/
theorem mem_flatMap (partition : Partitions workers share target) {order : List ι}
    (orderMem : ∀ worker, worker ∈ order ↔ worker ∈ workers) {x : α} :
    x ∈ order.flatMap share ↔ x ∈ target := by
  rw [List.mem_flatMap, partition.mem_iff]
  constructor
  · rintro ⟨worker, member, held⟩
    exact ⟨worker, (orderMem worker).mp member, held⟩
  · rintro ⟨worker, member, held⟩
    exact ⟨worker, (orderMem worker).mpr member, held⟩

/-- In whatever order the workers are taken, their shares joined together are
the elements of the target in some order. -/
theorem flatMap_perm (partition : Partitions workers share target) {order : List ι}
    (orderNodup : order.Nodup) (orderMem : ∀ worker, worker ∈ order ↔ worker ∈ workers)
    {elements : List α} (elementsNodup : elements.Nodup)
    (elementsMem : ∀ x, x ∈ elements ↔ x ∈ target) :
    (order.flatMap share).Perm elements := by
  have joined := partition.nodup_flatMap orderNodup orderMem
  refine (List.perm_ext_iff_of_nodup joined elementsNodup).mpr fun x => ?_
  rw [partition.mem_flatMap orderMem, elementsMem]

end Partitions

end Math
