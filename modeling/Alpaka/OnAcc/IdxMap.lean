import Alpaka.Math.Fuel
import Alpaka.Mem.FlatTraversal
import Alpaka.Mem.TiledTraversal

/-! # Index maps

`makeIdxMap` turns a worker group and a range into a container, by a traversal
policy and a layout. When nothing is folded into the selected dimensions both
policies share out the lattice (`Alpaka.IdxContainer.partitions`), and a worker
group that divides the fastest dimension evenly gives every worker a multiple of
the same number of indices (`Alpaka.IdxContainer.dvd_length`).
-/

namespace Alpaka

open ThreadSpace (mapIdx mapCount MapsBijectively)

variable {n k : ℕ}

/-- How the next index of a worker is found. -/
inductive Traverse where
  | flat
  | tiled
  deriving DecidableEq

inductive IdxContainer (T : Type) (n k : ℕ) where
  | flat (container : FlatIdxContainer T n k)
  | tiled (container : TiledIdxContainer T n k)

section Code

variable {T : Type} [Add T] [Sub T] [Mul T] [Div T] [Mod T] [LT T] [DecidableLT T] [LE T]
  [DecidableLE T] [OfNat T 0] [OfNat T 1]

namespace IdxContainer

/-- `operator[]`: the container restricted to the given dimensions. -/
def select {l : ℕ} (iterDir : CSelect (l + 1) (n + 1)) : IdxContainer T n k → IdxContainer T n l
  | .flat container => .flat (container.select iterDir)
  | .tiled container => .tiled (container.select iterDir)

/-- There is no division by zero where the loop over the container begins. -/
def Divides : IdxContainer T n k → Prop
  | .flat container => container.layout = .contiguous → container.Divides
  | .tiled container => container.layout = .contiguous → container.Divides

instance decidableDivides [DecidableEq T] :
    (container : IdxContainer T n k) → Decidable container.Divides
  | .flat container => inferInstanceAs (Decidable (container.layout = .contiguous → _ ∧ _))
  | .tiled container => inferInstanceAs (Decidable (container.layout = .contiguous → ∀ _, _))

/-- The range-based loop over the container. -/
def run [DecidableEq T] (container : IdxContainer T n k) (fuel : ℕ) :
    Except Math.Loop.Fault (List (Vec T (n + 1))) :=
  if container.Divides then
    match container with
    | .flat container => (container.loop.run fuel container.begin).elim (.error .outOfFuel) .ok
    | .tiled container => (container.loop.run fuel container.begin).elim (.error .outOfFuel) .ok
  else .error .divisionByZero

/-- The loop that advances the iterator a number of times before it compares it
with the end again. -/
def runBursts [DecidableEq T] (container : IdxContainer T n k) (count fuel : ℕ) :
    Except Math.Loop.Fault (List (List (Vec T (n + 1)))) :=
  if container.Divides then
    match container with
    | .flat container => container.loop.runBursts count fuel container.begin
    | .tiled container => container.loop.runBursts count fuel container.begin
  else .error .divisionByZero

/-- The loop over the container terminates with the given indices. -/
def Yields : IdxContainer T n k → List (Vec T (n + 1)) → Prop
  | .flat container, visited => container.loop.Yields container.begin visited
  | .tiled container, visited => container.loop.Yields container.begin visited

/-- What the loop over the container dereferences that looks at the end only before every burst
of advances. It need not terminate. -/
def Reaches (container : IdxContainer T n k) (count : ℕ) (idx : Vec T (n + 1)) : Prop :=
  container.Divides ∧
    match container with
    | .flat container => container.loop.Reaches count container.begin idx
    | .tiled container => container.loop.Reaches count container.begin idx

/-- The indices the container yields. -/
def indices : IdxContainer ℕ n k → List (Vec ℕ (n + 1))
  | .flat container => container.indices
  | .tiled container => container.indices

end IdxContainer

/-- The container of a range for one thread of a worker group, over all
dimensions. -/
def makeIdxMap (workGroup : ThreadSpace T (n + 1)) (range : IdxRange T (n + 1))
    (traverse : Traverse) (idxLayout : Layout) : IdxContainer T n n :=
  match traverse with
  | .flat => .flat ⟨range, workGroup, idxLayout, id⟩
  | .tiled => .tiled ⟨range, workGroup, idxLayout, id⟩

namespace IdxContainer

/-- The thread of an index map restricted to selected dimensions. -/
def ofThread (range : IdxRange T (n + 1)) (threadCount : Vec T (n + 1)) (traverse : Traverse)
    (layout : Layout) (selection : CSelect (k + 1) (n + 1)) (idx : Vec T (n + 1)) :
    IdxContainer T n k :=
  (makeIdxMap ⟨idx, threadCount⟩ range traverse layout).select selection

theorem Yields.run [DecidableEq T] {container : IdxContainer T n k} {visited : List (Vec T (n + 1))}
    (yields : container.Yields visited) (divides : container.Divides) :
    Math.Settles container.run visited := by
  unfold IdxContainer.run
  simp only [divides, ↓reduceIte]
  cases container <;>
  · obtain ⟨bound, finished⟩ := yields
    refine ⟨bound, fun fuel enough => ?_⟩
    simp only [finished fuel enough, Option.elim_some]

private theorem eq_some_of_elim {α ε : Type*} {result : Option α} {fault : ε} {value : α}
    (run : result.elim (Except.error fault) Except.ok = .ok value) : result = some value := by
  cases result with
  | none => cases run
  | some other => exact congrArg some (Except.ok.inj run)

/-- Only a loop that terminates settles. -/
theorem yields_of_settles [DecidableEq T] {container : IdxContainer T n k}
    {visited : List (Vec T (n + 1))} (settles : Math.Settles container.run visited) :
    container.Yields visited := by
  obtain ⟨bound, finished⟩ := settles
  have divides : container.Divides := by
    by_contra fails
    have run := finished bound le_rfl
    simp only [IdxContainer.run, fails, ↓reduceIte, reduceCtorEq] at run
  unfold IdxContainer.run at finished
  simp only [divides, ↓reduceIte] at finished
  cases container with
  | flat container => exact ⟨bound, fun fuel enough => eq_some_of_elim (finished fuel enough)⟩
  | tiled container => exact ⟨bound, fun fuel enough => eq_some_of_elim (finished fuel enough)⟩

theorem Yields.runBursts [DecidableEq T] {container : IdxContainer T n k}
    {visited : List (Vec T (n + 1))} (yields : container.Yields visited)
    (defined : container.Divides) {count : ℕ} (positive : 0 < count)
    (divides : count ∣ visited.length) :
    Math.Settles (container.runBursts count) (Math.Loop.bursts count visited) := by
  unfold IdxContainer.runBursts
  simp only [defined, ↓reduceIte]
  cases container with
  | flat container =>
      exact ⟨visited.length + 1, fun fuel enough =>
        container.loop.runBursts_of_yields positive yields divides fuel enough⟩
  | tiled container =>
      exact ⟨visited.length + 1, fun fuel enough =>
        container.loop.runBursts_of_yields positive yields divides fuel enough⟩

/-- The range-based loop dereferences what it returns. -/
theorem reaches_of_run [DecidableEq T] {container : IdxContainer T n k} {fuel : ℕ}
    {visited : List (Vec T (n + 1))} (run : container.run fuel = .ok visited)
    {idx : Vec T (n + 1)} (held : idx ∈ visited) : container.Reaches 1 idx := by
  have divides : container.Divides := by
    by_contra fails
    simp only [IdxContainer.run, fails, ↓reduceIte, reduceCtorEq] at run
  unfold IdxContainer.run at run
  simp only [divides, ↓reduceIte] at run
  refine ⟨divides, ?_⟩
  cases container with
  | flat container => exact container.loop.reaches_of_run (eq_some_of_elim run) held
  | tiled container => exact container.loop.reaches_of_run (eq_some_of_elim run) held

/-- So does the unrolled loop. -/
theorem reaches_of_runBursts [DecidableEq T] {container : IdxContainer T n k} {count fuel : ℕ}
    {visited : List (List (Vec T (n + 1)))} (run : container.runBursts count fuel = .ok visited)
    {taken : List (Vec T (n + 1))} (burst : taken ∈ visited) {idx : Vec T (n + 1)}
    (held : idx ∈ taken) : container.Reaches count idx := by
  have divides : container.Divides := by
    by_contra fails
    simp only [IdxContainer.runBursts, fails, ↓reduceIte, reduceCtorEq] at run
  unfold IdxContainer.runBursts at run
  simp only [divides, ↓reduceIte] at run
  refine ⟨divides, ?_⟩
  cases container with
  | flat container => exact container.loop.reaches_of_runBursts run burst held
  | tiled container => exact container.loop.reaches_of_runBursts run burst held

end IdxContainer

end Code

namespace IdxContainer

@[simp] theorem select_id {T : Type} (traverse : Traverse) (layout : Layout)
    (group : ThreadSpace T (n + 1)) (range : IdxRange T (n + 1)) :
    (makeIdxMap group range traverse layout).select id =
      makeIdxMap group range traverse layout := by
  cases traverse <;> rfl

section Workers

variable {range : IdxRange ℕ (n + 1)} {threadCount : Vec ℕ (n + 1)}
  {selection : CSelect (k + 1) (n + 1)}

/-- With at least one thread there is no division by zero. -/
theorem divides_ofThread (positive : ∀ d, 0 < threadCount d) (traverse : Traverse)
    (layout : Layout) (idx : Vec ℕ (n + 1)) :
    (ofThread range threadCount traverse layout selection idx).Divides := by
  have mapped (d : Fin (n + 1)) :
      0 < ((ThreadSpace.mk idx threadCount).mapTo selection).threadCount d := by
    rw [ThreadSpace.mapTo_threadCount]
    exact ThreadSpace.mapCount_positive positive selection d
  cases traverse with
  | flat =>
      intro _
      unfold FlatIdxContainer.Divides
      rw [Vec.product_eq_prod, Vec.product_eq_prod]
      exact ⟨(Finset.prod_pos fun i _ => positive (selection i)).ne',
        (Finset.prod_pos fun i _ => mapped (selection i)).ne'⟩
  | tiled => exact fun _ d => (mapped d).ne'

/-- With one thread in every unselected dimension no thread is lost. -/
theorem maps_of_alone (distinct : Function.Injective selection)
    (alone : ∀ d, (∀ i, selection i ≠ d) → threadCount d = 1) :
    MapsBijectively threadCount selection := by
  rcases Nat.lt_or_ge k n with proper | full
  · exact ThreadSpace.mapsBijectively_of_single proper fun d _ outside _ _ => .inl (alone d outside)
  · exact ThreadSpace.mapsBijectively_of_full distinct full threadCount

/-- With one thread in every unselected dimension the selected ones keep their
thread counts. -/
theorem mapCount_of_alone (alone : ∀ d, (∀ i, selection i ≠ d) → threadCount d = 1)
    (i : Fin (k + 1)) :
    mapCount threadCount selection (selection i) = threadCount (selection i) := by
  rcases Nat.lt_or_ge k n with proper | full
  · have folded : ∏ d ∈ ThreadSpace.unselected selection, threadCount d = 1 :=
      Finset.prod_eq_one fun d outside => alone d (ThreadSpace.mem_unselected.mp outside)
    have selected : selection i ∉ ThreadSpace.unselected selection := fun outside =>
      ThreadSpace.mem_unselected.mp outside i rfl
    rw [ThreadSpace.mapCount_of_lt proper, folded, Nat.mul_one]
    simp only [selected, ↓reduceIte, ite_eq_right_iff]
    exact fun same => congrArg threadCount same.symm
  · rw [ThreadSpace.mapCount_of_le full]

/-- **Index maps.** When nothing is folded into the selected dimensions the
threads share out the lattice of the range, whatever the policies. -/
theorem partitions (proper : range.Proper) (positive : ∀ d, 0 < threadCount d)
    (distinct : Function.Injective selection)
    (alone : ∀ d, (∀ i, selection i ≠ d) → threadCount d = 1) (traverse : Traverse)
    (layout : Layout) :
    (∀ idx ∈ threadIdxs threadCount,
      (ofThread range threadCount traverse layout selection idx).Yields
        (ofThread range threadCount traverse layout selection idx).indices) ∧
    Math.Partitions (threadIdxs threadCount)
      (fun idx => (ofThread range threadCount traverse layout selection idx).indices)
      (range.lattice selection) := by
  have maps := maps_of_alone distinct alone
  cases traverse with
  | flat =>
      have same : ∏ i, threadCount (selection i) =
          FlatIdxContainer.numSlots threadCount selection :=
        Finset.prod_congr rfl fun i _ => (mapCount_of_alone alone i).symm
      refine ⟨fun idx member =>
        FlatIdxContainer.ofThread_yields positive distinct layout member, ?_⟩
      cases layout with
      | strided => exact FlatIdxContainer.strided_partitions proper positive distinct maps
      | contiguous =>
          exact FlatIdxContainer.contiguous_partitions proper positive distinct maps same
  | tiled =>
      exact ⟨fun idx member =>
        TiledIdxContainer.ofThread_yields proper positive distinct layout member,
        TiledIdxContainer.indices_partitions proper positive distinct maps layout⟩

/-- **Even shares.** When the fastest selected dimension is a multiple of its
threads, every thread visits a multiple of its share there: with the tiled
policy in any dimension, with the flat one in a single dimension. -/
theorem dvd_length (proper : range.Proper) (positive : ∀ d, 0 < threadCount d)
    (distinct : Function.Injective selection)
    (alone : ∀ d, (∀ i, selection i ≠ d) → threadCount d = 1) {traverse : Traverse}
    (single : traverse = .tiled ∨ k = 0) (layout : Layout) {idx : Vec ℕ (n + 1)}
    (member : idx ∈ threadIdxs threadCount) {rounds : ℕ}
    (even : range.logicalExtent selection (Fin.last k) =
      rounds * threadCount (selection (Fin.last k))) :
    rounds ∣ (ofThread range threadCount traverse layout selection idx).indices.length := by
  cases traverse with
  | tiled =>
      rw [← mapCount_of_alone alone] at even
      exact TiledIdxContainer.dvd_length proper positive distinct layout member even
  | flat =>
      obtain rfl : k = 0 := by simpa using single
      have same : ∏ i, threadCount (selection i) =
          FlatIdxContainer.numSlots threadCount selection :=
        Finset.prod_congr rfl fun i _ => (mapCount_of_alone alone i).symm
      have whole : FlatIdxContainer.total range selection =
          rounds * FlatIdxContainer.numSlots threadCount selection := by
        rw [← same]
        simpa [FlatIdxContainer.total] using even
      exact (FlatIdxContainer.length_indices positive distinct (maps_of_alone distinct alone) same
        layout member whole).symm.dvd

/-- **Equal shares.** In a single dimension that is a multiple of its threads, every
thread visits the same number of indices. -/
theorem length_single {range : IdxRange ℕ 1} {threadCount : Vec ℕ 1} (proper : range.Proper)
    (positive : ∀ d, 0 < threadCount d) (traverse : Traverse) (layout : Layout) {idx : Vec ℕ 1}
    (member : idx ∈ threadIdxs threadCount) {rounds : ℕ}
    (even : range.logicalExtent (id : CSelect 1 1) 0 = rounds * threadCount 0) :
    (makeIdxMap ⟨idx, threadCount⟩ range traverse layout).indices.length = rounds := by
  have distinct : Function.Injective (id : CSelect 1 1) := Function.injective_id
  have alone : ∀ d, (∀ i, (id : CSelect 1 1) i ≠ d) → threadCount d = 1 := fun d outside =>
    absurd rfl (outside d)
  have count := mapCount_of_alone alone 0
  rw [← select_id]
  cases traverse with
  | tiled =>
      have lengths := TiledIdxContainer.length_indices proper positive distinct layout member
      rw [Fin.prod_univ_one] at lengths
      exact lengths.trans (TiledIdxContainer.threadLengths_last layout member
        (even.trans (congrArg (rounds * ·) count.symm)))
  | flat =>
      have same : ∏ i, threadCount ((id : CSelect 1 1) i) =
          FlatIdxContainer.numSlots threadCount (id : CSelect 1 1) :=
        Finset.prod_congr rfl fun i _ => (mapCount_of_alone alone i).symm
      refine FlatIdxContainer.length_indices positive distinct (maps_of_alone distinct alone) same
        layout member ?_
      rw [← same, Fin.prod_univ_one]
      simpa [FlatIdxContainer.total] using even

theorem divides_makeIdxMap (range : IdxRange ℕ (n + 1)) (positive : ∀ d, 0 < threadCount d)
    (traverse : Traverse) (layout : Layout) (idx : Vec ℕ (n + 1)) :
    (makeIdxMap ⟨idx, threadCount⟩ range traverse layout).Divides := by
  have divides : (ofThread range threadCount traverse layout id idx).Divides :=
    divides_ofThread positive traverse layout idx
  rwa [ofThread, select_id] at divides

/-- The loop over all dimensions of a range settles for every thread, and the
threads share out the lattice. -/
theorem makeIdxMap_partitions (proper : range.Proper) (positive : ∀ d, 0 < threadCount d)
    (traverse : Traverse) (layout : Layout) :
    (∀ idx ∈ threadIdxs threadCount,
      Math.Settles (makeIdxMap ⟨idx, threadCount⟩ range traverse layout).run
        (makeIdxMap ⟨idx, threadCount⟩ range traverse layout).indices) ∧
    Math.Partitions (threadIdxs threadCount)
      (fun idx => (makeIdxMap ⟨idx, threadCount⟩ range traverse layout).indices)
      (range.lattice (id : CSelect (n + 1) (n + 1))) := by
  have whole := partitions proper positive Function.injective_id
    (fun d outside => absurd rfl (outside d)) traverse layout
  simp only [ofThread, select_id] at whole
  exact ⟨fun idx member => (whole.1 idx member).run
    (divides_makeIdxMap range positive traverse layout idx), whole.2⟩

end Workers

end IdxContainer

end Alpaka
