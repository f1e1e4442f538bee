import Mathlib.Algebra.BigOperators.Fin
import Alpaka.OnAcc.SimdConcurrentWidth
import Alpaka.Simd.ReduceRange

/-! # Transforming and reducing

A worker reduces the transformed elements of its packs lane by lane, the packs of a call
first among themselves, and adds single elements to the first lane; in the end it reduces
the lanes. In a commutative monoid this is the sum over all elements of the worker, and where
no loop overflows the workers share out the elements (`Alpaka.transformReduce_settles`).
-/

namespace Alpaka

open Math (Settles Partitions)
open Math.Loop (Fault)

variable {M : Type} {n lastLane : ℕ}

/-- How the workers reduce: whether the build is one for SYCL, whether the intermediate results
are SIMD packs and not structures of them, the lanes of a pack, of which there is at least
one, the packs to a call, and the policies. -/
structure SimdReduction where
  langSycl : Bool
  isSimd : Bool
  lastLane : ℕ
  numSimdPerFnCall : ℕ
  traverse : Traverse
  layout : Layout
  deriving DecidableEq

def SimdReduction.simdWidth (config : SimdReduction) : ℕ := config.lastLane + 1

/-- A reduce functor on packs. -/
def onLanes (reduceFn : M → M → M) (first second : Fin (lastLane + 1) → M) :
    Fin (lastLane + 1) → M :=
  fun lane => reduceFn (first lane) (second lane)

section Code

variable {T : Type}

/-- The pack that the transform functor makes of the SIMD pointers of a call, lane by lane. -/
def executeDoTransform (transform : Call T n → ℕ → M) (dataIdx : Vec T (n + 1)) :
    Fin (lastLane + 1) → M :=
  fun lane => transform ⟨dataIdx, lastLane + 1⟩ lane

/-- The packs of a call are reduced among themselves first, which needs registers for all of
them. -/
def executeReduce (langSycl : Bool) (reduceFn : M → M → M) (transform : Call T n → ℕ → M)
    (ids : List (Vec T (n + 1))) (several : 0 < ids.length) : Fin (lastLane + 1) → M :=
  reduceRange langSycl (onLanes reduceFn) (fun i : Fin ids.length =>
    executeDoTransform transform ids[i]) 0 ids.length several le_rfl

/-- The packs of a call are reduced into the result one by one. -/
def executeReduceInto (reduceFn : M → M → M) (transform : Call T n → ℕ → M)
    (ids : List (Vec T (n + 1))) (result : Fin (lastLane + 1) → M) : Fin (lastLane + 1) → M :=
  ids.foldl (fun result dataIdx =>
    onLanes reduceFn result (executeDoTransform transform dataIdx)) result

def reduceNextSimdized (langSycl isSimd : Bool) (reduceFn : M → M → M)
    (transform : Call T n → ℕ → M) (ids : List (Vec T (n + 1)))
    (tmpReturn : Fin (lastLane + 1) → M) : Fin (lastLane + 1) → M :=
  if isSimd then
    if several : 0 < ids.length then
      onLanes reduceFn tmpReturn (executeReduce langSycl reduceFn transform ids several)
    else tmpReturn
  else executeReduceInto reduceFn transform ids tmpReturn

variable [Add T] [Sub T] [Mul T] [Div T] [Mod T] [LT T] [DecidableLT T] [LE T] [DecidableLE T]
  [OfNat T 0] [OfNat T 1] [DecidableEq T] [IdxValue T]

def reduceSimdPackExecution (config : SimdReduction) (neutralElement : M) (reduceFn : M → M → M)
    (transform : Call T n → ℕ → M) (workGroup : ThreadSpace T (n + 1))
    (numElements : Vec T (n + 1)) (fuel : ℕ) : Except Fault M := do
  let bursts ← simdPackBursts config.simdWidth config.numSimdPerFnCall config.traverse
    config.layout workGroup numElements fuel
  let simdizedReducedValue : Fin (config.lastLane + 1) → M :=
    bursts.foldl (fun result ids =>
      reduceNextSimdized config.langSycl config.isSimd reduceFn transform ids result)
      fun _ => neutralElement
  let rest ← remainderIdxs config.simdWidth config.numSimdPerFnCall config.traverse
    config.layout workGroup numElements fuel
  let simdizedReducedValue := rest.foldl (fun result idx =>
    Function.update result 0 (reduceFn (result 0) (transform ⟨idx, 1⟩ 0))) simdizedReducedValue
  return Simd.reduceRange config.langSycl reduceFn simdizedReducedValue

def transformReduce (config : SimdReduction) (neutralElement : M) (reduceFn : M → M → M)
    (transform : Call T n → ℕ → M) (workGroup : ThreadSpace T (n + 1)) (extents : Vec T (n + 1))
    (fuel : ℕ) : Except Fault M :=
  if config.simdWidth ≠ 1 then
    reduceSimdPackExecution config neutralElement reduceFn transform workGroup extents fuel
  else do
    let idxs ← (makeIdxMap workGroup (IdxRange.ofExtents extents) config.traverse
      config.layout).run fuel
    return idxs.foldl (fun result idx => reduceFn result (transform ⟨idx, 1⟩ 0)) neutralElement

end Code

section Sums

variable {T : Type} [AddCommMonoid M]

/-- What a call contributes: the sum of its lanes. -/
def Call.sumOf (transform : Call T n → ℕ → M) (call : Call T n) : M :=
  ∑ lane ∈ Finset.range call.width, transform call lane

/-- A call of a single element. -/
theorem Call.sumOf_single (transform : Call T n → ℕ → M) (idx : Vec T (n + 1)) :
    Call.sumOf transform ⟨idx, 1⟩ = transform ⟨idx, 1⟩ 0 := Finset.sum_range_one _

private theorem sum_onLanes (first second : Fin (lastLane + 1) → M) :
    ∑ lane, onLanes (· + ·) first second lane = ∑ lane, first lane + ∑ lane, second lane :=
  Finset.sum_add_distrib

/-- The lanes of a transformed pack. -/
theorem sum_executeDoTransform (transform : Call T n → ℕ → M) (dataIdx : Vec T (n + 1)) :
    ∑ lane, executeDoTransform transform dataIdx (lane : Fin (lastLane + 1)) =
      Call.sumOf transform ⟨dataIdx, lastLane + 1⟩ :=
  Fin.sum_univ_eq_sum_range (fun lane => transform ⟨dataIdx, lastLane + 1⟩ lane) (lastLane + 1)

private theorem sum_executeReduceInto (transform : Call T n → ℕ → M) (ids : List (Vec T (n + 1)))
    (result : Fin (lastLane + 1) → M) :
    ∑ lane, executeReduceInto (· + ·) transform ids result lane =
      ∑ lane, result lane +
        (ids.map fun idx => Call.sumOf transform ⟨idx, lastLane + 1⟩).sum := by
  unfold executeReduceInto
  induction ids generalizing result with
  | nil => exact (add_zero _).symm
  | cons dataIdx ids ih =>
      rw [List.foldl_cons, ih, sum_onLanes, sum_executeDoTransform, List.map_cons, List.sum_cons,
        add_assoc]

/-- The packs of a call reduced among themselves, or one after the other. -/
theorem onLanes_executeReduce (langSycl : Bool) (transform : Call T n → ℕ → M)
    (ids : List (Vec T (n + 1))) (several : 0 < ids.length) (result : Fin (lastLane + 1) → M) :
    onLanes (· + ·) result (executeReduce langSycl (· + ·) transform ids several) =
      executeReduceInto (· + ·) transform ids result := by
  have assoc (first second third : Fin (lastLane + 1) → M) :
      onLanes (· + ·) (onLanes (· + ·) first second) third =
        onLanes (· + ·) first (onLanes (· + ·) second third) :=
    funext fun lane => add_assoc _ _ _
  cases ids with
  | nil => exact absurd several (Nat.lt_irrefl 0)
  | cons dataIdx ids =>
      have tree : executeReduce langSycl (· + ·) transform (dataIdx :: ids) several =
          (List.ofFn fun i : Fin ids.length => executeDoTransform transform ids[(i : ℕ)]).foldl
            (onLanes (· + ·)) (executeDoTransform transform dataIdx) :=
        reduceRange_all assoc fun i : Fin (ids.length + 1) =>
          executeDoTransform transform (dataIdx :: ids)[(i : ℕ)]
      rw [tree, List.ofFn_getElem_eq_map]
      unfold executeReduceInto
      have join := @List.foldl_assoc _ (onLanes (· + ·)) ⟨assoc⟩
        (ids.map (executeDoTransform transform)) result (executeDoTransform transform dataIdx)
      rw [List.foldl_cons, ← join, List.foldl_map]

private theorem sum_reduceNextSimdized (langSycl isSimd : Bool) (transform : Call T n → ℕ → M)
    (ids : List (Vec T (n + 1))) (result : Fin (lastLane + 1) → M) :
    ∑ lane, reduceNextSimdized langSycl isSimd (· + ·) transform ids result lane =
      ∑ lane, result lane +
        (ids.map fun idx => Call.sumOf transform ⟨idx, lastLane + 1⟩).sum := by
  unfold reduceNextSimdized
  cases isSimd with
  | true =>
      by_cases several : 0 < ids.length
      · rw [if_pos rfl, dif_pos several, onLanes_executeReduce]
        exact sum_executeReduceInto transform ids result
      · obtain rfl : ids = [] := List.eq_nil_of_length_eq_zero (Nat.eq_zero_of_not_pos several)
        exact (add_zero _).symm
  | false => exact sum_executeReduceInto transform ids result

/-- All packs of a worker. -/
private theorem sum_bursts (langSycl isSimd : Bool) (transform : Call T n → ℕ → M)
    (bursts : List (List (Vec T (n + 1)))) (result : Fin (lastLane + 1) → M) :
    ∑ lane, bursts.foldl (fun result ids =>
        reduceNextSimdized langSycl isSimd (· + ·) transform ids result) result lane =
      ∑ lane, result lane +
        (bursts.flatten.map fun idx => Call.sumOf transform ⟨idx, lastLane + 1⟩).sum := by
  induction bursts generalizing result with
  | nil => exact (add_zero _).symm
  | cons ids bursts ih =>
      rw [List.foldl_cons, ih, sum_reduceNextSimdized, List.flatten_cons, List.map_append,
        List.sum_append, add_assoc]

/-- The elements behind the packs, which go to the first lane. -/
private theorem sum_rest (transform : Call T n → ℕ → M) (rest : List (Vec T (n + 1)))
    (result : Fin (lastLane + 1) → M) :
    ∑ lane, rest.foldl (fun result idx =>
        Function.update result 0 (result 0 + transform ⟨idx, 1⟩ 0)) result lane =
      ∑ lane, result lane + (rest.map fun idx => Call.sumOf transform ⟨idx, 1⟩).sum := by
  induction rest generalizing result with
  | nil => exact (add_zero _).symm
  | cons idx rest ih =>
      have first : ∑ lane, Function.update result 0 (result 0 + transform ⟨idx, 1⟩ 0) lane =
          ∑ lane, result lane + Call.sumOf transform ⟨idx, 1⟩ := by
        rw [Fin.sum_univ_succ, Fin.sum_univ_succ, Function.update_self, add_right_comm,
          Call.sumOf_single]
        refine congrArg (result 0 + · + transform ⟨idx, 1⟩ 0)
          (Finset.sum_congr rfl fun lane _ => ?_)
        exact Function.update_of_ne (Fin.succ_ne_zero lane) _ _
      rw [List.foldl_cons, ih, first, List.map_cons, List.sum_cons, add_assoc]

/-- Adding up in a loop. -/
theorem foldl_add_sum (elements : List M) (start : M) :
    elements.foldl (· + ·) start = start + elements.sum := by
  induction elements generalizing start with
  | nil => exact (add_zero start).symm
  | cons x elements ih => rw [List.foldl_cons, ih, List.sum_cons, add_assoc]

private theorem sum_reduceRange (langSycl : Bool) (pack : Fin (lastLane + 1) → M) :
    Simd.reduceRange langSycl (· + ·) pack = ∑ lane, pack lane := by
  have folded : Simd.reduceRange langSycl (· + ·) pack =
      (List.ofFn fun lane : Fin lastLane => pack lane.succ).foldl (· + ·) (pack 0) :=
    reduceRange_all add_assoc pack
  rw [folded, foldl_add_sum, List.sum_ofFn, Fin.sum_univ_succ]

end Sums

section Workers

variable [AddCommMonoid M] {w : ℕ} {config : SimdReduction}
  {threadCount extents : Vec (BitVec w) (n + 1)}

/-- Where the calls of the workers begin. -/
def SimdReduction.begins (config : SimdReduction) (threadCount extents : Vec ℕ (n + 1)) :
    Set (Vec ℕ (n + 1)) :=
  callBegins config.simdWidth (remainderBegin config.simdWidth config.numSimdPerFnCall threadCount
    extents) extents

/-- No loop of the workers overflows, and there is room for a pack behind the last one. -/
structure SimdReduction.Fits (config : SimdReduction)
    (threadCount extents : Vec (BitVec w) (n + 1)) : Prop where
  loops : ConcurrentFits config.simdWidth config.numSimdPerFnCall config.traverse config.layout
    threadCount extents
  room : remainderBegin config.simdWidth config.numSimdPerFnCall threadCount.toNats
    extents.toNats + config.simdWidth ≤ 2 ^ w

/-- A worker reduces what its calls contribute. -/
private theorem transformReduce_calls (perFnCall : 0 < config.numSimdPerFnCall)
    (transform : Call (BitVec w) n → ℕ → M) (positive : ∀ d, 0 < threadCount d)
    (fits : config.Fits threadCount extents) {idx : Vec (BitVec w) (n + 1)}
    (member : idx ∈ box threadCount) :
    Settles (transformReduce config 0 (· + ·) transform ⟨idx, threadCount⟩ extents)
      (((concurrentCalls config.simdWidth config.numSimdPerFnCall config.traverse config.layout
        threadCount.toNats extents.toNats idx.toNats).map fun call =>
          Call.sumOf transform (Call.ofNats call)).sum) := by
  have loops := fits.loops
  unfold ConcurrentFits at loops
  unfold concurrentCalls transformReduce
  split_ifs at loops ⊢ with wide
  · have several : 2 ≤ config.simdWidth := by
      have lanes : 0 < config.simdWidth := Nat.succ_pos _
      omega
    have bursts := simdPackBursts_words positive several fits.room perFnCall loops member
    have rest := remainderIdxs_words positive loops member
    unfold reduceSimdPackExecution
    refine bursts.bind (rest.bind ?_)
    dsimp only
    rw [sum_reduceRange, sum_rest, sum_bursts, Finset.sum_const_zero, zero_add, List.map_append,
      List.sum_append, ← List.map_flatten, List.map_map, List.map_map, List.map_map, List.map_map]
    exact Settles.pure _
  · have range := toNats_ofExtents positive extents
    have proper : (IdxRange.ofExtents extents).toNats.Proper := by
      rw [range]
      exact ⟨fun _ => Nat.zero_le _, fun _ => Nat.one_pos⟩
    have representable := representable_unit proper fun d =>
      congrFun (congrArg IdxRange.strideMd range) d
    obtain ⟨yields, divides⟩ := IdxContainer.words_yield proper positive representable
      config.traverse config.layout loops member
    rw [range] at yields
    refine (yields.run divides).bind ?_
    rw [← List.foldl_map, foldl_add_sum, zero_add, List.map_map, List.map_map]
    simp only [← Call.sumOf_single]
    exact Settles.pure _

/-- **Transforming and reducing.** Where no loop overflows, all workers come to an end with the
sums over their elements, which they share out. -/
theorem transformReduce_settles (perFnCall : 0 < config.numSimdPerFnCall)
    {transform : Call (BitVec w) n → ℕ → M} (positive : ∀ d, 0 < threadCount d)
    (fits : config.Fits threadCount extents) {value : Vec ℕ (n + 1) → M}
    (lanes : ∀ call : Call ℕ n, call.dataIdx ∈ config.begins threadCount.toNats extents.toNats →
      ∀ laneId < call.width,
        call.dataIdx.rAssign (call.dataIdx.back + laneId) ∈ elements extents.toNats →
          transform (Call.ofNats call) laneId =
            value (call.dataIdx.rAssign (call.dataIdx.back + laneId))) :
    ∃ share : Vec ℕ (n + 1) → List (Vec ℕ (n + 1)),
      Partitions (threadIdxs threadCount.toNats) share (elements extents.toNats) ∧
      ∀ idx ∈ box threadCount, Settles (transformReduce config 0 (· + ·) transform
        ⟨idx, threadCount⟩ extents) ((share idx.toNats).map value).sum := by
  have exactPositive := toNats_positive positive
  have width : 0 < config.simdWidth := Nat.succ_pos _
  have cover := concurrent_calls exactPositive width perFnCall config.traverse config.layout
    extents.toNats
  refine ⟨_, cover.partitions, fun idx member => ?_⟩
  have exactMember := (toNats_box threadCount).mapsTo member
  have same : ((concurrentCalls config.simdWidth config.numSimdPerFnCall config.traverse
      config.layout threadCount.toNats extents.toNats idx.toNats).map fun call =>
        Call.sumOf transform (Call.ofNats call)).sum =
          (((concurrentCalls config.simdWidth config.numSimdPerFnCall config.traverse config.layout
            threadCount.toNats extents.toNats idx.toNats).flatMap Call.elements).map
              value).sum := by
    rw [List.map_flatMap, List.flatMap_def, List.sum_flatten, List.map_map]
    refine congrArg List.sum (List.map_congr_left fun call held => ?_)
    have begin := concurrentCalls_begin exactPositive width perFnCall exactMember held
    have inside {element : Vec ℕ (n + 1)} (listed : element ∈ call.elements) :
        element ∈ elements extents.toNats :=
      cover.partitions.sound exactMember (List.mem_flatMap.mpr ⟨call, held, listed⟩)
    have element {laneId : ℕ} (inPack : laneId < call.width) :
        call.dataIdx.rAssign (call.dataIdx.back + laneId) ∈ call.elements :=
      List.mem_map_of_mem (List.mem_range.mpr inPack)
    have summed : (call.elements.map value).sum = ∑ laneId ∈ Finset.range call.width,
        value (call.dataIdx.rAssign (call.dataIdx.back + laneId)) := by
      unfold Call.elements cells
      rw [List.map_map]
      rfl
    rw [Function.comp_apply, summed]
    refine Finset.sum_congr rfl fun laneId below => ?_
    have inPack := Finset.mem_range.mp below
    exact lanes call begin laneId inPack (inside (element inPack))
  exact same ▸ transformReduce_calls perFnCall transform positive fits member

end Workers

end Alpaka
