import Alpaka.Math.Loop
import Alpaka.Mem.IdxRange
import Alpaka.Mem.ThreadSpace

/-! # Flat traversal

The selected dimensions are linearized and the linear indices are shared out
among the threads, either strided by the number of threads or in contiguous
blocks. `begin` and `end` each compute the thread's slot and block from the
thread space. `begin` does so with the original thread count of the selected
dimensions where `end` takes the mapped one; the two agree when nothing is
folded into the selection.
-/

namespace Alpaka

/-- `T_CSelect` is the selection of dimensions the container iterates over. -/
structure FlatIdxContainer (T : Type*) (n k : ℕ) where
  idxRange : IdxRange T (n + 1)
  threadSpace : ThreadSpace T (n + 1)
  layout : Layout
  selection : CSelect (k + 1) (n + 1)

namespace FlatIdxContainer

variable {T : Type*} {n k : ℕ}

structure ConstIterator (T : Type*) (n k : ℕ) where
  offsetMD : Vec T (n + 1)
  current : T
  endIdx : T
  stride : T
  extentMD : Vec T (k + 1)
  strideMD : Vec T (k + 1)

/-- The iterator's `operator*`. -/
def ConstIterator.deref [Add T] [Sub T] [Mul T] [Div T] (selection : CSelect (k + 1) (n + 1))
    (iterator : ConstIterator T n k) : Vec T (n + 1) :=
  Vec.refAssign (· + ·) iterator.offsetMD selection fun i =>
    mapToND iterator.extentMD iterator.current i * iterator.strideMD i

/-- The iterator's `operator++`. -/
def ConstIterator.next [Add T] (iterator : ConstIterator T n k) : ConstIterator T n k :=
  { iterator with current := iterator.current + iterator.stride }

section Code

variable [Add T] [Sub T] [Mul T] [Div T] [Mod T] [LT T] [DecidableLT T] [LE T] [DecidableLE T]
  [OfNat T 0] [OfNat T 1]

def «begin» (container : FlatIdxContainer T n k) : ConstIterator T n k :=
  let selectedDims := container.selection
  let mapped := container.threadSpace.mapTo selectedDims
  let threadIdx := mapped.threadIdx
  let numThreads := mapped.threadCount
  let groupOffset : Vec T (n + 1) := fun d => threadIdx d * container.idxRange.strideMd d
  let groupOffset := Vec.refAssign (· - ·) groupOffset selectedDims
    (Vec.swizzle groupOffset selectedDims)
  let first : Vec T (n + 1) := fun d => container.idxRange.beginMd d + groupOffset d
  let strideMD := Vec.swizzle container.idxRange.strideMd selectedDims
  let extentMD : Vec T (k + 1) := fun i =>
    divCeil (Vec.swizzle container.idxRange.distance selectedDims i) (strideMD i)
  match container.layout with
  | .strided =>
      let linearCurrent := linearize (Vec.swizzle numThreads selectedDims)
        (Vec.swizzle threadIdx selectedDims)
      let linearStride := Vec.product (Vec.swizzle numThreads selectedDims)
      ⟨first, linearCurrent, Vec.product extentMD, linearStride, extentMD, strideMD⟩
  | .contiguous =>
      -- the thread count is taken from the space as it was before mapping
      let threadCountMD := Vec.swizzle container.threadSpace.threadCount selectedDims
      let numWorkerSlots := Vec.product threadCountMD
      let linearSlotIdx := linearize threadCountMD (Vec.swizzle threadIdx selectedDims)
      let logicalExtent := Vec.product extentMD
      let base := logicalExtent / numWorkerSlots
      let rem := logicalExtent % numWorkerSlots
      let nextLinearSlotIdx := linearSlotIdx + 1
      let linearCurrent := linearSlotIdx * base + stdMin linearSlotIdx rem
      let linearEnd := nextLinearSlotIdx * base + stdMin nextLinearSlotIdx rem
      ⟨first, linearCurrent, stdMin linearEnd logicalExtent, 1, extentMD, strideMD⟩

/-- The value held by the end iterator. -/
def «end» (container : FlatIdxContainer T n k) : T :=
  let selectedDims := container.selection
  let mapped := container.threadSpace.mapTo selectedDims
  let threadIdx := mapped.threadIdx
  let numThreads := mapped.threadCount
  let strideMD := Vec.swizzle container.idxRange.strideMd selectedDims
  let extentMD : Vec T (k + 1) := fun i =>
    divCeil (Vec.swizzle container.idxRange.distance selectedDims i) (strideMD i)
  match container.layout with
  | .strided => Vec.product extentMD
  | .contiguous =>
      let numWorkerSlots := Vec.product (Vec.swizzle numThreads selectedDims)
      let linearSlotIdx := linearize (Vec.swizzle numThreads selectedDims)
        (Vec.swizzle threadIdx selectedDims)
      let logicalExtent := Vec.product extentMD
      let base := logicalExtent / numWorkerSlots
      let rem := logicalExtent % numWorkerSlots
      let nextLinearSlotIdx := linearSlotIdx + 1
      let linearEnd := nextLinearSlotIdx * base + stdMin nextLinearSlotIdx rem
      stdMin linearEnd logicalExtent

/-- The loop over the container: the iterator has reached the end when its
linear index is not below the end's. -/
def loop (container : FlatIdxContainer T n k) :
    Math.Loop (ConstIterator T n k) (Vec T (n + 1)) where
  done := fun iterator => decide (container.end ≤ iterator.current)
  deref := ConstIterator.deref container.selection
  next := ConstIterator.next

/-- A contiguous container divides by the numbers of worker slots that `begin` and `end`
compute. -/
def Divides (container : FlatIdxContainer T n k) : Prop :=
  Vec.product (Vec.swizzle container.threadSpace.threadCount container.selection) ≠ 0 ∧
    Vec.product (Vec.swizzle (container.threadSpace.mapTo container.selection).threadCount
      container.selection) ≠ 0

/-- `operator[]`: the container restricted to the given dimensions. -/
def select {l : ℕ} (container : FlatIdxContainer T n k) (iterDir : CSelect (l + 1) (n + 1)) :
    FlatIdxContainer T n l :=
  ⟨container.idxRange, container.threadSpace, container.layout, iterDir⟩

end Code

/-- The indices the container yields, computed with as much fuel as a traversal
with unit stride needs. -/
def indices (container : FlatIdxContainer ℕ n k) : List (Vec ℕ (n + 1)) :=
  (container.loop.run (container.end + 1) container.begin).getD []

/-! ## The indices of one thread -/

/-- How many indices the container has. -/
def total (range : IdxRange ℕ (n + 1)) (selection : CSelect (k + 1) (n + 1)) : ℕ :=
  ∏ i, range.logicalExtent selection i

/-- The index with a given linear index, in row-major order of the selected
dimensions. -/
def element (range : IdxRange ℕ (n + 1)) (selection : CSelect (k + 1) (n + 1)) (number : ℕ) :
    Vec ℕ (n + 1) :=
  range.point selection (Math.MixedRadix.place (range.logicalExtent selection) number)

theorem element_bijOn {range : IdxRange ℕ (n + 1)} (proper : range.Proper)
    {selection : CSelect (k + 1) (n + 1)} (distinct : Function.Injective selection) :
    Set.BijOn (element range selection) {number | number < total range selection}
      (range.lattice selection) :=
  (IdxRange.point_bijOn proper distinct).comp (Math.MixedRadix.place_bijOn _)

/-- The linear indices between the begin and the end of a container. -/
def linearIndices (container : FlatIdxContainer ℕ n k) : List ℕ :=
  Math.progression container.begin.current container.begin.stride container.end

/-- A thread without coordinates in the unselected dimensions starts at the
begin of the range. -/
theorem begin_offsetMD (container : FlatIdxContainer ℕ n k)
    (folded : ∀ d, (∀ i, container.selection i ≠ d) →
      (container.threadSpace.mapTo container.selection).threadIdx d = 0)
    (distinct : Function.Injective container.selection) :
    container.begin.offsetMD = container.idxRange.beginMd := by
  unfold «begin»
  cases container.layout <;>
  · funext d
    by_cases selected : ∃ i, container.selection i = d
    · obtain ⟨i, rfl⟩ := selected
      simp only [Vec.refAssign_selected _ _ distinct, Vec.swizzle, Nat.sub_self, Nat.add_zero]
    · have outside : ∀ i, container.selection i ≠ d := fun i same => selected ⟨i, same⟩
      simp only [Vec.refAssign_of_not_mem _ _ _ _ _ outside, folded d outside, Nat.zero_mul,
        Nat.add_zero]

private theorem begin_extentMD (container : FlatIdxContainer ℕ n k) :
    container.begin.extentMD = container.idxRange.logicalExtent container.selection := by
  unfold «begin»
  cases container.layout <;> rfl

private theorem begin_strideMD (container : FlatIdxContainer ℕ n k) :
    container.begin.strideMD = Vec.swizzle container.idxRange.strideMd container.selection := by
  unfold «begin»
  cases container.layout <;> rfl

/-- Dereferencing the iterator gives the element with the current linear
index. -/
theorem deref_begin (container : FlatIdxContainer ℕ n k)
    (folded : ∀ d, (∀ i, container.selection i ≠ d) →
      (container.threadSpace.mapTo container.selection).threadIdx d = 0)
    (distinct : Function.Injective container.selection) (number : ℕ) :
    ConstIterator.deref container.selection { container.begin with current := number } =
      element container.idxRange container.selection number := by
  unfold ConstIterator.deref element IdxRange.point
  simp only [begin_offsetMD container folded distinct, begin_extentMD, begin_strideMD,
    mapToND_eq_place, Vec.swizzle]

/-- The loop over the container terminates and visits the elements between its
begin and its end. -/
theorem run_loop (container : FlatIdxContainer ℕ n k) (positive : 0 < container.begin.stride)
    (folded : ∀ d, (∀ i, container.selection i ≠ d) →
      (container.threadSpace.mapTo container.selection).threadIdx d = 0)
    (distinct : Function.Injective container.selection) (fuel : ℕ)
    (enough : container.end < fuel) :
    container.loop.run fuel container.begin =
      some (container.linearIndices.map (element container.idxRange container.selection)) := by
  have below := Math.lt_length_progression_iff positive container.begin.current container.end
  have few : container.linearIndices.length ≤ container.end := by
    by_contra many
    have last := (below container.end).mp (not_le.mp many)
    have grown : container.end ≤ container.end * container.begin.stride :=
      Nat.le_mul_of_pos_right _ positive
    omega
  have visited := container.loop.run_of_states
    (fun step => { container.begin with
      current := container.begin.current + step * container.begin.stride })
    container.linearIndices.length
    (fun step _ => by simp only [loop, ConstIterator.next, Nat.succ_mul, Nat.add_assoc])
    (fun step running => decide_eq_false (not_le.mpr ((below step).mp running)))
    (decide_eq_true (not_lt.mp (mt (below _).mpr (lt_irrefl _))))
    fuel (few.trans_lt enough)
  simp only [Nat.zero_mul, Nat.add_zero] at visited
  have elements := congrArg (List.map (element container.idxRange container.selection))
    (Math.progression_eq container.begin.current container.begin.stride container.end)
  rw [List.map_map] at elements
  rw [visited, linearIndices, elements]
  simp only [loop, deref_begin container folded distinct, Function.comp_def]

/-- The loop of a thread terminates with the elements between its begin and its
end. -/
theorem indices_eq (container : FlatIdxContainer ℕ n k) (positive : 0 < container.begin.stride)
    (folded : ∀ d, (∀ i, container.selection i ≠ d) →
      (container.threadSpace.mapTo container.selection).threadIdx d = 0)
    (distinct : Function.Injective container.selection) :
    container.indices =
      container.linearIndices.map (element container.idxRange container.selection) := by
  rw [indices, container.run_loop positive folded distinct _ (Nat.lt_succ_self _)]
  rfl

theorem yields_indices (container : FlatIdxContainer ℕ n k)
    (positive : 0 < container.begin.stride)
    (folded : ∀ d, (∀ i, container.selection i ≠ d) →
      (container.threadSpace.mapTo container.selection).threadIdx d = 0)
    (distinct : Function.Injective container.selection) :
    container.loop.Yields container.begin container.indices :=
  ⟨container.end + 1, fun fuel enough => by
    rw [container.indices_eq positive folded distinct]
    exact container.run_loop positive folded distinct fuel enough⟩

end FlatIdxContainer

end Alpaka
