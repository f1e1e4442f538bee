import Alpaka.Mem.FlatIdxContainer

/-! # Flat traversal shares out the lattice

With all dimensions selected the threads share out the lattice of the range
under both layouts (`Alpaka.FlatIdxContainer.flat_partitions`). With some
dimensions selected the strided layout still does
(`Alpaka.FlatIdxContainer.strided_partitions`), but under the contiguous one the
begins and the ends of the blocks come from different numbers of workers
(`Alpaka.FlatIdxContainer.linearIndices_contiguous`).
-/

namespace Alpaka.FlatIdxContainer

variable {n k : ℕ}

/-! ## The slots of the threads -/

open ThreadSpace (mapIdx mapCount MapsBijectively)

/-- A thread's number among the threads the linear indices are shared out to. -/
def slot (threadCount : Vec ℕ (n + 1)) (selection : CSelect (k + 1) (n + 1))
    (idx : Vec ℕ (n + 1)) : ℕ :=
  linearize (Vec.swizzle (mapCount threadCount selection) selection)
    (Vec.swizzle (mapIdx threadCount selection idx) selection)

def numSlots (threadCount : Vec ℕ (n + 1)) (selection : CSelect (k + 1) (n + 1)) : ℕ :=
  ∏ i, mapCount threadCount selection (selection i)

/-- The slots are numbered without gaps. -/
theorem slot_bijOn {threadCount : Vec ℕ (n + 1)} {selection : CSelect (k + 1) (n + 1)}
    (distinct : Function.Injective selection) (maps : MapsBijectively threadCount selection) :
    Set.BijOn (slot threadCount selection) (threadIdxs threadCount)
      {number | number < numSlots threadCount selection} := by
  have numbered := (Math.MixedRadix.value_bijOn _).comp (maps.selected_bijOn distinct)
  refine numbered.congr fun idx _ => ?_
  exact (linearize_eq_value _ _).symm

/-- The thread of a container over a whole thread space. -/
def ofThread {T : Type*} (range : IdxRange T (n + 1)) (threadCount : Vec T (n + 1))
    (layout : Layout) (selection : CSelect (k + 1) (n + 1)) (idx : Vec T (n + 1)) :
    FlatIdxContainer T n k :=
  ⟨range, ⟨idx, threadCount⟩, layout, selection⟩

/-- The linear indices of a slot, from where the split among one number of workers
begins to where the split among another ends. -/
def block (total begins ends slot : ℕ) : List ℕ :=
  Math.progression (Math.blockStart total begins slot) 1
    (min (Math.blockStart total ends (slot + 1)) total)

section Threads

variable {range : IdxRange ℕ (n + 1)} {threadCount : Vec ℕ (n + 1)}
  {selection : CSelect (k + 1) (n + 1)}

/-- The fast selected dimensions keep their thread count. -/
theorem mapCount_faster (distinct : Function.Injective selection) (i : Fin k) :
    mapCount threadCount selection (selection i.succ) = threadCount (selection i.succ) := by
  rcases Nat.lt_or_ge k n with proper | full
  · have notSlow : selection i.succ ≠ selection 0 := fun same =>
      Fin.succ_ne_zero i (distinct same)
    have selected : selection i.succ ∉ ThreadSpace.unselected selection := fun outside =>
      ThreadSpace.mem_unselected.mp outside i.succ rfl
    rw [ThreadSpace.mapCount_of_lt proper]
    simp only [notSlow, ↓reduceIte, selected]
  · rw [ThreadSpace.mapCount_of_le full]

/-- The slot is the same with the original thread count, as the extent of the
slowest selected dimension has no part in a linear index. -/
theorem slot_eq (distinct : Function.Injective selection) (idx : Vec ℕ (n + 1)) :
    linearize (Vec.swizzle threadCount selection)
      (Vec.swizzle (mapIdx threadCount selection idx) selection) =
        slot threadCount selection idx := by
  unfold slot linearize
  congr 1
  funext i
  exact (mapCount_faster distinct i).symm

theorem linearIndices_strided (range : IdxRange ℕ (n + 1)) (threadCount : Vec ℕ (n + 1))
    (selection : CSelect (k + 1) (n + 1)) (idx : Vec ℕ (n + 1)) :
    (ofThread range threadCount .strided selection idx).linearIndices =
      Math.progression (slot threadCount selection idx) (numSlots threadCount selection)
        (total range selection) := by
  simp only [linearIndices, «begin», «end», ofThread, ThreadSpace.mapTo_threadCount,
    Vec.product_eq_prod]
  rfl

/-- The begin of a block is computed from the original thread count, its end
from the mapped one. -/
theorem linearIndices_contiguous (distinct : Function.Injective selection)
    (idx : Vec ℕ (n + 1)) :
    (ofThread range threadCount .contiguous selection idx).linearIndices =
      block (total range selection) (∏ i, threadCount (selection i))
        (numSlots threadCount selection) (slot threadCount selection idx) := by
  have begins : linearize (Vec.swizzle threadCount selection)
      (Vec.swizzle ((ThreadSpace.mk idx threadCount).mapTo selection).threadIdx selection) =
        slot threadCount selection idx := slot_eq distinct idx
  simp only [linearIndices, «begin», «end», ofThread, ThreadSpace.mapTo_threadCount,
    Vec.product_eq_prod, stdMin_eq_min, block, Math.blockStart]
  rw [begins]
  rfl

private theorem stride_positive (positive : ∀ d, 0 < threadCount d) (layout : Layout)
    (idx : Vec ℕ (n + 1)) :
    0 < (ofThread range threadCount layout selection idx).begin.stride := by
  cases layout with
  | strided =>
      simp only [«begin», ofThread, ThreadSpace.mapTo_threadCount, Vec.product_eq_prod]
      exact Finset.prod_pos fun i _ => ThreadSpace.mapCount_positive positive selection _
  | contiguous => exact Nat.one_pos

/-- Every thread's loop terminates, whether or not threads are lost. -/
theorem ofThread_yields (positive : ∀ d, 0 < threadCount d)
    (distinct : Function.Injective selection) (layout : Layout) {idx : Vec ℕ (n + 1)}
    (member : idx ∈ threadIdxs threadCount) :
    (ofThread range threadCount layout selection idx).loop.Yields
      (ofThread range threadCount layout selection idx).begin
      (ofThread range threadCount layout selection idx).indices :=
  yields_indices _ (stride_positive positive layout idx)
    (ThreadSpace.mapIdx_unselected distinct member) distinct

theorem ofThread_indices (positive : ∀ d, 0 < threadCount d)
    (distinct : Function.Injective selection) (layout : Layout) {idx : Vec ℕ (n + 1)}
    (member : idx ∈ threadIdxs threadCount) :
    (ofThread range threadCount layout selection idx).indices =
      (ofThread range threadCount layout selection idx).linearIndices.map
        (element range selection) :=
  indices_eq _ (stride_positive positive layout idx)
    (ThreadSpace.mapIdx_unselected distinct member) distinct

theorem numSlots_positive (positive : ∀ d, 0 < threadCount d)
    (selection : CSelect (k + 1) (n + 1)) : 0 < numSlots threadCount selection :=
  Finset.prod_pos fun _ _ => ThreadSpace.mapCount_positive positive selection _

/-- Sharing out the linear indices shares out the lattice. -/
theorem indices_partitions (proper : range.Proper) (positive : ∀ d, 0 < threadCount d)
    (distinct : Function.Injective selection) (maps : MapsBijectively threadCount selection)
    {layout : Layout} {share : ℕ → List ℕ}
    (shares : ∀ idx, (ofThread range threadCount layout selection idx).linearIndices =
      share (slot threadCount selection idx))
    (partition : Math.Partitions {number | number < numSlots threadCount selection} share
      {number | number < total range selection}) :
    Math.Partitions (threadIdxs threadCount)
      (fun idx => (ofThread range threadCount layout selection idx).indices)
      (range.lattice selection) := by
  have renamed := (partition.comp (slot_bijOn distinct maps)).map (element_bijOn proper distinct)
  refine renamed.congr_share fun idx member => ?_
  rw [ofThread_indices positive distinct layout member, shares]

theorem strided_partitions (proper : range.Proper) (positive : ∀ d, 0 < threadCount d)
    (distinct : Function.Injective selection) (maps : MapsBijectively threadCount selection) :
    Math.Partitions (threadIdxs threadCount)
      (fun idx => (ofThread range threadCount .strided selection idx).indices)
      (range.lattice selection) :=
  indices_partitions proper positive distinct maps (linearIndices_strided _ _ _)
    (Math.strided_partitions (numSlots_positive positive selection) _)

/-- When both ends of a block are computed from the same thread count, the
blocks are those of an even split. -/
theorem block_same {total workers slot : ℕ} (member : slot < workers) :
    block total workers workers slot = Math.progression (Math.blockStart total workers slot) 1
      (Math.blockStart total workers (slot + 1)) := by
  unfold block
  rw [Nat.min_eq_left (Math.blockStart_le (Nat.zero_lt_of_lt member) total member)]

/-- With as many begins as ends the blocks share out the lattice. -/
theorem contiguous_partitions (proper : range.Proper) (positive : ∀ d, 0 < threadCount d)
    (distinct : Function.Injective selection) (maps : MapsBijectively threadCount selection)
    (same : ∏ i, threadCount (selection i) = numSlots threadCount selection) :
    Math.Partitions (threadIdxs threadCount)
      (fun idx => (ofThread range threadCount .contiguous selection idx).indices)
      (range.lattice selection) := by
  have even := Math.blocks_partitions (numSlots_positive positive selection)
    (total range selection)
  refine indices_partitions proper positive distinct maps (linearIndices_contiguous distinct) ?_
  rw [same]
  exact even.congr_share fun slot member => block_same member

/-- When the lattice is a multiple of the slots and the begins are right, every
thread visits as many indices as any other. -/
theorem length_indices (positive : ∀ d, 0 < threadCount d)
    (distinct : Function.Injective selection) (maps : MapsBijectively threadCount selection)
    (same : ∏ i, threadCount (selection i) = numSlots threadCount selection) (layout : Layout)
    {idx : Vec ℕ (n + 1)} (member : idx ∈ threadIdxs threadCount) {rounds : ℕ}
    (even : total range selection = rounds * numSlots threadCount selection) :
    (ofThread range threadCount layout selection idx).indices.length = rounds := by
  have slotIn := (slot_bijOn distinct maps).mapsTo member
  rw [ofThread_indices positive distinct layout member, List.length_map]
  cases layout with
  | strided => rw [linearIndices_strided, even, Math.length_progression_strided slotIn]
  | contiguous =>
      rw [linearIndices_contiguous distinct, same, even, block_same slotIn,
        Math.length_progression_one, Math.blockStart_mul (numSlots_positive positive selection),
        Math.blockStart_mul (numSlots_positive positive selection), Nat.succ_mul,
        Nat.add_sub_cancel_left]

/-- The order of the elements is that of their linear indices. -/
theorem element_lt_iff (proper : range.Proper) (distinct : Function.Injective selection)
    {first second : ℕ} (firstBelow : first < total range selection)
    (secondBelow : second < total range selection) :
    toLex (Vec.swizzle (element range selection first) selection) <
      toLex (Vec.swizzle (element range selection second) selection) ↔ first < second := by
  have forward {a b : ℕ} (aBelow : a < total range selection) (bBelow : b < total range selection)
      (before : a < b) : toLex (Vec.swizzle (element range selection a) selection) <
        toLex (Vec.swizzle (element range selection b) selection) := by
    obtain ⟨i, agree, smaller⟩ := (Math.MixedRadix.place_lt_place_iff aBelow bBelow).mpr before
    have component (number : ℕ) (j : Fin (k + 1)) :
        Vec.swizzle (element range selection number) selection j =
          range.beginMd (selection j) +
            Math.MixedRadix.place (range.logicalExtent selection) number j *
              range.strideMd (selection j) := range.point_selected distinct _ j
    refine ⟨i, fun j earlier => ?_, ?_⟩
    · have digit : Math.MixedRadix.place (range.logicalExtent selection) a j =
          Math.MixedRadix.place (range.logicalExtent selection) b j := agree j earlier
      simp only [Pi.toLex_apply, component, digit]
    · have digit : Math.MixedRadix.place (range.logicalExtent selection) a i <
          Math.MixedRadix.place (range.logicalExtent selection) b i := smaller
      simp only [Pi.toLex_apply, component]
      exact Nat.add_lt_add_left (Nat.mul_lt_mul_of_pos_right digit (proper.positive _)) _
  refine ⟨fun before => ?_, forward firstBelow secondBelow⟩
  by_contra notBefore
  rcases Nat.lt_or_eq_of_le (not_lt.mp notBefore) with after | same
  · exact lt_asymm before (forward secondBelow firstBelow after)
  · subst same
    exact lt_irrefl _ before

private theorem element_le_iff (proper : range.Proper) (distinct : Function.Injective selection)
    {first second : ℕ} (firstBelow : first < total range selection)
    (secondBelow : second < total range selection) :
    toLex (Vec.swizzle (element range selection first) selection) ≤
      toLex (Vec.swizzle (element range selection second) selection) ↔ first ≤ second :=
  not_lt.symm.trans
    ((element_lt_iff proper distinct secondBelow firstBelow).not.trans not_lt)

end Threads

/-- The sequence runs through one interval of the row-major order of the
lattice, the selected dimensions taken in the order in which they are listed. -/
structure RowMajorInterval (range : IdxRange ℕ (n + 1)) (selection : CSelect (k + 1) (n + 1))
    (visited : List (Vec ℕ (n + 1))) : Prop where
  increasing : visited.Pairwise fun x y =>
    toLex (Vec.swizzle x selection) < toLex (Vec.swizzle y selection)
  convex : ∀ x ∈ visited, ∀ z ∈ visited, ∀ y ∈ range.lattice selection,
    toLex (Vec.swizzle x selection) ≤ toLex (Vec.swizzle y selection) →
      toLex (Vec.swizzle y selection) ≤ toLex (Vec.swizzle z selection) → y ∈ visited

private theorem rowMajorInterval_map {range : IdxRange ℕ (n + 1)} (proper : range.Proper)
    {selection : CSelect (k + 1) (n + 1)} (distinct : Function.Injective selection)
    {first stop : ℕ} (within : stop ≤ total range selection) :
    RowMajorInterval range selection
      ((Math.progression first 1 stop).map (element range selection)) where
  increasing := by
    rw [List.pairwise_map]
    apply (Math.progression_pairwise Nat.one_pos).imp_of_mem
    intro x y xIn yIn before
    have xBelow := (Math.mem_progression_one.mp xIn).2
    have yBelow := (Math.mem_progression_one.mp yIn).2
    exact (element_lt_iff proper distinct (by omega) (by omega)).mpr before
  convex := by
    intro x xIn z zIn y member fromX toZ
    obtain ⟨a, aIn, rfl⟩ := List.mem_map.mp xIn
    obtain ⟨c, cIn, rfl⟩ := List.mem_map.mp zIn
    obtain ⟨b, bBelow, rfl⟩ := (element_bijOn proper distinct).surjOn member
    have aBounds := Math.mem_progression_one.mp aIn
    have cBounds := Math.mem_progression_one.mp cIn
    have aLe := (element_le_iff proper distinct (by omega) bBelow).mp fromX
    have leC := (element_le_iff proper distinct bBelow (by omega)).mp toZ
    exact List.mem_map.mpr ⟨b, Math.mem_progression_one.mpr ⟨by omega, by omega⟩, rfl⟩

/-- **Flat traversal.** With all dimensions selected, in any order, the threads
share out the lattice of the range; contiguous threads each take one interval of
the row-major order, and the intervals are of equal length up to one. -/
theorem flat_partitions {range : IdxRange ℕ (n + 1)} (proper : range.Proper)
    {threadCount : Vec ℕ (n + 1)} (positive : ∀ d, 0 < threadCount d)
    {selection : CSelect (n + 1) (n + 1)} (distinct : Function.Injective selection)
    (layout : Layout) :
    (∀ idx ∈ threadIdxs threadCount,
      (ofThread range threadCount layout selection idx).loop.Yields
        (ofThread range threadCount layout selection idx).begin
        (ofThread range threadCount layout selection idx).indices) ∧
    Math.Partitions (threadIdxs threadCount)
      (fun idx => (ofThread range threadCount layout selection idx).indices)
      (range.lattice selection) ∧
    (layout = .contiguous →
      (∀ idx ∈ threadIdxs threadCount, RowMajorInterval range selection
        (ofThread range threadCount layout selection idx).indices) ∧
      ∀ first ∈ threadIdxs threadCount, ∀ second ∈ threadIdxs threadCount,
        (ofThread range threadCount layout selection first).indices.length ≤
          (ofThread range threadCount layout selection second).indices.length + 1) := by
  have maps : MapsBijectively threadCount selection :=
    ThreadSpace.mapsBijectively_of_full distinct le_rfl threadCount
  have same : ∏ i, threadCount (selection i) = numSlots threadCount selection := by
    simp only [numSlots, ThreadSpace.mapCount_of_le le_rfl]
  have blocks {idx : Vec ℕ (n + 1)} (member : idx ∈ threadIdxs threadCount) :
      (ofThread range threadCount .contiguous selection idx).indices =
        (Math.progression
          (Math.blockStart (total range selection) (numSlots threadCount selection)
            (slot threadCount selection idx)) 1
          (Math.blockStart (total range selection) (numSlots threadCount selection)
            (slot threadCount selection idx + 1))).map (element range selection) := by
    rw [ofThread_indices positive distinct _ member, linearIndices_contiguous distinct, same,
      block_same ((slot_bijOn distinct maps).mapsTo member)]
  refine ⟨fun idx member => ofThread_yields positive distinct layout member, ?_, ?_⟩
  · cases layout with
    | strided => exact strided_partitions proper positive distinct maps
    | contiguous => exact contiguous_partitions proper positive distinct maps same
  · intro contiguous
    subst contiguous
    refine ⟨fun idx member => ?_, fun first firstIn second secondIn => ?_⟩
    · rw [blocks member]
      exact rowMajorInterval_map proper distinct (Math.blockStart_le
        (numSlots_positive positive selection) _ ((slot_bijOn distinct maps).mapsTo member))
    · rw [blocks firstIn, blocks secondIn, List.length_map, List.length_map,
        Math.length_progression_one, Math.length_progression_one, Math.blockStart_succ,
        Math.blockStart_succ]
      split <;> split <;> omega

/-- A strided two-dimensional range over a two by two block of threads, the fast
dimension listed first. -/
theorem flat_partitions_twoByTwo :
    Math.Partitions (threadIdxs ![2, 2])
      (fun idx => (ofThread ⟨![1, 0], ![6, 3], ![2, 1]⟩ ![2, 2] .contiguous
        (![1, 0] : CSelect 2 2) idx).indices)
      (IdxRange.lattice ⟨![1, 0], ![6, 3], ![2, 1]⟩ (![1, 0] : CSelect 2 2)) :=
  (flat_partitions (⟨by decide, by decide⟩ : IdxRange.Proper ⟨![1, 0], ![6, 3], ![2, 1]⟩)
    (by decide) (by decide) .contiguous).2.1

end Alpaka.FlatIdxContainer
