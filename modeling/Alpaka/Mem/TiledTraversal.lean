import Alpaka.Mem.TiledIdxContainer

/-! # Tiled traversal shares out the lattice

In every selected dimension the threads of that dimension share out the lattice
positions; the odometer of a thread visits the tuples of its positions. A thread
with nothing to do in some dimension visits nothing.
-/

namespace Alpaka.TiledIdxContainer

open ThreadSpace (mapIdx mapCount MapsBijectively)

variable {n k : ℕ}

/-- The thread of a container over a whole thread space. -/
def ofThread (range : IdxRange ℕ (n + 1)) (threadCount : Vec ℕ (n + 1)) (layout : Layout)
    (selection : CSelect (k + 1) (n + 1)) (idx : Vec ℕ (n + 1)) : TiledIdxContainer ℕ n k :=
  ⟨range, ⟨idx, threadCount⟩, layout, selection⟩

/-- The indices the container yields, computed with as much fuel as a traversal
of the whole lattice needs. -/
def indices (container : TiledIdxContainer ℕ n k) : List (Vec ℕ (n + 1)) :=
  (container.loop.run ((∏ i, container.idxRange.logicalExtent container.selection i) + 1)
    container.begin).getD []

/-- The bound of a thread in one dimension, relative to the begin of the
range. -/
def shareExtent (range : IdxRange ℕ (n + 1)) (layout : Layout) (workers worker : ℕ)
    (d : Fin (n + 1)) : ℕ :=
  match layout with
  | .strided => range.distance d
  | .contiguous => min (range.distance d)
      (shareStop .contiguous (range.logicalExtent id d) workers worker * range.strideMd d)

/-- Cropping to the end of the range keeps exactly the positions below the
bound. -/
theorem lt_shareExtent_iff {range : IdxRange ℕ (n + 1)} (proper : range.Proper) (layout : Layout)
    {workers worker : ℕ} (member : worker < workers) (d : Fin (n + 1)) (position : ℕ) :
    position * range.strideMd d < shareExtent range layout workers worker d ↔
      position < shareStop layout (range.logicalExtent id d) workers worker := by
  have inside := IdxRange.lt_logicalExtent_iff proper id d position
  have ordered := proper.ordered d
  have distance : range.distance d = range.endMd d - range.beginMd d := rfl
  simp only [id_eq] at inside
  cases layout with
  | strided =>
      simp only [shareExtent, shareStop, distance]
      omega
  | contiguous =>
      have within := shareStop_le .contiguous (range.logicalExtent id d) member
      have scaled : position * range.strideMd d <
          shareStop .contiguous (range.logicalExtent id d) workers worker * range.strideMd d ↔
            position < shareStop .contiguous (range.logicalExtent id d) workers worker :=
        Nat.mul_lt_mul_right (proper.positive d)
      simp only [shareExtent, lt_min_iff, scaled, distance]
      omega

section Thread

variable {range : IdxRange ℕ (n + 1)} {threadCount : Vec ℕ (n + 1)}
  {selection : CSelect (k + 1) (n + 1)}

theorem begin_eq (range : IdxRange ℕ (n + 1)) (threadCount : Vec ℕ (n + 1)) (layout : Layout)
    (selection : CSelect (k + 1) (n + 1)) (idx : Vec ℕ (n + 1)) :
    (ofThread range threadCount layout selection idx).begin =
      ConstIterator.make selection range.beginMd
        (fun d => shareStart layout (range.logicalExtent id d) (mapCount threadCount selection d)
          (mapIdx threadCount selection idx d) * range.strideMd d)
        (fun d => shareExtent range layout (mapCount threadCount selection d)
          (mapIdx threadCount selection idx d) d)
        (fun d => shareStep layout (mapCount threadCount selection d) * range.strideMd d) := by
  cases layout with
  | strided =>
      simp only [«begin», ofThread, ThreadSpace.mapTo_threadCount]
      rfl
  | contiguous =>
      simp only [«begin», ofThread, ThreadSpace.mapTo_threadCount, stdMin_eq_min, shareStep,
        Nat.one_mul]
      rfl

theorem end_eq (range : IdxRange ℕ (n + 1)) (threadCount : Vec ℕ (n + 1)) (layout : Layout)
    (selection : CSelect (k + 1) (n + 1)) (idx : Vec ℕ (n + 1)) :
    (ofThread range threadCount layout selection idx).end =
      range.beginMd (selection 0) +
        shareExtent range layout (mapCount threadCount selection (selection 0))
          (mapIdx threadCount selection idx (selection 0)) (selection 0) := by
  cases layout with
  | strided => rfl
  | contiguous =>
      simp only [«end», ofThread, ThreadSpace.mapTo_threadCount, stdMin_eq_min]
      rfl

/-- The constructor's check holds exactly when no faster dimension is out of
range. -/
theorem isIndexValid_iff {T : Type*} [LT T] [DecidableLT T] (reduced extent : Vec T k) :
    Fin.foldl k (fun valid d => valid && decide (reduced d < extent d)) true = true ↔
      ∀ d, reduced d < extent d := by
  induction k with
  | zero => simp
  | succ k ih =>
      rw [Fin.foldl_succ_last, Bool.and_eq_true, decide_eq_true_eq]
      rw [ih (fun d => reduced d.castSucc) (fun d => extent d.castSucc), Fin.forall_fin_succ']

section Make

variable {T : Type*} [Add T] [LT T] [DecidableLT T]

theorem make_current_of_below {offset first extent stride : Vec T (n + 1)}
    (below : ∀ i : Fin k, first (selection i.succ) + offset (selection i.succ) <
      extent (selection i.succ) + offset (selection i.succ)) :
    (ConstIterator.make selection offset first extent stride).current =
      fun d => first d + offset d := by
  unfold ConstIterator.make
  dsimp only
  rw [if_pos]
  exact (isIndexValid_iff _ _).mpr below

theorem make_current_of_beyond {offset first extent stride : Vec T (n + 1)} {i : Fin k}
    (beyond : ¬ first (selection i.succ) + offset (selection i.succ) <
      extent (selection i.succ) + offset (selection i.succ)) :
    (ConstIterator.make selection offset first extent stride).current (selection 0) =
      extent (selection 0) + offset (selection 0) := by
  unfold ConstIterator.make
  dsimp only
  rw [if_neg, Function.update_self]
  · rfl
  · intro valid
    exact beyond ((isIndexValid_iff _ _).mp valid i)

end Make

/-- How many positions a thread has in every selected dimension. -/
def shareLengths (layout : Layout) (extent workers worker : Vec ℕ (k + 1)) : Vec ℕ (k + 1) :=
  fun i => (share layout (extent i) (workers i) (worker i)).length

/-- The positions a thread visits. -/
def visited (layout : Layout) (extent workers worker : Vec ℕ (k + 1)) : List (Vec ℕ (k + 1)) :=
  positions (fun i => shareStart layout (extent i) (workers i) (worker i))
    (fun i => shareStep layout (workers i)) (shareLengths layout extent workers worker)

private theorem mem_visited (layout : Layout) (extent workers worker x : Vec ℕ (k + 1)) :
    x ∈ visited layout extent workers worker ↔
      ∀ i, x i ∈ share layout (extent i) (workers i) (worker i) := by
  rw [visited, mem_positions]
  refine forall_congr' fun i => ?_
  simp only [share, shareLengths, Math.progression, List.mem_map, List.mem_range,
    List.length_map, List.length_range]
  exact exists_congr fun count => and_congr_right fun _ => eq_comm

/-- The tuples of positions are shared out because the positions of every
dimension are. -/
theorem visited_partitions (layout : Layout) (extent workers : Vec ℕ (k + 1))
    (positive : ∀ i, 0 < workers i) :
    Math.Partitions {worker | ∀ i, worker i < workers i} (visited layout extent workers)
      {x | ∀ i, x i < extent i} :=
  Math.Partitions.pi (fun i => share_partitions layout (positive i) (extent i))
    (fun _ _ => positions_nodup fun i => shareStep_positive layout (positive i))
    (fun worker _ x => mem_visited layout extent workers worker x)

/-- A position below the bound of a thread is one of its steps. -/
theorem lt_shareLengths_iff (layout : Layout) (extent workers worker : Vec ℕ (k + 1))
    {i : Fin (k + 1)} (positive : 0 < workers i) (count : ℕ) :
    shareStart layout (extent i) (workers i) (worker i) + count * shareStep layout (workers i) <
        shareStop layout (extent i) (workers i) (worker i) ↔
      count < shareLengths layout extent workers worker i := by
  exact (Math.lt_length_progression_iff (shareStep_positive layout positive) _ _ _).symm

/-- A dimension holds something for a thread when its first position is below
its bound. -/
theorem shareLengths_positive_iff (layout : Layout) (extent workers worker : Vec ℕ (k + 1))
    {i : Fin (k + 1)} (positive : 0 < workers i) :
    0 < shareLengths layout extent workers worker i ↔
      shareStart layout (extent i) (workers i) (worker i) <
        shareStop layout (extent i) (workers i) (worker i) := by
  rw [← lt_shareLengths_iff layout extent workers worker positive 0]
  simp only [Nat.zero_mul, Nat.add_zero]

/-- No thread has more positions in a dimension than there are. -/
theorem shareLengths_le (layout : Layout) (extent workers worker : Vec ℕ (k + 1))
    {i : Fin (k + 1)} (member : worker i < workers i) :
    shareLengths layout extent workers worker i ≤ extent i := by
  by_contra many
  have positive := Nat.zero_lt_of_lt member
  have last :=
    (lt_shareLengths_iff layout extent workers worker positive (extent i)).mpr (not_le.mp many)
  have within := shareStop_le layout (extent i) member
  have grown := Nat.le_mul_of_pos_right (extent i) (shareStep_positive layout positive)
  omega

/-- How many positions a mapped thread has in every selected dimension. -/
def threadLengths (range : IdxRange ℕ (n + 1)) (threadCount : Vec ℕ (n + 1)) (layout : Layout)
    (selection : CSelect (k + 1) (n + 1)) (idx : Vec ℕ (n + 1)) : Vec ℕ (k + 1) :=
  shareLengths layout (range.logicalExtent selection)
    (Vec.swizzle (mapCount threadCount selection) selection)
    (Vec.swizzle (mapIdx threadCount selection idx) selection)

/-- The positions a mapped thread visits. -/
def threadVisited (range : IdxRange ℕ (n + 1)) (threadCount : Vec ℕ (n + 1)) (layout : Layout)
    (selection : CSelect (k + 1) (n + 1)) (idx : Vec ℕ (n + 1)) : List (Vec ℕ (k + 1)) :=
  visited layout (range.logicalExtent selection)
    (Vec.swizzle (mapCount threadCount selection) selection)
    (Vec.swizzle (mapIdx threadCount selection idx) selection)

/-- The iterator of a thread counts in the positions of its share. -/
theorem begin_counts (proper : range.Proper) (positive : ∀ d, 0 < threadCount d)
    (layout : Layout) {idx : Vec ℕ (n + 1)} (member : idx ∈ threadIdxs threadCount) :
    Counts range selection (ofThread range threadCount layout selection idx).begin
      (fun i => shareStart layout (range.logicalExtent selection i)
        (mapCount threadCount selection (selection i))
        (mapIdx threadCount selection idx (selection i)))
      (fun i => shareStep layout (mapCount threadCount selection (selection i)))
      (threadLengths range threadCount layout selection idx) where
  stride := fun i => by rw [begin_eq]; rfl
  first := fun i => by
    rw [begin_eq]
    exact Nat.add_comm _ _
  below_extent := fun i count => by
    have counted := ThreadSpace.mapCount_positive positive selection (selection i)
    have below := ThreadSpace.mapIdx_mapsTo threadCount selection member (selection i)
    refine Iff.trans ?_ (lt_shareLengths_iff layout (range.logicalExtent selection)
      (Vec.swizzle (mapCount threadCount selection) selection)
      (Vec.swizzle (mapIdx threadCount selection idx) selection) counted count)
    refine Iff.trans ?_ (lt_shareExtent_iff proper layout below (selection i) _)
    rw [begin_eq, Nat.add_comm]
    exact Nat.add_lt_add_iff_right

/-- The constructor's check of a dimension tells whether it holds something for
the thread. -/
theorem first_lt_iff (proper : range.Proper) (positive : ∀ d, 0 < threadCount d)
    (layout : Layout) {idx : Vec ℕ (n + 1)} (member : idx ∈ threadIdxs threadCount)
    (i : Fin (k + 1)) :
    shareStart layout (range.logicalExtent id (selection i))
          (mapCount threadCount selection (selection i))
          (mapIdx threadCount selection idx (selection i)) * range.strideMd (selection i) <
        shareExtent range layout (mapCount threadCount selection (selection i))
          (mapIdx threadCount selection idx (selection i)) (selection i) ↔
      0 < threadLengths range threadCount layout selection idx i := by
  have counted := ThreadSpace.mapCount_positive positive selection (selection i)
  have below := ThreadSpace.mapIdx_mapsTo threadCount selection member (selection i)
  rw [lt_shareExtent_iff proper layout below]
  exact (shareLengths_positive_iff layout (range.logicalExtent selection)
    (Vec.swizzle (mapCount threadCount selection) selection)
    (Vec.swizzle (mapIdx threadCount selection idx) selection) counted).symm

/-- Where the thread's first index is a lattice point of the selection. -/
theorem current_eq_point (distinct : Function.Injective selection) (layout : Layout)
    {idx : Vec ℕ (n + 1)} (member : idx ∈ threadIdxs threadCount) :
    (fun d => shareStart layout (range.logicalExtent id d) (mapCount threadCount selection d)
        (mapIdx threadCount selection idx d) * range.strideMd d + range.beginMd d) =
      range.point selection fun i => shareStart layout (range.logicalExtent selection i)
        (mapCount threadCount selection (selection i))
        (mapIdx threadCount selection idx (selection i)) := by
  funext d
  by_cases selected : ∃ i, selection i = d
  · obtain ⟨i, rfl⟩ := selected
    rw [range.point_selected distinct, Nat.add_comm]
    rfl
  · have outside : ∀ i, selection i ≠ d := fun i same => selected ⟨i, same⟩
    have start : shareStart layout (range.logicalExtent id d) (mapCount threadCount selection d)
        (mapIdx threadCount selection idx d) = 0 := by
      rw [ThreadSpace.mapIdx_unselected distinct member d outside]
      cases layout with
      | strided => rfl
      | contiguous => exact Math.blockStart_zero _ _
    rw [range.point_unselected _ _ outside, start, Nat.zero_mul, Nat.zero_add]

/-- Where every faster dimension holds something for the thread, it starts at its first
position. -/
theorem begin_current_of_present (proper : range.Proper) (positive : ∀ d, 0 < threadCount d)
    (distinct : Function.Injective selection) (layout : Layout) {idx : Vec ℕ (n + 1)}
    (member : idx ∈ threadIdxs threadCount)
    (present : ∀ i : Fin k, 0 < threadLengths range threadCount layout selection idx i.succ) :
    (ofThread range threadCount layout selection idx).begin.current =
      range.point selection fun i => shareStart layout (range.logicalExtent selection i)
        (mapCount threadCount selection (selection i))
        (mapIdx threadCount selection idx (selection i)) := by
  rw [begin_eq, make_current_of_below fun i => Nat.add_lt_add_right
    ((first_lt_iff proper positive layout member i.succ).mpr (present i)) _]
  exact current_eq_point distinct layout member

/-- Where a faster dimension holds nothing, it starts at the end. -/
theorem begin_current_of_absent (proper : range.Proper) (positive : ∀ d, 0 < threadCount d)
    (layout : Layout) {idx : Vec ℕ (n + 1)} (member : idx ∈ threadIdxs threadCount) {i : Fin k}
    (nothing : ¬ 0 < threadLengths range threadCount layout selection idx i.succ) :
    (ofThread range threadCount layout selection idx).end =
      (ofThread range threadCount layout selection idx).begin.current (selection 0) := by
  rw [begin_eq, end_eq, make_current_of_beyond (i := i) fun below => nothing
    ((first_lt_iff proper positive layout member i.succ).mp (Nat.lt_of_add_lt_add_right below))]
  exact Nat.add_comm _ _

/-- The loop of every thread terminates and visits its positions. -/
theorem run_loop (proper : range.Proper) (positive : ∀ d, 0 < threadCount d)
    (distinct : Function.Injective selection) (layout : Layout) {idx : Vec ℕ (n + 1)}
    (member : idx ∈ threadIdxs threadCount) (fuel : ℕ)
    (enough : ∏ i, range.logicalExtent selection i < fuel) :
    (ofThread range threadCount layout selection idx).loop.run fuel
        (ofThread range threadCount layout selection idx).begin =
      some ((threadVisited range threadCount layout selection idx).map
        (range.point selection)) := by
  have counts : Counts range selection _ _ _ _ := begin_counts proper positive layout member
  have fewer : ∏ i, threadLengths range threadCount layout selection idx i ≤
      ∏ i, range.logicalExtent selection i :=
    Finset.prod_le_prod' fun i _ => shareLengths_le layout _ _ _
      (ThreadSpace.mapIdx_mapsTo threadCount selection member (selection i))
  by_cases present : ∀ i : Fin k, 0 < threadLengths range threadCount layout selection idx i.succ
  · refine run_odometer counts distinct (fun i faster => ?_) ?_ ?_ fuel (fewer.trans_lt enough)
    · obtain ⟨j, rfl⟩ := Fin.exists_succ_eq.mpr faster
      exact present j
    · exact begin_current_of_present proper positive distinct layout member present
    · rw [begin_eq, end_eq]
      exact Nat.add_comm _ _
  · obtain ⟨i, nothing⟩ := not_forall.mp present
    have empty : ∏ i, threadLengths range threadCount layout selection idx i = 0 :=
      Finset.prod_eq_zero (Finset.mem_univ i.succ) (Nat.eq_zero_of_not_pos nothing)
    have stopped := begin_current_of_absent proper positive layout member nothing
    obtain ⟨rest, rfl⟩ : ∃ rest, fuel = rest + 1 := ⟨fuel - 1, by omega⟩
    have none : threadVisited range threadCount layout selection idx = [] := by
      unfold threadVisited visited positions
      rw [show ∏ i, shareLengths layout _ _ _ i = 0 from empty]
      rfl
    have done : (ofThread range threadCount layout selection idx).loop.done
        (ofThread range threadCount layout selection idx).begin = true := by
      simp only [loop, decide_eq_true_eq]
      exact stopped.le
    rw [none, Math.Loop.run, done]
    rfl

theorem indices_eq (proper : range.Proper) (positive : ∀ d, 0 < threadCount d)
    (distinct : Function.Injective selection) (layout : Layout) {idx : Vec ℕ (n + 1)}
    (member : idx ∈ threadIdxs threadCount) :
    (ofThread range threadCount layout selection idx).indices =
      (threadVisited range threadCount layout selection idx).map (range.point selection) := by
  have finished := run_loop proper positive distinct layout member _ (Nat.lt_succ_self _)
  exact congrArg (fun result => result.getD []) finished

/-- The loop of every thread terminates. -/
theorem ofThread_yields (proper : range.Proper) (positive : ∀ d, 0 < threadCount d)
    (distinct : Function.Injective selection) (layout : Layout) {idx : Vec ℕ (n + 1)}
    (member : idx ∈ threadIdxs threadCount) :
    (ofThread range threadCount layout selection idx).loop.Yields
      (ofThread range threadCount layout selection idx).begin
      (ofThread range threadCount layout selection idx).indices :=
  ⟨(∏ i, range.logicalExtent selection i) + 1, fun fuel enough => by
    rw [indices_eq proper positive distinct layout member]
    exact run_loop proper positive distinct layout member fuel enough⟩

theorem indices_partitions (proper : range.Proper) (positive : ∀ d, 0 < threadCount d)
    (distinct : Function.Injective selection) (maps : MapsBijectively threadCount selection)
    (layout : Layout) :
    Math.Partitions (threadIdxs threadCount)
      (fun idx => (ofThread range threadCount layout selection idx).indices)
      (range.lattice selection) := by
  have shared := visited_partitions layout (range.logicalExtent selection)
    (Vec.swizzle (mapCount threadCount selection) selection)
    (fun i => ThreadSpace.mapCount_positive positive selection (selection i))
  have renamed := (shared.comp (maps.selected_bijOn distinct)).map
    (IdxRange.point_bijOn proper distinct)
  exact renamed.congr_share fun idx member => indices_eq proper positive distinct layout member

/-- When the fastest selected dimension is a multiple of its threads, every thread
has the same share of it. -/
theorem threadLengths_last (layout : Layout) {idx : Vec ℕ (n + 1)}
    (member : idx ∈ threadIdxs threadCount) {rounds : ℕ}
    (even : range.logicalExtent selection (Fin.last k) =
      rounds * mapCount threadCount selection (selection (Fin.last k))) :
    threadLengths range threadCount layout selection idx (Fin.last k) = rounds := by
  have below := ThreadSpace.mapIdx_mapsTo threadCount selection member (selection (Fin.last k))
  rw [threadLengths, shareLengths, even]
  exact length_share layout below rounds

/-- How many indices a thread visits. -/
theorem length_indices (proper : range.Proper) (positive : ∀ d, 0 < threadCount d)
    (distinct : Function.Injective selection) (layout : Layout) {idx : Vec ℕ (n + 1)}
    (member : idx ∈ threadIdxs threadCount) :
    (ofThread range threadCount layout selection idx).indices.length =
      ∏ i, threadLengths range threadCount layout selection idx i := by
  rw [indices_eq proper positive distinct layout member, List.length_map, threadVisited, visited,
    positions, List.length_map, List.length_range]
  rfl

/-- Every thread visits a multiple of its share of the fastest dimension. -/
theorem dvd_length (proper : range.Proper) (positive : ∀ d, 0 < threadCount d)
    (distinct : Function.Injective selection) (layout : Layout) {idx : Vec ℕ (n + 1)}
    (member : idx ∈ threadIdxs threadCount) {rounds : ℕ}
    (even : range.logicalExtent selection (Fin.last k) =
      rounds * mapCount threadCount selection (selection (Fin.last k))) :
    rounds ∣ (ofThread range threadCount layout selection idx).indices.length := by
  rw [length_indices proper positive distinct layout member,
    ← threadLengths_last layout member even]
  exact Finset.dvd_prod_of_mem _ (Finset.mem_univ (Fin.last k))

/-- **Tiled traversal.** Where the mapping to the selected dimensions keeps the
threads apart, every thread's loop terminates and the threads share out the
lattice of the range. -/
theorem tiled_partitions (proper : range.Proper) (positive : ∀ d, 0 < threadCount d)
    (distinct : Function.Injective selection) (maps : MapsBijectively threadCount selection)
    (layout : Layout) :
    (∀ idx ∈ threadIdxs threadCount,
      (ofThread range threadCount layout selection idx).loop.Yields
        (ofThread range threadCount layout selection idx).begin
        (ofThread range threadCount layout selection idx).indices) ∧
    Math.Partitions (threadIdxs threadCount)
      (fun idx => (ofThread range threadCount layout selection idx).indices)
      (range.lattice selection) :=
  ⟨fun _ member => ofThread_yields proper positive distinct layout member,
    indices_partitions proper positive distinct maps layout⟩

end Thread

/-- A strided range, selected in its two fast dimensions, over a block of threads
with a single slow dimension. -/
theorem tiled_partitions_block :
    Math.Partitions (threadIdxs ![2, 2, 3])
      (fun idx => (ofThread ⟨![1, 0, 2], ![6, 3, 9], ![2, 1, 4]⟩ ![2, 2, 3] .strided
        (![2, 1] : CSelect 2 3) idx).indices)
      (IdxRange.lattice ⟨![1, 0, 2], ![6, 3, 9], ![2, 1, 4]⟩ (![2, 1] : CSelect 2 3)) :=
  (tiled_partitions (⟨by decide, by decide⟩ : IdxRange.Proper ⟨![1, 0, 2], ![6, 3, 9], ![2, 1, 4]⟩)
    (by decide) (by decide) (ThreadSpace.mapsBijectively_of_single (by decide) (by decide))
    .strided).2

end Alpaka.TiledIdxContainer
