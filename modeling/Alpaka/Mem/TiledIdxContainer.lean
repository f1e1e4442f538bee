import Alpaka.Math.Loop
import Alpaka.Math.Odometer
import Alpaka.Mem.IdxRange
import Alpaka.Mem.ThreadSpace

/-! # Tiled traversal

Every selected dimension is shared out among the threads of that dimension; a
thread visits all combinations of its indices with an odometer. The odometer
never resets the slowest dimension, which therefore also signals the end; where
a faster dimension holds nothing for the thread the constructor moves the
slowest one behind the end. The threads share out the lattice of the range
(`Alpaka.TiledIdxContainer.tiled_partitions`).
-/

namespace Alpaka

/-- `T_CSelect` is the selection of dimensions the container iterates over. -/
structure TiledIdxContainer (T : Type*) (n k : ℕ) where
  idxRange : IdxRange T (n + 1)
  threadSpace : ThreadSpace T (n + 1)
  layout : Layout
  selection : CSelect (k + 1) (n + 1)

namespace TiledIdxContainer

variable {T : Type*} {n k : ℕ}

attribute [local instance (2000)] neZero_add_one

/-- `first` is a reduced vector: the slowest dimension is never reset. -/
structure ConstIterator (T : Type*) (n k : ℕ) where
  current : Vec T (n + 1)
  stride : Vec T (k + 1)
  extent : Vec T (k + 1)
  first : Vec T k

section Code

variable [Add T] [Sub T] [Mul T] [Div T] [Mod T] [LT T] [DecidableLT T] [LE T] [DecidableLE T]
  [OfNat T 0] [OfNat T 1]

/-- The constructor of the iterator. The range check covers all selected
dimensions but the slowest. -/
def ConstIterator.make (selection : CSelect (k + 1) (n + 1))
    (offset first extent stride : Vec T (n + 1)) : ConstIterator T n k :=
  let current : Vec T (n + 1) := fun d => first d + offset d
  let iterExtent := Vec.swizzle (fun d => extent d + offset d) selection
  let reduced := Vec.rshrink (Vec.swizzle current selection)
  let isIndexValid := Fin.foldl k (fun valid d =>
    valid && decide (reduced d < iterExtent d.succ)) true
  { current := if isIndexValid then current
      else Function.update current (selection 0) (iterExtent 0)
    stride := Vec.swizzle stride selection
    extent := iterExtent
    first := reduced }

/-- The loop of `operator++` from a selected dimension on: the dimension is
advanced, and unless it has run over its extent the loop is left. -/
def ConstIterator.advance (selection : CSelect (k + 1) (n + 1)) :
    (idx : ℕ) → idx < k + 1 → ConstIterator T n k → ConstIterator T n k
  | 0, _, iterator =>
      { iterator with
        current := Function.update iterator.current (selection 0)
          (iterator.current (selection 0) + iterator.stride 0) }
  | idx + 1, inside, iterator =>
      let dim := selection ⟨idx + 1, inside⟩
      let current := Function.update iterator.current dim
        (iterator.current dim + iterator.stride ⟨idx + 1, inside⟩)
      if iterator.extent ⟨idx + 1, inside⟩ ≤ current dim then
        advance selection idx (Nat.lt_of_succ_lt inside)
          { iterator with
            current := Function.update current dim
              (iterator.first ⟨idx, Nat.lt_of_succ_lt_succ inside⟩) }
      else { iterator with current := current }

/-- The iterator's `operator++`. -/
def ConstIterator.next (selection : CSelect (k + 1) (n + 1)) (iterator : ConstIterator T n k) :
    ConstIterator T n k :=
  iterator.advance selection k (Nat.lt_succ_self k)

def «begin» (container : TiledIdxContainer T n k) : ConstIterator T n k :=
  let mapped := container.threadSpace.mapTo container.selection
  let threadIdx := mapped.threadIdx
  let numThreads := mapped.threadCount
  let strideMd := container.idxRange.strideMd
  match container.layout with
  | .strided =>
      ConstIterator.make container.selection container.idxRange.beginMd
        (fun d => threadIdx d * strideMd d) container.idxRange.distance
        (fun d => numThreads d * strideMd d)
  | .contiguous =>
      let extent := container.idxRange.distance
      let logicalExtent : Vec T (n + 1) := fun d => divCeil (extent d) (strideMd d)
      let base : Vec T (n + 1) := fun d => logicalExtent d / numThreads d
      let rem : Vec T (n + 1) := fun d => logicalExtent d % numThreads d
      let firstLogical : Vec T (n + 1) := fun d =>
        threadIdx d * base d + stdMin (threadIdx d) (rem d)
      let first : Vec T (n + 1) := fun d => firstLogical d * strideMd d
      let nextThreadIdx : Vec T (n + 1) := fun d => threadIdx d + 1
      let endLogical : Vec T (n + 1) := fun d =>
        nextThreadIdx d * base d + stdMin (nextThreadIdx d) (rem d)
      -- crop to the end of the index range
      let last : Vec T (n + 1) := fun d => stdMin (extent d) (endLogical d * strideMd d)
      ConstIterator.make container.selection container.idxRange.beginMd first last strideMd

/-- The value held by the end iterator. -/
def «end» (container : TiledIdxContainer T n k) : T :=
  let mapped := container.threadSpace.mapTo container.selection
  let threadIdx := mapped.threadIdx
  let numThreads := mapped.threadCount
  let strideMd := container.idxRange.strideMd
  match container.layout with
  | .strided =>
      Vec.swizzle (fun d => container.idxRange.beginMd d + container.idxRange.distance d)
        container.selection 0
  | .contiguous =>
      let extent := container.idxRange.distance
      let logicalExtent : Vec T (n + 1) := fun d => divCeil (extent d) (strideMd d)
      let base : Vec T (n + 1) := fun d => logicalExtent d / numThreads d
      let rem : Vec T (n + 1) := fun d => logicalExtent d % numThreads d
      let nextSlotIdx : Vec T (n + 1) := fun d => threadIdx d + 1
      let endLogical : Vec T (n + 1) := fun d =>
        nextSlotIdx d * base d + stdMin (nextSlotIdx d) (rem d)
      let last : Vec T (n + 1) := fun d => stdMin (extent d) (endLogical d * strideMd d)
      Vec.swizzle (fun d => container.idxRange.beginMd d + last d) container.selection 0

/-- The loop over the container: the iterator has reached the end when the
slowest selected dimension is not below the end's. -/
def loop (container : TiledIdxContainer T n k) :
    Math.Loop (ConstIterator T n k) (Vec T (n + 1)) where
  done := fun iterator => decide (container.end ≤ iterator.current (container.selection 0))
  deref := ConstIterator.current
  next := ConstIterator.next container.selection

/-- A contiguous container divides by the numbers of threads of all dimensions. -/
def Divides (container : TiledIdxContainer T n k) : Prop :=
  ∀ d, (container.threadSpace.mapTo container.selection).threadCount d ≠ 0

/-- `operator[]`: the container restricted to the given dimensions. -/
def select {l : ℕ} (container : TiledIdxContainer T n k) (iterDir : CSelect (l + 1) (n + 1)) :
    TiledIdxContainer T n l :=
  ⟨container.idxRange, container.threadSpace, container.layout, iterDir⟩

end Code

/-- The loop body for a position that may be reset. -/
theorem ConstIterator.advance_of_succ [Add T] [LE T] [DecidableLE T]
    (selection : CSelect (k + 1) (n + 1)) {idx : ℕ} (inside : idx + 1 < k + 1)
    (iterator : ConstIterator T n k) :
    iterator.advance selection (idx + 1) inside =
      let dim := selection ⟨idx + 1, inside⟩
      let current := Function.update iterator.current dim
        (iterator.current dim + iterator.stride ⟨idx + 1, inside⟩)
      if iterator.extent ⟨idx + 1, inside⟩ ≤ current dim then
        advance selection idx (Nat.lt_of_succ_lt inside) { iterator with
          current := Function.update current dim
            (iterator.first ⟨idx, Nat.lt_of_succ_lt_succ inside⟩) }
      else { iterator with current := current } := rfl

/-- The loop body for a dimension that may be reset. -/
theorem ConstIterator.advance_succ [Add T] [LE T] [DecidableLE T]
    (selection : CSelect (k + 1) (n + 1)) (i : Fin k) (iterator : ConstIterator T n k) :
    iterator.advance selection i.succ i.succ.isLt =
      let current := Function.update iterator.current (selection i.succ)
        (iterator.current (selection i.succ) + iterator.stride i.succ)
      if iterator.extent i.succ ≤ current (selection i.succ) then
        advance selection i.castSucc i.castSucc.isLt { iterator with
          current := Function.update current (selection i.succ) (iterator.first i) }
      else { iterator with current := current } := rfl

/-! ## The odometer

The selected components of the iterator are the digits of an odometer. -/

section Turns

/-- The iterator whose selected components are given. -/
def ConstIterator.withDigits (iterator : ConstIterator T n k) (selection : CSelect (k + 1) (n + 1))
    (digits : Vec T (k + 1)) : ConstIterator T n k :=
  { iterator with
    current := Vec.refAssign (fun _ digit => digit) iterator.current selection digits }

theorem ConstIterator.withDigits_current (iterator : ConstIterator T n k)
    {selection : CSelect (k + 1) (n + 1)} (distinct : Function.Injective selection)
    (digits : Vec T (k + 1)) (i : Fin (k + 1)) :
    (iterator.withDigits selection digits).current (selection i) = digits i := by
  unfold withDigits
  exact Vec.refAssign_selected (fun _ digit => digit) _ distinct digits i

private theorem ConstIterator.withDigits_of_not_mem (iterator : ConstIterator T n k)
    (selection : CSelect (k + 1) (n + 1)) (digits : Vec T (k + 1)) {d : Fin (n + 1)}
    (outside : ∀ i, selection i ≠ d) :
    (iterator.withDigits selection digits).current d = iterator.current d := by
  unfold withDigits
  exact Vec.refAssign_of_not_mem (fun _ digit => digit) _ selection digits d outside

private theorem ConstIterator.withDigits_update (iterator : ConstIterator T n k)
    {selection : CSelect (k + 1) (n + 1)} (distinct : Function.Injective selection)
    (digits : Vec T (k + 1)) (i : Fin (k + 1)) (digit : T) :
    Function.update (iterator.withDigits selection digits).current (selection i) digit =
      (iterator.withDigits selection (Function.update digits i digit)).current := by
  funext d
  by_cases selected : ∃ j, selection j = d
  · obtain ⟨j, rfl⟩ := selected
    rw [withDigits_current _ distinct]
    by_cases same : j = i
    · subst same
      rw [Function.update_self, Function.update_self]
    · rw [Function.update_of_ne (distinct.ne same), Function.update_of_ne same,
        withDigits_current _ distinct]
  · have outside : ∀ j, selection j ≠ d := fun j same => selected ⟨j, same⟩
    rw [Function.update_of_ne (outside i).symm, withDigits_of_not_mem _ _ _ outside,
      withDigits_of_not_mem _ _ _ outside]

variable [Add T] [LE T] [DecidableLE T]

/-- The odometer advances, resets and compares like the iterator. -/
structure ConstIterator.Turns (iterator : ConstIterator T n k) (odometer : Math.Odometer T k) :
    Prop where
  advance : ∀ i x, odometer.advance i x = x + iterator.stride i
  full : ∀ i x, odometer.full i x = decide (iterator.extent i ≤ x)
  first : ∀ i : Fin k, odometer.first i.succ = iterator.first i

/-- The iterator is an odometer. -/
theorem ConstIterator.Turns.advance_withDigits {iterator : ConstIterator T n k}
    {odometer : Math.Odometer T k} (turns : iterator.Turns odometer)
    {selection : CSelect (k + 1) (n + 1)} (distinct : Function.Injective selection)
    (idx : Fin (k + 1)) (digits : Vec T (k + 1)) :
    (iterator.withDigits selection digits).advance selection idx idx.isLt =
      iterator.withDigits selection (odometer.turnFrom idx idx.isLt digits) := by
  have step (digits : Vec T (k + 1)) (i : Fin (k + 1)) :
      Function.update (iterator.withDigits selection digits).current (selection i)
          ((iterator.withDigits selection digits).current (selection i) + iterator.stride i) =
        (iterator.withDigits selection
          (Function.update digits i (odometer.advance i (digits i)))).current := by
    rw [withDigits_update _ distinct, withDigits_current _ distinct, turns.advance]
  induction idx using Fin.induction generalizing digits with
  | zero => exact congrArg (fun current => { iterator with current := current }) (step digits 0)
  | succ i ih =>
      have next : odometer.advance i.succ (digits i.succ) =
          (iterator.withDigits selection (Function.update digits i.succ
            (odometer.advance i.succ (digits i.succ)))).current (selection i.succ) := by
        rw [withDigits_current _ distinct, Function.update_self]
      have reset : Function.update (iterator.withDigits selection (Function.update digits i.succ
          (odometer.advance i.succ (digits i.succ)))).current (selection i.succ)
            (iterator.first i) = (iterator.withDigits selection
              (Function.update digits i.succ (odometer.first i.succ))).current := by
        rw [withDigits_update _ distinct, Function.update_idem, turns.first]
      rw [advance_succ, Math.Odometer.turnFrom_succ, turns.full]
      dsimp only
      have moved : Function.update (iterator.withDigits selection digits).current
          (selection i.succ) ((iterator.withDigits selection digits).current (selection i.succ) +
            (iterator.withDigits selection digits).stride i.succ) = _ := step digits i.succ
      rw [moved, ← next]
      by_cases full : iterator.extent i.succ ≤ odometer.advance i.succ (digits i.succ)
      · have beyond : (iterator.withDigits selection digits).extent i.succ ≤ _ := full
        rw [if_pos beyond, if_pos (decide_eq_true full)]
        exact (congrArg (fun current => ConstIterator.advance selection _ i.castSucc.isLt
          { iterator with current := current }) reset).trans (ih _)
      · have within : ¬ (iterator.withDigits selection digits).extent i.succ ≤ _ := full
        rw [if_neg within, if_neg (by rwa [decide_eq_true_eq])]
        rfl

end Turns

/-! A thread starts at a position of the lattice in every selected dimension and
takes steps of its own; the odometer's digits are the numbers of steps taken. -/

/-- The lattice position after the given numbers of steps. -/
def position (start step digit : Vec ℕ (k + 1)) : Vec ℕ (k + 1) :=
  fun i => start i + digit i * step i

/-- The iterator counts in positions of the lattice, with the given number of
positions in every selected dimension. -/
structure Counts (range : IdxRange ℕ (n + 1)) (selection : CSelect (k + 1) (n + 1))
    (iterator : ConstIterator ℕ n k) (start step radix : Vec ℕ (k + 1)) : Prop where
  stride : ∀ i, iterator.stride i = step i * range.strideMd (selection i)
  first : ∀ i : Fin k, iterator.first i = range.beginMd (selection i.succ) +
    start i.succ * range.strideMd (selection i.succ)
  below_extent : ∀ i count, range.beginMd (selection i) +
    (start i + count * step i) * range.strideMd (selection i) < iterator.extent i ↔ count < radix i

section Odometer

variable {range : IdxRange ℕ (n + 1)} {selection : CSelect (k + 1) (n + 1)}
  {iterator : ConstIterator ℕ n k} {start step radix : Vec ℕ (k + 1)}

/-- The odometer of a thread. -/
private def odometer (range : IdxRange ℕ (n + 1)) (selection : CSelect (k + 1) (n + 1))
    (iterator : ConstIterator ℕ n k) (start : Vec ℕ (k + 1)) : Math.Odometer ℕ k where
  advance i x := x + iterator.stride i
  full i x := decide (iterator.extent i ≤ x)
  first i := range.beginMd (selection i) + start i * range.strideMd (selection i)

private theorem value_eq (counts : Counts range selection iterator start step radix)
    (i : Fin (k + 1)) (count : ℕ) :
    (odometer range selection iterator start).value i count = range.beginMd (selection i) +
      (start i + count * step i) * range.strideMd (selection i) := by
  induction count with
  | zero =>
      have begins : start i + 0 * step i = start i := by rw [Nat.zero_mul, Nat.add_zero]
      rw [begins]
      rfl
  | succ count ih =>
      rw [Math.Odometer.value_succ, ih]
      change _ + iterator.stride i = _
      rw [counts.stride]
      ring

/-- A digit is full when its radix is reached. -/
private theorem full_iff (counts : Counts range selection iterator start step radix)
    (i : Fin (k + 1)) (count : ℕ) :
    (odometer range selection iterator start).full i
      ((odometer range selection iterator start).value i count) = true ↔ radix i ≤ count := by
  rw [value_eq counts]
  unfold odometer
  rw [decide_eq_true_eq, ← not_lt, counts.below_extent, not_lt]

/-- The iterator shows the position that its digits give. -/
private theorem withDigits_point (counts : Counts range selection iterator start step radix)
    (distinct : Function.Injective selection)
    (current : iterator.current = range.point selection start) (numeral : Vec ℕ (k + 1)) :
    iterator.withDigits selection ((odometer range selection iterator start).digits numeral) =
      { iterator with current := range.point selection (position start step numeral) } := by
  have point : (iterator.withDigits selection
      ((odometer range selection iterator start).digits numeral)).current =
        range.point selection (position start step numeral) := by
    funext d
    by_cases selected : ∃ i, selection i = d
    · obtain ⟨i, rfl⟩ := selected
      rw [iterator.withDigits_current distinct, range.point_selected distinct]
      exact value_eq counts i _
    · have outside : ∀ i, selection i ≠ d := fun i same => selected ⟨i, same⟩
      rw [iterator.withDigits_of_not_mem _ _ outside, current, range.point_unselected _ _ outside,
        range.point_unselected _ _ outside]
  exact congrArg (fun current => { iterator with current := current }) point

/-- **One step of the odometer.** -/
theorem next_position (counts : Counts range selection iterator start step radix)
    (distinct : Function.Injective selection) (positive : ∀ i, i ≠ 0 → 0 < radix i)
    (current : iterator.current = range.point selection start) (number : ℕ) :
    ConstIterator.next selection { iterator with
        current := range.point selection
          (position start step (Math.MixedRadix.place radix number)) } =
      { iterator with
        current := range.point selection
          (position start step (Math.MixedRadix.place radix (number + 1))) } := by
  have turns : iterator.Turns (odometer range selection iterator start) :=
    ⟨fun _ _ => rfl, fun _ _ => rfl, fun i => (counts.first i).symm⟩
  have room (i : Fin (k + 1)) (_ : i ≠ 0) (count : ℕ) (below : count + 1 < radix i) :
      (odometer range selection iterator start).full i
        ((odometer range selection iterator start).value i (count + 1)) = false := by
    rw [← Bool.not_eq_true, full_iff counts]
    exact not_le.mpr below
  have turned : (odometer range selection iterator start).turn _ = _ :=
    Math.Odometer.turn_digits number positive room fun i _ _ _ => (full_iff counts i _).mpr le_rfl
  have stepped := turns.advance_withDigits distinct (Fin.last k)
    ((odometer range selection iterator start).digits (Math.MixedRadix.place radix number))
  rw [← withDigits_point counts distinct current, ← withDigits_point counts distinct current,
    ← turned]
  exact stepped

/-- The positions of all numerals of the odometer. -/
def positions (start step radix : Vec ℕ (k + 1)) : List (Vec ℕ (k + 1)) :=
  (List.range (∏ i, radix i)).map fun number =>
    position start step (Math.MixedRadix.place radix number)

/-- The end is reached when the slowest digit is full. -/
theorem done_position_iff {container : TiledIdxContainer ℕ n k}
    (counts : Counts range container.selection container.begin start step radix)
    (distinct : Function.Injective container.selection)
    (ends : container.end = container.begin.extent 0) (numeral : Vec ℕ (k + 1)) :
    container.end ≤ range.point container.selection (position start step numeral)
      (container.selection 0) ↔ radix 0 ≤ numeral 0 := by
  rw [ends, range.point_selected distinct, position, ← not_lt, counts.below_extent, not_lt]

/-- **Running the odometer.** A valid iterator visits the positions of all
numerals and then stops, the slowest dimension being at its end. -/
theorem run_odometer {container : TiledIdxContainer ℕ n k}
    (counts : Counts range container.selection container.begin start step radix)
    (distinct : Function.Injective container.selection) (positive : ∀ i, i ≠ 0 → 0 < radix i)
    (current : container.begin.current = range.point container.selection start)
    (ends : container.end = container.begin.extent 0) (fuel : ℕ) (enough : ∏ i, radix i < fuel) :
    container.loop.run fuel container.begin =
      some ((positions start step radix).map (range.point container.selection)) := by
  have zero : position start step (Math.MixedRadix.place radix 0) = start := by
    funext i
    rw [Math.MixedRadix.place_number_zero, position, Nat.zero_mul, Nat.add_zero]
  have slow (number : ℕ) := done_position_iff counts distinct ends
    (Math.MixedRadix.place radix number)
  have states := container.loop.run_of_states
    (fun number => { container.begin with
      current := range.point container.selection
        (position start step (Math.MixedRadix.place radix number)) })
    (∏ i, radix i)
    (fun number _ => next_position counts distinct positive current number)
    (fun number below => by
      have bounded := Math.MixedRadix.place_lt_of_lt below 0
      simp only [loop, decide_eq_false_iff_not, slow]
      omega)
    (by
      have last : Math.MixedRadix.place radix (∏ i, radix i) 0 = radix 0 := by
        rw [Math.MixedRadix.place_zero, Math.MixedRadix.prod_eq_mul_weight,
          Nat.mul_div_cancel _ (Math.MixedRadix.weight_positive positive 0)]
      simp only [loop, decide_eq_true_eq, slow, last, le_refl])
    fuel enough
  rw [zero, ← current] at states
  rw [states, positions, List.map_map]
  rfl

/-- The positions visited are the tuples of positions of the dimensions. -/
theorem mem_positions {x : Vec ℕ (k + 1)} : x ∈ positions start step radix ↔
    ∀ i, ∃ count < radix i, x i = start i + count * step i := by
  simp only [positions, List.mem_map, List.mem_range]
  refine ⟨fun ⟨number, below, same⟩ i => ?_, fun component => ?_⟩
  · exact ⟨_, Math.MixedRadix.place_lt_of_lt below i, congrFun same.symm i⟩
  · choose digit bounded same using component
    obtain ⟨number, below, rfl⟩ := (Math.MixedRadix.place_bijOn radix).surjOn bounded
    exact ⟨number, below, funext fun i => (same i).symm⟩

theorem positions_nodup (positive : ∀ i, 0 < step i) : (positions start step radix).Nodup := by
  refine List.Nodup.map_on ?_ List.nodup_range
  intro first firstIn second secondIn same
  apply (Math.MixedRadix.place_bijOn radix).injOn (List.mem_range.mp firstIn)
    (List.mem_range.mp secondIn)
  funext i
  exact Nat.eq_of_mul_eq_mul_right (positive i) (Nat.add_left_cancel (congrFun same i))

end Odometer

/-! ## The share of one dimension -/

/-- The first position of a thread in one dimension. -/
def shareStart : Layout → ℕ → ℕ → ℕ → ℕ
  | .strided, _, _, worker => worker
  | .contiguous, extent, workers, worker => Math.blockStart extent workers worker

def shareStep : Layout → ℕ → ℕ
  | .strided, workers => workers
  | .contiguous, _ => 1

/-- The bound of the positions of a thread in one dimension. -/
def shareStop : Layout → ℕ → ℕ → ℕ → ℕ
  | .strided, extent, _, _ => extent
  | .contiguous, extent, workers, worker => Math.blockStart extent workers (worker + 1)

/-- The positions of a thread in one dimension. -/
def share (layout : Layout) (extent workers worker : ℕ) : List ℕ :=
  Math.progression (shareStart layout extent workers worker) (shareStep layout workers)
    (shareStop layout extent workers worker)

theorem shareStep_positive (layout : Layout) {workers : ℕ} (positive : 0 < workers) :
    0 < shareStep layout workers := by
  cases layout with
  | strided => exact positive
  | contiguous => exact Nat.one_pos

theorem shareStop_le (layout : Layout) (extent : ℕ) {workers worker : ℕ}
    (member : worker < workers) :
    shareStop layout extent workers worker ≤ extent := by
  cases layout with
  | strided => exact le_rfl
  | contiguous => exact Math.blockStart_le (Nat.zero_lt_of_lt member) extent member

/-- An extent that is a multiple of the number of workers is shared out
evenly. -/
theorem length_share (layout : Layout) {workers worker : ℕ} (member : worker < workers)
    (rounds : ℕ) : (share layout (rounds * workers) workers worker).length = rounds := by
  cases layout with
  | strided => exact Math.length_progression_strided member rounds
  | contiguous =>
      have positive := Nat.zero_lt_of_lt member
      simp only [share, shareStart, shareStep, shareStop, Math.length_progression_one,
        Math.blockStart_mul positive, Nat.succ_mul, Nat.add_sub_cancel_left]

theorem share_partitions (layout : Layout) {workers : ℕ} (positive : 0 < workers) (extent : ℕ) :
    Math.Partitions {worker | worker < workers} (share layout extent workers)
      {x | x < extent} := by
  cases layout with
  | strided => exact Math.strided_partitions positive extent
  | contiguous => exact Math.blocks_partitions positive extent

end TiledIdxContainer

end Alpaka
