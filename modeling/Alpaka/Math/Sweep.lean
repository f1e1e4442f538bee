import Mathlib.Algebra.BigOperators.Intervals
import Mathlib.Algebra.Order.Group.Nat
import Mathlib.Tactic.Ring
import Alpaka.Math.Independent

/-! # Prefix sums by sweeping a tree

A row of cells is turned into its prefix sums in place. The up-sweep adds, level by
level, the sum of the left half of every subtree to the cell of its right half; the
down-sweep hands the sum of everything before a subtree down to its halves. The
pairs of one level are independent of each other, so every level may run in any
order (`Math.Sweep.Summed.up`, `Math.Sweep.Prefixed.down`).
-/

namespace Math.Sweep

open Finset

variable {Place M : Type*}

/-- Add the left cell of a pair to the right one. -/
def upPair [DecidableEq Place] [Add M] (cell : ℕ → Place) (offset element : ℕ)
    (memory : Place → M) : Place → M :=
  let left := offset * (element + 1) - 1
  let right := offset * (element + 2) - 1
  Function.update memory (cell right) (memory (cell right) + memory (cell left))

/-- Move the right cell of a pair to the left and add the left one to it. -/
def downPair [DecidableEq Place] [Add M] (cell : ℕ → Place) (offset element : ℕ)
    (memory : Place → M) : Place → M :=
  let left := offset * (element + 1) - 1
  let right := offset * (element + 2) - 1
  let t := memory (cell left)
  let memory := Function.update memory (cell left) (memory (cell right))
  Function.update memory (cell right) (memory (cell right) + t)

/-- The levels of the up-sweep: how many pairs, and how far apart their cells are. -/
def upSteps (d offset : ℕ) : List (ℕ × ℕ) :=
  if 0 < d then (d, offset) :: upSteps (d / 2) (offset * 2) else []
termination_by d

/-- The levels of the down-sweep, which starts with one pair. -/
def downSteps (extent d offset : ℕ) : List (ℕ × ℕ) :=
  if 0 < d ∧ d < extent then (d, offset) :: downSteps extent (d * 2) (offset / 2) else []
termination_by extent - d

/-- The pairs of a level, in any order. -/
structure Pairs (d : ℕ) (order : List ℕ) : Prop where
  nodup : order.Nodup
  mem_iff : ∀ element, element ∈ order ↔ ∃ pair < d, element = 2 * pair

/-- The last place of a block of a level. -/
def position (offset block : ℕ) : ℕ := offset * (block + 1) - 1

theorem position_succ {offset : ℕ} (positive : 0 < offset) (block : ℕ) :
    position offset block + 1 = offset * (block + 1) :=
  Nat.sub_add_cancel (Nat.mul_pos positive (Nat.succ_pos block))

theorem position_injective {offset : ℕ} (positive : 0 < offset) :
    Function.Injective (position offset) := by
  intro first second same
  have product := congrArg (· + 1) same
  simp only [position_succ positive] at product
  exact Nat.succ_injective (Nat.eq_of_mul_eq_mul_left positive product)

theorem position_lt {offset blocks block : ℕ} (positive : 0 < offset) (inside : block < blocks) :
    position offset block < offset * blocks := by
  have := position_succ positive block
  have : offset * (block + 1) ≤ offset * blocks := Nat.mul_le_mul_left offset inside
  omega

/-! ## One level -/

section Level

variable {cell : ℕ → Place} {d offset : ℕ} {order : List ℕ}

/-- Different pairs of a level have different cells. -/
private theorem pairs_apart (positive : 0 < offset)
    (distinct : Set.InjOn cell (Set.Iio (offset * (2 * d)))) (pairs : Pairs d order)
    {first second : ℕ} (member : first ∈ order) (member' : second ∈ order)
    (different : first ≠ second) :
    Disjoint {cell (position offset first), cell (position offset (first + 1))}
      ({cell (position offset second), cell (position offset (second + 1))} : Set Place) := by
  obtain ⟨p, inP, firstPair⟩ := (pairs.mem_iff first).mp member
  obtain ⟨q, inQ, secondPair⟩ := (pairs.mem_iff second).mp member'
  have ne {a b : ℕ} (inA : a < 2 * d) (inB : b < 2 * d) (other : a ≠ b) :
      cell (position offset a) ≠ cell (position offset b) := fun same =>
    other (position_injective positive
      (distinct (position_lt positive inA) (position_lt positive inB) same))
  rw [Set.disjoint_left]
  intro x left right
  obtain same | same := left <;> obtain same' | same' := right
  · exact ne (by omega) (by omega) (by omega) (same.symm.trans same')
  · exact ne (by omega) (by omega) (by omega) (same.symm.trans same')
  · exact ne (by omega) (by omega) (by omega) (same.symm.trans same')
  · exact ne (by omega) (by omega) (by omega) (same.symm.trans same')

/-- The two cells of a pair are different. -/
private theorem pair_ne (positive : 0 < offset)
    (distinct : Set.InjOn cell (Set.Iio (offset * (2 * d)))) {pair : ℕ} (inside : pair < d) :
    cell (position offset (2 * pair)) ≠ cell (position offset (2 * pair + 1)) := by
  intro same
  have block := position_injective positive
    (distinct (position_lt positive (by omega)) (position_lt positive (by omega)) same)
  omega

variable [DecidableEq Place]

/-- What the pairs of an up-sweep read and write. -/
private def upFootprint [Add M] (cell : ℕ → Place) (offset : ℕ) : Footprint ℕ Place M where
  act := upPair cell offset
  reads := fun element =>
    {cell (position offset element), cell (position offset (element + 1))}
  writes := fun element => {cell (position offset (element + 1))}
  scratch := ∅

/-- What the pairs of a down-sweep read and write. -/
private def downFootprint [Add M] (cell : ℕ → Place) (offset : ℕ) : Footprint ℕ Place M where
  act := downPair cell offset
  reads := fun element =>
    {cell (position offset element), cell (position offset (element + 1))}
  writes := fun element =>
    {cell (position offset element), cell (position offset (element + 1))}
  scratch := ∅

variable [Add M]

private theorem upFootprint_bounds (element : ℕ) :
    (upFootprint cell offset : Footprint ℕ Place M).Bounds element where
  unchanged := fun memory x other _ => Function.update_of_ne other _ _
  determined := fun first second agree x written => by
    obtain rfl := Set.mem_singleton_iff.mp written
    have left := agree _ (Set.mem_insert _ _)
    have right := agree _ (Set.mem_insert_of_mem _ (Set.mem_singleton _))
    simp only [upFootprint, upPair, position] at left right ⊢
    rw [Function.update_self, Function.update_self, left, right]
  readsClean := Set.disjoint_empty _
  writesClean := Set.disjoint_empty _

private theorem downPair_right (element : ℕ) (memory : Place → M)
    (different : cell (position offset element) ≠ cell (position offset (element + 1))) :
    downPair cell offset element memory (cell (position offset (element + 1))) =
      memory (cell (position offset (element + 1))) + memory (cell (position offset element)) := by
  unfold downPair
  simp only [position] at different ⊢
  rw [Function.update_self, Function.update_of_ne different.symm]

private theorem downPair_left (element : ℕ) (memory : Place → M)
    (different : cell (position offset element) ≠ cell (position offset (element + 1))) :
    downPair cell offset element memory (cell (position offset element)) =
      memory (cell (position offset (element + 1))) := by
  unfold downPair
  simp only [position] at different ⊢
  rw [Function.update_of_ne different, Function.update_self]

private theorem downFootprint_bounds {element : ℕ}
    (different : cell (position offset element) ≠ cell (position offset (element + 1))) :
    (downFootprint cell offset : Footprint ℕ Place M).Bounds element where
  unchanged := fun memory x other _ => by
    simp only [downFootprint, Set.mem_insert_iff, Set.mem_singleton_iff, not_or] at other
    simp only [downFootprint, downPair, position] at other ⊢
    rw [Function.update_of_ne other.2, Function.update_of_ne other.1]
  determined := fun first second agree x written => by
    have left := agree _ (Set.mem_insert _ _)
    have right := agree _ (Set.mem_insert_of_mem _ (Set.mem_singleton _))
    change downPair cell offset element first x = downPair cell offset element second x
    obtain rfl | rfl := written
    · rw [downPair_left _ _ different, downPair_left _ _ different, right]
    · rw [downPair_right _ _ different, downPair_right _ _ different, left, right]
  readsClean := Set.disjoint_empty _
  writesClean := Set.disjoint_empty _

/-- The right cells of a level hold the sums of their pairs. -/
theorem upLevel_right (positive : 0 < offset)
    (distinct : Set.InjOn cell (Set.Iio (offset * (2 * d)))) (pairs : Pairs d order)
    (memory : Place → M) {pair : ℕ} (inside : pair < d) :
    order.foldl (fun memory element => upPair cell offset element memory) memory
        (cell (position offset (2 * pair + 1))) =
      memory (cell (position offset (2 * pair + 1))) +
        memory (cell (position offset (2 * pair))) := by
  have bounds : ∀ element ∈ order,
      (upFootprint cell offset : Footprint ℕ Place M).Bounds element :=
    fun element _ => upFootprint_bounds element
  have spares : ∀ first ∈ order, ∀ second ∈ order, first ≠ second →
      (upFootprint cell offset : Footprint ℕ Place M).Spares first second := by
    intro first member second member' different
    have apart := pairs_apart positive distinct pairs member member' different
    have right (element : ℕ) : {cell (position offset (element + 1))} ⊆
        ({cell (position offset element), cell (position offset (element + 1))} : Set Place) :=
      Set.singleton_subset_iff.mpr (Set.mem_insert_of_mem _ (Set.mem_singleton _))
    exact ⟨apart.mono_left (right first), apart.mono (right first) (right second)⟩
  refine (Footprint.run_written bounds pairs.nodup spares memory
    ((pairs.mem_iff _).mpr ⟨pair, inside, rfl⟩) (Set.mem_singleton _)).trans ?_
  simp only [upFootprint, upPair, position]
  rw [Function.update_self]

/-- Nothing but the right cells of a level changes. -/
theorem upLevel_other (pairs : Pairs d order) (memory : Place → M) {x : Place}
    (other : ∀ pair < d, x ≠ cell (position offset (2 * pair + 1))) :
    order.foldl (fun memory element => upPair cell offset element memory) memory x =
      memory x := by
  have bounds : ∀ element ∈ order,
      (upFootprint cell offset : Footprint ℕ Place M).Bounds element :=
    fun element _ => upFootprint_bounds element
  refine Footprint.run_unwritten bounds memory (fun element member written => ?_)
    (Set.notMem_empty x)
  obtain ⟨pair, inside, rfl⟩ := (pairs.mem_iff element).mp member
  exact other pair inside written

private theorem down_written (positive : 0 < offset)
    (distinct : Set.InjOn cell (Set.Iio (offset * (2 * d)))) (pairs : Pairs d order)
    (memory : Place → M) {pair : ℕ} (inside : pair < d) {x : Place}
    (written : x ∈ (downFootprint cell offset : Footprint ℕ Place M).writes (2 * pair)) :
    order.foldl (fun memory element => downPair cell offset element memory) memory x =
      downPair cell offset (2 * pair) memory x := by
  have bounds : ∀ element ∈ order,
      (downFootprint cell offset : Footprint ℕ Place M).Bounds element := by
    intro element member
    obtain ⟨other, below, rfl⟩ := (pairs.mem_iff element).mp member
    exact downFootprint_bounds (pair_ne positive distinct below)
  have spares : ∀ first ∈ order, ∀ second ∈ order, first ≠ second →
      (downFootprint cell offset : Footprint ℕ Place M).Spares first second := by
    intro first member second member' different
    have apart := pairs_apart positive distinct pairs member member' different
    exact ⟨apart, apart⟩
  exact Footprint.run_written bounds pairs.nodup spares memory
    ((pairs.mem_iff _).mpr ⟨pair, inside, rfl⟩) written

theorem downLevel_left (positive : 0 < offset)
    (distinct : Set.InjOn cell (Set.Iio (offset * (2 * d)))) (pairs : Pairs d order)
    (memory : Place → M) {pair : ℕ} (inside : pair < d) :
    order.foldl (fun memory element => downPair cell offset element memory) memory
        (cell (position offset (2 * pair))) =
      memory (cell (position offset (2 * pair + 1))) :=
  (down_written positive distinct pairs memory inside (Set.mem_insert _ _)).trans
    (downPair_left _ _ (pair_ne positive distinct inside))

theorem downLevel_right (positive : 0 < offset)
    (distinct : Set.InjOn cell (Set.Iio (offset * (2 * d)))) (pairs : Pairs d order)
    (memory : Place → M) {pair : ℕ} (inside : pair < d) :
    order.foldl (fun memory element => downPair cell offset element memory) memory
        (cell (position offset (2 * pair + 1))) =
      memory (cell (position offset (2 * pair + 1))) +
        memory (cell (position offset (2 * pair))) :=
  (down_written positive distinct pairs memory inside
    (Set.mem_insert_of_mem _ (Set.mem_singleton _))).trans
    (downPair_right _ _ (pair_ne positive distinct inside))

theorem downLevel_other (positive : 0 < offset)
    (distinct : Set.InjOn cell (Set.Iio (offset * (2 * d)))) (pairs : Pairs d order)
    (memory : Place → M) {x : Place}
    (left : ∀ pair < d, x ≠ cell (position offset (2 * pair)))
    (right : ∀ pair < d, x ≠ cell (position offset (2 * pair + 1))) :
    order.foldl (fun memory element => downPair cell offset element memory) memory x =
      memory x := by
  have bounds : ∀ element ∈ order,
      (downFootprint cell offset : Footprint ℕ Place M).Bounds element := by
    intro element member
    obtain ⟨other, below, rfl⟩ := (pairs.mem_iff element).mp member
    exact downFootprint_bounds (pair_ne positive distinct below)
  refine Footprint.run_unwritten bounds memory (fun element member written => ?_)
    (Set.notMem_empty x)
  obtain ⟨pair, inside, rfl⟩ := (pairs.mem_iff element).mp member
  obtain same | same := written
  · exact left pair inside same
  · exact right pair inside same

end Level

/-! ## All levels -/

section Levels

open Finset

variable [AddCommMonoid M] {cell : ℕ → Place} {values : ℕ → M}
  {base memory : Place → M} {bits level : ℕ}

/-- The left cells of the levels below hold the sums of their blocks. -/
def Leaves (cell : ℕ → Place) (values : ℕ → M) (bits level : ℕ) (memory : Place → M) : Prop :=
  ∀ lower < level, ∀ pair < 2 ^ (bits - lower - 1),
    memory (cell (position (2 ^ lower) (2 * pair))) =
      ∑ i ∈ Ico (2 ^ lower * (2 * pair)) (2 ^ lower * (2 * pair + 1)), values i

/-- During the up-sweep the cells of a level hold the sums of their blocks, and
everything but the cells is as it was. -/
structure Summed (cell : ℕ → Place) (values : ℕ → M) (base : Place → M) (bits level : ℕ)
    (memory : Place → M) : Prop where
  outside : ∀ x, (∀ i < 2 ^ bits, x ≠ cell i) → memory x = base x
  leaves : Leaves cell values bits level memory
  nodes : ∀ block < 2 ^ (bits - level), memory (cell (position (2 ^ level) block)) =
    ∑ i ∈ Ico (2 ^ level * block) (2 ^ level * (block + 1)), values i

/-- During the down-sweep the cells of a level hold the sums of everything before
their blocks. -/
structure Prefixed (cell : ℕ → Place) (values : ℕ → M) (base : Place → M) (bits level : ℕ)
    (memory : Place → M) : Prop where
  outside : ∀ x, (∀ i < 2 ^ bits, x ≠ cell i) → memory x = base x
  leaves : Leaves cell values bits level memory
  nodes : ∀ block < 2 ^ (bits - level), memory (cell (position (2 ^ level) block)) =
    ∑ i ∈ range (2 ^ level * block), values i

/-- The left cells of a lower level are no cells of a higher one. -/
private theorem lower_ne (distinct : Set.InjOn cell (Set.Iio (2 ^ bits))) {lower : ℕ}
    (below : lower < level) (inside : level ≤ bits) {pair block : ℕ}
    (pairInside : pair < 2 ^ (bits - lower - 1)) (blockInside : block < 2 ^ (bits - level)) :
    cell (position (2 ^ lower) (2 * pair)) ≠ cell (position (2 ^ level) block) := by
  intro same
  obtain ⟨gap, rfl⟩ := Nat.exists_eq_add_of_lt below
  obtain ⟨rest, rfl⟩ := Nat.exists_eq_add_of_le inside
  have left : position (2 ^ lower) (2 * pair) < 2 ^ (lower + gap + 1 + rest) := by
    have blocks : 2 ^ (lower + gap + 1 + rest) =
        2 ^ lower * (2 * 2 ^ (lower + gap + 1 + rest - lower - 1)) := by
      rw [← pow_succ', ← pow_add]
      congr 1
      omega
    rw [blocks]
    exact position_lt (Nat.two_pow_pos _) (by omega)
  have right : position (2 ^ (lower + gap + 1)) block < 2 ^ (lower + gap + 1 + rest) := by
    rw [pow_add _ (lower + gap + 1)]
    rw [Nat.add_sub_cancel_left] at blockInside
    exact position_lt (Nat.two_pow_pos _) blockInside
  have place := congrArg (· + 1) (distinct left right same)
  simp only [position_succ (Nat.two_pow_pos _)] at place
  have halves : 2 * pair + 1 = 2 * (2 ^ gap * (block + 1)) := by
    apply Nat.eq_of_mul_eq_mul_left (Nat.two_pow_pos lower)
    rw [place]
    ring
  omega

/-- The blocks of a level are the right halves of the pairs of the level below. -/
private theorem position_double (level block : ℕ) :
    position (2 ^ (level + 1)) block = position (2 ^ level) (2 * block + 1) := by
  unfold position
  rw [pow_succ]
  congr 1
  ring

/-- All cells of a level with its pairs are below the length of the row. -/
private theorem pow_eq_pairs (inside : level < bits) :
    2 ^ bits = 2 ^ level * (2 * 2 ^ (bits - level - 1)) ∧
      2 ^ (bits - level) = 2 * 2 ^ (bits - level - 1) := by
  obtain ⟨rest, rfl⟩ := Nat.exists_eq_add_of_lt inside
  rw [show level + rest + 1 - level - 1 = rest by omega,
    show level + rest + 1 - level = rest + 1 by omega]
  refine ⟨?_, pow_succ' 2 rest⟩
  ring

/-- Before the up-sweep every cell is a block of its own. -/
theorem Summed.of_row (row : ∀ i < 2 ^ bits, memory (cell i) = values i) :
    Summed cell values memory bits 0 memory := by
  refine ⟨fun _ _ => rfl, fun lower below => absurd below (Nat.not_lt_zero lower),
    fun block inside => ?_⟩
  rw [pow_zero, Nat.one_mul, Nat.one_mul, Nat.Ico_succ_singleton, sum_singleton]
  unfold position
  rw [Nat.one_mul]
  exact row block inside

/-- The last cell holds the sum of the row. -/
theorem Summed.total (summed : Summed cell values base bits bits memory) :
    memory (cell (2 ^ bits - 1)) = ∑ i ∈ range (2 ^ bits), values i := by
  have node := summed.nodes 0 (by simp)
  unfold position at node
  simp only [Nat.zero_add, Nat.mul_one, Nat.mul_zero] at node
  rw [node, range_eq_Ico]

/-- Nothing comes before the whole row. -/
theorem Summed.prefixed {next : Place → M} (summed : Summed cell values base bits bits memory)
    (zero : next (cell (2 ^ bits - 1)) = 0)
    (same : ∀ i < 2 ^ bits - 1, next (cell i) = memory (cell i)) :
    Prefixed cell values next bits bits next := by
  refine ⟨fun _ _ => rfl, fun lower below pair inside => ?_, fun block inside => ?_⟩
  · rw [same, summed.leaves lower below pair inside]
    obtain ⟨blocks, -⟩ := pow_eq_pairs below
    have room : position (2 ^ lower) (2 * pair) + 1 ≤ 2 ^ lower * (2 * pair + 1) :=
      (position_succ (Nat.two_pow_pos _) _).le
    have further : 2 ^ lower * (2 * pair + 1) < 2 ^ bits := by
      rw [blocks]
      exact Nat.mul_lt_mul_of_pos_left (by omega) (Nat.two_pow_pos _)
    omega
  · have first : block = 0 := by
      rw [Nat.sub_self, pow_zero] at inside
      omega
    subst first
    unfold position
    simp only [Nat.zero_add, Nat.mul_one, Nat.mul_zero, range_zero, sum_empty]
    exact zero

/-- After the down-sweep the row holds its prefix sums. -/
theorem Prefixed.row (prefixed : Prefixed cell values base bits 0 memory) {i : ℕ}
    (inside : i < 2 ^ bits) : memory (cell i) = ∑ j ∈ range i, values j := by
  have node := prefixed.nodes i inside
  unfold position at node
  simpa only [pow_zero, Nat.one_mul, Nat.add_sub_cancel] using node

variable [DecidableEq Place] {order : List ℕ}

/-- **Up.** One level of the up-sweep. -/
theorem Summed.up (summed : Summed cell values base bits level memory)
    (distinct : Set.InjOn cell (Set.Iio (2 ^ bits))) (inside : level < bits)
    (pairs : Pairs (2 ^ (bits - level - 1)) order) :
    Summed cell values base bits (level + 1)
      (order.foldl (fun memory element => upPair cell (2 ^ level) element memory) memory) := by
  obtain ⟨blocks, double⟩ := pow_eq_pairs inside
  have positive : 0 < 2 ^ level := Nat.two_pow_pos level
  have distinct' := blocks ▸ distinct
  refine ⟨fun x outside => ?_, fun lower below pair pairInside => ?_,
    fun block blockInside => ?_⟩
  · rw [upLevel_other pairs memory fun pair pairInside => outside _ ?_]
    · exact summed.outside x outside
    · rw [blocks]
      exact position_lt positive (by omega)
  · obtain lower' | rfl := Nat.lt_succ_iff_lt_or_eq.mp below
    · rw [upLevel_other pairs memory fun other otherInside =>
        lower_ne distinct lower' inside.le pairInside (by omega)]
      exact summed.leaves lower lower' pair pairInside
    · rw [upLevel_other pairs memory fun other otherInside same => ?_]
      · exact summed.nodes (2 * pair) (by omega)
      · have block := position_injective positive
          (distinct' (position_lt positive (by omega)) (position_lt positive (by omega)) same)
        omega
  · rw [Nat.sub_add_eq] at blockInside
    rw [position_double, upLevel_right positive distinct' pairs memory blockInside,
      summed.nodes _ (by omega), summed.nodes _ (by omega), add_comm,
      sum_Ico_consecutive _ (Nat.mul_le_mul_left _ (Nat.le_add_right _ 1))
        (Nat.mul_le_mul_left _ (Nat.le_add_right _ 1))]
    congr 2
    · ring
    · ring

/-- **Down.** One level of the down-sweep. -/
theorem Prefixed.down (prefixed : Prefixed cell values base bits (level + 1) memory)
    (distinct : Set.InjOn cell (Set.Iio (2 ^ bits))) (inside : level < bits)
    (pairs : Pairs (2 ^ (bits - level - 1)) order) :
    Prefixed cell values base bits level
      (order.foldl (fun memory element => downPair cell (2 ^ level) element memory) memory) := by
  obtain ⟨blocks, double⟩ := pow_eq_pairs inside
  have positive : 0 < 2 ^ level := Nat.two_pow_pos level
  have distinct' := blocks ▸ distinct
  have node {pair : ℕ} (pairInside : pair < 2 ^ (bits - level - 1)) :
      memory (cell (position (2 ^ level) (2 * pair + 1))) =
        ∑ i ∈ range (2 ^ level * (2 * pair)), values i := by
    rw [← position_double, prefixed.nodes pair (by rwa [Nat.sub_add_eq])]
    congr 2
    ring
  refine ⟨fun x outside => ?_, fun lower below pair pairInside => ?_,
    fun block blockInside => ?_⟩
  · have inRow {block : ℕ} (below : block < 2 * 2 ^ (bits - level - 1)) :
        position (2 ^ level) block < 2 ^ bits := by
      rw [blocks]
      exact position_lt positive below
    rw [downLevel_other positive distinct' pairs memory
      (fun pair pairInside => outside _ (inRow (by omega)))
      fun pair pairInside => outside _ (inRow (by omega))]
    exact prefixed.outside x outside
  · rw [downLevel_other positive distinct' pairs memory
      (fun other otherInside => lower_ne distinct below inside.le pairInside (by omega))
      fun other otherInside => lower_ne distinct below inside.le pairInside (by omega)]
    exact prefixed.leaves lower (by omega) pair pairInside
  · obtain ⟨pair, rfl | rfl⟩ := Nat.even_or_odd' block
    · rw [downLevel_left positive distinct' pairs memory (by omega), node (by omega)]
    · have pairInside : pair < 2 ^ (bits - level - 1) := by omega
      rw [downLevel_right positive distinct' pairs memory pairInside, node pairInside,
        prefixed.leaves level (Nat.lt_succ_self level) pair pairInside,
        sum_range_add_sum_Ico _ (Nat.mul_le_mul_left _ (Nat.le_succ _))]

private theorem half_pow (rest : ℕ) : 2 ^ (rest + 1) / 2 = 2 ^ rest := by
  rw [pow_succ, Nat.mul_div_cancel _ Nat.two_pos]

private theorem upSteps_pow (level rest : ℕ) :
    upSteps (2 ^ (rest + 1) / 2) (2 ^ level) =
      (2 ^ rest, 2 ^ level) :: upSteps (2 ^ rest / 2) (2 ^ (level + 1)) := by
  rw [half_pow, upSteps, if_pos (Nat.two_pow_pos rest), pow_succ 2 level]

private theorem downSteps_pow (level rest : ℕ) :
    downSteps (2 ^ (level + 1 + rest)) (2 ^ rest) (2 ^ (level + 1) / 2) =
      (2 ^ rest, 2 ^ level) ::
        downSteps (2 ^ (level + 1 + rest)) (2 ^ (rest + 1)) (2 ^ level / 2) := by
  have below : 2 ^ rest < 2 ^ (level + 1 + rest) := Nat.pow_lt_pow_right (by decide) (by omega)
  rw [half_pow, downSteps, if_pos ⟨Nat.two_pow_pos rest, below⟩, pow_succ 2 rest]

/-- The pairs of a level of the up-sweep span the row. -/
theorem mem_upSteps {rest : ℕ} (level : ℕ) {step : ℕ × ℕ}
    (member : step ∈ upSteps (2 ^ rest / 2) (2 ^ level)) :
    0 < step.2 ∧ step.2 * (2 * step.1) = 2 ^ (level + rest) := by
  induction rest generalizing level with
  | zero =>
      rw [upSteps, if_neg (by simp)] at member
      cases member
  | succ rest ih =>
      rw [upSteps_pow] at member
      obtain rfl | later := List.mem_cons.mp member
      · refine ⟨Nat.two_pow_pos level, ?_⟩
        rw [← Nat.pow_succ', ← Nat.pow_add]
      · rw [show level + (rest + 1) = level + 1 + rest by omega]
        exact ih (level + 1) later

/-- The pairs of a level of the down-sweep span the row. -/
theorem mem_downSteps {level : ℕ} (rest : ℕ) {step : ℕ × ℕ}
    (member : step ∈ downSteps (2 ^ (level + rest)) (2 ^ rest) (2 ^ level / 2)) :
    0 < step.2 ∧ step.2 * (2 * step.1) = 2 ^ (level + rest) := by
  induction level generalizing rest with
  | zero =>
      rw [downSteps, if_neg (by simp)] at member
      cases member
  | succ level ih =>
      rw [downSteps_pow] at member
      obtain rfl | later := List.mem_cons.mp member
      · refine ⟨Nat.two_pow_pos level, ?_⟩
        rw [← Nat.pow_succ', ← Nat.pow_add, show level + 1 + rest = level + (rest + 1) by omega]
      · rw [show level + 1 + rest = level + (rest + 1) by omega] at later ⊢
        exact ih (rest + 1) later

/-- **The up-sweep.** Whatever the order within the levels, the last cell ends up
with the sum of the whole row. -/
theorem Summed.sweep (runs : List ((ℕ × ℕ) × List ℕ))
    (summed : Summed cell values base bits level memory)
    (distinct : Set.InjOn cell (Set.Iio (2 ^ bits))) (inside : level ≤ bits)
    (steps : runs.map Prod.fst = upSteps (2 ^ (bits - level) / 2) (2 ^ level))
    (pairs : ∀ run ∈ runs, Pairs run.1.1 run.2) :
    Summed cell values base bits bits (runs.foldl (fun memory run =>
      run.2.foldl (fun memory element => upPair cell run.1.2 element memory) memory) memory) := by
  obtain ⟨rest, rfl⟩ := Nat.exists_eq_add_of_le inside
  rw [Nat.add_sub_cancel_left] at steps
  induction rest generalizing level memory runs with
  | zero =>
      rw [upSteps, if_neg (by simp)] at steps
      rw [List.map_eq_nil_iff.mp steps]
      exact summed
  | succ rest ih =>
      rw [upSteps_pow] at steps
      obtain ⟨run, later, rfl, first, others⟩ := List.map_eq_cons_iff.mp steps
      have count : level + (rest + 1) - level - 1 = rest := by omega
      have order := pairs run List.mem_cons_self
      rw [List.foldl_cons, first]
      rw [first] at order
      have next := summed.up distinct (by omega) (count.symm ▸ order)
      rw [show level + (rest + 1) = level + 1 + rest by omega] at next distinct ⊢
      exact ih later (fun other member => pairs other (List.mem_cons_of_mem _ member)) next distinct
        (by omega) others

/-- **The down-sweep.** Whatever the order within the levels, every cell ends up with
the sum of everything before it. -/
theorem Prefixed.sweep (runs : List ((ℕ × ℕ) × List ℕ))
    (prefixed : Prefixed cell values base bits level memory)
    (distinct : Set.InjOn cell (Set.Iio (2 ^ bits))) (inside : level ≤ bits)
    (steps : runs.map Prod.fst =
      downSteps (2 ^ bits) (2 ^ (bits - level)) (2 ^ level / 2))
    (pairs : ∀ run ∈ runs, Pairs run.1.1 run.2) :
    Prefixed cell values base bits 0 (runs.foldl (fun memory run =>
      run.2.foldl (fun memory element => downPair cell run.1.2 element memory) memory) memory) := by
  induction level generalizing memory runs with
  | zero =>
      rw [downSteps, if_neg (by simp)] at steps
      rw [List.map_eq_nil_iff.mp steps]
      exact prefixed
  | succ level ih =>
      obtain ⟨rest, rfl⟩ := Nat.exists_eq_add_of_le inside
      rw [Nat.add_sub_cancel_left, downSteps_pow] at steps
      obtain ⟨run, later, rfl, first, others⟩ := List.map_eq_cons_iff.mp steps
      have count : level + 1 + rest - level - 1 = rest := by omega
      have order := pairs run List.mem_cons_self
      rw [List.foldl_cons, first]
      rw [first] at order
      have next := prefixed.down distinct (by omega) (count.symm ▸ order)
      apply ih later next (by omega)
      · rw [others, show level + 1 + rest - level = rest + 1 by omega]
      · exact fun other member => pairs other (List.mem_cons_of_mem _ member)

end Levels

/-- The sum of what comes before, block by block. -/
theorem sum_range_blocks [AddCommMonoid M] (values : ℕ → M) (width blocks rest : ℕ) :
    ∑ block ∈ range blocks, ∑ i ∈ range width, values (block * width + i) +
        ∑ i ∈ range rest, values (blocks * width + i) =
      ∑ i ∈ range (blocks * width + rest), values i := by
  rw [sum_range_add]
  congr 1
  induction blocks with
  | zero => rw [Nat.zero_mul, range_zero, sum_empty, sum_empty]
  | succ blocks ih => rw [sum_range_succ, ih, Nat.succ_mul, sum_range_add]

end Math.Sweep
