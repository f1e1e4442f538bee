import Mathlib.Data.Set.Lattice
import Mathlib.Data.Set.Pairwise.Basic
import Mathlib.Order.CompletePartialOrder
import Alpaka.Mem.BoundaryIter
import Alpaka.Mem.IdxRange
import Alpaka.Mem.IndexWidth

/-! # The parts of a volume in all directions

The halos split every dimension into a lower, a middle and an upper part, and the parts
of a range in all directions split the range (`Alpaka.disjoint_parts` and
`Alpaka.union_parts`). The sub view in a direction has the addresses of the elements of
its part as long as the offset of the last element is representable
(`Alpaka.splits_iff`).
-/

namespace Alpaka

open Math.Strides (offset offset_last)

variable {n : ℕ}

/-- The part of a range in a direction. Its bounds have 32 bits. A component out of bounds
violates an assertion. -/
def makeDirectionSubRange (range : IdxRange ℕ n) (boundaryDir : BoundaryDirection n) :
    IdxRange ℕ n :=
  let beginMd : Vec (BitVec 32) n := fun i =>
    match boundaryDir.data i with
    | .lower => range.beginMd i
    | .upper => range.endMd i - boundaryDir.upperHaloSize i
    | .middle => range.beginMd i + boundaryDir.lowerHaloSize i
    | .oob => 0
  let endMd : Vec (BitVec 32) n := fun i =>
    match boundaryDir.data i with
    | .lower => range.beginMd i + boundaryDir.lowerHaloSize i
    | .upper => range.endMd i
    | .middle => range.endMd i - boundaryDir.upperHaloSize i
    | .oob => 0
  ⟨fun i => (beginMd i).toNat, fun i => (endMd i).toNat, range.strideMd⟩

/-- A part of a view, from an offset on. -/
def MdSpan.getSubView (view : MdSpan (BitVec 32) n) (offset extents : Vec (BitVec 32) (n + 1)) :
    MdSpan (BitVec 32) n :=
  { view with data := view.ptr BitVec.toNat offset, extents := extents }

/-- The part of a view in a direction. A component out of bounds is refused. -/
def MdSpan.getDirectionSubView (view : MdSpan (BitVec 32) n)
    (boundaryDir : BoundaryDirection (n + 1)) : Option (MdSpan (BitVec 32) n) :=
  let offset : Vec (BitVec 32) (n + 1) := fun i =>
    match boundaryDir.data i with
    | .lower => 0
    | .upper => view.extents i - boundaryDir.upperHaloSize i
    | .middle => boundaryDir.lowerHaloSize i
    | .oob => 0
  let extents : Vec (BitVec 32) (n + 1) := fun i =>
    match boundaryDir.data i with
    | .lower => boundaryDir.lowerHaloSize i
    | .upper => boundaryDir.upperHaloSize i
    | .middle => view.extents i - boundaryDir.lowerHaloSize i - boundaryDir.upperHaloSize i
    | .oob => 0
  if ∃ i, boundaryDir.data i = .oob then none else some (view.getSubView offset extents)

/-- The directions that a loop over the container sees. -/
def BoundaryDirectionsContainer.directions (container : BoundaryDirectionsContainer n) :
    Set (BoundaryDirection n) :=
  {direction | ∃ steps iter, container.iterate steps = some iter ∧ iter ≠ container.end ∧
    iter.boundaries = direction}

/-- The halos fit into a range with unit stride and bounds of 32 bits. -/
structure BoundaryDirectionsContainer.Fits (container : BoundaryDirectionsContainer n)
    (range : IdxRange ℕ n) : Prop where
  stride : ∀ d, range.strideMd d = 1
  room : ∀ d, range.beginMd d + container.lowerHaloSizes d + container.upperHaloSizes d ≤
    range.endMd d
  bounds : ∀ d, range.endMd d < 2 ^ 32

/-- The indices of a view as a range. -/
def MdSpan.range (view : MdSpan (BitVec 32) n) : IdxRange ℕ (n + 1) :=
  .ofExtents fun d => (view.extents d).toNat

/-- The addresses of the elements with the given indices. -/
def MdSpan.addresses (view : MdSpan (BitVec 32) n) (indices : Set (Vec ℕ (n + 1))) : Set ℕ :=
  {address | ∃ idx : Vec (BitVec 32) (n + 1), (fun d => (idx d).toNat) ∈ indices ∧
    view.ptr BitVec.toNat idx = address}

/-- The elements of a range. -/
def IdxRange.elements (range : IdxRange ℕ n) : Set (Vec ℕ n) := range.lattice id

/-- What it means that the directions split volumes, and a view in particular. -/
structure Splits (view : MdSpan (BitVec 32) n) : Prop where
  length : (BoundaryDirectionsContainer.length (n + 1)).toNat = 3 ^ (n + 1)
  visits : ∀ container : BoundaryDirectionsContainer (n + 1), Visits container (3 ^ (n + 1))
  disjoint : ∀ (container : BoundaryDirectionsContainer (n + 1)) (range : IdxRange ℕ (n + 1)),
    container.Fits range → container.directions.PairwiseDisjoint
      fun direction => (makeDirectionSubRange range direction).elements
  union : ∀ (container : BoundaryDirectionsContainer (n + 1)) (range : IdxRange ℕ (n + 1)),
    container.Fits range → ⋃ direction ∈ container.directions,
      (makeDirectionSubRange range direction).elements = range.elements
  views : ∀ container : BoundaryDirectionsContainer (n + 1), container.Fits view.range →
    ∀ direction ∈ container.directions, ∃ part, view.getDirectionSubView direction = some part ∧
      part.addresses part.range.elements =
        view.addresses (makeDirectionSubRange view.range direction).elements

/-- The offset of the last element has 32 bits, if there is an element. With one dimension
the offset is not computed in the index type. -/
def MdSpan.Addressable (view : MdSpan (BitVec 32) n) : Prop :=
  n = 0 ∨ ((∀ d, 0 < (view.extents d).toNat) →
    offset (fun d => (view.getPitches d).toNat) (fun d => (view.extents d).toNat - 1) < 2 ^ 32)

/-! ## One dimension -/

/-- The part of a dimension that a type of boundary names. -/
def BoundaryType.part (first last lower upper : ℕ) : BoundaryType → Set ℕ
  | .lower => Set.Ico first (first + lower)
  | .middle => Set.Ico (first + lower) (last - upper)
  | .upper => Set.Ico (last - upper) last
  | .oob => ∅

section Part

variable {first last lower upper x : ℕ}

private theorem part_subset (room : first + lower + upper ≤ last) {type : BoundaryType}
    (member : x ∈ type.part first last lower upper) : first ≤ x ∧ x < last := by
  cases type <;> simp only [BoundaryType.part, Set.mem_Ico, Set.mem_empty_iff_false] at member <;>
    omega

/-- The parts of a dimension are disjoint. -/
theorem part_unique (room : first + lower + upper ≤ last) {type other : BoundaryType}
    (member : x ∈ type.part first last lower upper)
    (member' : x ∈ other.part first last lower upper) : type = other := by
  cases type <;> cases other <;>
    simp only [BoundaryType.part, Set.mem_Ico, Set.mem_empty_iff_false] at member member' <;>
    first | rfl | omega

/-- The parts of a dimension cover it. -/
theorem exists_part (lower upper : ℕ) (above : first ≤ x) (below : x < last) :
    ∃ type : BoundaryType, type ≠ .oob ∧ x ∈ type.part first last lower upper := by
  by_cases low : x < first + lower
  · exact ⟨.lower, by decide, above, low⟩
  · by_cases high : x < last - upper
    · exact ⟨.middle, by decide, Nat.le_of_not_lt low, high⟩
    · exact ⟨.upper, by decide, Nat.le_of_not_lt high, below⟩

end Part

/-! ## Ranges -/

theorem IdxRange.mem_elements (range : IdxRange ℕ n) (stride : ∀ d, range.strideMd d = 1)
    (x : Vec ℕ n) : x ∈ range.elements ↔ ∀ d, range.beginMd d ≤ x d ∧ x d < range.endMd d := by
  constructor
  · intro member d
    obtain ⟨count, position, below⟩ := member.1 d
    exact ⟨Nat.le.intro position.symm, below⟩
  · intro inside
    refine ⟨fun d => ⟨x d - range.beginMd d, ?_, (inside d).2⟩, fun d outside => ?_⟩
    · rw [stride, Nat.mul_one]
      exact (Nat.add_sub_cancel' (inside d).1).symm
    · exact absurd rfl (outside d)

private theorem BoundaryDirectionsContainer.mem_directions
    {container : BoundaryDirectionsContainer (n + 1)} {direction : BoundaryDirection (n + 1)} :
    direction ∈ container.directions ↔ direction.Valid ∧
      direction.lowerHaloSize = container.lowerHaloSizes ∧
      direction.upperHaloSize = container.upperHaloSizes := by
  have visits := visits_directions container
  constructor
  · rintro ⟨steps, iter, reached, inside, rfl⟩
    have below : steps < 3 ^ (n + 1) := by
      rcases Nat.lt_trichotomy steps (3 ^ (n + 1)) with before | same | after
      · exact before
      · have last := (visits.reachesEnd steps).mpr same
        exact absurd (Option.some.inj (reached.symm.trans last)) inside
      · have stopped := iterate_after container (steps - (3 ^ (n + 1) + 1))
        rw [Nat.add_sub_cancel' after, reached] at stopped
        cases stopped
    obtain ⟨direction, valid, reached'⟩ := visits.proper steps below
    obtain rfl := Option.some.inj (reached.symm.trans reached')
    exact ⟨valid, rfl, rfl⟩
  · rintro ⟨valid, lower, upper⟩
    obtain ⟨steps, ⟨below, reached⟩, -⟩ := visits.once direction valid
    refine ⟨steps, _, reached, fun same => ?_, ?_⟩
    · rw [same, visits.reachesEnd] at reached
      omega
    · cases direction
      cases lower
      cases upper
      rfl

private theorem toNat_natCast_of_lt {number : ℕ} (below : number < 2 ^ 32) :
    (number : BitVec 32).toNat = number := by
  rw [toNat_cast, Nat.mod_eq_of_lt below]

private theorem toNat_add_of_lt {first second : ℕ} (below : first + second < 2 ^ 32) :
    ((first : BitVec 32) + (second : BitVec 32)).toNat = first + second := by
  rw [← Nat.cast_add, toNat_natCast_of_lt below]

private theorem toNat_sub_of_le {first second : ℕ} (below : first < 2 ^ 32)
    (ordered : second ≤ first) :
    ((first : BitVec 32) - (second : BitVec 32)).toNat = first - second := by
  rw [← Nat.cast_sub ordered, toNat_natCast_of_lt ((Nat.sub_le _ _).trans_lt below)]

private theorem toNat_sub_cast {extent : BitVec 32} {halo : ℕ} (ordered : halo ≤ extent.toNat) :
    (extent - (halo : BitVec 32)).toNat = extent.toNat - halo := by
  have difference := toNat_sub_of_le extent.isLt ordered
  rwa [natCast_toNat] at difference

section Range

variable {container : BoundaryDirectionsContainer (n + 1)} {range : IdxRange ℕ (n + 1)}

/-- The elements of a part of a range. -/
theorem mem_subRange (fits : container.Fits range) {direction : BoundaryDirection (n + 1)}
    (visited : direction ∈ container.directions) (x : Vec ℕ (n + 1)) :
    x ∈ (makeDirectionSubRange range direction).elements ↔
      ∀ d, x d ∈ (direction.data d).part (range.beginMd d) (range.endMd d)
        (container.lowerHaloSizes d) (container.upperHaloSizes d) := by
  obtain ⟨valid, lower, upper⟩ := BoundaryDirectionsContainer.mem_directions.mp visited
  rw [IdxRange.mem_elements (makeDirectionSubRange range direction) fits.stride]
  refine forall_congr' fun d => ?_
  have room := fits.room d
  have bounds := fits.bounds d
  unfold makeDirectionSubRange
  cases type : direction.data d with
  | oob => exact absurd type (valid d)
  | lower =>
      simp only [type, lower, BoundaryType.part, Set.mem_Ico]
      rw [toNat_natCast_of_lt (by omega), toNat_add_of_lt (by omega)]
  | middle =>
      simp only [type, lower, upper, BoundaryType.part, Set.mem_Ico]
      rw [toNat_add_of_lt (by omega), toNat_sub_of_le bounds (by omega)]
  | upper =>
      simp only [type, upper, BoundaryType.part, Set.mem_Ico]
      rw [toNat_sub_of_le bounds (by omega), toNat_natCast_of_lt bounds]

/-- The parts of a range in different directions are disjoint. -/
theorem disjoint_parts (fits : container.Fits range) : container.directions.PairwiseDisjoint
    fun direction => (makeDirectionSubRange range direction).elements := by
  intro first firstIn second secondIn different
  rw [Function.onFun, Set.disjoint_left]
  intro x member member'
  rw [mem_subRange fits firstIn] at member
  rw [mem_subRange fits secondIn] at member'
  have data : first.data = second.data :=
    funext fun d => part_unique (fits.room d) (member d) (member' d)
  obtain ⟨-, lower, upper⟩ := BoundaryDirectionsContainer.mem_directions.mp firstIn
  obtain ⟨-, lower', upper'⟩ := BoundaryDirectionsContainer.mem_directions.mp secondIn
  apply different
  cases first
  cases second
  simp only at data lower upper lower' upper'
  rw [data, lower, upper, lower', upper']

/-- The parts of a range cover it. -/
theorem union_parts (fits : container.Fits range) : ⋃ direction ∈ container.directions,
    (makeDirectionSubRange range direction).elements = range.elements := by
  ext x
  simp only [Set.mem_iUnion, exists_prop]
  constructor
  · rintro ⟨direction, visited, member⟩
    rw [mem_subRange fits visited] at member
    rw [IdxRange.mem_elements range fits.stride]
    exact fun d => part_subset (fits.room d) (member d)
  · intro member
    rw [IdxRange.mem_elements range fits.stride] at member
    choose data valid inside using fun d => exists_part (container.lowerHaloSizes d)
      (container.upperHaloSizes d) (member d).1 (member d).2
    have visited : ⟨data, container.lowerHaloSizes, container.upperHaloSizes⟩ ∈
        container.directions :=
      BoundaryDirectionsContainer.mem_directions.mpr ⟨valid, rfl, rfl⟩
    exact ⟨_, visited, (mem_subRange fits visited x).mpr inside⟩

end Range

/-! ## Views -/

section View

variable {view : MdSpan (BitVec 32) n}

/-- Offsets in the index type. -/
theorem MdSpan.byteOffset_eq_offset (view : MdSpan (BitVec 32) (n + 1))
    (idx : Vec (BitVec 32) (n + 2)) :
    view.byteOffset BitVec.toNat idx =
      offset (fun d => (view.getPitches d).toNat) (fun d => (idx d).toNat) % 2 ^ 32 := by
  rw [MdSpan.byteOffset_eq_pitchSum, offset_last]
  unfold MdSpan.pitchSum MdSpan.getPitches Fin.init
  simp only [Fin.snoc_castSucc, Fin.snoc_last, toNat_cast]
  exact (((Nat.mod_modEq view.sizeofValue (2 ^ 32)).mul_left _).add_left _).symm

private theorem toNat_add_inside {first second extent : BitVec 32}
    (inside : first.toNat + second.toNat < extent.toNat) :
    (first + second).toNat = first.toNat + second.toNat :=
  BitVec.toNat_add_of_lt (inside.trans extent.isLt)

/-- In an addressable view offsets add up. -/
theorem MdSpan.Addressable.byteOffset_add (addressable : view.Addressable)
    {first second : Vec (BitVec 32) (n + 1)}
    (inside : ∀ d, (first d).toNat + (second d).toNat < (view.extents d).toNat) :
    view.byteOffset BitVec.toNat (fun d => first d + second d) =
      view.byteOffset BitVec.toNat first + view.byteOffset BitVec.toNat second := by
  have sums (d : Fin (n + 1)) := toNat_add_inside (inside d)
  cases n with
  | zero =>
      have back := sums 0
      change (first 0 + second 0).toNat * view.sizeofValue =
        (first 0).toNat * view.sizeofValue + (second 0).toNat * view.sizeofValue
      rw [back, Nat.add_mul]
  | succ n =>
      have last := addressable.resolve_left (Nat.succ_ne_zero n) fun d => by
        have := inside d
        omega
      have total : offset (fun d => (view.getPitches d).toNat)
          (fun d => (first d).toNat + (second d).toNat) < 2 ^ 32 :=
        (Math.Strides.offset_mono _ fun d => Nat.le_sub_one_of_lt (inside d)).trans_lt last
      simp only [MdSpan.byteOffset_eq_offset, sums]
      rw [Nat.mod_eq_of_lt total, Nat.mod_eq_of_lt, Nat.mod_eq_of_lt, Math.Strides.offset_add]
      · rw [Math.Strides.offset_add] at total
        omega
      · rw [Math.Strides.offset_add] at total
        omega

private theorem MdSpan.byteOffset_getSubView (first extents idx : Vec (BitVec 32) (n + 1)) :
    (view.getSubView first extents).byteOffset BitVec.toNat idx =
      view.byteOffset BitVec.toNat idx := by
  cases n <;> rfl

/-- The address of an element of a sub view. -/
theorem MdSpan.ptr_getSubView (first extents idx : Vec (BitVec 32) (n + 1)) :
    (view.getSubView first extents).ptr BitVec.toNat idx =
      view.data + (view.byteOffset BitVec.toNat first + view.byteOffset BitVec.toNat idx) := by
  unfold MdSpan.ptr
  rw [MdSpan.byteOffset_getSubView]
  exact Nat.add_assoc _ _ _

theorem MdSpan.mem_range (view : MdSpan (BitVec 32) n) (x : Vec ℕ (n + 1)) :
    x ∈ view.range.elements ↔ ∀ d, x d < (view.extents d).toNat := by
  rw [IdxRange.mem_elements view.range fun _ => rfl]
  exact forall_congr' fun d => and_iff_right (Nat.zero_le (x d))

/-- The sub view in a direction and the part of the range in the direction have the same
begin and end. -/
theorem exists_subView {container : BoundaryDirectionsContainer (n + 1)}
    (fits : container.Fits view.range) {direction : BoundaryDirection (n + 1)}
    (visited : direction ∈ container.directions) :
    ∃ first extents, view.getDirectionSubView direction = some (view.getSubView first extents) ∧
      ∀ d, (makeDirectionSubRange view.range direction).beginMd d = (first d).toNat ∧
        (makeDirectionSubRange view.range direction).endMd d =
          (first d).toNat + (extents d).toNat ∧
        (first d).toNat + (extents d).toNat ≤ (view.extents d).toNat := by
  obtain ⟨valid, lower, upper⟩ := BoundaryDirectionsContainer.mem_directions.mp visited
  have proper : ¬ ∃ d, direction.data d = .oob := fun ⟨d, outside⟩ => valid d outside
  refine ⟨_, _, if_neg proper, fun d => ?_⟩
  have room : 0 + container.lowerHaloSizes d + container.upperHaloSizes d ≤
    (view.extents d).toNat := fits.room d
  have bounds : (view.extents d).toNat < 2 ^ 32 := fits.bounds d
  have first : view.range.beginMd d = 0 := rfl
  have last : view.range.endMd d = (view.extents d).toNat := rfl
  have zero : (0 : BitVec 32).toNat = 0 := rfl
  unfold makeDirectionSubRange
  cases type : direction.data d with
  | oob => exact absurd type (valid d)
  | lower =>
      simp only [type, lower, first, zero]
      rw [toNat_add_of_lt (by omega), toNat_natCast_of_lt (by omega),
        toNat_natCast_of_lt (by omega)]
      omega
  | middle =>
      have extent : (view.extents d - (container.lowerHaloSizes d : BitVec 32)).toNat =
          (view.extents d).toNat - container.lowerHaloSizes d := toNat_sub_cast (by omega)
      simp only [type, lower, upper, first, last]
      rw [toNat_add_of_lt (by omega), toNat_sub_of_le bounds (by omega),
        toNat_natCast_of_lt (by omega), toNat_sub_cast (by omega), extent]
      omega
  | upper =>
      simp only [type, upper, last]
      rw [toNat_sub_of_le bounds (by omega), toNat_natCast_of_lt bounds,
        toNat_natCast_of_lt (by omega), toNat_sub_cast (by omega)]
      omega

/-- A sub view of an addressable view has the addresses of the elements it is made of. -/
theorem MdSpan.Addressable.addresses_getSubView (addressable : view.Addressable)
    {first extents : Vec (BitVec 32) (n + 1)}
    (inside : ∀ d, (first d).toNat + (extents d).toNat ≤ (view.extents d).toNat) :
    (view.getSubView first extents).addresses (view.getSubView first extents).range.elements =
      view.addresses {x | ∀ d, (first d).toNat ≤ x d ∧
        x d < (first d).toNat + (extents d).toNat} := by
  have address {idx : Vec (BitVec 32) (n + 1)} (below : ∀ d, (idx d).toNat < (extents d).toNat) :
      (view.getSubView first extents).ptr BitVec.toNat idx =
        view.ptr BitVec.toNat fun d => first d + idx d := by
    rw [MdSpan.ptr_getSubView, ← addressable.byteOffset_add]
    · rfl
    · exact fun d => (Nat.add_lt_add_left (below d) _).trans_le (inside d)
  ext target
  constructor
  · rintro ⟨idx, member, rfl⟩
    have below := (MdSpan.mem_range (view.getSubView first extents) _).mp member
    refine ⟨fun d => first d + idx d, fun d => ?_, (address below).symm⟩
    beta_reduce
    rw [toNat_add_inside ((Nat.add_lt_add_left (below d) _).trans_le (inside d))]
    exact ⟨Nat.le_add_right _ _, Nat.add_lt_add_left (below d) _⟩
  · rintro ⟨idx, member, rfl⟩
    have difference (d : Fin (n + 1)) : (idx d - first d).toNat = (idx d).toNat - (first d).toNat :=
      BitVec.toNat_sub_of_le (member d).1
    have below (d : Fin (n + 1)) : (idx d - first d).toNat < (extents d).toNat := by
      have held : (first d).toNat ≤ (idx d).toNat ∧
        (idx d).toNat < (first d).toNat + (extents d).toNat := member d
      rw [difference]
      omega
    refine ⟨fun d => idx d - first d,
      (MdSpan.mem_range (view.getSubView first extents) _).mpr below, ?_⟩
    rw [address below]
    congr 1
    funext d
    exact add_sub_cancel (first d) (idx d)

/-- The sub views of an addressable view have the addresses of the parts. -/
theorem MdSpan.Addressable.subViews (addressable : view.Addressable)
    {container : BoundaryDirectionsContainer (n + 1)} (fits : container.Fits view.range)
    {direction : BoundaryDirection (n + 1)} (visited : direction ∈ container.directions) :
    ∃ part, view.getDirectionSubView direction = some part ∧
      part.addresses part.range.elements =
        view.addresses (makeDirectionSubRange view.range direction).elements := by
  obtain ⟨first, extents, found, bounds⟩ := exists_subView fits visited
  refine ⟨_, found, ?_⟩
  rw [addressable.addresses_getSubView fun d => (bounds d).2.2]
  congr 1
  ext x
  rw [IdxRange.mem_elements (makeDirectionSubRange view.range direction) fun _ => rfl]
  refine forall_congr' fun d => ?_
  rw [(bounds d).1, (bounds d).2.1]

/-- If sub views have the addresses of the parts, then offsets add up without wrapping
around. The sub view in the direction of all upper parts shows it. -/
theorem Splits.offsets_add (splits : Splits view) {first second : Vec (BitVec 32) (n + 1)}
    (inside : ∀ d, (first d).toNat + (second d).toNat < (view.extents d).toNat) :
    ∃ idx, view.byteOffset BitVec.toNat idx =
      view.byteOffset BitVec.toNat first + view.byteOffset BitVec.toNat second := by
  let container : BoundaryDirectionsContainer (n + 1) :=
    ⟨fun _ => 0, fun d => (view.extents d).toNat - (first d).toNat⟩
  have fits : container.Fits view.range := by
    refine ⟨fun _ => rfl, fun d => ?_, fun d => (view.extents d).isLt⟩
    change 0 + 0 + ((view.extents d).toNat - (first d).toNat) ≤ (view.extents d).toNat
    omega
  have visited : ⟨fun _ => .upper, container.lowerHaloSizes, container.upperHaloSizes⟩ ∈
      container.directions :=
    BoundaryDirectionsContainer.mem_directions.mpr ⟨fun _ => BoundaryType.noConfusion, rfl, rfl⟩
  obtain ⟨part, found, same⟩ := splits.views container fits _ visited
  obtain ⟨origin, extents, found', bounds⟩ := exists_subView fits visited
  obtain rfl := Option.some.inj (found.symm.trans found')
  have start (d : Fin (n + 1)) : (origin d).toNat = (first d).toNat := by
    rw [← (bounds d).1]
    change (((view.extents d).toNat : BitVec 32) -
      (((view.extents d).toNat - (first d).toNat : ℕ) : BitVec 32)).toNat = (first d).toNat
    have := inside d
    rw [toNat_sub_of_le (view.extents d).isLt (by omega)]
    omega
  have stop (d : Fin (n + 1)) : (origin d).toNat + (extents d).toNat = (view.extents d).toNat := by
    rw [← (bounds d).2.1]
    exact toNat_natCast_of_lt (view.extents d).isLt
  obtain rfl : origin = first := funext fun d => BitVec.eq_of_toNat_eq (start d)
  have member : (view.getSubView origin extents).ptr BitVec.toNat second ∈
      (view.getSubView origin extents).addresses
        (view.getSubView origin extents).range.elements := by
    refine ⟨second, (MdSpan.mem_range (view.getSubView origin extents) _).mpr fun d => ?_, rfl⟩
    change (second d).toNat < (extents d).toNat
    have := inside d
    have := stop d
    omega
  rw [same] at member
  obtain ⟨idx, -, address⟩ := member
  rw [MdSpan.ptr_getSubView] at address
  exact ⟨idx, Nat.add_left_cancel address⟩

/-- If sub views have the addresses of the parts, then the view is addressable. -/
theorem Splits.addressable (splits : Splits view) : view.Addressable := by
  cases n with
  | zero => exact .inl rfl
  | succ n =>
      refine .inr fun nonempty => Math.Strides.offset_lt_of_add (by decide)
        (fun d => (view.getPitches d).isLt) fun first second within => ?_
      have cast {idx : Vec ℕ (n + 2)} (below : ∀ d, idx d ≤ (view.extents d).toNat - 1)
          (d : Fin (n + 2)) : (idx d : BitVec 32).toNat = idx d := by
        have := below d
        have := (view.extents d).isLt
        exact toNat_natCast_of_lt (by omega)
      have castFirst := cast fun d => (Nat.le_add_right _ _).trans (within d)
      have castSecond := cast fun d => (Nat.le_add_left _ _).trans (within d)
      have inside (d : Fin (n + 2)) : (first d : BitVec 32).toNat + (second d : BitVec 32).toNat <
          (view.extents d).toNat := by
        have := within d
        have := nonempty d
        rw [castFirst, castSecond]
        omega
      obtain ⟨idx, sum⟩ := splits.offsets_add inside
      simp only [MdSpan.byteOffset_eq_offset, castFirst, castSecond] at sum
      rw [← sum]
      exact Nat.mod_lt _ (by decide)

end View

/-- **Directions.** The iterator, the sub ranges and the sub views of a view split volumes
if and only if the number of directions has 32 bits and the view is addressable. -/
theorem splits_iff (view : MdSpan (BitVec 32) n) :
    Splits view ↔ 3 ^ (n + 1) < 2 ^ 32 ∧ view.Addressable := by
  constructor
  · intro splits
    exact ⟨(length_iff (n + 1)).mp splits.length, splits.addressable⟩
  · rintro ⟨few, addressable⟩
    exact ⟨(length_iff (n + 1)).mpr few, visits_directions, fun _ _ => disjoint_parts,
      fun _ _ => union_parts, fun _ fits _ visited => addressable.subViews fits visited⟩

/-- The number of directions of 21 dimensions wraps around. -/
theorem splits_wraps : ¬ Splits (⟨4096, 1, fun _ => 1, fun _ => 1⟩ : MdSpan (BitVec 32) 20) := by
  intro splits
  have few := (length_iff 21).mp splits.length
  revert few
  decide

end Alpaka
