import Mathlib.Data.Set.Function
import Alpaka.Math.Split
import Alpaka.Vec

/-! # Index ranges

A range describes the lattice of the indices `begin + k * stride` below `end`,
in every dimension. A container over a range may be restricted to selected
dimensions; the remaining components then stay at the begin of the range.
-/

namespace Alpaka

/-- How indices are mapped to threads. -/
inductive Layout where
  | strided
  | contiguous
  deriving DecidableEq

structure IdxRange (T : Type*) (n : ℕ) where
  beginMd : Vec T n
  endMd : Vec T n
  strideMd : Vec T n
  deriving DecidableEq

namespace IdxRange

/-- A range from zero with unit stride. -/
def ofExtents {T : Type*} {n : ℕ} [OfNat T 0] [OfNat T 1] (extent : Vec T n) : IdxRange T n :=
  ⟨Vec.fill 0, extent, Vec.fill 1⟩

/-- A range with unit stride. -/
def ofBeginEnd {T : Type*} {n : ℕ} [OfNat T 1] (first last : Vec T n) : IdxRange T n :=
  ⟨first, last, Vec.fill 1⟩

def distance {T : Type*} {n : ℕ} [Sub T] (range : IdxRange T n) : Vec T n :=
  fun d => range.endMd d - range.beginMd d

variable {n k : ℕ}

/-- The preconditions of an iteration in exact arithmetic. -/
structure Proper (range : IdxRange ℕ n) : Prop where
  ordered : ∀ d, range.beginMd d ≤ range.endMd d
  positive : ∀ d, 0 < range.strideMd d

/-- The indices of a range in the selected dimensions: strided and below the
end there, at the begin of the range elsewhere. -/
def lattice (range : IdxRange ℕ n) (selection : CSelect k n) : Set (Vec ℕ n) :=
  {x | (∀ i, ∃ count, x (selection i) = range.beginMd (selection i) +
      count * range.strideMd (selection i) ∧ x (selection i) < range.endMd (selection i)) ∧
    ∀ d, (∀ i, selection i ≠ d) → x d = range.beginMd d}

/-- How many lattice points there are along each selected dimension. -/
def logicalExtent (range : IdxRange ℕ n) (selection : CSelect k n) : Vec ℕ k :=
  fun i => divCeil (range.distance (selection i)) (range.strideMd (selection i))

/-- The number of lattice points along one dimension counts exactly those below
the end. -/
theorem lt_logicalExtent_iff {range : IdxRange ℕ n} (proper : range.Proper)
    (selection : CSelect k n) (i : Fin k) (count : ℕ) :
    count < range.logicalExtent selection i ↔
      range.beginMd (selection i) + count * range.strideMd (selection i) <
        range.endMd (selection i) := by
  have ordered := proper.ordered (selection i)
  unfold logicalExtent divCeil distance
  rw [Math.lt_ceil_iff (proper.positive _)]
  omega

/-- The lattice point with the given position along each selected dimension. -/
def point (range : IdxRange ℕ n) (selection : CSelect k n) (position : Vec ℕ k) : Vec ℕ n :=
  Vec.refAssign (· + ·) range.beginMd selection
    fun i => position i * range.strideMd (selection i)

theorem point_selected (range : IdxRange ℕ n) {selection : CSelect k n}
    (distinct : Function.Injective selection) (position : Vec ℕ k) (i : Fin k) :
    range.point selection position (selection i) =
      range.beginMd (selection i) + position i * range.strideMd (selection i) :=
  Vec.refAssign_selected _ _ distinct _ _

theorem point_unselected (range : IdxRange ℕ n) (selection : CSelect k n) (position : Vec ℕ k)
    {d : Fin n} (unselected : ∀ i, selection i ≠ d) :
    range.point selection position d = range.beginMd d :=
  Vec.refAssign_of_not_mem _ _ _ _ _ unselected

/-- The positions below the logical extent are the lattice points. -/
theorem point_bijOn {range : IdxRange ℕ n} (proper : range.Proper) {selection : CSelect k n}
    (distinct : Function.Injective selection) :
    Set.BijOn (range.point selection) {position | ∀ i, position i < range.logicalExtent selection i}
      (range.lattice selection) := by
  refine ⟨?_, ?_, ?_⟩
  · intro position inside
    refine ⟨fun i => ⟨position i, range.point_selected distinct position i, ?_⟩,
      fun d unselected => range.point_unselected selection position unselected⟩
    rw [range.point_selected distinct]
    exact (lt_logicalExtent_iff proper selection i _).mp (inside i)
  · intro first _ second _ same
    funext i
    have component := congrFun same (selection i)
    rw [range.point_selected distinct, range.point_selected distinct] at component
    exact Nat.eq_of_mul_eq_mul_right (proper.positive (selection i))
      (Nat.add_left_cancel component)
  · intro x member
    choose position strided below using member.1
    refine ⟨position, fun i => ?_, ?_⟩
    · rw [lt_logicalExtent_iff proper, ← strided i]
      exact below i
    · funext d
      by_cases selected : ∃ i, selection i = d
      · obtain ⟨i, rfl⟩ := selected
        rw [range.point_selected distinct, strided i]
      · have unselected : ∀ i, selection i ≠ d := fun i same => selected ⟨i, same⟩
        rw [range.point_unselected selection position unselected, member.2 d unselected]

end IdxRange

end Alpaka
