import Alpaka.Mem.FlatIdxContainer
import Alpaka.VecWidth

/-! # Ranges in machine arithmetic

Distances are exact when the range is proper, but the number of indices along a dimension
is rounded up by adding first: it is exact when distance and stride together are
representable, and zero otherwise (`Alpaka.IdxRange.toNat_extent`,
`Alpaka.IdxRange.toNat_extent_of_wraps`). Sharing out the lattice in exact arithmetic is
sharing out its words (`Alpaka.IdxRange.words_partitions`).
-/

namespace Alpaka

variable {w n k : ℕ}

/-- The thread indices are the numbers below the thread counts. -/
theorem toNats_box (extents : Vec (BitVec w) n) :
    Set.BijOn Vec.toNats (box extents) (threadIdxs extents.toNats) := by
  refine ⟨fun idx inside => inside, Vec.toNats_injective.injOn, fun idx inside => ?_⟩
  have representable (d : Fin n) : idx d < 2 ^ w := (inside d).trans (extents d).isLt
  have back : (Vec.ofNats idx : Vec (BitVec w) n).toNats = idx := Vec.toNats_ofNats representable
  refine ⟨Vec.ofNats idx, fun d => ?_, back⟩
  rw [BitVec.lt_def]
  exact (congrFun back d).trans_lt (inside d)

/-- The words of the numbers below the thread counts are the thread indices. -/
theorem ofNats_box (extents : Vec (BitVec w) n) :
    Set.BijOn Vec.ofNats (threadIdxs extents.toNats) (box extents) := by
  refine Set.BijOn.symm ⟨fun idx inside => ?_, fun idx _ => Vec.ofNats_toNats idx⟩
    (toNats_box extents)
  exact Vec.toNats_ofNats fun d => (inside d).trans (extents d).isLt

theorem toNats_positive {extents : Vec (BitVec w) n} (positive : ∀ d, 0 < extents d) (d : Fin n) :
    0 < extents.toNats d := by
  have above := BitVec.lt_def.mp (positive d)
  exact Nat.zero_lt_of_lt above

namespace IdxRange

/-- The range as numbers. -/
def toNats (range : IdxRange (BitVec w) n) : IdxRange ℕ n :=
  ⟨range.beginMd.toNats, range.endMd.toNats, range.strideMd.toNats⟩

/-- The indices of a range as words. -/
def words (range : IdxRange (BitVec w) n) (selection : CSelect k n) : Set (Vec (BitVec w) n) :=
  {x | x.toNats ∈ range.toNats.lattice selection}

/-- The component at a position along a dimension, which may be behind the last one. -/
def component (range : IdxRange (BitVec w) n) (d : Fin n) (position : ℕ) : BitVec w :=
  ((range.toNats.beginMd d + position * range.toNats.strideMd d : ℕ) : BitVec w)

section Proper

variable {range : IdxRange (BitVec w) n} {selection : CSelect k n}

theorem toNat_distance (proper : range.toNats.Proper) (d : Fin n) :
    (range.distance d).toNat = range.toNats.distance d :=
  BitVec.toNat_sub_of_le (BitVec.le_def.mpr (proper.ordered d))

/-- What rounding up computes. -/
private theorem toNat_divCeil_distance (proper : range.toNats.Proper) (d : Fin n) :
    (divCeil (range.distance d) (range.strideMd d)).toNat =
      (range.toNats.distance d + range.toNats.strideMd d - 1) % 2 ^ w /
        range.toNats.strideMd d := by
  have exact := toNat_distance proper d
  have below : range.toNats.distance d < 2 ^ w := by
    rw [← exact]
    exact BitVec.isLt _
  have rounded := toNat_divCeil (proper.positive d) (range.strideMd d).isLt (range.distance d)
    (exact.trans (Nat.mod_eq_of_lt below).symm)
  have cast : ((range.toNats.strideMd d : ℕ) : BitVec w) = range.strideMd d := natCast_toNat _
  rwa [cast] at rounded

/-- Without an overflow the number of indices along a dimension is exact. -/
theorem toNat_extent (proper : range.toNats.Proper) {d : Fin n}
    (fits : range.toNats.distance d + range.toNats.strideMd d ≤ 2 ^ w) :
    (divCeil (range.distance d) (range.strideMd d)).toNat = range.toNats.logicalExtent id d := by
  have positive := proper.positive d
  rw [toNat_divCeil_distance proper, Nat.mod_eq_of_lt (by omega)]
  rfl

/-- The overflow leaves less than a stride. -/
theorem toNat_extent_of_wraps (proper : range.toNats.Proper) {d : Fin n}
    (wraps : 2 ^ w < range.toNats.distance d + range.toNats.strideMd d) :
    (divCeil (range.distance d) (range.strideMd d)).toNat = 0 := by
  have distance : range.toNats.distance d < 2 ^ w := by
    rw [← toNat_distance proper d]
    exact BitVec.isLt _
  have stride : range.toNats.strideMd d < 2 ^ w := (range.strideMd d).isLt
  rw [toNat_divCeil_distance proper, Nat.mod_eq_sub_mod (by omega), Nat.mod_eq_of_lt (by omega)]
  exact Nat.div_eq_of_lt (by omega)

/-- Where there is nothing to iterate over, rounding up gives zero. -/
theorem toNat_extent_of_empty (proper : range.toNats.Proper) {d : Fin n}
    (empty : range.toNats.logicalExtent id d = 0) :
    (divCeil (range.distance d) (range.strideMd d)).toNat = 0 := by
  have nothing := mt (lt_logicalExtent_iff proper id d 0).mpr (by rw [empty]; exact lt_irrefl 0)
  have distance : range.toNats.distance d = range.toNats.endMd d - range.toNats.beginMd d := rfl
  have stride : range.toNats.strideMd d < 2 ^ w := (range.strideMd d).isLt
  simp only [id_eq] at nothing
  rw [toNat_extent proper (by omega), empty]

/-- The lattice points are representable. -/
theorem ofNats_bijOn : Set.BijOn Vec.ofNats (range.toNats.lattice selection)
    (range.words selection) := by
  have back {x : Vec ℕ n} (member : x ∈ range.toNats.lattice selection) :
      (Vec.ofNats x : Vec (BitVec w) n).toNats = x := by
    apply Vec.toNats_ofNats
    intro d
    by_cases selected : ∃ i, selection i = d
    · obtain ⟨i, rfl⟩ := selected
      obtain ⟨_, _, below⟩ := member.1 i
      exact below.trans (range.endMd (selection i)).isLt
    · rw [member.2 d fun i same => selected ⟨i, same⟩]
      exact (range.beginMd d).isLt
  refine ⟨fun x member => ?_, fun x member y other same => ?_, fun x member => ?_⟩
  · change (Vec.ofNats x : Vec (BitVec w) n).toNats ∈ range.toNats.lattice selection
    rw [back member]
    exact member
  · rw [← back member, same, back other]
  · exact ⟨x.toNats, member, Vec.ofNats_toNats x⟩

/-- The components of a lattice point. -/
theorem ofNats_point (distinct : Function.Injective selection) (position : Vec ℕ k) (i : Fin k) :
    (Vec.ofNats (range.toNats.point selection position) : Vec (BitVec w) n) (selection i) =
      range.component (selection i) (position i) := by
  unfold Vec.ofNats component
  rw [range.toNats.point_selected distinct]

/-- The positions of a range have components below its end. -/
theorem component_lt (proper : range.toNats.Proper) {d : Fin n} {position : ℕ}
    (inside : position < range.toNats.logicalExtent id d) :
    range.component d position < range.endMd d := by
  have below := (lt_logicalExtent_iff proper id d position).mp inside
  rw [BitVec.lt_def, component, toNat_cast]
  exact (Nat.mod_le _ _).trans_lt below

/-- The words of a range are its components at positions. -/
theorem exists_position_of_mem_words (proper : range.toNats.Proper)
    (distinct : Function.Injective selection) {x : Vec (BitVec w) n}
    (member : x ∈ range.words selection) (i : Fin k) :
    ∃ position < range.toNats.logicalExtent id (selection i),
      x (selection i) = range.component (selection i) position := by
  obtain ⟨numbers, lattice, rfl⟩ := ofNats_bijOn.surjOn member
  obtain ⟨position, inside, rfl⟩ := (point_bijOn proper distinct).surjOn lattice
  exact ⟨position i, inside i, ofNats_point distinct position i⟩

/-- **Sharing out words.** -/
theorem words_partitions {threadCount : Vec (BitVec w) n} {share : Vec ℕ n → List (Vec ℕ n)}
    (partition : Math.Partitions (threadIdxs threadCount.toNats) share
      (range.toNats.lattice selection)) :
    Math.Partitions (box threadCount) (fun idx => (share idx.toNats).map Vec.ofNats)
      (range.words selection) :=
  (partition.comp (toNats_box threadCount)).map ofNats_bijOn

/-- There are indices unless a dimension has none. -/
theorem words_eq_empty_iff (proper : range.toNats.Proper)
    (distinct : Function.Injective selection) :
    range.words selection = ∅ ↔ ∃ i, range.toNats.logicalExtent selection i = 0 := by
  have points := point_bijOn proper distinct
  constructor
  · intro empty
    by_contra present
    have inside : (fun _ => 0) ∈ {position : Vec ℕ k |
        ∀ i, position i < range.toNats.logicalExtent selection i} :=
      fun i => Nat.pos_of_ne_zero fun nothing => present ⟨i, nothing⟩
    have word : _ ∈ range.words selection := ofNats_bijOn.mapsTo (points.mapsTo inside)
    rw [empty] at word
    exact word
  · rintro ⟨i, nothing⟩
    apply Set.eq_empty_iff_forall_notMem.mpr
    intro x member
    obtain ⟨position, inside, _⟩ := points.surjOn member
    have below := inside i
    rw [nothing] at below
    exact absurd below (Nat.not_lt_zero _)

end Proper

end IdxRange

end Alpaka
