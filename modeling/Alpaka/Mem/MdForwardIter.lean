import Alpaka.Mem.TiledTraversal

/-! # Iterating over a span

The iterator over the elements of a span is an odometer that only knows the end of the
slowest dimension. An empty span is put at its end by the constructor. The iterator goes
through the same states as the tiled traversal of a single thread, and visits every index
of the span once, in row-major order (`Alpaka.MdForwardIter.enumerates`).
-/

namespace Alpaka

variable {n : ℕ}

attribute [local instance (2000)] neZero_add_one

/-- The extents are those of the span. -/
structure MdForwardIter (n : ℕ) where
  extents : Vec ℕ (n + 1)
  current : Vec ℕ (n + 1)

namespace MdForwardIter

/-- The constructor. A span with a zero extent starts at the end. -/
def make (extents : Vec ℕ (n + 1)) : MdForwardIter n where
  extents := extents
  current :=
    if ∃ idx, extents idx = 0 then Function.update (Vec.fill 0) 0 (extents 0) else Vec.fill 0

/-- The loop of `operator++` from a dimension on. -/
def advance : (idx : ℕ) → idx < n + 1 → MdForwardIter n → MdForwardIter n
  | 0, _, iterator =>
      { iterator with current := Function.update iterator.current 0 (iterator.current 0 + 1) }
  | idx + 1, inside, iterator =>
      let current := Function.update iterator.current ⟨idx + 1, inside⟩
        (iterator.current ⟨idx + 1, inside⟩ + 1)
      if iterator.extents ⟨idx + 1, inside⟩ ≤ current ⟨idx + 1, inside⟩ then
        advance idx (Nat.lt_of_succ_lt inside)
          { iterator with current := Function.update current ⟨idx + 1, inside⟩ 0 }
      else { iterator with current := current }

/-- The iterator's `operator++`. -/
def next (iterator : MdForwardIter n) : MdForwardIter n :=
  iterator.advance n (Nat.lt_succ_self n)

/-- What `MdForwardIterEnd` holds: the extent of the slowest dimension. -/
def extentSlowDim (extents : Vec ℕ (n + 1)) : ℕ := extents 0

/-- The loop over the span, from the iterator to the end. -/
def loop (extents : Vec ℕ (n + 1)) : Math.Loop (MdForwardIter n) (Vec ℕ (n + 1)) where
  done := fun iterator => decide (extentSlowDim extents ≤ iterator.current 0)
  deref := current
  next := next

/-! ## A tiled traversal -/

/-- The traversal of a span by a single thread. -/
def container (extents : Vec ℕ (n + 1)) : TiledIdxContainer ℕ n n :=
  TiledIdxContainer.ofThread (IdxRange.ofExtents extents) (Vec.fill 1) .strided id (Vec.fill 0)

/-- The iterator of the tiled traversal in the same place. -/
def toTiled (iterator : MdForwardIter n) : TiledIdxContainer.ConstIterator ℕ n n :=
  ⟨iterator.current, Vec.fill 1, iterator.extents, Vec.fill 0⟩

private theorem toTiled_advance (idx : ℕ) (inside : idx < n + 1) (iterator : MdForwardIter n) :
    iterator.toTiled.advance id idx inside = (iterator.advance idx inside).toTiled := by
  induction idx generalizing iterator with
  | zero => rfl
  | succ idx ih =>
      refine Eq.trans ?_ (apply_ite toTiled _ _ _).symm
      refine ite_congr rfl (fun _ => ?_) fun _ => rfl
      exact ih (Nat.lt_of_succ_lt inside) { iterator with
        current := Function.update (Function.update iterator.current ⟨idx + 1, inside⟩
          (iterator.current ⟨idx + 1, inside⟩ + 1)) ⟨idx + 1, inside⟩ 0 }

private theorem toTiled_make (extents : Vec ℕ (n + 1)) :
    (make extents).toTiled = (container extents).begin := by
  unfold container
  rw [TiledIdxContainer.begin_eq, ThreadSpace.mapCount_of_le le_rfl,
    ThreadSpace.mapIdx_of_le le_rfl]
  unfold TiledIdxContainer.ConstIterator.make toTiled make
  congr 1
  change _ = if Fin.foldl n (fun valid d => valid && decide (0 < extents d.succ)) true then
    Vec.fill 0 else Function.update (Vec.fill 0) 0 (extents 0)
  by_cases valid : ∀ d : Fin n, 0 < extents d.succ
  · rw [if_pos ((TiledIdxContainer.isIndexValid_iff _ _).mpr valid)]
    split
    · rename_i empty
      obtain ⟨idx, zero⟩ := empty
      cases idx using Fin.cases with
      | zero =>
          rw [zero]
          exact Function.update_eq_self 0 _
      | succ d => exact absurd zero (valid d).ne'
    · rfl
  · obtain ⟨d, empty⟩ := not_forall.mp valid
    rw [if_neg (mt (TiledIdxContainer.isIndexValid_iff _ _).mp valid),
      if_pos ⟨d.succ, Nat.eq_zero_of_not_pos empty⟩]

/-- The iterator visits what the single thread visits. -/
private theorem run_eq (extents : Vec ℕ (n + 1)) (fuel : ℕ) :
    (loop extents).run fuel (make extents) =
      (container extents).loop.run fuel (container extents).begin := by
  have last : (container extents).end = extentSlowDim extents := by
    unfold container
    rw [TiledIdxContainer.end_eq]
    exact Nat.zero_add _
  rw [← toTiled_make]
  refine ((loop extents).run_of_simulation (container extents).loop toTiled (fun iterator => ?_)
    (fun _ => rfl) (fun iterator => ?_) fuel (make extents)).symm
  · unfold TiledIdxContainer.loop
    rw [last]
    rfl
  · exact toTiled_advance n (Nat.lt_succ_self n) iterator

/-- The indices of a span in row-major order. -/
def rowMajor (extents : Vec ℕ (n + 1)) : List (Vec ℕ (n + 1)) :=
  (List.range (∏ d, extents d)).map (Math.MixedRadix.place extents)

/-- The single thread visits them. -/
private theorem run_container (extents : Vec ℕ (n + 1)) (fuel : ℕ)
    (enough : ∏ d, extents d < fuel) :
    (container extents).loop.run fuel (container extents).begin = some (rowMajor extents) := by
  have proper : (IdxRange.ofExtents extents).Proper :=
    ⟨fun _ => Nat.zero_le _, fun _ => Nat.one_pos⟩
  have whole : (IdxRange.ofExtents extents).logicalExtent id = extents := by
    funext d
    exact Nat.div_one _
  have single : (Vec.fill 0 : Vec ℕ (n + 1)) ∈ threadIdxs (Vec.fill 1 : Vec ℕ (n + 1)) :=
    fun _ => Nat.one_pos
  have visited := TiledIdxContainer.run_loop proper (fun _ => Nat.one_pos)
    Function.injective_id .strided single fuel (by rw [whole]; exact enough)
  refine visited.trans (congrArg some ?_)
  have lengths : TiledIdxContainer.shareLengths .strided extents (Vec.fill 1) (Vec.fill 0) =
      extents := by
    funext d
    exact (Math.length_progression_one 0 (extents d)).trans (Nat.sub_zero _)
  unfold TiledIdxContainer.threadVisited
  rw [whole, ThreadSpace.mapCount_of_le le_rfl, ThreadSpace.mapIdx_of_le le_rfl]
  change ((TiledIdxContainer.visited .strided extents (Vec.fill 1) (Vec.fill 0)).map _) = _
  unfold TiledIdxContainer.visited TiledIdxContainer.positions rowMajor
  rw [lengths, List.map_map]
  refine List.map_congr_left fun number _ => ?_
  funext d
  refine (IdxRange.point_selected _ Function.injective_id _ d).trans ?_
  change 0 + (0 + Math.MixedRadix.place extents number d * 1) * 1 = _
  omega

/-- **Enumeration.** The loop over a span ends and visits every index of the span once
and no other one, in row-major order. -/
theorem enumerates (extents : Vec ℕ (n + 1)) :
    ∃ visited, (loop extents).Yields (make extents) visited ∧ visited.Nodup ∧
      (∀ idx, idx ∈ visited ↔ ∀ d, idx d < extents d) ∧
      visited.map (linearize extents) = List.range (∏ d, extents d) := by
  have numbers := Math.MixedRadix.place_bijOn extents
  refine ⟨rowMajor extents, ⟨(∏ d, extents d) + 1, fun fuel enough => ?_⟩, ?_, fun idx => ?_, ?_⟩
  · rw [run_eq]
    exact run_container extents fuel enough
  · refine List.Nodup.map_on (fun first member second member' same => ?_) List.nodup_range
    exact numbers.injOn (List.mem_range.mp member) (List.mem_range.mp member') same
  · unfold rowMajor
    rw [List.mem_map]
    constructor
    · rintro ⟨number, member, rfl⟩
      exact numbers.mapsTo (List.mem_range.mp member)
    · intro inside
      obtain ⟨number, below, reached⟩ := numbers.surjOn (show idx ∈ _ from inside)
      exact ⟨number, List.mem_range.mpr below, reached⟩
  · unfold rowMajor
    rw [List.map_map]
    refine (List.map_congr_left fun number member => ?_).trans (List.map_id _)
    have below := List.mem_range.mp member
    have positive (d : Fin (n + 1)) (_ : d ≠ 0) : 0 < extents d := by
      refine Nat.pos_of_ne_zero fun empty => ?_
      rw [Finset.prod_eq_zero (Finset.mem_univ d) empty] at below
      exact Nat.not_lt_zero _ below
    exact (linearize_eq_value _ _).trans (Math.MixedRadix.value_place positive number)

end MdForwardIter

end Alpaka
