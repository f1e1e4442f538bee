import Alpaka.Mem.TiledBlocksWidth
import Alpaka.OnAcc.IdxMap

/-! # Index maps in machine arithmetic

Where the loops of all threads over a range do not overflow, every thread visits what it visits
in exact arithmetic (`Alpaka.IdxContainer.words_yield`). With the strided layout the condition
is the exact one under which the threads share out the range.
-/

namespace Alpaka.IdxContainer

open ThreadSpace (mapCount)
open TiledIdxContainer (Stops StepsFit)

variable {w n : ℕ}

/-- What must not overflow in the loops of all threads over a range. The flat policy computes
the number of indices and of threads, and its strided layout their sum; an odometer of the
tiled policy must stop behind the range. The contiguous layout divides by the number of
threads. -/
def LoopFits (range : IdxRange (BitVec w) (n + 1)) (threadCount : Vec (BitVec w) (n + 1)) :
    Traverse → Layout → Prop
  | .flat, .strided => (∃ d, range.toNats.logicalExtent id d = 0) ∨
      ∏ d, range.toNats.logicalExtent id d + ∏ d, (threadCount d).toNat ≤ 2 ^ w
  | .flat, .contiguous => ¬ 2 ^ w ∣ ∏ d, (threadCount d).toNat ∧
      ((∃ d, range.toNats.logicalExtent id d = 0) ∨
        ∏ d, range.toNats.logicalExtent id d < 2 ^ w ∧ ∏ d, (threadCount d).toNat < 2 ^ w)
  | .tiled, .strided => (∃ d, range.toNats.logicalExtent id d = 0 ∧ Stops range threadCount d) ∨
      ∀ d, Stops range threadCount d
  | .tiled, .contiguous => True

section Words

variable {range : IdxRange (BitVec w) (n + 1)} {threadCount : Vec (BitVec w) (n + 1)}

/-- Over all dimensions there are as many slots as threads. -/
private theorem numSlots_id (threadCount : Vec ℕ (n + 1)) :
    FlatIdxContainer.numSlots threadCount (id : CSelect (n + 1) (n + 1)) = ∏ d, threadCount d := by
  unfold FlatIdxContainer.numSlots
  rw [ThreadSpace.mapCount_of_le le_rfl]
  rfl

/-- The contiguous layout does not divide by zero unless the number of threads is zero modulo the
width. -/
private theorem flat_divides (idx : Vec (BitVec w) (n + 1))
    (divides : ¬ 2 ^ w ∣ ∏ d, (threadCount d).toNat) :
    (⟨range, ⟨idx, threadCount⟩, .contiguous, id⟩ :
      FlatIdxContainer (BitVec w) n n).Divides := by
  have count : Vec.product threadCount ≠ 0 := by
    intro zero
    have number := congrArg BitVec.toNat zero
    rw [Vec.toNat_product] at number
    exact divides (Nat.dvd_of_mod_eq_zero number)
  have mapped : (ThreadSpace.mk idx threadCount).mapTo (id : CSelect (n + 1) (n + 1)) =
      ⟨idx, threadCount⟩ := ThreadSpace.mapTo_of_le le_rfl _ _
  unfold FlatIdxContainer.Divides
  rw [mapped]
  exact ⟨count, count⟩

/-- No dimension without threads. -/
private theorem ne_zero_of_pos {number : BitVec w} (positive : 0 < number) : number ≠ 0 := by
  rintro rfl
  exact absurd positive (BitVec.lt_irrefl 0)

/-- **Index maps in machine arithmetic.** Where nothing overflows, the loop over an index map
visits what it visits in exact arithmetic, and does not divide by zero. -/
theorem words_yield (proper : range.toNats.Proper) (positive : ∀ d, 0 < threadCount d)
    (representable : StepsFit range.toNats (2 ^ w)) (traverse : Traverse) (layout : Layout)
    (fits : LoopFits range threadCount traverse layout) {idx : Vec (BitVec w) (n + 1)}
    (member : idx ∈ box threadCount) :
    (makeIdxMap ⟨idx, threadCount⟩ range traverse layout).Yields
      ((makeIdxMap ⟨idx.toNats, threadCount.toNats⟩ range.toNats traverse layout).indices.map
        Vec.ofNats) ∧
      (makeIdxMap ⟨idx, threadCount⟩ range traverse layout).Divides := by
  have distinct : Function.Injective (id : CSelect (n + 1) (n + 1)) := Function.injective_id
  have maps := ThreadSpace.mapsBijectively_of_full distinct le_rfl threadCount.toNats
  have mapped : (ThreadSpace.mk idx threadCount).mapTo (id : CSelect (n + 1) (n + 1)) =
      ⟨idx, threadCount⟩ := ThreadSpace.mapTo_of_le le_rfl _ _
  cases traverse with
  | flat =>
      cases layout with
      | strided =>
          refine ⟨?_, fun other =>
            absurd (show Layout.strided = .contiguous from other) (by decide)⟩
          refine FlatIdxContainer.strided_yields proper distinct positive maps
            representable.distance (fits.imp_right fun room => ?_) member
          rw [numSlots_id]
          exact room
      | contiguous =>
          refine ⟨?_, fun _ => flat_divides idx fits.1⟩
          rcases fits.2 with empty | ⟨total, slots⟩
          · exact FlatIdxContainer.yields_of_empty .contiguous proper distinct positive member empty
          · have inside := (FlatIdxContainer.slot_bijOn distinct maps).mapsTo
              ((toNats_box threadCount).mapsTo member)
            have threads : FlatIdxContainer.numSlots threadCount.toNats id < 2 ^ w := by
              rw [numSlots_id]
              exact slots
            refine FlatIdxContainer.contiguous_yields proper distinct positive maps
              representable.distance total threads slots member ?_
            change FlatIdxContainer.slot threadCount.toNats id idx.toNats <
              FlatIdxContainer.numSlots threadCount.toNats id at inside
            rw [numSlots_id] at inside
            exact (Math.blockStart_le (Nat.zero_lt_of_lt inside) _ inside.le).trans_lt total
  | tiled =>
      cases layout with
      | strided =>
          refine ⟨?_, fun other =>
            absurd (show Layout.strided = .contiguous from other) (by decide)⟩
          exact TiledIdxContainer.strided_yields proper positive distinct fits member
      | contiguous =>
          refine ⟨TiledIdxContainer.contiguous_yields proper positive distinct representable member,
            fun _ d => ?_⟩
          change ((ThreadSpace.mk idx threadCount).mapTo id).threadCount d ≠ 0
          rw [mapped]
          exact ne_zero_of_pos (positive d)

/-- **One dimension in machine arithmetic.** With threads along a single selected dimension only,
the flat loop over it visits what it visits in exact arithmetic, under both layouts, if there is
nothing to visit or the threads can be added to the indices. -/
theorem words_yield_single (proper : range.toNats.Proper) (positive : ∀ d, 0 < threadCount d)
    (dimension : Fin (n + 1)) (alone : ∀ d, dimension ≠ d → (threadCount d).toNat = 1)
    (room : range.toNats.distance dimension + range.toNats.strideMd dimension ≤ 2 ^ w)
    (layout : Layout)
    (fits : range.toNats.logicalExtent id dimension = 0 ∨
      range.toNats.logicalExtent id dimension + (threadCount dimension).toNat ≤ 2 ^ w)
    {idx : Vec (BitVec w) (n + 1)} (member : idx ∈ box threadCount) :
    (ofThread range threadCount .flat layout (fun _ : Fin 1 => dimension) idx).Yields
      ((ofThread range.toNats threadCount.toNats .flat layout (fun _ : Fin 1 => dimension)
        idx.toNats).indices.map Vec.ofNats) ∧
      (ofThread range threadCount .flat layout (fun _ : Fin 1 => dimension) idx).Divides := by
  have single : Function.Injective fun _ : Fin 1 => dimension := fun i j _ => Fin.ext (by omega)
  have aloneExact (d : Fin (n + 1)) (outside : ∀ i : Fin 1, (fun _ => dimension) i ≠ d) :
      threadCount.toNats d = 1 := alone d (outside 0)
  have maps := maps_of_alone single aloneExact
  have count : mapCount threadCount.toNats (fun _ : Fin 1 => dimension) dimension =
      threadCount.toNats dimension := mapCount_of_alone aloneExact 0
  have slots : FlatIdxContainer.numSlots threadCount.toNats (fun _ : Fin 1 => dimension) =
      threadCount.toNats dimension := (Fin.prod_univ_one _).trans count
  have total : FlatIdxContainer.total range.toNats (fun _ : Fin 1 => dimension) =
      range.toNats.logicalExtent id dimension := Fin.prod_univ_one _
  have given : ∏ i : Fin 1, (threadCount ((fun _ => dimension) i)).toNat =
      (threadCount dimension).toNat := Fin.prod_univ_one _
  have distances (_ : Fin 1) := room
  constructor
  · cases layout with
    | strided =>
        refine FlatIdxContainer.strided_yields proper single positive maps distances ?_ member
        rw [total, slots]
        exact fits.imp_left fun none => ⟨0, none⟩
    | contiguous =>
        rcases fits with none | fits
        · exact FlatIdxContainer.yields_of_empty .contiguous proper single positive member ⟨0, none⟩
        · have inside := (FlatIdxContainer.slot_bijOn single maps).mapsTo
            ((toNats_box threadCount).mapsTo member)
          have some : 0 < (threadCount dimension).toNat := toNats_positive positive dimension
          have narrow : FlatIdxContainer.total range.toNats (fun _ : Fin 1 => dimension) <
              2 ^ w := by omega
          refine FlatIdxContainer.contiguous_yields proper single positive maps distances narrow
            (slots.trans_lt (threadCount dimension).isLt)
            (given.trans_lt (threadCount dimension).isLt) member ?_
          rw [Set.mem_ofPred_eq, slots] at inside
          rw [given]
          exact (Math.blockStart_le some _ inside.le).trans_lt narrow
  · have nonzero := ne_zero_of_pos (positive dimension)
    refine fun _ => ⟨nonzero, ?_⟩
    have mapped : ((ThreadSpace.mk idx threadCount).mapTo
        (fun _ : Fin 1 => dimension)).threadCount dimension = threadCount dimension := by
      rw [ThreadSpace.mapTo_eq_ofNats]
      dsimp only [Vec.ofNats]
      rw [count]
      exact natCast_toNat _
    exact mapped.trans_ne nonzero

/-- Nothing overflows where the threads can be added to the indices of a range with unit
stride, all in all and in every dimension. -/
theorem LoopFits.of_room (proper : range.toNats.Proper) (unit : ∀ d, range.toNats.strideMd d = 1)
    (positive : ∀ d, 0 < threadCount d) (threads : ∏ d, (threadCount d).toNat < 2 ^ w)
    (total : ∏ d, range.toNats.logicalExtent id d + ∏ d, (threadCount d).toNat ≤ 2 ^ w)
    (each : ∀ d, range.toNats.endMd d + (threadCount d).toNat ≤ 2 ^ w) (traverse : Traverse)
    (layout : Layout) : LoopFits range threadCount traverse layout := by
  have some : 0 < ∏ d, (threadCount d).toNat :=
    Finset.prod_pos fun d _ => toNats_positive positive d
  cases traverse with
  | flat =>
      cases layout with
      | strided => exact .inr total
      | contiguous =>
          refine ⟨fun divides => absurd threads (not_lt.mpr (Nat.le_of_dvd some divides)), .inr ?_⟩
          exact ⟨by omega, threads⟩
  | tiled =>
      cases layout with
      | strided =>
          refine .inr fun d => TiledIdxContainer.stops_of_representable proper ?_
          have count : range.toNats.logicalExtent id d = range.toNats.distance d := by
            unfold IdxRange.logicalExtent divCeil
            rw [id_eq, unit, Nat.add_sub_cancel, Nat.div_one]
          have ordered := proper.ordered d
          have room := each d
          rw [count, unit, Nat.mul_one]
          unfold IdxRange.distance
          omega
      | contiguous => trivial

end Words

end Alpaka.IdxContainer

namespace Alpaka

open TiledIdxContainer (StepsFit)

variable {w n : ℕ} {threadCount : Vec (BitVec w) (n + 1)}

/-! ## Ranges from zero -/

/-- There is room for the number one where there are threads. -/
theorem toNat_one (positive : ∀ d, 0 < threadCount d) : (1 : BitVec w).toNat = 1 := by
  have some := BitVec.lt_def.mp (positive 0)
  have narrow := (threadCount 0).isLt
  change 1 % 2 ^ w = 1
  exact Nat.mod_eq_of_lt (by omega)

/-- A range from zero with unit stride, as numbers. -/
theorem toNats_ofExtents (positive : ∀ d, 0 < threadCount d)
    (extents : Vec (BitVec w) (n + 1)) :
    (IdxRange.ofExtents extents).toNats = IdxRange.ofExtents extents.toNats := by
  unfold IdxRange.ofExtents IdxRange.toNats
  congr 1
  exact funext fun d => toNat_one positive

/-- A range whose strides divide its distances is representable. -/
theorem representable_of_dvd {range : IdxRange ℕ (n + 1)} {limit : ℕ}
    (proper : range.Proper) (divides : ∀ d, range.strideMd d ∣ range.distance d)
    (ends : ∀ d, range.endMd d < limit)
    (room : ∀ d, range.distance d + range.strideMd d ≤ limit) : StepsFit range limit := by
  refine ⟨room, fun d => ?_⟩
  have ordered := proper.ordered d
  have positive := proper.positive d
  have distance : range.distance d = range.endMd d - range.beginMd d := rfl
  obtain ⟨count, whole⟩ := divides d
  have exact : range.logicalExtent id d * range.strideMd d = range.distance d := by
    unfold IdxRange.logicalExtent divCeil
    rw [id_eq, whole, Nat.add_sub_assoc positive, Nat.mul_add_div positive,
      Nat.div_eq_of_lt (Nat.sub_lt positive Nat.one_pos), Nat.add_zero, Nat.mul_comm]
  have last := ends d
  rw [exact]
  omega

/-- Ranges with unit stride are representable. -/
theorem representable_unit {range : IdxRange (BitVec w) (n + 1)}
    (proper : range.toNats.Proper) (unit : ∀ d, range.toNats.strideMd d = 1) :
    StepsFit range.toNats (2 ^ w) := by
  have ends (d : Fin (n + 1)) : range.toNats.endMd d < 2 ^ w := (range.endMd d).isLt
  refine representable_of_dvd proper (fun d => ?_) ends fun d => ?_
  · rw [unit]
    exact Nat.one_dvd _
  · have last := ends d
    have distance : range.toNats.distance d ≤ range.toNats.endMd d := Nat.sub_le _ _
    rw [unit]
    omega

end Alpaka
