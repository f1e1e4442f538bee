import Alpaka.Mem.TiledWidth

/-! # Tiled blocks in machine arithmetic

Under the contiguous layout an odometer digit is compared with the end of its own block. Where
the number of indices is rounded up exactly and the position behind the last one is
representable, a thread visits what it visits in exact arithmetic
(`Alpaka.TiledIdxContainer.contiguous_yields`).
-/

namespace Alpaka.TiledIdxContainer

open Math.MixedRadix
open ThreadSpace (mapIdx mapCount)

attribute [local instance (2000)] neZero_add_one

variable {w n : ℕ}

/-- The iterator whose components are words. -/
private def renamed (iterator : ConstIterator ℕ n n) : ConstIterator (BitVec w) n n :=
  ⟨Vec.ofNats iterator.current, Vec.ofNats iterator.stride, Vec.ofNats iterator.extent,
    Vec.ofNats iterator.first⟩

/-- The odometer turns over at words as it does at numbers, as long as no step overflows. -/
private theorem renamed_advance {selection : CSelect (n + 1) (n + 1)}
    (distinct : Function.Injective selection) (idx : Fin (n + 1)) (iterator : ConstIterator ℕ n n)
    (extents : ∀ i, iterator.extent i < 2 ^ w)
    (room : ∀ i ≤ idx, iterator.current (selection i) + iterator.stride i < 2 ^ w) :
    (renamed iterator : ConstIterator (BitVec w) n n).advance selection idx idx.isLt =
      renamed (iterator.advance selection idx idx.isLt) := by
  have step (iterator : ConstIterator ℕ n n) (i : Fin (n + 1)) :
      Function.update (renamed iterator : ConstIterator (BitVec w) n n).current (selection i)
        ((renamed iterator : ConstIterator (BitVec w) n n).current (selection i) +
          (renamed iterator : ConstIterator (BitVec w) n n).stride i) =
        Vec.ofNats (Function.update iterator.current (selection i)
          (iterator.current (selection i) + iterator.stride i)) := by
    rw [Vec.ofNats_update, Nat.cast_add]
    rfl
  induction idx using Fin.induction generalizing iterator with
  | zero =>
      exact congrArg (fun current : Vec (BitVec w) (n + 1) =>
        ({ renamed iterator with current := current } : ConstIterator (BitVec w) n n))
          (step iterator 0)
  | succ i ih =>
      rw [ConstIterator.advance_succ, ConstIterator.advance_succ]
      dsimp only
      rw [step iterator i.succ]
      have below := room i.succ le_rfl
      have full : (renamed iterator : ConstIterator (BitVec w) n n).extent i.succ ≤
          (Vec.ofNats (Function.update iterator.current (selection i.succ)
            (iterator.current (selection i.succ) + iterator.stride i.succ)) :
              Vec (BitVec w) (n + 1)) (selection i.succ) ↔
          iterator.extent i.succ ≤ Function.update iterator.current (selection i.succ)
            (iterator.current (selection i.succ) + iterator.stride i.succ) (selection i.succ) := by
        unfold Vec.ofNats
        rw [Function.update_self]
        exact natCast_le_iff (extents i.succ) below
      by_cases carried : iterator.extent i.succ ≤ Function.update iterator.current
          (selection i.succ) (iterator.current (selection i.succ) + iterator.stride i.succ)
            (selection i.succ)
      · rw [if_pos (full.mpr carried), if_pos carried, ← ih]
        · congr 1
          have reset := Vec.ofNats_update (w := w) (Function.update iterator.current
            (selection i.succ) (iterator.current (selection i.succ) + iterator.stride i.succ))
              (selection i.succ) (iterator.first i)
          exact congrArg (fun current : Vec (BitVec w) (n + 1) =>
            ({ renamed iterator with current := current } : ConstIterator (BitVec w) n n))
              reset.symm
        · exact extents
        · intro j slower
          have other : selection j ≠ selection i.succ := fun same =>
            absurd (distinct same ▸ slower) (Fin.castSucc_lt_succ).not_ge
          change Function.update (Function.update iterator.current _ _) _ _ (selection j) + _ < _
          rw [Function.update_of_ne other, Function.update_of_ne other]
          exact room j (slower.trans (Fin.castSucc_lt_succ).le)
      · rw [if_neg (mt full.mp carried), if_neg carried]
        rfl

/-- The constructor at words of representable numbers. -/
private theorem make_words (selection : CSelect (n + 1) (n + 1))
    {offset first extent stride : Vec ℕ (n + 1)} (starts : ∀ d, first d + offset d < 2 ^ w)
    (ends : ∀ d, extent d + offset d < 2 ^ w) :
    (ConstIterator.make selection (Vec.ofNats offset) (Vec.ofNats first) (Vec.ofNats extent)
      (Vec.ofNats stride) : ConstIterator (BitVec w) n n) =
      renamed (ConstIterator.make selection offset first extent stride) := by
  have sum (u v : Vec ℕ (n + 1)) : (fun d => Vec.ofNats u d + Vec.ofNats v d) =
      (Vec.ofNats fun d => u d + v d : Vec (BitVec w) (n + 1)) :=
    funext fun d => (Nat.cast_add _ _).symm
  unfold ConstIterator.make renamed
  simp only [sum]
  have valid : Fin.foldl n (fun valid d => valid &&
        decide (Vec.rshrink (Vec.swizzle (Vec.ofNats fun d => first d + offset d :
          Vec (BitVec w) (n + 1)) selection) d <
            Vec.swizzle (Vec.ofNats fun d => extent d + offset d) selection d.succ)) true =
      Fin.foldl n (fun valid d => valid &&
        decide (Vec.rshrink (Vec.swizzle (fun d => first d + offset d) selection) d <
          Vec.swizzle (fun d => extent d + offset d) selection d.succ)) true := by
    apply Bool.eq_iff_iff.mpr
    refine (isIndexValid_iff _ fun d => Vec.swizzle (Vec.ofNats fun d => extent d + offset d :
      Vec (BitVec w) (n + 1)) selection d.succ).trans (Iff.trans ?_ (isIndexValid_iff _ fun d =>
        Vec.swizzle (fun d => extent d + offset d) selection d.succ).symm)
    exact forall_congr' fun d => natCast_lt_iff (starts _) (ends _)
  rw [valid]
  congr 1
  split
  · rfl
  · exact (Vec.ofNats_update _ _ _).symm

/-- The thread of a contiguous container over all dimensions of a whole thread space. -/
def blockThread (range : IdxRange (BitVec w) (n + 1)) (threadCount : Vec (BitVec w) (n + 1))
    (selection : CSelect (n + 1) (n + 1)) (idx : Vec (BitVec w) (n + 1)) :
    TiledIdxContainer (BitVec w) n n :=
  ⟨range, ⟨idx, threadCount⟩, .contiguous, selection⟩

/-- Rounding up is exact, and the position behind the last one is representable. -/
structure StepsFit (range : IdxRange ℕ n) (limit : ℕ) : Prop where
  distance : ∀ d, range.distance d + range.strideMd d ≤ limit
  behind : ∀ d, range.beginMd d + range.logicalExtent id d * range.strideMd d < limit

section Thread

variable {range : IdxRange (BitVec w) (n + 1)} {threadCount : Vec (BitVec w) (n + 1)}
  {selection : CSelect (n + 1) (n + 1)} {idx : Vec (BitVec w) (n + 1)}

/-- The block of a thread along a dimension ends within the range. -/
private theorem stop_le (range : IdxRange (BitVec w) (n + 1)) (member : idx ∈ box threadCount)
    (d : Fin (n + 1)) :
    Math.blockStart (range.toNats.logicalExtent id d) (threadCount d).toNat
        ((idx d).toNat + 1) ≤ range.toNats.logicalExtent id d := by
  have below : (idx d).toNat < (threadCount d).toNat := BitVec.lt_def.mp (member d)
  exact Math.blockStart_le (Nat.zero_lt_of_lt below) _ below

private theorem start_le (range : IdxRange (BitVec w) (n + 1)) (member : idx ∈ box threadCount)
    (d : Fin (n + 1)) :
    Math.blockStart (range.toNats.logicalExtent id d) (threadCount d).toNat (idx d).toNat ≤
      range.toNats.logicalExtent id d := by
  have below : (idx d).toNat < (threadCount d).toNat := BitVec.lt_def.mp (member d)
  exact Math.blockStart_le (Nat.zero_lt_of_lt below) _ below.le

/-- What the code computes for a position at which a block may begin or end. -/
private theorem blockStart_words (threadCount : Vec (BitVec w) (n + 1))
    (proper : range.toNats.Proper) (fits : StepsFit range.toNats (2 ^ w)) (d : Fin (n + 1))
    {worker : ℕ}
    (narrow : worker < 2 ^ w) :
    ((worker : BitVec w) * (divCeil (range.distance d) (range.strideMd d) / threadCount d) +
      stdMin (worker : BitVec w) (divCeil (range.distance d) (range.strideMd d) % threadCount d)) =
      ((Math.blockStart (range.toNats.logicalExtent id d) (threadCount d).toNat worker : ℕ) :
        BitVec w) := by
  have logical := IdxRange.toNat_extent proper (fits.distance d)
  have extent : range.toNats.logicalExtent id d < 2 ^ w := by
    rw [← logical]
    exact BitVec.isLt _
  have count : (threadCount d).toNat < 2 ^ w := (threadCount d).isLt
  have word : divCeil (range.distance d) (range.strideMd d) =
      ((range.toNats.logicalExtent id d : ℕ) : BitVec w) := by
    rw [← logical, natCast_toNat]
  unfold Math.blockStart
  rw [Nat.cast_add, Nat.cast_mul, natCast_div extent count,
    natCast_min narrow ((Nat.mod_le _ _).trans_lt extent), natCast_mod extent count, natCast_toNat,
    word]

private theorem mapped_nats (threadCount idx : Vec (BitVec w) (n + 1))
    (selection : CSelect (n + 1) (n + 1)) :
    mapCount threadCount.toNats selection = threadCount.toNats ∧
      mapIdx threadCount.toNats selection idx.toNats = idx.toNats :=
  ⟨ThreadSpace.mapCount_of_le le_rfl _ _, ThreadSpace.mapIdx_of_le le_rfl _ _ _⟩

/-- The bound of a thread along a dimension, as the code computes it. -/
private theorem shareExtent_words (proper : range.toNats.Proper)
    (fits : StepsFit range.toNats (2 ^ w)) (member : idx ∈ box threadCount)
    (d : Fin (n + 1)) :
    stdMin (range.distance d) (((idx d + 1) *
        (divCeil (range.distance d) (range.strideMd d) / threadCount d) + stdMin (idx d + 1)
          (divCeil (range.distance d) (range.strideMd d) % threadCount d)) * range.strideMd d) =
      ((shareExtent range.toNats .contiguous (threadCount d).toNat (idx d).toNat d : ℕ) :
        BitVec w) := by
  have below : (idx d).toNat < (threadCount d).toNat := BitVec.lt_def.mp (member d)
  have count := (threadCount d).isLt
  have narrow : (idx d).toNat + 1 < 2 ^ w := by omega
  have word : idx d + 1 = (((idx d).toNat + 1 : ℕ) : BitVec w) := by
    rw [Nat.cast_succ, natCast_toNat]
  have stride : range.strideMd d = ((range.toNats.strideMd d : ℕ) : BitVec w) :=
    (natCast_toNat _).symm
  have distance : range.distance d = ((range.toNats.distance d : ℕ) : BitVec w) := by
    rw [← IdxRange.toNat_distance proper, natCast_toNat]
  have exact : range.toNats.distance d < 2 ^ w := by
    rw [← IdxRange.toNat_distance proper]
    exact BitVec.isLt _
  have product := Nat.mul_le_mul_right (range.toNats.strideMd d)
    (stop_le range member d)
  have behind := fits.behind d
  rw [word, blockStart_words threadCount proper fits d narrow, stride, ← Nat.cast_mul, distance,
    ← natCast_min exact (by omega)]
  rfl

/-- The iterator of a thread. -/
private theorem begin_words (proper : range.toNats.Proper)
    (fits : StepsFit range.toNats (2 ^ w)) (member : idx ∈ box threadCount) :
    (blockThread range threadCount selection idx).begin =
      renamed (ofThread range.toNats threadCount.toNats .contiguous selection
        idx.toNats).begin := by
  have mapped : (ThreadSpace.mk idx threadCount).mapTo selection = ⟨idx, threadCount⟩ :=
    ThreadSpace.mapTo_of_le le_rfl _ _
  have first : (fun d => (idx d *
      (divCeil (range.distance d) (range.strideMd d) / threadCount d) + stdMin (idx d)
        (divCeil (range.distance d) (range.strideMd d) % threadCount d)) * range.strideMd d) =
      (Vec.ofNats fun d => shareStart .contiguous (range.toNats.logicalExtent id d)
        (threadCount d).toNat (idx d).toNat * range.toNats.strideMd d :
          Vec (BitVec w) (n + 1)) := by
    funext d
    have block := blockStart_words threadCount proper fits d (idx d).isLt
    rw [natCast_toNat] at block
    rw [block]
    unfold Vec.ofNats
    rw [Nat.cast_mul]
    exact congrArg (_ * ·) (natCast_toNat _).symm
  have last : (fun d => stdMin (range.distance d) (((idx d + 1) *
        (divCeil (range.distance d) (range.strideMd d) / threadCount d) + stdMin (idx d + 1)
          (divCeil (range.distance d) (range.strideMd d) % threadCount d)) * range.strideMd d)) =
      (Vec.ofNats fun d => shareExtent range.toNats .contiguous (threadCount d).toNat
        (idx d).toNat d : Vec (BitVec w) (n + 1)) :=
    funext fun d => shareExtent_words proper fits member d
  have code : (blockThread range threadCount selection idx).begin =
      ConstIterator.make selection (Vec.ofNats range.toNats.beginMd)
        (Vec.ofNats fun d => shareStart .contiguous (range.toNats.logicalExtent id d)
          (threadCount d).toNat (idx d).toNat * range.toNats.strideMd d)
        (Vec.ofNats fun d => shareExtent range.toNats .contiguous (threadCount d).toNat
          (idx d).toNat d) (Vec.ofNats range.toNats.strideMd) := by
    rw [← first, ← last]
    simp only [«begin», blockThread, mapped]
    congr 1
    · exact (Vec.ofNats_toNats _).symm
    · exact (Vec.ofNats_toNats _).symm
  rw [code, make_words]
  · rw [begin_eq, (mapped_nats threadCount idx selection).1,
      (mapped_nats threadCount idx selection).2]
    congr 2
    funext d
    exact (Nat.one_mul _).symm
  · intro d
    have within := Nat.mul_le_mul_right (range.toNats.strideMd d)
      (start_le range member d)
    have behind := fits.behind d
    change Math.blockStart _ _ _ * _ + _ < _
    omega
  · intro d
    have cropped : shareExtent range.toNats .contiguous (threadCount d).toNat (idx d).toNat d ≤
      range.toNats.distance d := Nat.min_le_left _ _
    have ordered := proper.ordered d
    have ends : range.toNats.endMd d < 2 ^ w := (range.endMd d).isLt
    have distance : range.toNats.distance d = range.toNats.endMd d - range.toNats.beginMd d := rfl
    omega

/-- The value that the iterator is compared with. -/
private theorem end_words (proper : range.toNats.Proper)
    (fits : StepsFit range.toNats (2 ^ w)) (member : idx ∈ box threadCount) :
    (blockThread range threadCount selection idx).end =
      (((ofThread range.toNats threadCount.toNats .contiguous selection idx.toNats).end : ℕ) :
        BitVec w) := by
  have mapped : (ThreadSpace.mk idx threadCount).mapTo selection = ⟨idx, threadCount⟩ :=
    ThreadSpace.mapTo_of_le le_rfl _ _
  have bound := shareExtent_words proper fits member (selection 0)
  rw [end_eq, (mapped_nats threadCount idx selection).1, (mapped_nats threadCount idx selection).2,
    Nat.cast_add]
  have first : ((range.toNats.beginMd (selection 0) : ℕ) : BitVec w) =
      range.beginMd (selection 0) := natCast_toNat _
  rw [first]
  refine Eq.trans ?_ (congrArg (range.beginMd (selection 0) + ·) bound)
  simp only [«end», blockThread, mapped]
  rfl

/-! ## The steps of a thread -/

/-- Where the block of a thread begins along every dimension. -/
private def blockStarts (range : IdxRange (BitVec w) (n + 1)) (threadCount : Vec (BitVec w) (n + 1))
    (selection : CSelect (n + 1) (n + 1)) (idx : Vec (BitVec w) (n + 1)) : Vec ℕ (n + 1) :=
  fun i => shareStart .contiguous (range.toNats.logicalExtent selection i)
    (mapCount threadCount.toNats selection (selection i))
    (mapIdx threadCount.toNats selection idx.toNats (selection i))

/-- How many indices it has there. -/
private def blockLengths (range : IdxRange (BitVec w) (n + 1))
    (threadCount : Vec (BitVec w) (n + 1)) (selection : CSelect (n + 1) (n + 1))
    (idx : Vec (BitVec w) (n + 1)) : Vec ℕ (n + 1) :=
  threadLengths range.toNats threadCount.toNats .contiguous selection idx.toNats

private theorem blockLengths_le (range : IdxRange (BitVec w) (n + 1))
    (selection : CSelect (n + 1) (n + 1)) (member : idx ∈ box threadCount) (i : Fin (n + 1)) :
    blockStarts range threadCount selection idx i + blockLengths range threadCount selection idx i ≤
      range.toNats.logicalExtent id (selection i) := by
  have first := start_le range member (selection i)
  have last := stop_le range member (selection i)
  unfold blockStarts blockLengths threadLengths shareLengths share
  rw [(mapped_nats threadCount idx selection).1, (mapped_nats threadCount idx selection).2]
  change Math.blockStart _ _ _ + (Math.progression _ 1 _).length ≤ _
  rw [Math.length_progression_one]
  change Math.blockStart (range.toNats.logicalExtent id (selection i))
    (threadCount (selection i)).toNat (idx (selection i)).toNat +
      (Math.blockStart (range.toNats.logicalExtent id (selection i))
        (threadCount (selection i)).toNat ((idx (selection i)).toNat + 1) -
        Math.blockStart (range.toNats.logicalExtent id (selection i))
          (threadCount (selection i)).toNat (idx (selection i)).toNat) ≤ _
  omega

/-- A step from within the block of a thread does not overflow. -/
private theorem point_lt (fits : StepsFit range.toNats (2 ^ w))
    (distinct : Function.Injective selection) (member : idx ∈ box threadCount)
    {numeral : Vec ℕ (n + 1)} {i : Fin (n + 1)}
    (inside : numeral i ≤ blockLengths range threadCount selection idx i) :
    range.toNats.point selection (position (blockStarts range threadCount selection idx)
      (fun _ => 1) numeral) (selection i) < 2 ^ w := by
  have most := blockLengths_le range selection member i
  have behind := fits.behind (selection i)
  have scaled : (blockStarts range threadCount selection idx i + numeral i) *
      range.toNats.strideMd (selection i) ≤ range.toNats.logicalExtent id (selection i) *
        range.toNats.strideMd (selection i) := Nat.mul_le_mul_right _ (by omega)
  rw [range.toNats.point_selected distinct, position, Nat.mul_one]
  omega

/-- The extents of the iterator are ends within the range. -/
private theorem extent_lt (threadCount : Vec (BitVec w) (n + 1))
    (selection : CSelect (n + 1) (n + 1)) (idx : Vec (BitVec w) (n + 1))
    (proper : range.toNats.Proper) (i : Fin (n + 1)) :
    (ofThread range.toNats threadCount.toNats .contiguous selection idx.toNats).begin.extent i <
      2 ^ w := by
  have ordered := proper.ordered (selection i)
  have ends : range.toNats.endMd (selection i) < 2 ^ w := (range.endMd (selection i)).isLt
  have distance : range.toNats.distance (selection i) =
    range.toNats.endMd (selection i) - range.toNats.beginMd (selection i) := rfl
  have cropped : shareExtent range.toNats .contiguous
      (mapCount threadCount.toNats selection (selection i))
      (mapIdx threadCount.toNats selection idx.toNats (selection i)) (selection i) ≤
        range.toNats.distance (selection i) := Nat.min_le_left _ _
  rw [begin_eq]
  refine lt_of_le_of_lt (Nat.add_le_add_right cropped (range.toNats.beginMd (selection i))) ?_
  omega

/-- The iterator of a thread with the given number. -/
private def state (range : IdxRange (BitVec w) (n + 1)) (threadCount : Vec (BitVec w) (n + 1))
    (selection : CSelect (n + 1) (n + 1)) (idx : Vec (BitVec w) (n + 1)) (number : ℕ) :
    ConstIterator ℕ n n :=
  { (ofThread range.toNats threadCount.toNats .contiguous selection idx.toNats).begin with
    current := range.toNats.point selection (position (blockStarts range threadCount selection idx)
      (fun _ => 1) (place (blockLengths range threadCount selection idx) number)) }

/-- What holds of the iterator in every round: the slowest component is representable, and as
long as the end is not reached the iterator is one with a number below that of the indices. -/
private def Running (range : IdxRange (BitVec w) (n + 1)) (threadCount : Vec (BitVec w) (n + 1))
    (selection : CSelect (n + 1) (n + 1)) (idx : Vec (BitVec w) (n + 1))
    (iterator : ConstIterator ℕ n n) : Prop :=
  iterator.current (selection 0) < 2 ^ w ∧
    ((ofThread range.toNats threadCount.toNats .contiguous selection idx.toNats).loop.done
        iterator = false →
      ∃ number < ∏ i, blockLengths range threadCount selection idx i,
        iterator = state range threadCount selection idx number)

section Steps

variable (proper : range.toNats.Proper) (positive : ∀ d, 0 < threadCount d)
  (distinct : Function.Injective selection) (fits : StepsFit range.toNats (2 ^ w))
  (member : idx ∈ box threadCount)

include proper positive distinct fits member

/-- An iterator with a number up to that of the indices. -/
private theorem running_state {number : ℕ} (fast : ∀ i, i ≠ 0 →
      0 < blockLengths range threadCount selection idx i)
    (within : number ≤ ∏ i, blockLengths range threadCount selection idx i) :
    Running range threadCount selection idx (state range threadCount selection idx number) := by
  have ends : (ofThread range.toNats threadCount.toNats .contiguous selection idx.toNats).end =
      (ofThread range.toNats threadCount.toNats .contiguous selection idx.toNats).begin.extent
        0 := by
    rw [begin_eq, end_eq]
    exact Nat.add_comm _ _
  have slow : place (blockLengths range threadCount selection idx) number 0 ≤
      blockLengths range threadCount selection idx 0 := by
    rw [place_zero]
    calc number / weight (blockLengths range threadCount selection idx) 0
        ≤ (∏ i, blockLengths range threadCount selection idx i) /
            weight (blockLengths range threadCount selection idx) 0 := Nat.div_le_div_right within
      _ = blockLengths range threadCount selection idx 0 := by
        rw [prod_eq_mul_weight, Nat.mul_div_cancel _ (weight_positive fast 0)]
  refine ⟨point_lt fits distinct member slow, fun notDone => ⟨number, ?_, rfl⟩⟩
  refine lt_of_le_of_ne within fun last => ?_
  have full : blockLengths range threadCount selection idx 0 ≤
      place (blockLengths range threadCount selection idx) number 0 := by
    rw [last, place_zero, prod_eq_mul_weight, Nat.mul_div_cancel _ (weight_positive fast 0)]
  have counts : Counts range.toNats selection _ _ _ _ :=
    begin_counts proper (toNats_positive positive) .contiguous
      ((toNats_box threadCount).mapsTo member)
  have reached := (done_position_iff counts distinct ends
    (place (blockLengths range threadCount selection idx) number)).mpr full
  have contradiction := decide_eq_false_iff_not.mp notDone
  exact contradiction reached

private theorem running_begin : Running range threadCount selection idx
    (ofThread range.toNats threadCount.toNats .contiguous selection idx.toNats).begin := by
  have memberNats := (toNats_box threadCount).mapsTo member
  have positiveNats := toNats_positive positive
  by_cases present : ∀ i : Fin n, 0 < blockLengths range threadCount selection idx i.succ
  · have start : (ofThread range.toNats threadCount.toNats .contiguous selection
        idx.toNats).begin = state range threadCount selection idx 0 := by
      have current := begin_current_of_present proper positiveNats distinct .contiguous memberNats
        present
      have first : position (blockStarts range threadCount selection idx) (fun _ => 1)
          (place (blockLengths range threadCount selection idx) 0) =
            blockStarts range threadCount selection idx := by
        funext i
        rw [place_number_zero, position, Nat.zero_mul, Nat.add_zero]
      unfold state
      rw [first]
      exact congrArg (fun current => { (ofThread range.toNats threadCount.toNats .contiguous
        selection idx.toNats).begin with current := current }) current
    rw [start]
    refine running_state proper positive distinct fits member (fun i faster => ?_) (Nat.zero_le _)
    obtain ⟨j, rfl⟩ := Fin.exists_succ_eq.mpr faster
    exact present j
  · obtain ⟨i, nothing⟩ := not_forall.mp present
    have stopped := begin_current_of_absent proper positiveNats .contiguous memberNats nothing
    refine ⟨?_, fun notDone => ?_⟩
    · rw [← stopped, end_eq, Nat.add_comm]
      have bound := extent_lt threadCount selection idx proper 0
      rw [begin_eq] at bound
      exact bound
    · exact absurd stopped.le (decide_eq_false_iff_not.mp notDone)

/-- **One step.** The words follow the numbers. -/
private theorem running_next {number : ℕ}
    (inside : number < ∏ i, blockLengths range threadCount selection idx i) :
    ConstIterator.next selection (renamed (state range threadCount selection idx number) :
        ConstIterator (BitVec w) n n) =
      renamed (ConstIterator.next selection (state range threadCount selection idx number)) ∧
    Running range threadCount selection idx
      (ConstIterator.next selection (state range threadCount selection idx number)) := by
  have below (i : Fin (n + 1)) := place_lt_of_lt inside i
  have memberNats := (toNats_box threadCount).mapsTo member
  have positiveNats := toNats_positive positive
  have counts : Counts range.toNats selection _ _ _ _ :=
    begin_counts proper positiveNats .contiguous memberNats
  constructor
  · refine renamed_advance distinct (Fin.last n) _ (extent_lt threadCount selection idx proper)
      fun i _ => ?_
    have stride := counts.stride i
    have next : range.toNats.point selection (position (blockStarts range threadCount selection idx)
        (fun _ => 1) fun i => place (blockLengths range threadCount selection idx) number i + 1)
          (selection i) < 2 ^ w := point_lt fits distinct member (below i)
    rw [range.toNats.point_selected distinct, position] at next
    change range.toNats.point selection _ (selection i) + _ < _
    change (state range threadCount selection idx number).stride i = 1 * _ at stride
    rw [stride, range.toNats.point_selected distinct, position]
    refine lt_of_eq_of_lt ?_ next
    ring
  · have fast (i : Fin (n + 1)) (_ : i ≠ 0) : 0 < blockLengths range threadCount selection idx i :=
      Nat.zero_lt_of_lt (below i)
    by_cases present : ∀ i : Fin n, 0 < blockLengths range threadCount selection idx i.succ
    · have current := begin_current_of_present proper positiveNats distinct .contiguous memberNats
        present
      have stepped := next_position counts distinct fast current number
      have moved : ConstIterator.next selection (state range threadCount selection idx number) =
        state range threadCount selection idx (number + 1) := stepped
      rw [moved]
      exact running_state proper positive distinct fits member fast inside
    · exact absurd (fun i : Fin n => fast i.succ (Fin.succ_ne_zero i)) present

/-- **Blocks in machine arithmetic.** A thread visits what it visits in exact arithmetic. -/
theorem contiguous_yields :
    (blockThread range threadCount selection idx).loop.Yields
      (blockThread range threadCount selection idx).begin
      ((ofThread range.toNats threadCount.toNats .contiguous selection idx.toNats).indices.map
        Vec.ofNats) := by
  have last : (ofThread range.toNats threadCount.toNats .contiguous selection idx.toNats).end <
      2 ^ w := by
    rw [end_eq, Nat.add_comm]
    have bound := extent_lt threadCount selection idx proper 0
    rw [begin_eq] at bound
    exact bound
  rw [begin_words proper fits member]
  refine Math.Loop.Yields.rename _ (blockThread range threadCount selection idx).loop renamed
    Vec.ofNats (Running range threadCount selection idx) (fun iterator running => ?_)
    (fun iterator _ _ => rfl) (fun iterator running notDone => ?_)
    (running_begin proper positive distinct fits member)
    (ofThread_yields proper (toNats_positive positive) distinct .contiguous
      ((toNats_box threadCount).mapsTo member))
  · change decide ((blockThread range threadCount selection idx).end ≤
      ((iterator.current (selection 0) : ℕ) : BitVec w)) = decide _
    rw [end_words proper fits member]
    exact decide_eq_decide.mpr (natCast_le_iff last running.1)
  · obtain ⟨number, inside, rfl⟩ := running.2 notDone
    exact running_next proper positive distinct fits member inside

end Steps

end Thread

end Alpaka.TiledIdxContainer
