import Mathlib.Data.BitVec
import Mathlib.Data.Nat.Bitwise
import Mathlib.Logic.Nontrivial.Basic

/-! # Warp shuffles on SYCL

The shuffles of the public interface are documented by what they read from an
array with one value for each lane. On SYCL each of them cuts the warp into
partitions itself and calls a primitive for whole sub-groups. `shfl` and `shflUp`
compute the documented value (`Alpaka.OneApi.shfl_eq`, `Alpaka.OneApi.shflUp_eq`).
The bounds test of `shflDown` wraps around for a large distance, and `shflXor`
does not read from an earlier partition (`Alpaka.OneApi.shuffles_iff`).
-/

namespace Alpaka.OneApi

variable {T : Type*}

/-! ## The primitives of a sub-group -/

/-- The value of a lane, an arbitrary one if there is no such lane. -/
def selectFromGroup (warpSize : BitVec 32) (values : ℕ → T) (arbitrary : T) (lane : BitVec 32) :
    T :=
  if lane < warpSize then values lane.toNat else arbitrary

def shiftGroupLeft (warpSize : BitVec 32) (values : ℕ → T) (arbitrary : T)
    (laneIdxInWarp delta : BitVec 32) : T :=
  if laneIdxInWarp.toNat + delta.toNat < warpSize.toNat then
    values (laneIdxInWarp.toNat + delta.toNat)
  else arbitrary

def shiftGroupRight (values : ℕ → T) (arbitrary : T) (laneIdxInWarp delta : BitVec 32) : T :=
  if delta.toNat ≤ laneIdxInWarp.toNat then values (laneIdxInWarp.toNat - delta.toNat)
  else arbitrary

/-! ## The operations of the back-end -/

def Shfl.op (warpSize : BitVec 32) (values : ℕ → T) (arbitrary : T)
    (laneIdxInWarp srcLane width : BitVec 32) : T :=
  let partitionOffset := laneIdxInWarp / width * width
  let srcInPartitionLaneIdx := partitionOffset + srcLane % width
  selectFromGroup warpSize values arbitrary srcInPartitionLaneIdx

def ShflDown.op (warpSize : BitVec 32) (values : ℕ → T) (arbitrary : T)
    (laneIdxInWarp delta width : BitVec 32) : T :=
  let groupEndIdx := (laneIdxInWarp / width + 1) * width
  let result := shiftGroupLeft warpSize values arbitrary laneIdxInWarp delta
  if laneIdxInWarp + delta ≥ groupEndIdx then values laneIdxInWarp.toNat else result

def ShflUp.op (values : ℕ → T) (arbitrary : T) (laneIdxInWarp delta width : BitVec 32) : T :=
  let groupStartIdx := laneIdxInWarp / width * width
  let result := shiftGroupRight values arbitrary laneIdxInWarp delta
  if laneIdxInWarp - groupStartIdx < delta then values laneIdxInWarp.toNat else result

def ShflXor.op (warpSize : BitVec 32) (values : ℕ → T) (arbitrary : T)
    (laneIdxInWarp laneMask width : BitVec 32) : T :=
  let groupStartIdx := laneIdxInWarp / width * width
  let relativeIdx := laneIdxInWarp - groupStartIdx
  let sourceLane := relativeIdx % width ^^^ laneMask
  selectFromGroup warpSize values arbitrary
    (if sourceLane < width then groupStartIdx + sourceLane else laneIdxInWarp)

/-! ## The public interface -/

/-- The width of the partitions, by default the whole warp. -/
def partitionWidth (warpSize width : BitVec 32) : BitVec 32 :=
  if width ≠ 0 then width else warpSize

def shfl (warpSize : BitVec 32) (values : ℕ → T) (arbitrary : T)
    (laneIdx srcLane width : BitVec 32) : T :=
  Shfl.op warpSize values arbitrary laneIdx srcLane (partitionWidth warpSize width)

def shflDown (warpSize : BitVec 32) (values : ℕ → T) (arbitrary : T)
    (laneIdx delta width : BitVec 32) : T :=
  ShflDown.op warpSize values arbitrary laneIdx delta (partitionWidth warpSize width)

def shflUp (warpSize : BitVec 32) (values : ℕ → T) (arbitrary : T)
    (laneIdx delta width : BitVec 32) : T :=
  ShflUp.op values arbitrary laneIdx delta (partitionWidth warpSize width)

def shflXor (warpSize : BitVec 32) (values : ℕ → T) (arbitrary : T)
    (laneIdx laneMask width : BitVec 32) : T :=
  ShflXor.op warpSize values arbitrary laneIdx laneMask (partitionWidth warpSize width)

/-! ## The documented exchange -/

/-- What the documentation says the shuffles effectively execute. -/
def documentedShfl (values : ℕ → T) (threadIdx srcLane width : ℕ) : T :=
  values (width * (threadIdx / width) + srcLane % width)

def documentedShflDown (values : ℕ → T) (threadIdx delta width : ℕ) : T :=
  if threadIdx % width + delta < width then values (threadIdx + delta) else values threadIdx

def documentedShflUp (values : ℕ → T) (threadIdx delta width : ℕ) : T :=
  if threadIdx % width ≥ delta then values (threadIdx - delta) else values threadIdx

def documentedShflXor (values : ℕ → T) (threadIdx laneMask width : ℕ) : T :=
  let lane := threadIdx ^^^ laneMask
  values (if lane / width > threadIdx / width then threadIdx else lane)

/-! ## Partitions of a warp -/

/-- A lane of a warp that is cut into partitions. -/
structure Lane (warpSize width laneIdx : BitVec 32) : Prop where
  warpSize_pow : ∃ a, warpSize.toNat = 2 ^ a
  width_pow : ∃ b, width.toNat = 2 ^ b
  width_le : width ≤ warpSize
  inWarp : laneIdx < warpSize

section

variable {warpSize width laneIdx : BitVec 32}

namespace Lane

private theorem width_pos (lane : Lane warpSize width laneIdx) : 0 < width.toNat := by
  obtain ⟨b, power⟩ := lane.width_pow
  rw [power]
  exact Nat.two_pow_pos b

private theorem partitionWidth_eq (lane : Lane warpSize width laneIdx) :
    partitionWidth warpSize width = width := by
  unfold partitionWidth
  rw [if_pos]
  intro none
  have positive := lane.width_pos
  rw [none] at positive
  exact absurd positive (by decide)

private theorem width_dvd (lane : Lane warpSize width laneIdx) : width.toNat ∣ warpSize.toNat := by
  obtain ⟨a, warpPower⟩ := lane.warpSize_pow
  obtain ⟨b, widthPower⟩ := lane.width_pow
  have smaller := BitVec.le_def.mp lane.width_le
  rw [warpPower, widthPower] at smaller ⊢
  exact pow_dvd_pow 2 ((Nat.pow_le_pow_iff_right (by decide)).mp smaller)

/-- The partition of a lane is inside the warp. -/
theorem partition_le (lane : Lane warpSize width laneIdx) :
    (laneIdx.toNat / width.toNat + 1) * width.toNat ≤ warpSize.toNat := by
  obtain ⟨count, whole⟩ := lane.width_dvd
  have inWarp := BitVec.lt_def.mp lane.inWarp
  rw [whole] at inWarp ⊢
  rw [Nat.mul_comm]
  exact Nat.mul_le_mul_left _ (Nat.div_lt_of_lt_mul inWarp)

private theorem toNat_start (_lane : Lane warpSize width laneIdx) :
    (laneIdx / width * width).toNat = laneIdx.toNat / width.toNat * width.toNat := by
  have inside := laneIdx.isLt
  have below := Nat.div_mul_le_self laneIdx.toNat width.toNat
  rw [BitVec.toNat_mul, BitVec.toNat_udiv]
  exact Nat.mod_eq_of_lt (by omega)

/-- The index of a lane within its partition. -/
theorem toNat_relative (lane : Lane warpSize width laneIdx) :
    (laneIdx - laneIdx / width * width).toNat = laneIdx.toNat % width.toNat := by
  have below := Nat.div_mul_le_self laneIdx.toNat width.toNat
  have split := Nat.div_add_mod' laneIdx.toNat width.toNat
  rw [BitVec.toNat_sub_of_le (by rw [BitVec.le_def, lane.toNat_start]; exact below),
    lane.toNat_start]
  omega

private theorem toNat_end (lane : Lane warpSize width laneIdx) :
    ((laneIdx / width + 1) * width).toNat =
      (laneIdx.toNat / width.toNat + 1) * width.toNat := by
  have fits := lane.partition_le.trans_lt warpSize.isLt
  have next : (laneIdx / width + 1).toNat = laneIdx.toNat / width.toNat + 1 := by
    have smaller := Nat.le_mul_of_pos_right (laneIdx.toNat / width.toNat + 1) lane.width_pos
    rw [BitVec.toNat_add, BitVec.toNat_udiv]
    exact Nat.mod_eq_of_lt (smaller.trans_lt fits)
  rw [BitVec.toNat_mul, next]
  exact Nat.mod_eq_of_lt fits

/-- A place within the partition of a lane, as a lane of the warp. -/
theorem select (lane : Lane warpSize width laneIdx) (values : ℕ → T) (arbitrary : T)
    {place : BitVec 32} (inside : place.toNat < width.toNat) :
    selectFromGroup warpSize values arbitrary (laneIdx / width * width + place) =
      values (laneIdx.toNat / width.toNat * width.toNat + place.toNat) := by
  have within : laneIdx.toNat / width.toNat * width.toNat + place.toNat < warpSize.toNat := by
    have partition := lane.partition_le
    rw [Nat.add_mul] at partition
    omega
  have source : (laneIdx / width * width + place).toNat =
      laneIdx.toNat / width.toNat * width.toNat + place.toNat := by
    rw [BitVec.toNat_add, lane.toNat_start]
    exact Nat.mod_eq_of_lt (within.trans warpSize.isLt)
  unfold selectFromGroup
  rw [if_pos (BitVec.lt_def.mpr (source ▸ within)), source]

/-- A mask leaves the partition of a lane exactly when it has bits above the width. -/
theorem xor_div_eq_iff (lane : Lane warpSize width laneIdx) (laneMask : ℕ) :
    (laneIdx.toNat ^^^ laneMask) / width.toNat = laneIdx.toNat / width.toNat ↔
      laneMask < width.toNat := by
  obtain ⟨b, power⟩ := lane.width_pow
  rw [power, Nat.xor_div_two_pow, ← Nat.div_eq_zero_iff_lt (Nat.two_pow_pos b)]
  constructor
  · intro same
    apply Nat.xor_right_injective (x := laneIdx.toNat / 2 ^ b)
    simpa using same
  · intro none
    rw [none, Nat.xor_zero]

/-- The same for the index within the partition. -/
theorem xor_mod_lt_iff (lane : Lane warpSize width laneIdx) (laneMask : ℕ) :
    laneIdx.toNat % width.toNat ^^^ laneMask < width.toNat ↔ laneMask < width.toNat := by
  obtain ⟨b, power⟩ := lane.width_pow
  rw [power, ← Nat.div_eq_zero_iff_lt (Nat.two_pow_pos b), Nat.xor_div_two_pow,
    Nat.mod_div_self, Nat.zero_xor, Nat.div_eq_zero_iff_lt (Nat.two_pow_pos b)]

/-- Within the partition the mask exchanges places. -/
theorem xor_split (lane : Lane warpSize width laneIdx) {laneMask : ℕ}
    (inside : laneMask < width.toNat) :
    laneIdx.toNat / width.toNat * width.toNat + (laneIdx.toNat % width.toNat ^^^ laneMask) =
      laneIdx.toNat ^^^ laneMask := by
  have places : (laneIdx.toNat ^^^ laneMask) % width.toNat =
      laneIdx.toNat % width.toNat ^^^ laneMask := by
    obtain ⟨b, power⟩ := lane.width_pow
    rw [power] at inside ⊢
    rw [Nat.xor_mod_two_pow, Nat.mod_eq_of_lt inside]
  rw [← Nat.div_add_mod' (laneIdx.toNat ^^^ laneMask) width.toNat, places,
    (lane.xor_div_eq_iff laneMask).mpr inside]

end Lane

/-! ## The shuffles -/

variable (values : ℕ → T) (arbitrary : T)

/-- **`shfl`.** The source lane is taken modulo the width. -/
theorem shfl_eq (lane : Lane warpSize width laneIdx) (srcLane : BitVec 32) :
    shfl warpSize values arbitrary laneIdx srcLane width =
      documentedShfl values laneIdx.toNat srcLane.toNat width.toNat := by
  have inside : (srcLane % width).toNat < width.toNat := by
    rw [BitVec.toNat_umod]
    exact Nat.mod_lt _ lane.width_pos
  unfold shfl Shfl.op documentedShfl
  rw [lane.partitionWidth_eq]
  dsimp only
  rw [lane.select values arbitrary inside, BitVec.toNat_umod, Nat.mul_comm width.toNat]

/-- **`shflUp`.** No distance reaches below the partition. -/
theorem shflUp_eq (lane : Lane warpSize width laneIdx) (delta : BitVec 32) :
    shflUp warpSize values arbitrary laneIdx delta width =
      documentedShflUp values laneIdx.toNat delta.toNat width.toNat := by
  have short : laneIdx - laneIdx / width * width < delta ↔
      ¬ laneIdx.toNat % width.toNat ≥ delta.toNat := by
    rw [BitVec.lt_def, lane.toNat_relative, Nat.not_le]
  unfold shflUp ShflUp.op documentedShflUp shiftGroupRight
  rw [lane.partitionWidth_eq]
  dsimp only
  by_cases reaches : laneIdx.toNat % width.toNat ≥ delta.toNat
  · rw [if_neg (not_not_intro reaches ∘ short.mp), if_pos reaches,
      if_pos (le_trans reaches (Nat.mod_le _ _))]
  · rw [if_pos (short.mpr reaches), if_neg reaches]

/-- The bounds test of `shflDown` is the documented one while the sum fits. -/
theorem shflDown_eq (lane : Lane warpSize width laneIdx) {delta : BitVec 32}
    (fits : laneIdx.toNat + delta.toNat < 2 ^ 32) :
    shflDown warpSize values arbitrary laneIdx delta width =
      documentedShflDown values laneIdx.toNat delta.toNat width.toNat := by
  have split := Nat.div_add_mod' laneIdx.toNat width.toNat
  have partition := lane.partition_le
  have leaves : laneIdx + delta ≥ (laneIdx / width + 1) * width ↔
      ¬ laneIdx.toNat % width.toNat + delta.toNat < width.toNat := by
    rw [ge_iff_le, BitVec.le_def, lane.toNat_end, BitVec.toNat_add, Nat.mod_eq_of_lt fits,
      Nat.add_mul]
    omega
  unfold shflDown ShflDown.op documentedShflDown shiftGroupLeft
  rw [lane.partitionWidth_eq]
  dsimp only
  by_cases stays : laneIdx.toNat % width.toNat + delta.toNat < width.toNat
  · rw [Nat.add_mul] at partition
    rw [if_neg (not_not_intro stays ∘ leaves.mp), if_pos stays, if_pos (by omega)]
  · rw [if_pos (leaves.mpr stays), if_neg stays]

/-- When the sum wraps around, the test takes the source for one within the
partition. -/
theorem shflDown_wraps (lane : Lane warpSize width laneIdx) {delta : BitVec 32}
    (wraps : 2 ^ 32 ≤ laneIdx.toNat + delta.toNat) :
    shflDown warpSize values arbitrary laneIdx delta width = arbitrary := by
  have split := Nat.div_add_mod' laneIdx.toNat width.toNat
  have inside := Nat.mod_lt laneIdx.toNat lane.width_pos
  have laneBound := laneIdx.isLt
  have deltaBound := delta.isLt
  have sizeBound := warpSize.isLt
  have stays : ¬ laneIdx + delta ≥ (laneIdx / width + 1) * width := by
    rw [ge_iff_le, BitVec.le_def, lane.toNat_end, BitVec.toNat_add, Nat.add_mul]
    omega
  unfold shflDown ShflDown.op shiftGroupLeft
  rw [lane.partitionWidth_eq]
  dsimp only
  rw [if_neg stays, if_neg (by omega)]

/-- `shflXor` reads the lane of the mask when the mask stays in the partition, and
otherwise the own lane. -/
theorem shflXor_eq (lane : Lane warpSize width laneIdx) (laneMask : BitVec 32) :
    shflXor warpSize values arbitrary laneIdx laneMask width =
      if laneMask.toNat < width.toNat then values (laneIdx.toNat ^^^ laneMask.toNat)
      else values laneIdx.toNat := by
  have source : ((laneIdx - laneIdx / width * width) % width ^^^ laneMask).toNat =
      laneIdx.toNat % width.toNat ^^^ laneMask.toNat := by
    rw [BitVec.toNat_xor, BitVec.toNat_umod, lane.toNat_relative, Nat.mod_mod]
  have stays := lane.xor_mod_lt_iff laneMask.toNat
  rw [← source, ← BitVec.lt_def] at stays
  unfold shflXor ShflXor.op
  rw [lane.partitionWidth_eq]
  dsimp only
  by_cases inside : laneMask.toNat < width.toNat
  · rw [if_pos (stays.mpr inside), if_pos inside,
      lane.select values arbitrary (BitVec.lt_def.mp (stays.mpr inside)), source,
      lane.xor_split inside]
  · rw [if_neg (mt stays.mp inside), if_neg inside]
    exact if_pos lane.inWarp

/-- The documented exchange reads from an earlier partition as well. -/
theorem shflXor_eq_iff (lane : Lane warpSize width laneIdx) (laneMask : BitVec 32) :
    shflXor warpSize values arbitrary laneIdx laneMask width =
        documentedShflXor values laneIdx.toNat laneMask.toNat width.toNat ↔
      ¬ (laneIdx.toNat ^^^ laneMask.toNat) / width.toNat < laneIdx.toNat / width.toNat ∨
        values (laneIdx.toNat ^^^ laneMask.toNat) = values laneIdx.toNat := by
  have stays := lane.xor_div_eq_iff laneMask.toNat
  rw [shflXor_eq values arbitrary lane]
  unfold documentedShflXor
  dsimp only
  rcases Nat.lt_trichotomy ((laneIdx.toNat ^^^ laneMask.toNat) / width.toNat)
    (laneIdx.toNat / width.toNat) with earlier | same | later
  · have outside := mt stays.mpr (Nat.ne_of_lt earlier)
    rw [if_neg outside, if_neg (Nat.lt_asymm earlier)]
    simp only [earlier, not_true, false_or, eq_comm]
  · rw [if_pos (stays.mp same), same, if_neg (Nat.lt_irrefl _)]
    simp only [Nat.lt_irrefl, not_false_iff, true_or]
  · have outside := mt stays.mpr (Nat.ne_of_gt later)
    rw [if_neg outside, if_pos later]
    simp only [Nat.lt_asymm later, not_false_iff, true_or]

/-- **The documented exchange.** For one lane and its arguments, all four shuffles
compute what is documented, whatever the arbitrary value, exactly when the source
of `shflDown` fits in 32 bits and the mask of `shflXor` does not lead to an earlier
partition with another value. -/
theorem shuffles_iff [Nontrivial T] (lane : Lane warpSize width laneIdx)
    (srcLane delta laneMask : BitVec 32) :
    (∀ arbitrary : T,
      shfl warpSize values arbitrary laneIdx srcLane width =
          documentedShfl values laneIdx.toNat srcLane.toNat width.toNat ∧
        shflDown warpSize values arbitrary laneIdx delta width =
          documentedShflDown values laneIdx.toNat delta.toNat width.toNat ∧
        shflUp warpSize values arbitrary laneIdx delta width =
          documentedShflUp values laneIdx.toNat delta.toNat width.toNat ∧
        shflXor warpSize values arbitrary laneIdx laneMask width =
          documentedShflXor values laneIdx.toNat laneMask.toNat width.toNat) ↔
      laneIdx.toNat + delta.toNat < 2 ^ 32 ∧
        (¬ (laneIdx.toNat ^^^ laneMask.toNat) / width.toNat < laneIdx.toNat / width.toNat ∨
          values (laneIdx.toNat ^^^ laneMask.toNat) = values laneIdx.toNat) := by
  constructor
  · intro exchange
    constructor
    · by_contra wraps
      -- the documented value is one, but the arbitrary value may be another
      obtain ⟨arbitrary, other⟩ :=
        exists_ne (documentedShflDown values laneIdx.toNat delta.toNat width.toNat)
      have down := (exchange arbitrary).2.1
      rw [shflDown_wraps values arbitrary lane (Nat.le_of_not_lt wraps)] at down
      exact other down
    · exact (shflXor_eq_iff values (values 0) lane laneMask).mp (exchange (values 0)).2.2.2
  · intro condition arbitrary
    exact ⟨shfl_eq values arbitrary lane srcLane,
      shflDown_eq values arbitrary lane condition.1,
      shflUp_eq values arbitrary lane delta,
      (shflXor_eq_iff values arbitrary lane laneMask).mpr condition.2⟩

end

/-- The last lane of a warp of 32 with the largest distance gets an arbitrary value
instead of its own. -/
theorem shuffles_lost :
    ¬ ∀ (warpSize width laneIdx srcLane delta laneMask : BitVec 32) (values : ℕ → ℕ)
        (arbitrary : ℕ), Lane warpSize width laneIdx →
      shfl warpSize values arbitrary laneIdx srcLane width =
          documentedShfl values laneIdx.toNat srcLane.toNat width.toNat ∧
        shflDown warpSize values arbitrary laneIdx delta width =
          documentedShflDown values laneIdx.toNat delta.toNat width.toNat ∧
        shflUp warpSize values arbitrary laneIdx delta width =
          documentedShflUp values laneIdx.toNat delta.toNat width.toNat ∧
        shflXor warpSize values arbitrary laneIdx laneMask width =
          documentedShflXor values laneIdx.toNat laneMask.toNat width.toNat := by
  intro law
  have lane : Lane 32 32 31 := ⟨⟨5, rfl⟩, ⟨5, rfl⟩, by decide, by decide⟩
  have down := (law 32 32 31 0 (-1) 0 id 77 lane).2.1
  revert down
  decide

/-- Within a partition of eight lanes everything is as documented. -/
theorem shuffles_partition :
    shfl 32 id 77 13 5 8 = documentedShfl id 13 5 8 ∧
      shflDown 32 id 77 13 2 8 = documentedShflDown id 13 2 8 ∧
      shflUp 32 id 77 13 2 8 = documentedShflUp id 13 2 8 ∧
      shflXor 32 id 77 13 3 8 = documentedShflXor id 13 3 8 := by
  have lane : Lane 32 8 13 := ⟨⟨5, rfl⟩, ⟨3, rfl⟩, by decide, by decide⟩
  exact (shuffles_iff id lane 5 2 3).mpr (by decide) 77

end Alpaka.OneApi
