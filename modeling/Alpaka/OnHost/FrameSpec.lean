import Mathlib.Data.Nat.Prime.Basic
import Mathlib.Data.Nat.Log
import Alpaka.Math.Search
import Alpaka.Math.Split
import Alpaka.OnAcc.SimdConfig
import Alpaka.Vec

/-! # Frames for given extents

A frame should hold 512 elements. The fastest dimension gets a warp; what remains of
the 512 is handed out in factors of two, each one to the dimension that has the most
frames. The frame fits into the extents, its extents are powers of two, and it is only
smaller than 512 elements when no dimension can be doubled
(`Alpaka.FrameSpec.getFrameSpec_wellFormed`).
-/

namespace Alpaka

variable {n : ℕ}

attribute [local instance (2000)] neZero_add_one

/-- The position of the highest bit of a positive value. -/
def firstSetBit (value : ℕ) : ℕ := Nat.log2 value

def roundDownToPowerOfTwo (value : ℕ) : ℕ := 1 <<< firstSetBit value

private theorem roundDownToPowerOfTwo_eq (value : ℕ) :
    roundDownToPowerOfTwo value = 2 ^ Nat.log2 value := Nat.one_shiftLeft _

structure FrameSpec (n : ℕ) where
  numFrames : Vec ℕ (n + 1)
  frameExtents : Vec ℕ (n + 1)
  deriving DecidableEq

namespace FrameSpec

/-- How often a dimension of a frame can still be doubled, roughly. -/
def remaining (extents frameExtents : Vec ℕ (n + 1)) (i : Fin (n + 1)) : ℕ :=
  extents i / frameExtents i / 2

/-- The search for the dimension with the largest rest, the fastest one if there is no
rest at all. -/
def maxIdx (extents frameExtents : Vec ℕ (n + 1)) : Fin (n + 1) :=
  ((List.finRange (n + 1)).foldl (fun (best : Fin (n + 1) × ℕ) i =>
    let v := remaining extents frameExtents i
    if best.2 < v then (i, v) else best) (Fin.last n, 0)).1

/-- The loop that distributes the remaining elements of a frame. -/
def distribute (extents : Vec ℕ (n + 1)) (numFrameElements : ℕ) (frameExtents : Vec ℕ (n + 1)) :
    Vec ℕ (n + 1) :=
  if 1 < numFrameElements then
    let widest := maxIdx extents frameExtents
    if 1 ≤ remaining extents frameExtents widest then
      distribute extents (numFrameElements / 2)
        (Function.update frameExtents widest (frameExtents widest * 2))
    else frameExtents
  else frameExtents
termination_by numFrameElements
decreasing_by omega

def getFrameSpec (warpSize : ℕ) (extents : Vec ℕ (n + 1)) : FrameSpec n :=
  let fastDimensionValue := roundDownToPowerOfTwo (min warpSize extents.back)
  let frameExtents := Vec.rAssign (Vec.fill 1) fastDimensionValue
  let frameExtents := distribute extents (512 / frameExtents.back) frameExtents
  ⟨fun d => divCeil (extents d) (frameExtents d), frameExtents⟩

/-- The frame specification when every item of a frame computes several elements. -/
def getSimdFrameSpec (arch : Arch) (warpSize : ℕ) (extents : Vec ℕ (n + 1)) : FrameSpec n :=
  let frameExtents := (getFrameSpec warpSize extents).frameExtents
  let elementsPerFrameItem : Vec ℕ (n + 1) := Vec.rAssign (Vec.fill 1) (getNumElemPerThread arch)
  ⟨fun d => divExZero (extents d) (frameExtents d * elementsPerFrameItem d), frameExtents⟩

/-- What the loop keeps: a frame of powers of two inside of the extents. -/
structure Fits (extents : Vec ℕ (n + 1)) (frameExtents : Vec ℕ (n + 1)) : Prop where
  pow : ∀ d, ∃ bits, frameExtents d = 2 ^ bits
  le : ∀ d, frameExtents d ≤ extents d

theorem Fits.pos {extents frameExtents : Vec ℕ (n + 1)} (fits : Fits extents frameExtents)
    (d : Fin (n + 1)) : 0 < frameExtents d := by
  obtain ⟨bits, power⟩ := fits.pow d
  rw [power]
  exact Nat.two_pow_pos bits

/-- A dimension has a rest when it can be doubled. -/
theorem Fits.remaining_pos_iff {extents frameExtents : Vec ℕ (n + 1)}
    (fits : Fits extents frameExtents) (d : Fin (n + 1)) :
    1 ≤ remaining extents frameExtents d ↔ frameExtents d * 2 ≤ extents d := by
  unfold remaining
  rw [Nat.div_div_eq_div_mul, Nat.one_le_div_iff (Nat.mul_pos (fits.pos d) Nat.two_pos)]

/-- The search finds a dimension with the largest rest. -/
theorem remaining_le_maxIdx (extents frameExtents : Vec ℕ (n + 1)) (i : Fin (n + 1)) :
    remaining extents frameExtents i ≤
      remaining extents frameExtents (maxIdx extents frameExtents) := by
  have found := Math.le_search (remaining extents frameExtents) (List.finRange (n + 1))
    (Fin.last n, 0) (Nat.zero_le _)
  exact found.2 i (List.mem_finRange i)

/-- Doubling a dimension that has a rest. -/
theorem Fits.double {extents frameExtents : Vec ℕ (n + 1)} (fits : Fits extents frameExtents)
    {d : Fin (n + 1)} (room : 1 ≤ remaining extents frameExtents d) :
    Fits extents (Function.update frameExtents d (frameExtents d * 2)) := by
  refine ⟨fun e => ?_, fun e => ?_⟩
  · by_cases same : e = d
    · subst same
      obtain ⟨bits, power⟩ := fits.pow e
      rw [Function.update_self, power]
      exact ⟨bits + 1, rfl⟩
    · rw [Function.update_of_ne same]
      exact fits.pow e
  · by_cases same : e = d
    · subst same
      rw [Function.update_self]
      exact (fits.remaining_pos_iff e).mp room
    · rw [Function.update_of_ne same]
      exact fits.le e

/-- The loop keeps a frame inside of the extents. -/
theorem Fits.distribute {extents : Vec ℕ (n + 1)} (numFrameElements : ℕ)
    {frameExtents : Vec ℕ (n + 1)} (fits : Fits extents frameExtents) :
    Fits extents (FrameSpec.distribute extents numFrameElements frameExtents) := by
  fun_induction FrameSpec.distribute extents numFrameElements frameExtents with
  | case1 numFrameElements frameExtents several widest room ih => exact ih (fits.double room)
  | case2 numFrameElements frameExtents several widest none => exact fits
  | case3 numFrameElements frameExtents single => exact fits

private theorem prod_double (frameExtents : Vec ℕ (n + 1)) (d : Fin (n + 1)) :
    ∏ e, Function.update frameExtents d (frameExtents d * 2) e = (∏ e, frameExtents e) * 2 := by
  rw [Finset.prod_update_of_mem (Finset.mem_univ d),
    Finset.prod_eq_mul_prod_sdiff_singleton_of_mem (Finset.mem_univ d), Nat.mul_right_comm]

/-- The result of the loop. -/
structure Maximal (extents : Vec ℕ (n + 1)) (volume : ℕ) (frameExtents : Vec ℕ (n + 1)) : Prop
    extends Fits extents frameExtents where
  volume_le : ∏ d, frameExtents d ≤ volume
  maximal : ∏ d, frameExtents d = volume ∨ ∀ d, extents d < frameExtents d * 2

/-- **The loop.** -/
theorem distribute_maximal {extents : Vec ℕ (n + 1)} {numFrameElements : ℕ}
    {frameExtents : Vec ℕ (n + 1)} (fits : Fits extents frameExtents) {bits : ℕ}
    (power : numFrameElements = 2 ^ bits) :
    Maximal extents ((∏ d, frameExtents d) * numFrameElements)
      (distribute extents numFrameElements frameExtents) := by
  induction bits generalizing numFrameElements frameExtents with
  | zero =>
      subst power
      unfold distribute
      rw [if_neg (by decide)]
      exact ⟨fits, (Nat.mul_one _).ge, .inl (Nat.mul_one _).symm⟩
  | succ bits ih =>
      have several : 1 < numFrameElements := by
        rw [power]
        exact Nat.one_lt_two_pow (Nat.succ_ne_zero bits)
      have half : numFrameElements = numFrameElements / 2 * 2 := by
        rw [power, Nat.pow_succ, Nat.mul_div_cancel _ Nat.two_pos]
      unfold distribute
      rw [if_pos several]
      dsimp only
      split
      · rename_i room
        have halved : numFrameElements / 2 = 2 ^ bits := by
          rw [power, Nat.pow_succ, Nat.mul_div_cancel _ Nat.two_pos]
        have doubled := ih (fits.double room) halved
        rwa [prod_double, Nat.mul_assoc, Nat.mul_comm 2, ← half] at doubled
      · rename_i none
        refine ⟨fits, Nat.le_mul_of_pos_right _ (Nat.zero_lt_of_lt several), .inr fun d => ?_⟩
        have least := (remaining_le_maxIdx extents frameExtents d).trans_lt (Nat.lt_of_not_le none)
        exact Nat.lt_of_not_le (mt (fits.remaining_pos_iff d).mpr (Nat.not_le_of_lt least))

/-- The frame before the loop has a warp in the fastest dimension. -/
theorem fits_warp {warpSize : ℕ} {extents : Vec ℕ (n + 1)} (warp : 0 < warpSize)
    (positive : ∀ d, 0 < extents d) :
    Fits extents (Vec.rAssign (Vec.fill 1)
      (roundDownToPowerOfTwo (min warpSize extents.back))) := by
  have several : min warpSize extents.back ≠ 0 := (lt_min warp (positive (Fin.last n))).ne'
  unfold Vec.rAssign
  rw [roundDownToPowerOfTwo_eq]
  refine ⟨fun d => ?_, fun d => ?_⟩
  · by_cases fast : d = Fin.last n
    · rw [fast, Function.update_self]
      exact ⟨_, rfl⟩
    · rw [Function.update_of_ne fast]
      exact ⟨0, rfl⟩
  · by_cases fast : d = Fin.last n
    · rw [fast, Function.update_self]
      exact (Nat.log2_self_le several).trans (min_le_right _ _)
    · rw [Function.update_of_ne fast]
      exact positive d

theorem fits_getFrameSpec {warpSize : ℕ} {extents : Vec ℕ (n + 1)} (warp : 0 < warpSize)
    (positive : ∀ d, 0 < extents d) : Fits extents (getFrameSpec warpSize extents).frameExtents :=
  (fits_warp warp positive).distribute _

/-- The frame has 512 elements or cannot be doubled. -/
private theorem maximal_getFrameSpec {warpSize : ℕ} {extents : Vec ℕ (n + 1)}
    (warp : 1 ≤ warpSize) (narrow : warpSize ≤ 512) (positive : ∀ d, 0 < extents d) :
    Maximal extents 512 (getFrameSpec warpSize extents).frameExtents := by
  have fits := fits_warp warp positive
  unfold getFrameSpec
  dsimp only
  rw [roundDownToPowerOfTwo_eq] at fits ⊢
  have warpLe : 2 ^ Nat.log2 (min warpSize extents.back) ≤ 2 ^ 9 := by
    refine (Nat.log2_self_le ?_).trans ((min_le_left _ _).trans narrow)
    exact (lt_min warp (positive (Fin.last n))).ne'
  have few := (Nat.pow_le_pow_iff_right (by decide)).mp warpLe
  generalize Nat.log2 (min warpSize extents.back) = bits at fits few ⊢
  have fast : (Vec.rAssign (Vec.fill 1) (2 ^ bits) : Vec ℕ (n + 1)).back = 2 ^ bits :=
    Function.update_self _ _ _
  have rest : 512 / 2 ^ bits = 2 ^ (9 - bits) := Nat.pow_div few Nat.two_pos
  have volume : ∏ d, (Vec.rAssign (Vec.fill 1) (2 ^ bits) : Vec ℕ (n + 1)) d = 2 ^ bits := by
    unfold Vec.rAssign
    rw [Finset.prod_update_of_mem (Finset.mem_univ _)]
    exact (congrArg _ (Finset.prod_eq_one fun _ _ => rfl)).trans (Nat.mul_one _)
  have whole : 2 ^ bits * 2 ^ (9 - bits) = 512 := by
    rw [← Nat.pow_add, Nat.add_sub_cancel' few]
  have loop := distribute_maximal fits rest
  rw [volume, rest, whole] at loop
  rw [fast, rest]
  exact loop

/-- What makes a frame specification good. -/
structure WellFormed (extents : Vec ℕ (n + 1)) (spec : FrameSpec n) : Prop where
  pow : ∀ d, ∃ bits, spec.frameExtents d = 2 ^ bits
  le : ∀ d, spec.frameExtents d ≤ extents d
  volume_le : ∏ d, spec.frameExtents d ≤ 512
  maximal : ∏ d, spec.frameExtents d = 512 ∨ ∀ d, extents d < spec.frameExtents d * 2
  covers : ∀ d, extents d ≤ spec.numFrames d * spec.frameExtents d
  tight : ∀ d, (spec.numFrames d - 1) * spec.frameExtents d < extents d

/-- **Frame specifications.** -/
theorem getFrameSpec_wellFormed {warpSize : ℕ} {extents : Vec ℕ (n + 1)} (warp : 1 ≤ warpSize)
    (narrow : warpSize ≤ 512) (positive : ∀ d, 0 < extents d) :
    WellFormed extents (getFrameSpec warpSize extents) := by
  have result := maximal_getFrameSpec warp narrow positive
  refine ⟨result.pow, result.le, result.volume_le, result.maximal, fun d => ?_, fun d => ?_⟩
  · exact le_divCeil_mul (result.pos d) (extents d)
  · have last := (Math.lt_ceil_iff (result.pos d) (extents d)
      (divCeil (extents d) ((getFrameSpec warpSize extents).frameExtents d) - 1)).mp ?_
    · exact last
    · have first := (Math.lt_ceil_iff (result.pos d) (extents d) 0).mpr (by
        rw [Nat.zero_mul]
        exact positive d)
      exact Nat.sub_lt first Nat.one_pos

/-- A warp of 32 and a small matrix: doubling stops at the extents. -/
theorem getFrameSpec_wellFormed_small : WellFormed ![3, 4] (getFrameSpec 32 ![3, 4]) :=
  getFrameSpec_wellFormed (by decide) (by decide) (by decide)

end FrameSpec

end Alpaka
