import Mathlib.Algebra.Group.Nat.Defs
import Mathlib.Data.Nat.Log

/-! # SIMD configurations

How many lanes a SIMD pack has and how many packs a functor call gets. The width is
a power of two, and there is at least one pack to a call
(`Alpaka.calcSimdPackConfig_width`, `Alpaka.calcSimdPackConfig_packs`).
-/

namespace Alpaka

/-- The quotient, but at least one. -/
def divExZero (a b : ℕ) : ℕ := max (a / b) 1

/-- The largest power of two that is not above a positive number. -/
def bitFloor (n : ℕ) : ℕ := if n = 0 then 0 else 2 ^ Nat.log 2 n

/-- What an API and a device kind say about SIMD execution of a value type. Vector
registers hold at most 256 bytes, unless vectors are not used at all. -/
structure Arch where
  sizeofValue : ℕ
  simdWidthInByte : ℕ
  numPipelines : ℕ
  cachelineBytes : ℕ
  positive : 0 < sizeofValue
  narrow : simdWidthInByte ≤ 256 ∨ simdWidthInByte = sizeofValue

structure SimdPackConfig where
  simdWidth : ℕ
  numSimdPacksPerFnCall : ℕ
  deriving DecidableEq

def getArchSimdWidth (arch : Arch) : ℕ := divExZero arch.simdWidthInByte arch.sizeofValue

def getNumElemPerThread (arch : Arch) : ℕ := getArchSimdWidth arch * arch.numPipelines

/-- The configuration from the numbers that it depends on. -/
def calcSimdPackConfigOf (sizeofValue maxArchSimdWidth cachelineBytes maxConcurrencyInByte : ℕ) :
    SimdPackConfig :=
  let maxWidthAllowed := maxConcurrencyInByte / sizeofValue
  let clampedWidth := max (min maxArchSimdWidth maxWidthAllowed) 1
  let simdWidth := bitFloor clampedWidth
  let simdWidthInByte := simdWidth * sizeofValue
  let numSimdPacksToUtilizeConcurrency := divExZero maxConcurrencyInByte simdWidthInByte
  let numSimdPacksPerCacheLine := divExZero cachelineBytes simdWidthInByte
  let numSimdPacksPerFnCall :=
    if numSimdPacksToUtilizeConcurrency ≥ numSimdPacksPerCacheLine then
      max (numSimdPacksToUtilizeConcurrency / numSimdPacksPerCacheLine *
        numSimdPacksPerCacheLine) 1
    else numSimdPacksToUtilizeConcurrency
  ⟨simdWidth, numSimdPacksPerFnCall⟩

def calcSimdPackConfig (arch : Arch) (maxConcurrencyInByte : ℕ) : SimdPackConfig :=
  calcSimdPackConfigOf arch.sizeofValue (getArchSimdWidth arch) arch.cachelineBytes
    maxConcurrencyInByte

private theorem calcSimdPackConfig_eq (arch : Arch) (maxConcurrencyInByte : ℕ) :
    calcSimdPackConfig arch maxConcurrencyInByte = calcSimdPackConfigOf arch.sizeofValue
      (getArchSimdWidth arch) arch.cachelineBytes maxConcurrencyInByte := rfl

private theorem bitFloor_pow {n : ℕ} (positive : 0 < n) :
    ∃ bits, bitFloor n = 2 ^ bits ∧ 2 ^ bits ≤ n := by
  refine ⟨Nat.log 2 n, if_neg positive.ne', Nat.pow_log_le_self 2 positive.ne'⟩

theorem divExZero_pos (a b : ℕ) : 0 < divExZero a b := Nat.le_max_right _ 1

/-- A quotient that is not zero is exact. -/
theorem divExZero_eq {a b : ℕ} (positive : 0 < b) (fits : b ≤ a) : divExZero a b = a / b :=
  max_eq_left (Nat.div_pos fits positive)

private theorem divExZero_of_lt {a b : ℕ} (small : a < b) : divExZero a b = 1 := by
  unfold divExZero
  rw [Nat.div_eq_of_lt small]
  rfl

section Budget

variable {sizeofValue maxArchSimdWidth cachelineBytes maxConcurrencyInByte : ℕ}

/-- The width is a power of two within what the architecture and the budget allow. -/
theorem calcSimdPackConfigOf_width
    (sizeofValue maxArchSimdWidth cachelineBytes maxConcurrencyInByte : ℕ) : ∃ bits,
    (calcSimdPackConfigOf sizeofValue maxArchSimdWidth cachelineBytes
      maxConcurrencyInByte).simdWidth = 2 ^ bits ∧
    2 ^ bits ≤ max (min maxArchSimdWidth (maxConcurrencyInByte / sizeofValue)) 1 :=
  bitFloor_pow (Nat.le_max_right _ 1)

private theorem calcSimdPackConfigOf_packs : 0 < (calcSimdPackConfigOf sizeofValue maxArchSimdWidth
    cachelineBytes maxConcurrencyInByte).numSimdPacksPerFnCall := by
  unfold calcSimdPackConfigOf
  dsimp only
  split
  · exact Nat.le_max_right _ 1
  · exact divExZero_pos _ _

/-- The packs of a call are no more than fit the budget. -/
private theorem packs_le :
    (calcSimdPackConfigOf sizeofValue maxArchSimdWidth cachelineBytes
      maxConcurrencyInByte).numSimdPacksPerFnCall ≤
      divExZero maxConcurrencyInByte ((calcSimdPackConfigOf sizeofValue maxArchSimdWidth
        cachelineBytes maxConcurrencyInByte).simdWidth * sizeofValue) := by
  unfold calcSimdPackConfigOf
  dsimp only
  split
  · exact max_le (Nat.div_mul_le_self _ _) (divExZero_pos _ _)
  · exact le_rfl

/-- If an element fits the budget, a pack does. -/
private theorem width_mul_le (element : 0 < sizeofValue)
    (fits : sizeofValue ≤ maxConcurrencyInByte) :
    (calcSimdPackConfigOf sizeofValue maxArchSimdWidth cachelineBytes
      maxConcurrencyInByte).simdWidth * sizeofValue ≤ maxConcurrencyInByte := by
  obtain ⟨bits, width, below⟩ := calcSimdPackConfigOf_width sizeofValue
    maxArchSimdWidth cachelineBytes maxConcurrencyInByte
  have elements : 0 < maxConcurrencyInByte / sizeofValue := Nat.div_pos fits element
  have allowed : 2 ^ bits ≤ maxConcurrencyInByte / sizeofValue :=
    below.trans (max_le (Nat.min_le_right _ _) elements)
  rw [width]
  exact (Nat.mul_le_mul_right _ allowed).trans (Nat.div_mul_le_self _ _)

/-- If an element exceeds the budget, a pack is a single element. -/
private theorem width_of_lt (small : maxConcurrencyInByte < sizeofValue) :
    (calcSimdPackConfigOf sizeofValue maxArchSimdWidth cachelineBytes
      maxConcurrencyInByte).simdWidth = 1 := by
  obtain ⟨bits, width, below⟩ := calcSimdPackConfigOf_width sizeofValue
    maxArchSimdWidth cachelineBytes maxConcurrencyInByte
  rw [Nat.div_eq_of_lt small, Nat.min_zero] at below
  rw [width]
  exact le_antisymm below (Nat.two_pow_pos bits)

/-- The packs of a call fill whole cache lines if the budget has room for one. -/
private theorem dvd_packs :
    let config := calcSimdPackConfigOf sizeofValue maxArchSimdWidth cachelineBytes
      maxConcurrencyInByte
    divExZero cachelineBytes (config.simdWidth * sizeofValue) ≤
        divExZero maxConcurrencyInByte (config.simdWidth * sizeofValue) →
      divExZero cachelineBytes (config.simdWidth * sizeofValue) ∣
        config.numSimdPacksPerFnCall := by
  intro config room
  have lines : 0 < divExZero maxConcurrencyInByte (config.simdWidth * sizeofValue) /
      divExZero cachelineBytes (config.simdWidth * sizeofValue) :=
    Nat.div_pos room (divExZero_pos _ _)
  have packs : config.numSimdPacksPerFnCall =
      divExZero maxConcurrencyInByte (config.simdWidth * sizeofValue) /
        divExZero cachelineBytes (config.simdWidth * sizeofValue) *
          divExZero cachelineBytes (config.simdWidth * sizeofValue) := by
    refine (if_pos room).trans (max_eq_left ?_)
    exact Nat.mul_pos lines (divExZero_pos _ _)
  rw [packs]
  exact Nat.dvd_mul_left _ _

/-- **The budget.** The width is a power of two that the architecture has, the packs of a
call stay within the budget unless a single element does not, and they fill whole cache lines
if the budget has room for one. -/
theorem calcSimdPackConfigOf_budget (maxConcurrencyInByte : ℕ) (element : 1 ≤ sizeofValue)
    (arch : 1 ≤ maxArchSimdWidth) :
    let config := calcSimdPackConfigOf sizeofValue maxArchSimdWidth cachelineBytes
      maxConcurrencyInByte
    let numSimdPacksPerCacheLine := divExZero cachelineBytes (config.simdWidth * sizeofValue)
    (∃ bits, config.simdWidth = 2 ^ bits) ∧ config.simdWidth ≤ maxArchSimdWidth ∧
      1 ≤ config.numSimdPacksPerFnCall ∧
      (sizeofValue ≤ maxConcurrencyInByte →
        config.simdWidth * config.numSimdPacksPerFnCall * sizeofValue ≤ maxConcurrencyInByte) ∧
      (maxConcurrencyInByte < sizeofValue →
        config.simdWidth = 1 ∧ config.numSimdPacksPerFnCall = 1) ∧
      (numSimdPacksPerCacheLine * (config.simdWidth * sizeofValue) ≤ maxConcurrencyInByte →
        numSimdPacksPerCacheLine ∣ config.numSimdPacksPerFnCall) := by
  intro config numSimdPacksPerCacheLine
  obtain ⟨bits, width, below⟩ : ∃ bits, config.simdWidth = 2 ^ bits ∧
      2 ^ bits ≤ max (min maxArchSimdWidth (maxConcurrencyInByte / sizeofValue)) 1 :=
    calcSimdPackConfigOf_width _ _ _ _
  have bytes : 0 < config.simdWidth * sizeofValue := by
    rw [width]
    exact Nat.mul_pos (Nat.two_pow_pos bits) element
  have packs : config.numSimdPacksPerFnCall ≤
      divExZero maxConcurrencyInByte (config.simdWidth * sizeofValue) := packs_le
  refine ⟨⟨bits, width⟩, ?_, calcSimdPackConfigOf_packs, fun fits => ?_, fun small => ?_,
    fun room => dvd_packs ?_⟩
  · rw [width]
    exact below.trans (max_le (Nat.min_le_left _ _) arch)
  · rw [divExZero_eq bytes (width_mul_le element fits)] at packs
    calc config.simdWidth * config.numSimdPacksPerFnCall * sizeofValue
        = config.numSimdPacksPerFnCall * (config.simdWidth * sizeofValue) := by
          rw [Nat.mul_comm config.simdWidth, Nat.mul_assoc]
      _ ≤ maxConcurrencyInByte / (config.simdWidth * sizeofValue) *
          (config.simdWidth * sizeofValue) := Nat.mul_le_mul_right _ packs
      _ ≤ maxConcurrencyInByte := Nat.div_mul_le_self _ _
  · have single : config.simdWidth = 1 := width_of_lt small
    rw [single, Nat.one_mul, divExZero_of_lt small] at packs
    exact ⟨single, le_antisymm packs calcSimdPackConfigOf_packs⟩
  · have fits := (Nat.le_div_iff_mul_le bytes).mpr room
    exact fits.trans (Nat.le_max_left _ _)

/-- Twelve bytes to an element, sixteen lanes and lines of 64 bytes: the budget of 200 bytes
holds two packs of eight. -/
theorem calcSimdPackConfigOf_budget_uneven :
    let config := calcSimdPackConfigOf 12 16 64 200
    let numSimdPacksPerCacheLine := divExZero 64 (config.simdWidth * 12)
    (∃ bits, config.simdWidth = 2 ^ bits) ∧ config.simdWidth ≤ 16 ∧
      1 ≤ config.numSimdPacksPerFnCall ∧
      (12 ≤ 200 → config.simdWidth * config.numSimdPacksPerFnCall * 12 ≤ 200) ∧
      (200 < 12 → config.simdWidth = 1 ∧ config.numSimdPacksPerFnCall = 1) ∧
      (numSimdPacksPerCacheLine * (config.simdWidth * 12) ≤ 200 →
        numSimdPacksPerCacheLine ∣ config.numSimdPacksPerFnCall) :=
  calcSimdPackConfigOf_budget 200 (by decide) (by decide)

end Budget

/-! ## Architectures -/

/-- A vector has at most 256 lanes. -/
theorem getArchSimdWidth_le (arch : Arch) : getArchSimdWidth arch ≤ 256 := by
  unfold getArchSimdWidth divExZero
  apply max_le _ (by decide)
  obtain narrow | scalar := arch.narrow
  · exact (Nat.div_le_self _ _).trans narrow
  · rw [scalar, Nat.div_self arch.positive]
    decide

/-- The width is a power of two and at most 256. -/
theorem calcSimdPackConfig_width (arch : Arch) (maxConcurrencyInByte : ℕ) :
    ∃ bits ≤ 8, (calcSimdPackConfig arch maxConcurrencyInByte).simdWidth = 2 ^ bits := by
  rw [calcSimdPackConfig_eq]
  obtain ⟨bits, width, below⟩ := calcSimdPackConfigOf_width arch.sizeofValue
    (getArchSimdWidth arch) arch.cachelineBytes maxConcurrencyInByte
  refine ⟨bits, ?_, width⟩
  have lanes : 2 ^ bits ≤ 2 ^ 8 :=
    below.trans (max_le ((Nat.min_le_left _ _).trans (getArchSimdWidth_le arch)) (by decide))
  exact (Nat.pow_le_pow_iff_right (by decide)).mp lanes

theorem calcSimdPackConfig_packs (arch : Arch) (maxConcurrencyInByte : ℕ) :
    0 < (calcSimdPackConfig arch maxConcurrencyInByte).numSimdPacksPerFnCall := by
  rw [calcSimdPackConfig_eq]
  exact calcSimdPackConfigOf_packs

end Alpaka
