import Mathlib.Logic.Function.Iterate
import Alpaka.Math.MixedRadix

/-! # Odometers

An odometer advances its fastest digit. A digit that is full then goes back to its first
value, and its slower neighbour is advanced; the slowest digit is never reset. If every
digit is full after as many steps as its radix says, the odometer counts in mixed-radix
numerals (`Math.Odometer.turn_digits`). A digit that is not full in time matters only for
the numbers that would carry out of it.
-/

namespace Math

/-- How every digit is advanced, when it is full and what its first value is. -/
structure Odometer (T : Type*) (k : ℕ) where
  advance : Fin (k + 1) → T → T
  full : Fin (k + 1) → T → Bool
  first : Fin (k + 1) → T

namespace Odometer

open MixedRadix

variable {T : Type*} {k : ℕ} (odometer : Odometer T k)

/-- From a digit on, towards the slower ones. -/
def turnFrom : (idx : ℕ) → idx < k + 1 → (Fin (k + 1) → T) → Fin (k + 1) → T
  | 0, _, digits => Function.update digits 0 (odometer.advance 0 (digits 0))
  | idx + 1, inside, digits =>
      let i : Fin (k + 1) := ⟨idx + 1, inside⟩
      let next := odometer.advance i (digits i)
      if odometer.full i next then
        turnFrom idx (Nat.lt_of_succ_lt inside) (Function.update digits i (odometer.first i))
      else Function.update digits i next

def turn (digits : Fin (k + 1) → T) : Fin (k + 1) → T :=
  odometer.turnFrom k (Nat.lt_succ_self k) digits

theorem turnFrom_succ (i : Fin k) (digits : Fin (k + 1) → T) :
    odometer.turnFrom i.succ i.succ.isLt digits =
      if odometer.full i.succ (odometer.advance i.succ (digits i.succ)) then
        odometer.turnFrom i.castSucc i.castSucc.isLt
          (Function.update digits i.succ (odometer.first i.succ))
      else Function.update digits i.succ (odometer.advance i.succ (digits i.succ)) := rfl

/-- A digit after so many steps. -/
def value (i : Fin (k + 1)) (count : ℕ) : T := (odometer.advance i)^[count] (odometer.first i)

/-- All digits after so many steps of each. -/
def digits (numeral : Fin (k + 1) → ℕ) : Fin (k + 1) → T :=
  fun i => odometer.value i (numeral i)

theorem value_succ (i : Fin (k + 1)) (count : ℕ) :
    odometer.value i (count + 1) = odometer.advance i (odometer.value i count) :=
  Function.iterate_succ_apply' ..

theorem update_digits (numeral : Fin (k + 1) → ℕ) (i : Fin (k + 1)) (count : ℕ) :
    Function.update (odometer.digits numeral) i (odometer.value i count) =
      odometer.digits (Function.update numeral i count) := by
  funext j
  by_cases same : j = i
  · subst same
    rw [Function.update_self, digits, Function.update_self]
  · rw [Function.update_of_ne same, digits, digits, Function.update_of_ne same]

/-! ## One turn -/

section Turn

variable {odometer} {radix : Fin (k + 1) → ℕ} {number : ℕ}

/-- The numeral when the turn has come down to a digit: the faster ones have been reset,
the others are still those of the old number. -/
private def carrying (radix : Fin (k + 1) → ℕ) (number : ℕ) (idx : Fin (k + 1)) :
    Fin (k + 1) → ℕ :=
  fun i => if i ≤ idx then place radix number i else place radix (number + 1) i

private theorem carrying_self (radix : Fin (k + 1) → ℕ) (number : ℕ) (idx : Fin (k + 1)) :
    carrying radix number idx idx = place radix number idx :=
  if_pos le_rfl

/-- Advancing the slowest digit completes the turn. -/
private theorem carrying_zero (carried : weight radix 0 ∣ number + 1) :
    Function.update (carrying radix number 0) 0 (place radix number 0 + 1) =
      place radix (number + 1) := by
  funext i
  by_cases slow : i = 0
  · subst slow
    rw [Function.update_self, place_zero_succ carried]
  · rw [Function.update_of_ne slow, carrying, if_neg (mt Fin.le_zero_iff.mp slow)]

/-- Advancing a faster digit with room left completes the turn. -/
private theorem carrying_room {i : Fin (k + 1)} (faster : i ≠ 0)
    (carried : weight radix i ∣ number + 1) (room : place radix number i + 1 < radix i) :
    Function.update (carrying radix number i) i (place radix number i + 1) =
      place radix (number + 1) := by
  funext j
  by_cases same : j = i
  · subst same
    rw [Function.update_self, place_succ_of_lt faster carried room]
  · rw [Function.update_of_ne same]
    unfold carrying
    split
    · next slower => exact (place_slower (lt_of_le_of_ne slower same) carried room).symm
    · rfl

/-- Resetting a full digit hands the carry to its slower neighbour. -/
private theorem carrying_full {radix : Fin (k + 2) → ℕ} (positive : ∀ i, i ≠ 0 → 0 < radix i)
    (i : Fin (k + 1)) (carried : weight radix i.castSucc ∣ number + 1) :
    Function.update (carrying radix number i.succ) i.succ 0 =
      carrying radix number i.castSucc := by
  funext j
  by_cases same : j = i.succ
  · subst same
    rw [Function.update_self]
    unfold carrying
    rw [if_neg (Fin.castSucc_lt_succ).not_ge]
    exact (place_eq_zero_of_dvd carried Fin.castSucc_lt_succ (weight_positive positive _)).symm
  · rw [Function.update_of_ne same]
    have before : j ≤ i.succ ↔ j ≤ i.castSucc := by
      rw [Fin.ext_iff] at same
      rw [Fin.le_def, Fin.le_def]
      simp only [Fin.val_succ, Fin.val_castSucc] at same ⊢
      omega
    simp only [carrying, before]

/-- **One turn.** When all faster digits were full, the turn from a digit on leads to the
digits of the next number, provided that the digits it carries out of are full. -/
private theorem turnFrom_carrying (positive : ∀ i, i ≠ 0 → 0 < radix i)
    (room : ∀ i, i ≠ 0 → ∀ count, count + 1 < radix i →
      odometer.full i (odometer.value i (count + 1)) = false)
    (carries : ∀ i, i ≠ 0 → weight radix i ∣ number + 1 → place radix number i + 1 = radix i →
      odometer.full i (odometer.value i (radix i)) = true)
    (idx : Fin (k + 1)) (carried : weight radix idx ∣ number + 1) :
    odometer.turnFrom idx idx.isLt (odometer.digits (carrying radix number idx)) =
      odometer.digits (place radix (number + 1)) := by
  induction idx using Fin.induction with
  | zero =>
      have moved := odometer.update_digits (carrying radix number 0) 0 (place radix number 0 + 1)
      rw [carrying_zero carried, value_succ, ← carrying_self] at moved
      exact moved
  | succ i ih =>
      have faster : i.succ ≠ 0 := Fin.succ_ne_zero i
      have below := place_lt faster (positive _ faster) number
      have next : odometer.advance i.succ (odometer.digits (carrying radix number i.succ) i.succ) =
          odometer.value i.succ (place radix number i.succ + 1) := by
        rw [value_succ, digits, carrying_self]
      rw [turnFrom_succ, next]
      obtain last | inside : place radix number i.succ + 1 = radix i.succ ∨
          place radix number i.succ + 1 < radix i.succ := Nat.eq_or_lt_of_le below
      · cases k with
        | zero => exact i.elim0
        | succ k =>
            have carriedOn := weight_dvd_of_full (positive _ faster) carried last.ge
            have reset := odometer.update_digits (carrying radix number i.succ) i.succ 0
            rw [carrying_full positive i carriedOn] at reset
            rw [last, if_pos (carries _ faster carried last)]
            exact (congrArg (odometer.turnFrom _ _) reset).trans (ih carriedOn)
      · rw [room _ faster _ inside, update_digits, carrying_room faster carried inside]
        rfl

/-- **Counting.** A turn leads from the digits of a number to those of the next one. -/
theorem turn_digits (number : ℕ) (positive : ∀ i, i ≠ 0 → 0 < radix i)
    (room : ∀ i, i ≠ 0 → ∀ count, count + 1 < radix i →
      odometer.full i (odometer.value i (count + 1)) = false)
    (carries : ∀ i, i ≠ 0 → weight radix i ∣ number + 1 → place radix number i + 1 = radix i →
      odometer.full i (odometer.value i (radix i)) = true) :
    odometer.turn (odometer.digits (place radix number)) =
      odometer.digits (place radix (number + 1)) := by
  have carried : weight radix (Fin.last k) ∣ number + 1 := by
    rw [weight_last]
    exact Nat.one_dvd _
  have untouched : carrying radix number (Fin.last k) = place radix number :=
    funext fun i => if_pos (Fin.le_last i)
  have stepped := turnFrom_carrying positive room carries (Fin.last k) carried
  rwa [untouched] at stepped

end Turn

end Odometer

end Math
