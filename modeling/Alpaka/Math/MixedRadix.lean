import Mathlib.Algebra.BigOperators.Fin
import Mathlib.Algebra.Order.BigOperators.Ring.Finset
import Mathlib.Order.Interval.Finset.Fin
import Mathlib.Order.PiLex
import Mathlib.Data.Nat.ModEq
import Mathlib.Data.Set.Function
import Mathlib.Tactic.Ring

/-! # Mixed-radix numerals

Digit `0` is the slowest one and is not bounded by its radix, so that a numeral
may run past the last admissible one: this is how iterators signal their end.
The value of the digits and the digits of a value are inverse to each other
(`Math.MixedRadix.place_value`, `Math.MixedRadix.value_place`), and adding one to
a value carries into exactly the digits all of whose faster digits were full
(`Math.MixedRadix.place_succ_of_lt`).
-/

namespace Math.MixedRadix

variable {n : ℕ}

/-- What one unit of a digit is worth: the product of the faster radices. -/
def weight (radix : Fin (n + 1) → ℕ) (i : Fin (n + 1)) : ℕ :=
  ∏ j ∈ Finset.Ioi i, radix j

/-- The value of a numeral. -/
def value (radix digit : Fin (n + 1) → ℕ) : ℕ :=
  ∑ i, digit i * weight radix i

/-- The digits of a number; the slowest digit takes whatever is left. -/
def place (radix : Fin (n + 1) → ℕ) (number : ℕ) (i : Fin (n + 1)) : ℕ :=
  if i = 0 then number / weight radix i else number / weight radix i % radix i

theorem weight_zero (radix : Fin (n + 1) → ℕ) : weight radix 0 = ∏ i : Fin n, radix i.succ := by
  unfold weight
  rw [Fin.Ioi_zero_eq_map, Finset.prod_map]
  rfl

theorem weight_succ (radix : Fin (n + 2) → ℕ) (i : Fin (n + 1)) :
    weight radix i.succ = weight (Fin.tail radix) i := by
  unfold weight
  rw [Fin.Ioi_succ, Finset.prod_map]
  rfl

theorem weight_last (radix : Fin (n + 1) → ℕ) : weight radix (Fin.last n) = 1 := by
  unfold weight
  rw [Finset.Ioi_eq_empty.mpr (show IsMax (Fin.last n) from isMax_top)]
  exact Finset.prod_empty

theorem prod_eq_mul_weight (radix : Fin (n + 1) → ℕ) :
    ∏ i, radix i = radix 0 * weight radix 0 := by
  rw [Fin.prod_univ_succ, weight_zero]

/-- A digit is worth its faster neighbour's radix times what that neighbour is
worth. -/
theorem weight_castSucc (radix : Fin (n + 2) → ℕ) (i : Fin (n + 1)) :
    weight radix i.castSucc = radix i.succ * weight radix i.succ := by
  have split : Finset.Ioi i.castSucc = insert i.succ (Finset.Ioi i.succ) := by
    ext j
    simp only [Finset.mem_Ioi, Finset.mem_insert, Fin.lt_def, Fin.ext_iff, Fin.val_castSucc,
      Fin.val_succ]
    omega
  unfold weight
  rw [split, Finset.prod_insert (by simp)]

theorem weight_positive {radix : Fin (n + 1) → ℕ} (positive : ∀ i, i ≠ 0 → 0 < radix i)
    (i : Fin (n + 1)) : 0 < weight radix i := by
  apply Finset.prod_pos
  intro j faster
  exact positive j (Fin.ne_zero_of_lt (Finset.mem_Ioi.mp faster))

/-- A full turn of a digit divides the worth of every slower digit. -/
theorem turn_dvd_weight (radix : Fin (n + 1) → ℕ) {i j : Fin (n + 1)} (slower : i < j) :
    radix j * weight radix j ∣ weight radix i := by
  unfold weight
  rw [← Finset.prod_insert (show j ∉ Finset.Ioi j by simp)]
  apply Finset.prod_dvd_prod_of_subset
  intro k member
  rcases Finset.mem_insert.mp member with same | faster
  · exact Finset.mem_Ioi.mpr (same ▸ slower)
  · exact Finset.mem_Ioi.mpr (slower.trans (Finset.mem_Ioi.mp faster))

/-- When all slower radices are one, a full turn of a digit is a turn of the numeral. -/
theorem turn_eq_prod {radix : Fin (n + 1) → ℕ} {i : Fin (n + 1)}
    (slower : ∀ j < i, radix j = 1) : radix i * weight radix i = ∏ j, radix j := by
  unfold weight
  rw [← Finset.prod_insert (show i ∉ Finset.Ioi i by simp)]
  apply Finset.prod_subset (Finset.subset_univ _)
  intro j _ notFaster
  apply slower
  by_contra notSlower
  apply notFaster
  rcases Nat.eq_or_lt_of_le (not_lt.mp notSlower) with same | faster
  · exact Finset.mem_insert.mpr (.inl (Fin.ext same.symm))
  · exact Finset.mem_insert_of_mem (Finset.mem_Ioi.mpr faster)

/-- The value of a numeral with one digit. -/
theorem value_single_digit (radix : Fin (n + 1) → ℕ) (i : Fin (n + 1)) (digit : ℕ) :
    value radix (Pi.single i digit) = digit * weight radix i := by
  unfold value
  rw [Finset.sum_eq_single i]
  · rw [Pi.single_eq_same]
  · intro j _ other
    rw [Pi.single_eq_of_ne other, Nat.zero_mul]
  · intro outside
    exact absurd (Finset.mem_univ i) outside

theorem value_eq_head (radix digit : Fin (n + 2) → ℕ) :
    value radix digit =
      digit 0 * weight radix 0 + value (Fin.tail radix) (Fin.tail digit) := by
  unfold value
  rw [Fin.sum_univ_succ]
  refine congrArg _ (Finset.sum_congr rfl fun i _ => ?_)
  rw [weight_succ]
  rfl

theorem value_single (radix digit : Fin 1 → ℕ) : value radix digit = digit 0 := by
  have unit : weight radix 0 = 1 := weight_last radix
  unfold value
  rw [Fin.sum_univ_succ, unit]
  simp

theorem place_zero (radix : Fin (n + 1) → ℕ) (number : ℕ) :
    place radix number 0 = number / weight radix 0 := by
  simp only [place, ↓reduceIte]

theorem place_number_zero (radix : Fin (n + 1) → ℕ) : place radix 0 = fun _ => 0 := by
  funext i
  unfold place
  rw [Nat.zero_div, Nat.zero_mod, ite_self]

theorem place_of_ne (radix : Fin (n + 1) → ℕ) (number : ℕ) {i : Fin (n + 1)} (faster : i ≠ 0) :
    place radix number i = number / weight radix i % radix i := by
  simp only [place, faster, ↓reduceIte]

/-- The faster digits are those of the remainder. -/
theorem place_succ (radix : Fin (n + 2) → ℕ) (number : ℕ) (i : Fin (n + 1)) :
    place radix number i.succ = place (Fin.tail radix) (number % weight radix 0) i := by
  rw [place_of_ne radix number (Fin.succ_ne_zero i), weight_succ]
  by_cases slow : i = 0
  · subst slow
    have outer : weight radix 0 = radix 1 * weight (Fin.tail radix) 0 := by
      rw [weight_zero, ← Fin.tail_def, prod_eq_mul_weight]
      rfl
    rw [place_zero, outer, Nat.mul_comm, Nat.mod_mul_right_div_self]
    rfl
  · rw [place_of_ne _ _ slow]
    have divides := turn_dvd_weight radix (Fin.succ_pos i)
    rw [weight_succ] at divides
    obtain ⟨turns, worth⟩ := divides
    rw [worth, show radix i.succ * weight (Fin.tail radix) i * turns =
      weight (Fin.tail radix) i * (radix i.succ * turns) by ring, Nat.mod_mul_right_div_self]
    exact (Nat.mod_mul_right_mod _ _ _).symm

/-- The fast digits of a value are below their radices. -/
theorem place_lt {radix : Fin (n + 1) → ℕ} {i : Fin (n + 1)} (faster : i ≠ 0)
    (positive : 0 < radix i) (number : ℕ) : place radix number i < radix i := by
  rw [place_of_ne radix number faster]
  exact Nat.mod_lt _ positive

/-- Below the product of all radices the slowest digit is bounded as well. -/
theorem place_lt_of_lt {radix : Fin (n + 1) → ℕ} {number : ℕ} (below : number < ∏ i, radix i)
    (i : Fin (n + 1)) : place radix number i < radix i := by
  have nonzero : ∏ i, radix i ≠ 0 := by omega
  by_cases slow : i = 0
  · subst slow
    rw [place_zero]
    apply Nat.div_lt_of_lt_mul
    rwa [Nat.mul_comm, ← prod_eq_mul_weight]
  · exact place_lt slow (Nat.pos_of_ne_zero (Finset.prod_ne_zero_iff.mp nonzero i
      (Finset.mem_univ i))) number

/-- Admissible digits are worth less than the product of the radices. -/
theorem value_lt {radix digit : Fin (n + 1) → ℕ} (bounded : ∀ i, digit i < radix i) :
    value radix digit < ∏ i, radix i := by
  induction n with
  | zero =>
      rw [value_single, prod_eq_mul_weight, show weight radix 0 = 1 from weight_last radix,
        Nat.mul_one]
      exact bounded 0
  | succ n ih =>
      have tail : value (Fin.tail radix) (Fin.tail digit) < weight radix 0 := by
        rw [weight_zero]
        exact ih fun i => bounded i.succ
      rw [value_eq_head, prod_eq_mul_weight]
      calc digit 0 * weight radix 0 + value (Fin.tail radix) (Fin.tail digit)
          < digit 0 * weight radix 0 + weight radix 0 := Nat.add_lt_add_left tail _
        _ = (digit 0 + 1) * weight radix 0 := (Nat.succ_mul _ _).symm
        _ ≤ radix 0 * weight radix 0 := Nat.mul_le_mul_right _ (bounded 0)

private theorem value_tail_lt {radix digit : Fin (n + 2) → ℕ}
    (bounded : ∀ i, i ≠ 0 → digit i < radix i) :
    value (Fin.tail radix) (Fin.tail digit) < weight radix 0 := by
  rw [weight_zero]
  exact value_lt fun i => bounded i.succ (Fin.succ_ne_zero i)

/-- Reading back the digits of a numeral whose fast digits are admissible. -/
theorem place_value {radix digit : Fin (n + 1) → ℕ} (bounded : ∀ i, i ≠ 0 → digit i < radix i) :
    place radix (value radix digit) = digit := by
  induction n with
  | zero =>
      funext i
      rw [Fin.fin_one_eq_zero i, value_single, place_zero,
        show weight radix 0 = 1 from weight_last radix, Nat.div_one]
  | succ n ih =>
      have tail := value_tail_lt bounded
      have positive : 0 < weight radix 0 := by omega
      funext i
      cases i using Fin.cases with
      | zero =>
          rw [place_zero, value_eq_head, Nat.mul_comm, Nat.mul_add_div positive,
            Nat.div_eq_of_lt tail, Nat.add_zero]
      | succ i =>
          have inner : place (Fin.tail radix) (value (Fin.tail radix) (Fin.tail digit)) =
              Fin.tail digit := ih fun j _ => bounded j.succ (Fin.succ_ne_zero j)
          rw [place_succ, value_eq_head, Nat.mul_comm, Nat.mul_add_mod, Nat.mod_eq_of_lt tail,
            inner]
          rfl

/-- The digits of a number are worth that number. -/
theorem value_place {radix : Fin (n + 1) → ℕ} (positive : ∀ i, i ≠ 0 → 0 < radix i)
    (number : ℕ) : value radix (place radix number) = number := by
  induction n generalizing number with
  | zero =>
      rw [value_single, place_zero, show weight radix 0 = 1 from weight_last radix, Nat.div_one]
  | succ n ih =>
      have tail : Fin.tail (place radix number) =
          place (Fin.tail radix) (number % weight radix 0) :=
        funext fun i => place_succ radix number i
      have inner : value (Fin.tail radix) (place (Fin.tail radix) (number % weight radix 0)) =
          number % weight radix 0 := ih (fun i _ => positive i.succ (Fin.succ_ne_zero i)) _
      rw [value_eq_head, place_zero, tail, inner, Nat.div_add_mod']

/-- Numerals are ordered lexicographically. -/
theorem value_lt_of_lex {radix first second : Fin (n + 1) → ℕ}
    (bounded : ∀ i, i ≠ 0 → first i < radix i) (before : toLex first < toLex second) :
    value radix first < value radix second := by
  induction n with
  | zero =>
      obtain ⟨i, _, smaller⟩ := before
      rw [Fin.fin_one_eq_zero i] at smaller
      rw [value_single, value_single]
      exact smaller
  | succ n ih =>
      obtain ⟨i, agree, smaller⟩ := before
      rw [value_eq_head, value_eq_head]
      cases i using Fin.cases with
      | zero =>
          have tail := value_tail_lt bounded
          have head : first 0 + 1 ≤ second 0 := smaller
          calc first 0 * weight radix 0 + value (Fin.tail radix) (Fin.tail first)
              < first 0 * weight radix 0 + weight radix 0 := Nat.add_lt_add_left tail _
            _ = (first 0 + 1) * weight radix 0 := (Nat.succ_mul _ _).symm
            _ ≤ second 0 * weight radix 0 := Nat.mul_le_mul_right _ head
            _ ≤ _ := Nat.le_add_right _ _
      | succ i =>
          have head : first 0 = second 0 := agree 0 (Fin.succ_pos i)
          have later : toLex (Fin.tail first) < toLex (Fin.tail second) :=
            ⟨i, fun j earlier => agree j.succ (Fin.succ_lt_succ_iff.mpr earlier), smaller⟩
          have tail : value (Fin.tail radix) (Fin.tail first) <
              value (Fin.tail radix) (Fin.tail second) :=
            ih (fun j _ => bounded j.succ (Fin.succ_ne_zero j)) later
          rw [head]
          omega

/-- Reading digits is a bijection between the numbers below the product of the
radices and the admissible digits. -/
theorem place_bijOn (radix : Fin (n + 1) → ℕ) :
    Set.BijOn (place radix) {number | number < ∏ i, radix i} {digit | ∀ i, digit i < radix i} := by
  have positive {number : ℕ} (below : number < ∏ i, radix i) (i : Fin (n + 1)) : 0 < radix i :=
    Nat.zero_lt_of_lt (place_lt_of_lt below i)
  refine ⟨fun number below => place_lt_of_lt below, ?_, ?_⟩
  · intro first firstIn second secondIn same
    rw [← value_place (fun i _ => positive firstIn i) first, same,
      value_place (fun i _ => positive firstIn i) second]
  · intro digit bounded
    exact ⟨value radix digit, value_lt bounded, place_value fun i _ => bounded i⟩

theorem value_bijOn (radix : Fin (n + 1) → ℕ) :
    Set.BijOn (value radix) {digit | ∀ i, digit i < radix i} {number | number < ∏ i, radix i} := by
  refine ⟨fun digit bounded => value_lt bounded, ?_, ?_⟩
  · intro first firstIn second secondIn same
    rw [← place_value fun i _ => firstIn i, same, place_value fun i _ => secondIn i]
  · intro number below
    refine ⟨place radix number, place_lt_of_lt below, value_place (fun i _ => ?_) number⟩
    exact Nat.zero_lt_of_lt (place_lt_of_lt below i)

/-- The digits of larger numbers come later in the lexicographic order. -/
theorem place_lt_place_iff {radix : Fin (n + 1) → ℕ} {first second : ℕ}
    (firstBelow : first < ∏ i, radix i) (secondBelow : second < ∏ i, radix i) :
    toLex (place radix first) < toLex (place radix second) ↔ first < second := by
  have positive (i : Fin (n + 1)) (_ : i ≠ 0) : 0 < radix i :=
    Nat.zero_lt_of_lt (place_lt_of_lt firstBelow i)
  have bounded {number : ℕ} (below : number < ∏ i, radix i) (i : Fin (n + 1)) (_ : i ≠ 0) :
      place radix number i < radix i := place_lt_of_lt below i
  have forward {a b : ℕ} (below : a < ∏ i, radix i)
      (before : toLex (place radix a) < toLex (place radix b)) : a < b := by
    have worth := value_lt_of_lex (bounded below) before
    rwa [value_place positive, value_place positive] at worth
  refine ⟨forward firstBelow, fun before => ?_⟩
  rcases lt_trichotomy (toLex (place radix first)) (toLex (place radix second)) with
    smaller | same | larger
  · exact smaller
  · have equal := (place_bijOn radix).injOn firstBelow secondBelow (toLex.injective same)
    omega
  · have backward := forward secondBelow larger
    omega

/-- What changing one digit does to the value. -/
theorem value_update (radix digit : Fin (n + 1) → ℕ) (i : Fin (n + 1)) (replaced : ℕ) :
    value radix (Function.update digit i replaced) + digit i * weight radix i =
      value radix digit + replaced * weight radix i := by
  have terms : (fun j => Function.update digit i replaced j * weight radix j) =
      Function.update (fun j => digit j * weight radix j) i (replaced * weight radix i) :=
    funext fun j => Function.apply_update (fun j x => x * weight radix j) digit i replaced j
  have member := Finset.mem_univ i
  unfold value
  rw [terms, Finset.sum_update_of_mem member,
    Finset.sum_eq_add_sum_sdiff_singleton_of_mem member fun j => digit j * weight radix j]
  omega

/-! ## Adding one

An odometer works from the fastest digit towards the slowest. It has reached a
digit when all faster digits were full, that is when the digit's worth divides
the next number. -/

/-- The digits that have been reset are those of the next number. -/
theorem place_eq_zero_of_dvd {radix : Fin (n + 1) → ℕ} {i j : Fin (n + 1)} {number : ℕ}
    (carried : weight radix i ∣ number) (faster : i < j) (positive : 0 < weight radix j) :
    place radix number j = 0 := by
  obtain ⟨turns, rfl⟩ := (turn_dvd_weight radix faster).trans carried
  rw [place_of_ne _ _ (Fin.ne_zero_of_lt faster),
    show radix j * weight radix j * turns = weight radix j * (radix j * turns) by ring,
    Nat.mul_div_cancel_left _ positive, Nat.mul_mod_right]

/-- The slowest digit is advanced whatever its radix. -/
theorem place_zero_succ {radix : Fin (n + 1) → ℕ} {number : ℕ}
    (carried : weight radix 0 ∣ number + 1) :
    place radix (number + 1) 0 = place radix number 0 + 1 := by
  rw [place_zero, place_zero, Nat.succ_div_of_dvd carried]

private theorem div_weight_succ {radix : Fin (n + 1) → ℕ} {i : Fin (n + 1)} {number : ℕ}
    (faster : i ≠ 0) (carried : weight radix i ∣ number + 1) :
    place radix (number + 1) i = (number / weight radix i + 1) % radix i := by
  rw [place_of_ne _ _ faster, Nat.succ_div_of_dvd carried]

/-- A digit with room left is advanced by one. -/
theorem place_succ_of_lt {radix : Fin (n + 1) → ℕ} {i : Fin (n + 1)} {number : ℕ}
    (faster : i ≠ 0) (carried : weight radix i ∣ number + 1)
    (room : place radix number i + 1 < radix i) :
    place radix (number + 1) i = place radix number i + 1 := by
  rw [div_weight_succ faster carried, Nat.add_mod, Nat.mod_eq_of_lt (show 1 < radix i by omega)]
  rw [place_of_ne _ _ faster] at room ⊢
  exact Nat.mod_eq_of_lt room

/-- The digits slower than a digit with room left stay. -/
theorem place_slower {radix : Fin (n + 1) → ℕ} {i j : Fin (n + 1)} {number : ℕ}
    (slower : j < i) (carried : weight radix i ∣ number + 1)
    (room : place radix number i + 1 < radix i) :
    place radix (number + 1) j = place radix number j := by
  have faster : i ≠ 0 := Fin.ne_zero_of_lt slower
  have advanced := place_succ_of_lt faster carried room
  have positive : 0 < weight radix i := Nat.pos_of_dvd_of_pos carried (Nat.succ_pos number)
  have notCarried : ¬ weight radix j ∣ number + 1 := by
    intro divides
    obtain ⟨turns, worth⟩ := (turn_dvd_weight radix slower).trans divides
    rw [place_of_ne _ _ faster, worth,
      show radix i * weight radix i * turns = weight radix i * (radix i * turns) by ring,
      Nat.mul_div_cancel_left _ positive, Nat.mul_mod_right] at advanced
    omega
  unfold place
  rw [Nat.succ_div_of_not_dvd notCarried]

/-- A full digit is reset and the carry moves on to its slower neighbour. -/
theorem weight_dvd_of_full {radix : Fin (n + 2) → ℕ} {i : Fin (n + 1)} {number : ℕ}
    (nonzero : 0 < radix i.succ) (carried : weight radix i.succ ∣ number + 1)
    (full : radix i.succ ≤ place radix number i.succ + 1) :
    weight radix i.castSucc ∣ number + 1 := by
  obtain ⟨turns, worth⟩ := carried
  have positive : 0 < weight radix i.succ :=
    Nat.pos_of_dvd_of_pos ⟨turns, worth⟩ (Nat.succ_pos number)
  have quotient : number / weight radix i.succ + 1 = turns := by
    rw [← Nat.succ_div_of_dvd ⟨turns, worth⟩, worth, Nat.mul_div_cancel_left _ positive]
  have digit : number / weight radix i.succ % radix i.succ + 1 = radix i.succ := by
    rw [place_of_ne _ _ (Fin.succ_ne_zero i)] at full
    have below := Nat.mod_lt (number / weight radix i.succ) nonzero
    omega
  have split := Nat.div_add_mod (number / weight radix i.succ) (radix i.succ)
  rw [weight_castSucc, worth, Nat.mul_comm]
  refine Nat.mul_dvd_mul_left _ ⟨number / weight radix i.succ / radix i.succ + 1, ?_⟩
  rw [← quotient, Nat.mul_succ]
  omega

/-- A full digit has made a turn when the next number carries out of it. -/
theorem turn_dvd_of_full {radix : Fin (n + 1) → ℕ} {i : Fin (n + 1)} {number : ℕ}
    (faster : i ≠ 0) (nonzero : 0 < radix i) (carried : weight radix i ∣ number + 1)
    (full : radix i ≤ place radix number i + 1) :
    radix i * weight radix i ∣ number + 1 := by
  obtain ⟨j, rfl⟩ := Fin.exists_succ_eq.mpr faster
  cases n with
  | zero => exact j.elim0
  | succ n =>
      rw [← weight_castSucc]
      exact weight_dvd_of_full nonzero carried full

end Math.MixedRadix
