import Alpaka.Math.Search
import Alpaka.Math.While
import Alpaka.OnAcc.SimdConfig
import Alpaka.Vec

/-! # Shrinking an index vector

The largest component of a vector is halved until the product of all components is within a
limit. The loop ends, since there is a component above one as long as the product exceeds the
limit, and the last halving does not lose more than two thirds
(`Alpaka.adjustToLimit_shrinks`).
-/

namespace Alpaka

open Math (Settles)
open Math.Loop (Fault)

variable {n : ℕ}

attribute [local instance (2000)] neZero_add_one

/-- The first dimension with the largest component. -/
def largestIdx (input : Vec ℕ (n + 1)) : Fin (n + 1) :=
  ((List.finRange (n + 1)).foldl (fun (best : Fin (n + 1) × ℕ) i =>
    if best.2 < input i then (i, input i) else best) (0, input 0)).1

/-- The body of the loop. -/
def halveLargest (limitValue : ℕ) (input : Vec ℕ (n + 1)) : Vec ℕ (n + 1) :=
  let maxIdx := largestIdx input
  if Vec.product input > limitValue then
    Function.update input maxIdx (divExZero (input maxIdx) 2)
  else input

def adjustToLimit (limit : ℕ) (fuel : ℕ) (input : Vec ℕ (n + 1)) : Except Fault (Vec ℕ (n + 1)) :=
  Math.While.run (fun input => Vec.product input > limit) (halveLargest limit) fuel input

private theorem le_largestIdx (input : Vec ℕ (n + 1)) (d : Fin (n + 1)) :
    input d ≤ input (largestIdx input) :=
  (Math.le_search input (List.finRange (n + 1)) (0, input 0) le_rfl).2 d (List.mem_finRange d)

/-- What the loop keeps. -/
structure Shrunk (limit : ℕ) (input result : Vec ℕ (n + 1)) : Prop where
  one_le : ∀ d, 1 ≤ result d
  le : ∀ d, result d ≤ input d
  pow : ∀ d, (∃ bits, input d = 2 ^ bits) → ∃ bits, result d = 2 ^ bits
  unchanged : ∏ d, input d ≤ limit → result = input
  third : limit < ∏ d, input d → limit < 3 * ∏ d, result d

/-- A product above one has a factor above one. -/
private theorem two_le_largest {input : Vec ℕ (n + 1)} (one_le : ∀ d, 1 ≤ input d)
    (above : 1 < ∏ d, input d) : 2 ≤ input (largestIdx input) := by
  by_contra small
  have single (d : Fin (n + 1)) : input d = 1 := by
    have := le_largestIdx input d
    have := one_le d
    omega
  rw [Finset.prod_congr rfl fun d _ => single d, Finset.prod_const_one] at above
  exact lt_irrefl 1 above

/-- Replacing a component by at least a third of it keeps a third of the product. -/
private theorem prod_le_update (input : Vec ℕ (n + 1)) {d : Fin (n + 1)} {component : ℕ}
    (kept : input d ≤ 3 * component) :
    ∏ e, input e ≤ 3 * ∏ e, Function.update input d component e := by
  rw [Finset.prod_update_of_mem (Finset.mem_univ d),
    Finset.prod_eq_mul_prod_sdiff_singleton_of_mem (Finset.mem_univ d), ← Nat.mul_assoc]
  exact Nat.mul_le_mul_right _ kept

private theorem prod_update_lt {input : Vec ℕ (n + 1)} (one_le : ∀ e, 1 ≤ input e)
    {d : Fin (n + 1)} {component : ℕ} (smaller : component < input d) :
    ∏ e, Function.update input d component e < ∏ e, input e := by
  rw [Finset.prod_update_of_mem (Finset.mem_univ d),
    Finset.prod_eq_mul_prod_sdiff_singleton_of_mem (Finset.mem_univ d)]
  exact Nat.mul_lt_mul_of_pos_right smaller (Finset.prod_pos fun e _ => one_le e)

/-- A step of the loop. -/
private theorem Shrunk.halve {limit : ℕ} {input current : Vec ℕ (n + 1)} (limited : 1 ≤ limit)
    (shrunk : Shrunk limit input current) (above : limit < ∏ d, current d) :
    Shrunk limit input (halveLargest limit current) ∧
      ∏ d, halveLargest limit current d < ∏ d, current d := by
  have large := two_le_largest shrunk.one_le (limited.trans_lt above)
  have body : halveLargest limit current = Function.update current (largestIdx current)
      (current (largestIdx current) / 2) := by
    unfold halveLargest
    dsimp only
    rw [if_pos (by rwa [Vec.product_eq_prod]), divExZero_eq Nat.two_pos large]
  have halved {d : Fin (n + 1)} (same : d = largestIdx current) :
      halveLargest limit current d = current d / 2 := by
    subst same
    rw [body, Function.update_self]
  have kept {d : Fin (n + 1)} (other : d ≠ largestIdx current) :
      halveLargest limit current d = current d := by
    rw [body, Function.update_of_ne other]
  refine ⟨⟨fun d => ?_, fun d => ?_, fun d power => ?_, fun within => ?_, fun _ => ?_⟩, ?_⟩
  · by_cases same : d = largestIdx current
    · rw [halved same, same]
      omega
    · rw [kept same]
      exact shrunk.one_le d
  · by_cases same : d = largestIdx current
    · rw [halved same]
      exact (Nat.div_le_self _ _).trans (shrunk.le d)
    · rw [kept same]
      exact shrunk.le d
  · obtain ⟨bits, component⟩ := shrunk.pow d power
    by_cases same : d = largestIdx current
    · rw [← same, component] at large
      obtain ⟨fewer, rfl⟩ : ∃ fewer, bits = fewer + 1 := by
        cases bits with
        | zero => omega
        | succ fewer => exact ⟨fewer, rfl⟩
      refine ⟨fewer, ?_⟩
      rw [halved same, component, Nat.pow_succ, Nat.mul_div_cancel _ Nat.two_pos]
    · rw [kept same]
      exact ⟨bits, component⟩
  · rw [shrunk.unchanged within] at above
    exact absurd within (not_le_of_gt above)
  · rw [body]
    exact above.trans_le (prod_le_update current (by omega))
  · rw [body]
    exact prod_update_lt shrunk.one_le (by omega)

/-- The loop ends within the limit. -/
theorem adjustToLimit_settles (input : Vec ℕ (n + 1)) (limit : ℕ) (positive : ∀ d, 1 ≤ input d)
    (limited : 1 ≤ limit) :
    ∃ result, Settles (fun fuel => adjustToLimit limit fuel input) result ∧
      Shrunk limit input result ∧ Vec.product result ≤ limit := by
  have start : Shrunk limit input input :=
    ⟨positive, fun _ => le_rfl, fun _ power => power, fun _ => rfl,
      fun above => above.trans_le (Nat.le_mul_of_pos_left _ (by decide))⟩
  obtain ⟨result, settles, shrunk, done⟩ :=
    Math.While.exists_settles (Shrunk limit input) (fun current => ∏ d, current d)
      (fun current shrunk going => shrunk.halve limited (by
        rw [← Vec.product_eq_prod]
        exact of_decide_eq_true going)) start
  exact ⟨result, settles, shrunk, Nat.le_of_not_lt (of_decide_eq_false done)⟩

/-- **Shrinking.** The loop ends with components from one up to those of the input, whose
product is within the limit, but above a third of it if the product of the input is not
within the limit. -/
theorem adjustToLimit_shrinks (input : Vec ℕ (n + 1)) (limit : ℕ) (positive : ∀ d, 1 ≤ input d)
    (limited : 1 ≤ limit) :
    ∃ result, Settles (fun fuel => adjustToLimit limit fuel input) result ∧
      (∀ d, 1 ≤ result d ∧ result d ≤ input d) ∧
      Vec.product result ≤ limit ∧
      (limit < Vec.product input → limit < 3 * Vec.product result) ∧
      (Vec.product input ≤ limit → result = input) ∧
      ∀ d, (∃ bits, input d = 2 ^ bits) → ∃ bits, result d = 2 ^ bits := by
  obtain ⟨result, settles, shrunk, within⟩ := adjustToLimit_settles input limit positive limited
  refine ⟨result, settles, fun d => ⟨shrunk.one_le d, shrunk.le d⟩, within, ?_, ?_, shrunk.pow⟩
  · rw [Vec.product_eq_prod, Vec.product_eq_prod]
    exact shrunk.third
  · rw [Vec.product_eq_prod]
    exact shrunk.unchanged

/-- Seven by three by one, up to eight. -/
theorem adjustToLimit_shrinks_odd :
    ∃ result, Settles (fun fuel => adjustToLimit 8 fuel ![7, 3, 1]) result ∧
      (∀ d, 1 ≤ result d ∧ result d ≤ ![7, 3, 1] d) ∧
      Vec.product result ≤ 8 ∧
      (8 < Vec.product ![7, 3, 1] → 8 < 3 * Vec.product result) ∧
      (Vec.product ![7, 3, 1] ≤ 8 → result = ![7, 3, 1]) ∧
      ∀ d, (∃ bits, ![7, 3, 1] d = 2 ^ bits) → ∃ bits, result d = 2 ^ bits :=
  adjustToLimit_shrinks ![7, 3, 1] 8 (by decide) (by decide)

end Alpaka
