import Mathlib.Algebra.Order.BigOperators.Group.Finset
import Mathlib.Data.Fin.Tuple.Basic
import Alpaka.Math.MixedRadix

/-! # Boxes with strides

The offset of an index is the sum of its components times their strides. When every
stride has room for what the faster component runs through, the offsets of a box are
in the order of the indices and an element apart (`Math.Strides.Nested.lt`), and all of
them fit below the slowest extent times the slowest stride
(`Math.Strides.Nested.room`).
-/

namespace Math.Strides

variable {n : ℕ}

/-- The offset of an index. -/
def offset {n : ℕ} (stride idx : Fin n → ℕ) : ℕ := ∑ i, idx i * stride i

/-- Every stride has room for the box of the faster components. -/
def Nested (extents stride : Fin (n + 1) → ℕ) : Prop :=
  ∀ i : Fin n, extents i.succ * stride i.succ ≤ stride i.castSucc

instance (extents stride : Fin (n + 1) → ℕ) : Decidable (Nested extents stride) :=
  inferInstanceAs (Decidable (∀ i : Fin n, extents i.succ * stride i.succ ≤ stride i.castSucc))

variable {extents stride idx other : Fin (n + 1) → ℕ}

theorem offset_succ (stride idx : Fin (n + 1) → ℕ) :
    offset stride idx = idx 0 * stride 0 + offset (Fin.tail stride) (Fin.tail idx) :=
  Fin.sum_univ_succ _

theorem offset_single (stride idx : Fin 1 → ℕ) : offset stride idx = idx 0 * stride 0 :=
  Fin.sum_univ_one _

theorem offset_last (stride idx : Fin (n + 1) → ℕ) :
    offset stride idx = offset (Fin.init stride) (Fin.init idx) +
      idx (Fin.last n) * stride (Fin.last n) :=
  Fin.sum_univ_castSucc _

theorem Nested.tail {extents stride : Fin (n + 2) → ℕ} (nested : Nested extents stride) :
    Nested (Fin.tail extents) (Fin.tail stride) :=
  fun i => nested i.succ

/-- The box fits, the last element included. -/
theorem Nested.room (nested : Nested extents stride) (inside : ∀ i, idx i < extents i) :
    offset stride idx + stride (Fin.last n) ≤ (idx 0 + 1) * stride 0 := by
  induction n with
  | zero =>
      rw [offset_single, Nat.succ_mul]
      exact le_rfl
  | succ n ih =>
      have faster := ih nested.tail fun i => inside i.succ
      calc offset stride idx + stride (Fin.last (n + 1))
          = idx 0 * stride 0 + (offset (Fin.tail stride) (Fin.tail idx) +
              Fin.tail stride (Fin.last n)) := by
            rw [offset_succ, Nat.add_assoc]
            rfl
        _ ≤ idx 0 * stride 0 + (idx 1 + 1) * stride 1 := Nat.add_le_add_left faster _
        _ ≤ idx 0 * stride 0 + extents 1 * stride 1 :=
            Nat.add_le_add_left (Nat.mul_le_mul_right _ (inside 1)) _
        _ ≤ idx 0 * stride 0 + stride 0 := Nat.add_le_add_left (nested 0) _
        _ = (idx 0 + 1) * stride 0 := (Nat.succ_mul _ _).symm

/-- **In order.** Offsets of different elements are an element apart. -/
theorem Nested.lt (nested : Nested extents stride) (inside : ∀ i, idx i < extents i)
    (inside' : ∀ i, other i < extents i) (different : idx ≠ other) :
    offset stride idx + stride (Fin.last n) ≤ offset stride other ∨
      offset stride other + stride (Fin.last n) ≤ offset stride idx := by
  induction n with
  | zero =>
      have heads : idx 0 ≠ other 0 := fun same => different (funext fun i => by
        rw [Fin.fin_one_eq_zero i]
        exact same)
      rw [offset_single, offset_single, Fin.last_zero, ← Nat.succ_mul, ← Nat.succ_mul]
      rcases Nat.lt_or_gt_of_ne heads with below | above
      · exact .inl (Nat.mul_le_mul_right _ below)
      · exact .inr (Nat.mul_le_mul_right _ above)
  | succ n ih =>
      have slower {first second : Fin (n + 2) → ℕ} (inFirst : ∀ i, first i < extents i)
          (below : first 0 < second 0) :
          offset stride first + stride (Fin.last (n + 1)) ≤ offset stride second := by
        rw [offset_succ stride second]
        exact (nested.room inFirst).trans
          ((Nat.mul_le_mul_right _ below).trans (Nat.le_add_right _ _))
      rcases Nat.lt_trichotomy (idx 0) (other 0) with below | same | above
      · exact .inl (slower inside below)
      · have tails : Fin.tail idx ≠ Fin.tail other := fun equal => different (by
          rw [← Fin.cons_self_tail idx, ← Fin.cons_self_tail other, same, equal])
        have faster : offset (Fin.tail stride) (Fin.tail idx) + stride (Fin.last (n + 1)) ≤
              offset (Fin.tail stride) (Fin.tail other) ∨
            offset (Fin.tail stride) (Fin.tail other) + stride (Fin.last (n + 1)) ≤
              offset (Fin.tail stride) (Fin.tail idx) :=
          ih nested.tail (fun i => inside i.succ) (fun i => inside' i.succ) tails
        rw [offset_succ, offset_succ stride other, same]
        omega
      · exact .inr (slower inside' above)

/-- Larger indices have larger offsets. -/
theorem offset_mono {n : ℕ} (stride : Fin n → ℕ) {idx other : Fin n → ℕ}
    (below : ∀ i, idx i ≤ other i) : offset stride idx ≤ offset stride other :=
  Finset.sum_le_sum fun i _ => Nat.mul_le_mul_right _ (below i)

/-- Offsets add up. -/
theorem offset_add {n : ℕ} (stride idx other : Fin n → ℕ) :
    offset stride (fun i => idx i + other i) = offset stride idx + offset stride other := by
  unfold offset
  rw [← Finset.sum_add_distrib]
  exact Finset.sum_congr rfl fun i _ => Nat.add_mul _ _ _

/-- One step along a dimension. -/
theorem offset_unit {n : ℕ} (stride : Fin n → ℕ) (i : Fin n) :
    offset stride (Pi.single i 1) = stride i := by
  unfold offset
  rw [Finset.sum_eq_single i]
  · rw [Pi.single_eq_same, Nat.one_mul]
  · intro j _ different
    rw [Pi.single_eq_of_ne different, Nat.zero_mul]
  · exact fun outside => absurd (Finset.mem_univ i) outside

/-- If offsets add up below a modulus without wrapping around, they are below it. The
way to an index takes single steps, each of them shorter than the modulus. -/
theorem offset_lt_of_add {n modulus : ℕ} {stride idx : Fin n → ℕ}
    (positive : 0 < modulus) (short : ∀ i, stride i < modulus)
    (adds : ∀ first second : Fin n → ℕ, (∀ i, first i + second i ≤ idx i) →
      offset stride first % modulus + offset stride second % modulus < modulus) :
    offset stride idx < modulus := by
  have reached (steps : ℕ) (point : Fin n → ℕ) (below : ∀ i, point i ≤ idx i)
      (total : ∑ i, point i = steps) : offset stride point < modulus := by
    induction steps generalizing point with
    | zero =>
        have origin (i : Fin n) : point i = 0 :=
          (Finset.sum_eq_zero_iff.mp total) i (Finset.mem_univ i)
        have start : offset stride point = 0 :=
          Finset.sum_eq_zero fun i _ => by rw [origin, Nat.zero_mul]
        rwa [start]
    | succ steps ih =>
        obtain ⟨i, -, moved⟩ := Finset.exists_ne_zero_of_sum_ne_zero
          (show ∑ i, point i ≠ 0 by omega)
        let before := Function.update point i (point i - 1)
        have changed : before i = point i - 1 := Function.update_self _ _ _
        have step : point = fun j => before j + Pi.single (M := fun _ => ℕ) i 1 j := by
          funext j
          by_cases same : j = i
          · subst same
            rw [Pi.single_eq_same, changed]
            omega
          · have kept : before j = point j := Function.update_of_ne same _ _
            rw [Pi.single_eq_of_ne same, kept, Nat.add_zero]
        have fewer : ∑ j, before j = steps := by
          have sums := congrArg (fun f => ∑ j, f j) step
          simp only [Finset.sum_add_distrib, Finset.sum_pi_single', Finset.mem_univ, if_true]
            at sums
          omega
        have within (j : Fin n) : before j + Pi.single (M := fun _ => ℕ) i 1 j ≤ idx j := by
          rw [← congrFun step j]
          exact below j
        have earlier := ih before (fun j => (Nat.le_add_right _ _).trans (within j)) fewer
        have sum := adds before _ within
        rw [offset_unit, Nat.mod_eq_of_lt earlier, Nat.mod_eq_of_lt (short i)] at sum
        rw [step, offset_add, offset_unit]
        exact sum
  exact reached _ idx (fun _ => le_rfl) rfl

/-- Strides without gaps: an offset counts the elements in front. -/
theorem offset_contiguous
    (contiguous : ∀ i : Fin n, extents i.succ * stride i.succ = stride i.castSucc) :
    offset stride idx = MixedRadix.value extents idx * stride (Fin.last n) := by
  have weights (i : Fin (n + 1)) :
      stride i = MixedRadix.weight extents i * stride (Fin.last n) := by
    induction i using Fin.reverseInduction with
    | last => rw [MixedRadix.weight_last, Nat.one_mul]
    | cast i ih =>
        cases n with
        | zero => exact i.elim0
        | succ n =>
            rw [MixedRadix.weight_castSucc, Nat.mul_assoc, ← ih, contiguous i]
  unfold offset MixedRadix.value
  rw [Finset.sum_mul]
  refine Finset.sum_congr rfl fun i _ => ?_
  rw [Nat.mul_assoc, ← weights i]

/-- A divisor of all strides divides every offset. -/
theorem dvd_offset {n divisor : ℕ} {stride idx : Fin n → ℕ}
    (divides : ∀ i, divisor ∣ stride i) : divisor ∣ offset stride idx :=
  Finset.dvd_sum fun i _ => (divides i).mul_left (idx i)

end Math.Strides
