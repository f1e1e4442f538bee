import Mathlib.Algebra.BigOperators.Intervals
import Mathlib.Data.Fintype.Pi
import Alpaka.Math.MixedRadix
import Alpaka.Math.Partition

/-! # Sums that are shared out

When workers share out a set and every one of them adds up its share, the sum of their sums
is the sum over the set (`Math.Partitions.sum_eq`). A sum over a box is the sum over its
tiles (`Math.sum_box_mul`) and the sum over the row-major positions (`Math.sum_box_value`).
-/

namespace Math

variable {ι α M : Type*} [AddCommMonoid M] {n : ℕ}

/-- **Shares.** The order of the workers does not matter. -/
theorem Partitions.sum_eq {workers : Set ι} {share : ι → List α} {target : Set α}
    (partition : Partitions workers share target) {order : List ι} (once : order.Nodup)
    (complete : ∀ worker, worker ∈ order ↔ worker ∈ workers) {elements : Finset α}
    (same : ∀ x, x ∈ elements ↔ x ∈ target) (f : α → M) :
    (order.map fun worker => ((share worker).map f).sum).sum = ∑ x ∈ elements, f x := by
  have joined : (order.flatMap share).Perm elements.toList :=
    partition.flatMap_perm once complete elements.nodup_toList fun x => by
      rw [Finset.mem_toList, same]
  calc (order.map fun worker => ((share worker).map f).sum).sum
      = ((order.flatMap share).map f).sum := by
        rw [List.map_flatMap, List.flatMap_def, List.sum_flatten, List.map_map]
        rfl
    _ = (elements.toList.map f).sum := (joined.map f).sum_eq
    _ = ∑ x ∈ elements, f x := Finset.sum_map_toList _ _

/-- When one worker moves, a sum changes by what this worker contributes. -/
theorem sum_update_add {β : Type*} [Fintype ι] [DecidableEq ι] (f : β → M) (g : ι → β) (i : ι)
    (b : β) :
    (∑ j, f (Function.update g i b j)) + f (g i) = (∑ j, f (g j)) + f b := by
  have moved : (fun j => f (Function.update g i b j)) =
      Function.update (fun j => f (g j)) i (f b) :=
    funext (Function.apply_update (fun _ => f) g i b)
  rw [moved, Finset.sum_update_of_mem (Finset.mem_univ i),
    Finset.sum_eq_add_sum_sdiff_singleton_of_mem (Finset.mem_univ i) fun j => f (g j),
    add_right_comm, add_comm (f b), add_right_comm]

/-- A list of sums is a sum over lists. -/
theorem sum_list_comm (rounds : List ι) (elements : Finset α) (f : ι → α → M) :
    ∑ x ∈ elements, (rounds.map fun round => f round x).sum =
      (rounds.map fun round => ∑ x ∈ elements, f round x).sum := by
  induction rounds with
  | nil => exact Finset.sum_const_zero
  | cons round rounds ih =>
      simp only [List.map_cons, List.sum_cons]
      rw [Finset.sum_add_distrib, ih]

/-- The vectors below given extents. -/
def box (extents : Fin n → ℕ) : Finset (Fin n → ℕ) :=
  Fintype.piFinset fun d => Finset.range (extents d)

@[simp] theorem mem_box {extents idx : Fin n → ℕ} : idx ∈ box extents ↔ ∀ d, idx d < extents d := by
  unfold box
  simp only [Fintype.mem_piFinset, Finset.mem_range]

/-- A box is cut into tiles. -/
theorem sum_box_mul (outer inner : Fin n → ℕ) (f : (Fin n → ℕ) → M) :
    ∑ idx ∈ box (fun d => outer d * inner d), f idx =
      ∑ tile ∈ box outer, ∑ element ∈ box inner, f (fun d => tile d * inner d + element d) := by
  rw [← Finset.sum_product']
  symm
  apply Finset.sum_nbij' (fun (p : (Fin n → ℕ) × (Fin n → ℕ)) d => p.1 d * inner d + p.2 d)
    (fun idx => (fun d => idx d / inner d, fun d => idx d % inner d))
  · intro p member
    obtain ⟨tile, element⟩ := Finset.mem_product.mp member
    rw [mem_box] at tile element ⊢
    intro d
    calc p.1 d * inner d + p.2 d < p.1 d * inner d + inner d :=
          Nat.add_lt_add_left (element d) _
      _ = (p.1 d + 1) * inner d := (Nat.succ_mul _ _).symm
      _ ≤ outer d * inner d := Nat.mul_le_mul_right _ (tile d)
  · intro idx member
    rw [mem_box] at member
    have positive (d : Fin n) : 0 < inner d :=
      Nat.pos_of_mul_pos_left (Nat.zero_lt_of_lt (member d))
    rw [Finset.mem_product, mem_box, mem_box]
    refine ⟨fun d => ?_, fun d => Nat.mod_lt _ (positive d)⟩
    exact (Nat.div_lt_iff_lt_mul (positive d)).mpr (member d)
  · intro p member
    have element := mem_box.mp (Finset.mem_product.mp member).2
    apply Prod.ext <;> funext d <;> dsimp only
    · rw [Nat.mul_comm, Nat.mul_add_div (Nat.zero_lt_of_lt (element d)),
        Nat.div_eq_of_lt (element d), Nat.add_zero]
    · rw [Nat.mul_comm, Nat.mul_add_mod, Nat.mod_eq_of_lt (element d)]
  · intro idx _
    funext d
    exact Nat.div_add_mod' _ _
  · exact fun _ _ => rfl

/-- The positions of a box are the numbers below its size. -/
theorem sum_box_value (extents : Fin (n + 1) → ℕ) (f : ℕ → M) :
    ∑ idx ∈ box extents, f (MixedRadix.value extents idx) =
      ∑ position ∈ Finset.range (∏ d, extents d), f position := by
  have bijection := MixedRadix.value_bijOn extents
  refine Finset.sum_nbij (MixedRadix.value extents) (fun idx member => ?_) ?_ ?_ fun _ _ => rfl
  · exact Finset.mem_range.mpr (bijection.mapsTo (mem_box.mp member))
  · intro first member second member' same
    exact bijection.injOn (mem_box.mp member) (mem_box.mp member') same
  · intro position member
    obtain ⟨idx, inside, same⟩ := bijection.surjOn (Finset.mem_range.mp member)
    exact ⟨idx, mem_box.mpr inside, same⟩

/-- Slots that take in their shares of the slots behind them. -/
theorem sum_gather {size stop : ℕ} (fits : size ≤ stop) {share : ℕ → List ℕ}
    (partition : Partitions {slot | slot < size} share {x | size ≤ x ∧ x < stop}) (f : ℕ → M) :
    ∑ slot ∈ Finset.range size, (f slot + ((share slot).map f).sum) =
      ∑ slot ∈ Finset.range stop, f slot := by
  have behind : ∑ slot ∈ Finset.range size, ((share slot).map f).sum =
      ∑ slot ∈ Finset.Ico size stop, f slot :=
    partition.sum_eq List.nodup_range (fun _ => List.mem_range) (fun _ => Finset.mem_Ico) f
  rw [Finset.sum_add_distrib, behind, Finset.sum_range_add_sum_Ico _ fits]

/-- Slots that take in the slots of the other half. -/
theorem sum_halve (half : ℕ) (f : ℕ → M) :
    ∑ slot ∈ Finset.range half, (f slot + f (slot + half)) =
      ∑ slot ∈ Finset.range (half + half), f slot := by
  rw [Finset.sum_range_add, Finset.sum_add_distrib]
  simp only [Nat.add_comm half]

end Math
