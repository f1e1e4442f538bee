import Alpaka.Math.Independent
import Alpaka.Math.SharedSum

/-! # Reducing a row of slots

Slots are reduced to the first one. The slots of a part take in the slots behind the part,
and then the first half of the part takes in the second one, until one slot is left. What
the slots do in one of these phases may be done in any order
(`Math.TreeReduce.gathered`, `Math.TreeReduce.reduced`).
-/

namespace Math.TreeReduce

variable {M : Type*}

/-- A slot takes in other slots. -/
def gather (op : M → M → M) (others : List ℕ) (slot : ℕ) (memory : ℕ → M) : ℕ → M :=
  others.foldl (fun memory other =>
    Function.update memory slot (op (memory slot) (memory other))) memory

/-- A slot of the first half takes in its slot of the second half. -/
def takeHalf (op : M → M → M) (offset slot : ℕ) (memory : ℕ → M) : ℕ → M :=
  if slot < offset then Function.update memory slot (op (memory slot) (memory (slot + offset)))
  else memory

/-- The distances of the halves. -/
def offsets (offset : ℕ) : List ℕ :=
  if 0 < offset then offset :: offsets (offset / 2) else []
termination_by offset

/-- The slots before a number, in some order. -/
structure Lanes (size : ℕ) (order : List ℕ) : Prop where
  nodup : order.Nodup
  mem_iff : ∀ slot, slot ∈ order ↔ slot < size

/-- The slots behind the first one leave it alone. -/
theorem takeHalf_first (op : M → M → M) (offset : ℕ) {slot : ℕ} (behind : slot ≠ 0)
    (memory : ℕ → M) : takeHalf op offset slot memory 0 = memory 0 := by
  unfold takeHalf
  split
  · exact Function.update_of_ne behind.symm _ _
  · rfl

/-- The last level apart from the others; without levels there is nothing to do. -/
theorem foldl_dropLast {State : Type*} (act : ℕ → ℕ → State → State)
    (idle : ∀ phase state, act 0 phase state = state) (levels : List ℕ) (phase : ℕ)
    (state : State) :
    act (levels.getLastD 0) (phase + levels.dropLast.length)
        ((levels.dropLast.zipIdx phase).foldl (fun state level => act level.1 level.2 state)
          state) =
      (levels.zipIdx phase).foldl (fun state level => act level.1 level.2 state) state := by
  rcases List.eq_nil_or_concat levels with rfl | ⟨before, last, rfl⟩
  · exact idle _ _
  · rw [List.concat_eq_append, List.dropLast_concat, List.getLastD_concat, List.zipIdx_append,
      List.foldl_append]
    rfl

section Sums

variable [AddCommMonoid M] {size : ℕ} {order : List ℕ} {memory : ℕ → M}

theorem gather_eq {others : List ℕ} {slot : ℕ} (outside : slot ∉ others) (memory : ℕ → M) :
    gather (· + ·) others slot memory =
      Function.update memory slot (memory slot + (others.map memory).sum) := by
  unfold gather
  induction others generalizing memory with
  | nil =>
      rw [List.map_nil, List.sum_nil, add_zero, Function.update_eq_self]
      rfl
  | cons other others ih =>
      obtain ⟨different, outside⟩ := not_or.mp (mt List.mem_cons.mpr outside)
      have kept : others.map (Function.update memory slot (memory slot + memory other)) =
          others.map memory :=
        List.map_congr_left fun x member => Function.update_of_ne
          (fun same : x = slot => outside (same ▸ member)) _ _
      rw [List.foldl_cons, ih outside, kept, Function.update_self, Function.update_idem,
        List.map_cons, List.sum_cons, add_assoc]

/-- **Gathering.** The slots before `size` share out the slots up to `stop`. -/
theorem gathered {stop : ℕ} (fits : size ≤ stop) {share : ℕ → List ℕ}
    (partition : Partitions {slot | slot < size} share {x | size ≤ x ∧ x < stop})
    (lanes : Lanes size order) (memory : ℕ → M) :
    ∑ slot ∈ Finset.range size,
        order.foldl (fun memory slot => gather (· + ·) (share slot) slot memory) memory slot =
      ∑ slot ∈ Finset.range stop, memory slot := by
  have behind {slot other : ℕ} (member : slot ∈ order) (held : other ∈ share slot) :
      size ≤ other :=
    (partition.sound ((lanes.mem_iff slot).mp member) held).1
  have before {slot : ℕ} (member : slot ∈ order) : slot < size := (lanes.mem_iff slot).mp member
  have steps : order.foldl (fun memory slot => gather (· + ·) (share slot) slot memory) memory =
      order.foldl (fun memory slot => Function.update memory slot
        (memory slot + ((share slot).map memory).sum)) memory :=
    List.foldl_ext _ _ _ fun memory slot member => gather_eq
      (fun held => absurd (before member) (not_lt.mpr (behind member held))) memory
  have taken := foldl_update_assigns id
    (fun slot memory => memory slot + ((share slot).map memory).sum)
    (fun slot => {x | x = slot ∨ x ∈ share slot}) lanes.nodup
    (fun slot _ first second agree => by
      rw [agree slot (.inl rfl), List.map_congr_left fun x held => agree x (.inr held)])
    (fun first member second member' different => ⟨fun read => ?_, different⟩) memory
  · rw [steps, ← sum_gather fits partition memory]
    refine Finset.sum_congr rfl fun slot below => ?_
    exact taken.written slot ((lanes.mem_iff slot).mpr (Finset.mem_range.mp below))
  · rcases read with same | held
    · exact different same
    · exact absurd (before member) (not_lt.mpr (behind member' held))

/-- One level of the tree. -/
theorem halved (half : ℕ) {size : ℕ} (fits : half ≤ size) {order : List ℕ}
    (lanes : Lanes size order) (memory : ℕ → M) :
    ∑ slot ∈ Finset.range half,
        order.foldl (fun memory slot => takeHalf (· + ·) half slot memory) memory slot =
      ∑ slot ∈ Finset.range (half + half), memory slot := by
  have steps : order.foldl (fun memory slot => takeHalf (· + ·) half slot memory) memory =
      (order.filter (· < half)).foldl (fun memory slot =>
        Function.update memory slot (memory slot + memory (slot + half))) memory := by
    rw [List.foldl_filter]
    unfold takeHalf
    simp only [decide_eq_true_eq]
  have below {slot : ℕ} : slot ∈ order.filter (· < half) ↔ slot < half := by
    rw [List.mem_filter, lanes.mem_iff, decide_eq_true_iff]
    exact and_iff_right_of_imp fun first => first.trans_le fits
  have taken := foldl_update_assigns id
    (fun slot memory => memory slot + memory (slot + half))
    (fun slot => {x | x = slot ∨ x = slot + half}) (lanes.nodup.filter (· < half))
    (fun slot _ first second agree => by rw [agree slot (.inl rfl), agree _ (.inr rfl)])
    (fun first member second member' different => ⟨fun read => ?_, different⟩) memory
  · rw [steps, ← sum_halve half memory]
    refine Finset.sum_congr rfl fun slot inside => ?_
    exact taken.written slot (below.mpr (Finset.mem_range.mp inside))
  · have := below.mp member
    rcases read with same | same
    · exact different same
    · change first = second + half at same
      omega

theorem offsets_two_pow (bits : ℕ) : offsets (2 ^ bits) = 2 ^ bits :: offsets (2 ^ bits / 2) := by
  rw [offsets, if_pos (Nat.two_pow_pos bits)]

/-- **The tree.** A power of two of slots is reduced to the first one, whatever the order on
each level. -/
theorem reduced {bits : ℕ} {orders : ℕ → List ℕ}
    (lanes : ∀ phase, Lanes size (orders phase)) (fits : 2 ^ bits ≤ size) (phase : ℕ)
    (memory : ℕ → M) :
    ((offsets (2 ^ bits / 2)).zipIdx phase).foldl (fun memory level =>
        (orders level.2).foldl (fun memory slot => takeHalf (· + ·) level.1 slot memory) memory)
        memory 0 =
      ∑ slot ∈ Finset.range (2 ^ bits), memory slot := by
  induction bits generalizing phase memory with
  | zero =>
      have none : offsets (2 ^ 0 / 2) = [] := by
        rw [offsets]
        rfl
      rw [none, Nat.pow_zero, Finset.sum_range_one]
      rfl
  | succ bits ih =>
      have half : 2 ^ (bits + 1) / 2 = 2 ^ bits := by
        rw [Nat.pow_succ, Nat.mul_div_cancel _ Nat.two_pos]
      have double : 2 ^ (bits + 1) = 2 ^ bits + 2 ^ bits := by
        rw [Nat.pow_succ, Nat.mul_two]
      rw [double] at fits
      have within : 2 ^ bits ≤ size := (Nat.le_add_right _ _).trans fits
      rw [half, offsets_two_pow, List.zipIdx_cons, List.foldl_cons, ih within,
        halved (2 ^ bits) within (lanes phase), double]

end Sums

end Math.TreeReduce
