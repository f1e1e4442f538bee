import Mathlib.Data.Nat.ModEq
import Mathlib.Tactic.Ring
import Alpaka.Math.Partition

/-! # Splitting an interval of naturals among workers

Two ways to share the numbers below a bound: every worker takes the numbers
congruent to its own number (`Math.strided_partitions`), or every worker takes
one interval, the first `total % workers` of them one element more
(`Math.blocks_partitions`).
-/

namespace Math

/-- The numbers `first`, `first + step`, `first + 2 * step`, … below `stop`. -/
def progression (first step stop : ℕ) : List ℕ :=
  (List.range ((stop - first + step - 1) / step)).map fun count => first + count * step

/-- The number of steps a progression takes is the rounded up quotient. -/
theorem lt_ceil_iff {step : ℕ} (positive : 0 < step) (distance count : ℕ) :
    count < (distance + step - 1) / step ↔ count * step < distance := by
  rw [Nat.lt_div_iff_mul_lt positive]
  constructor <;> intro below <;> omega

theorem lt_length_progression_iff {step : ℕ} (positive : 0 < step) (first stop count : ℕ) :
    count < (progression first step stop).length ↔ first + count * step < stop := by
  rw [progression, List.length_map, List.length_range, lt_ceil_iff positive]
  omega

/-- A progression that starts below its step ends less than a step behind the bound. -/
theorem length_progression_lt {first step : ℕ} (inside : first < step) (stop : ℕ) :
    first + (progression first step stop).length * step < stop + step := by
  have below := lt_length_progression_iff (Nat.zero_lt_of_lt inside) first stop
  generalize (progression first step stop).length = count at below ⊢
  cases count with
  | zero => omega
  | succ count =>
      have last := (below count).mp (Nat.lt_succ_self count)
      rw [Nat.succ_mul]
      omega

theorem progression_eq (first step stop : ℕ) : progression first step stop =
    (List.range (progression first step stop).length).map fun count => first + count * step := by
  rw [progression, List.length_map, List.length_range]

theorem mem_progression {first step stop : ℕ} (positive : 0 < step) {x : ℕ} :
    x ∈ progression first step stop ↔ ∃ count, x = first + count * step ∧ x < stop := by
  simp only [progression, List.mem_map, List.mem_range, lt_ceil_iff positive]
  constructor
  · rintro ⟨count, below, rfl⟩
    exact ⟨count, rfl, by omega⟩
  · rintro ⟨count, rfl, below⟩
    exact ⟨count, by omega, rfl⟩

theorem progression_pairwise {first step stop : ℕ} (positive : 0 < step) :
    (progression first step stop).Pairwise (· < ·) := by
  refine List.pairwise_map.mpr (List.pairwise_lt_range.imp fun before => ?_)
  exact Nat.add_lt_add_left (Nat.mul_lt_mul_of_pos_right before positive) _

theorem progression_nodup {first step stop : ℕ} (positive : 0 < step) :
    (progression first step stop).Nodup :=
  (progression_pairwise positive).imp fun before => before.ne

theorem length_progression_one (first stop : ℕ) :
    (progression first 1 stop).length = stop - first := by
  rw [progression, List.length_map, List.length_range, Nat.div_one, Nat.add_sub_cancel]

theorem mem_progression_one {first stop x : ℕ} :
    x ∈ progression first 1 stop ↔ first ≤ x ∧ x < stop := by
  rw [mem_progression Nat.one_pos]
  constructor
  · rintro ⟨count, rfl, below⟩
    exact ⟨by omega, below⟩
  · rintro ⟨above, below⟩
    exact ⟨x - first, by omega, below⟩

/-- A worker's residue class. -/
theorem mem_progression_strided {worker workers total x : ℕ} (member : worker < workers) :
    x ∈ progression worker workers total ↔ x % workers = worker ∧ x < total := by
  rw [mem_progression (Nat.zero_lt_of_lt member)]
  constructor
  · rintro ⟨count, rfl, below⟩
    refine ⟨?_, below⟩
    rw [Nat.add_mul_mod_self_right, Nat.mod_eq_of_lt member]
  · rintro ⟨residue, below⟩
    refine ⟨x / workers, ?_, below⟩
    rw [← residue, Nat.mod_add_div']

/-- A bound that is a multiple of the number of workers is shared out evenly. -/
theorem length_progression_strided {worker workers : ℕ} (member : worker < workers)
    (rounds : ℕ) : (progression worker workers (rounds * workers)).length = rounds := by
  have positive : 0 < workers := Nat.zero_lt_of_lt member
  rw [progression, List.length_map, List.length_range]
  refine eq_of_forall_lt_iff fun count => ?_
  rw [lt_ceil_iff positive]
  refine ⟨fun below => ?_, fun below => ?_⟩
  · exact Nat.lt_of_mul_lt_mul_right (below.trans_le (Nat.sub_le _ _))
  · have room : (count + 1) * workers ≤ rounds * workers := Nat.mul_le_mul_right _ below
    rw [Nat.succ_mul] at room
    omega

/-- Residue classes share out the numbers below a bound. -/
theorem strided_partitions {workers : ℕ} (positive : 0 < workers) (total : ℕ) :
    Partitions {worker | worker < workers} (fun worker => progression worker workers total)
      {x | x < total} where
  nodup := fun _ _ => progression_nodup positive
  unique := fun first firstIn second secondIn x heldFirst heldSecond => by
    rw [mem_progression_strided firstIn] at heldFirst
    rw [mem_progression_strided secondIn] at heldSecond
    exact heldFirst.1.symm.trans heldSecond.1
  mem_iff := fun x => by
    constructor
    · intro below
      exact ⟨x % workers, Nat.mod_lt _ positive,
        (mem_progression_strided (Nat.mod_lt _ positive)).mpr ⟨rfl, below⟩⟩
    · rintro ⟨worker, member, held⟩
      exact ((mem_progression_strided member).mp held).2

/-- Where a worker's interval begins when the first `total % workers` workers
take one element more than the others. -/
def blockStart (total workers worker : ℕ) : ℕ :=
  worker * (total / workers) + min worker (total % workers)

theorem blockStart_zero (total workers : ℕ) : blockStart total workers 0 = 0 := by
  simp only [blockStart, Nat.zero_mul, Nat.zero_min, Nat.add_zero]

/-- The interval of a worker is as long as the quotient, or one longer. -/
theorem blockStart_succ (total workers worker : ℕ) :
    blockStart total workers (worker + 1) = blockStart total workers worker +
      (total / workers + if worker < total % workers then 1 else 0) := by
  simp only [blockStart, Nat.add_mul, Nat.one_mul]
  split <;> omega

theorem blockStart_mono (total workers : ℕ) : Monotone (blockStart total workers) :=
  monotone_nat_of_le_succ fun worker => by
    rw [blockStart_succ]
    exact Nat.le_add_right _ _

/-- The intervals of all workers end at the bound. -/
theorem blockStart_workers {workers : ℕ} (positive : 0 < workers) (total : ℕ) :
    blockStart total workers workers = total := by
  have remainder := Nat.mod_lt total positive
  have split := Nat.div_add_mod total workers
  simp only [blockStart, Nat.min_eq_right remainder.le]
  omega

theorem blockStart_le {workers worker : ℕ} (positive : 0 < workers) (total : ℕ)
    (within : worker ≤ workers) : blockStart total workers worker ≤ total := by
  calc blockStart total workers worker ≤ blockStart total workers workers :=
        blockStart_mono total workers within
    _ = total := blockStart_workers positive total

theorem blockStart_mul {workers : ℕ} (positive : 0 < workers) (rounds worker : ℕ) :
    blockStart (rounds * workers) workers worker = worker * rounds := by
  rw [blockStart, Nat.mul_div_cancel _ positive, Nat.mul_mod_left, Nat.min_zero, Nat.add_zero]

/-- A monotone sequence of starting points cuts an initial segment into
intervals: every number below the last starting point is in exactly one. -/
theorem exists_block {start : ℕ → ℕ} (zero : start 0 = 0) {x : ℕ} :
    ∀ workers, x < start workers →
      ∃ worker < workers, start worker ≤ x ∧ x < start (worker + 1) := by
  intro workers
  induction workers with
  | zero => intro below; omega
  | succ workers ih =>
      intro below
      by_cases last : start workers ≤ x
      · exact ⟨workers, Nat.lt_succ_self _, last, below⟩
      · obtain ⟨worker, member, inside⟩ := ih (by omega)
        exact ⟨worker, by omega, inside⟩

theorem block_unique {start : ℕ → ℕ} (mono : Monotone start) {x first second : ℕ}
    (inFirst : start first ≤ x ∧ x < start (first + 1))
    (inSecond : start second ≤ x ∧ x < start (second + 1)) : first = second := by
  rcases Nat.lt_trichotomy first second with before | same | after
  · have := mono (show first + 1 ≤ second from before)
    omega
  · exact same
  · have := mono (show second + 1 ≤ first from after)
    omega

/-- Consecutive intervals share out the numbers below a bound. -/
theorem blocks_partitions {workers : ℕ} (positive : 0 < workers) (total : ℕ) :
    Partitions {worker | worker < workers}
      (fun worker => progression (blockStart total workers worker) 1
        (blockStart total workers (worker + 1)))
      {x | x < total} where
  nodup := fun _ _ => progression_nodup Nat.one_pos
  unique := fun first _ second _ x heldFirst heldSecond =>
    block_unique (blockStart_mono total workers) (mem_progression_one.mp heldFirst)
      (mem_progression_one.mp heldSecond)
  mem_iff := fun x => by
    constructor
    · intro below
      obtain ⟨worker, member, inside⟩ := exists_block (blockStart_zero total workers) workers
        (show x < blockStart total workers workers by
          rw [blockStart_workers positive total]
          exact below)
      exact ⟨worker, member, mem_progression_one.mpr inside⟩
    · rintro ⟨worker, member, held⟩
      exact (mem_progression_one.mp held).2.trans_le (blockStart_le positive total member)

end Math
