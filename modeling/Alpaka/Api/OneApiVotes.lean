import Mathlib.Data.BitVec
import Mathlib.Data.Set.Basic

/-! # Warp votes on SYCL

On AMD GPUs lanes that are not active leave stray bits in a ballot. The votes therefore
ballot and mask the result with the active lanes. `Any` does (`Alpaka.OneApi.any_iff`).
In `All` the comparison binds tighter than the mask: the whole ballot, stray bits
included, is compared with the active lanes, and the result is masked by lane 0
(`Alpaka.OneApi.all_iff`, `Alpaka.OneApi.votes_iff`).
-/

namespace Alpaka.OneApi

/-- How many bits the masks of a warp have. -/
def maskWidth (warpSize : ℕ) : ℕ := if warpSize ≤ 32 then 32 else 64

/-- What a lane sees of its sub-group: the ballots over a predicate of the lanes. -/
structure SubGroup (warpSize : ℕ) where
  groupBallot : (ℕ → Bool) → BitVec (maskWidth warpSize)

variable {warpSize : ℕ}

def Activemask.getMask (subGroup : SubGroup warpSize) : BitVec (maskWidth warpSize) :=
  subGroup.groupBallot fun _ => true

/-- The ballot over the predicates that the lanes hand to a vote. -/
def predicateMask (subGroup : SubGroup warpSize) (predicate : ℕ → BitVec 32) :
    BitVec (maskWidth warpSize) :=
  subGroup.groupBallot fun lane => predicate lane ≠ 0

/-- A truth value as an operand of `&`. -/
def promote (value : Bool) : BitVec (maskWidth warpSize) := if value then 1 else 0

/-- `All` on AMD GPUs: `activeMask & predicateMask == activeMask`. -/
def All.op (subGroup : SubGroup warpSize) (predicate : ℕ → BitVec 32) : Bool :=
  let activeMask := Activemask.getMask subGroup
  activeMask &&& promote (predicateMask subGroup predicate == activeMask) ≠ 0

/-- `Any` on AMD GPUs. -/
def Any.op (subGroup : SubGroup warpSize) (predicate : ℕ → BitVec 32) : Bool :=
  let activeMask := Activemask.getMask subGroup
  activeMask &&& predicateMask subGroup predicate ≠ 0

/-- A lane sees which lanes are active, and of the active ones whether their predicate
holds. -/
structure Sees (active : Set ℕ) (predicate : ℕ → BitVec 32) (subGroup : SubGroup warpSize) :
    Prop where
  activemask : ∀ lane, (Activemask.getMask subGroup).getLsbD lane = true ↔ lane ∈ active
  ballot : ∀ lane ∈ active,
    ((predicateMask subGroup predicate).getLsbD lane = true ↔ predicate lane ≠ 0)

variable {active : Set ℕ} {predicate : ℕ → BitVec 32} {subGroup : SubGroup warpSize}

/-- A mask is not zero when it has a bit. -/
private theorem ne_zero_iff {w : ℕ} (mask : BitVec w) :
    mask ≠ 0 ↔ ∃ lane, mask.getLsbD lane = true := by
  constructor
  · intro nonzero
    by_contra none
    simp only [not_exists, Bool.not_eq_true] at none
    refine nonzero (BitVec.eq_of_getLsbD_eq fun lane _ => ?_)
    rw [none lane]
    exact BitVec.getLsbD_zero.symm
  · rintro ⟨lane, set⟩ rfl
    rw [BitVec.ofNat_eq_ofNat, BitVec.getLsbD_zero] at set
    exact Bool.false_ne_true set

theorem any_iff (sees : Sees active predicate subGroup) :
    Any.op subGroup predicate = true ↔ ∃ lane ∈ active, predicate lane ≠ 0 := by
  unfold Any.op
  rw [decide_eq_true_eq, ne_zero_iff]
  simp only [BitVec.getLsbD_and, Bool.and_eq_true, sees.activemask]
  constructor
  · rintro ⟨lane, member, set⟩
    exact ⟨lane, member, (sees.ballot lane member).mp set⟩
  · rintro ⟨lane, member, holds⟩
    exact ⟨lane, member, (sees.ballot lane member).mpr holds⟩

/-- The ballot is the mask of the active lanes when all of them agree and no other lane
leaves a bit. -/
theorem predicateMask_eq_iff (sees : Sees active predicate subGroup) :
    predicateMask subGroup predicate = Activemask.getMask subGroup ↔
      (∀ lane ∈ active, predicate lane ≠ 0) ∧
        ∀ lane ∉ active, (predicateMask subGroup predicate).getLsbD lane = false := by
  constructor
  · intro same
    refine ⟨fun lane member => ?_, fun lane outside => ?_⟩
    · rw [← sees.ballot lane member, same]
      exact (sees.activemask lane).mpr member
    · rw [same, ← Bool.not_eq_true]
      exact mt (sees.activemask lane).mp outside
  · rintro ⟨agree, clean⟩
    refine BitVec.eq_of_getLsbD_eq fun lane _ => ?_
    by_cases member : lane ∈ active
    · rw [(sees.ballot lane member).mpr (agree lane member), (sees.activemask lane).mpr member]
    · rw [clean lane member, eq_comm, ← Bool.not_eq_true]
      exact mt (sees.activemask lane).mp member

/-- A comparison only leaves the lowest bit of a mask. -/
private theorem and_promote_ne_zero_iff (mask : BitVec (maskWidth warpSize)) (value : Bool) :
    mask &&& promote value ≠ 0 ↔ mask.getLsbD 0 = true ∧ value = true := by
  have bit (lane : ℕ) : (promote value : BitVec (maskWidth warpSize)).getLsbD lane = true ↔
      lane = 0 ∧ value = true := by
    have wide : 0 < maskWidth warpSize := by
      unfold maskWidth
      split <;> decide
    unfold promote
    cases value with
    | false => simp
    | true => simp [BitVec.getLsbD_one, wide]
  rw [ne_zero_iff]
  simp only [BitVec.getLsbD_and, Bool.and_eq_true, bit]
  constructor
  · rintro ⟨lane, set, rfl, holds⟩
    exact ⟨set, holds⟩
  · rintro ⟨set, holds⟩
    exact ⟨0, set, rfl, holds⟩

/-- `All` also asks for lane 0 and for a ballot without stray bits. -/
theorem all_iff (sees : Sees active predicate subGroup) :
    All.op subGroup predicate = true ↔ (∀ lane ∈ active, predicate lane ≠ 0) ∧ 0 ∈ active ∧
      ∀ lane ∉ active, (predicateMask subGroup predicate).getLsbD lane = false := by
  unfold All.op
  rw [decide_eq_true_eq, and_promote_ne_zero_iff, sees.activemask, beq_iff_eq,
    predicateMask_eq_iff sees, and_left_comm]

/-- **Votes.** In every active lane both votes are about the active lanes exactly when
some active lane votes against, or lane 0 is active and no lane sees a stray bit. -/
theorem votes_iff {subGroups : ℕ → SubGroup warpSize}
    (sees : ∀ lane ∈ active, Sees active predicate (subGroups lane)) (nonempty : active.Nonempty) :
    (∀ lane ∈ active,
      (All.op (subGroups lane) predicate = true ↔ ∀ other ∈ active, predicate other ≠ 0) ∧
        (Any.op (subGroups lane) predicate = true ↔ ∃ other ∈ active, predicate other ≠ 0)) ↔
      (∃ other ∈ active, predicate other = 0) ∨
        (0 ∈ active ∧ ∀ lane ∈ active, ∀ other ∉ active,
          (predicateMask (subGroups lane) predicate).getLsbD other = false) := by
  constructor
  · intro votes
    by_cases against : ∃ other ∈ active, predicate other = 0
    · exact .inl against
    · have agree : ∀ other ∈ active, predicate other ≠ 0 := fun other member none =>
        against ⟨other, member, none⟩
      have all (lane : ℕ) (member : lane ∈ active) :=
        ((all_iff (sees lane member)).mp ((votes lane member).1.mpr agree)).2
      obtain ⟨lane, member⟩ := nonempty
      exact .inr ⟨(all lane member).1, fun lane member => (all lane member).2⟩
  · intro condition lane member
    refine ⟨?_, any_iff (sees lane member)⟩
    rw [all_iff (sees lane member)]
    constructor
    · exact fun all => all.1
    · intro agree
      obtain ⟨other, member', none⟩ | ⟨zero, clean⟩ := condition
      · exact absurd none (agree other member')
      · exact ⟨agree, zero, clean lane member⟩

/-- A warp of 32 with two active lanes, whose ballots have no stray bits. -/
def twoLanes (first second : ℕ) : SubGroup 32 where
  groupBallot := fun holds =>
    (if holds first then BitVec.twoPow _ first else 0) |||
      (if holds second then BitVec.twoPow _ second else 0)

/-- The bits of a ballot are those of active lanes. -/
private theorem twoLanes_bit {first second : ℕ} (inside : first < 32) (inside' : second < 32)
    (holds : ℕ → Bool) (lane : ℕ) :
    ((twoLanes first second).groupBallot holds).getLsbD lane = true ↔
      (lane = first ∨ lane = second) ∧ holds lane = true := by
  have one (lane' : ℕ) (inside : lane' < maskWidth 32) :
      (if holds lane' then BitVec.twoPow (maskWidth 32) lane' else 0).getLsbD lane = true ↔
        lane = lane' ∧ holds lane = true := by
    split
    · rename_i vote
      rw [BitVec.getLsbD_twoPow, decide_eq_true inside, Bool.true_and, decide_eq_true_eq]
      constructor
      · rintro rfl
        exact ⟨rfl, vote⟩
      · rintro ⟨rfl, _⟩
        rfl
    · rename_i against
      simp only [BitVec.ofNat_eq_ofNat, BitVec.getLsbD_zero, Bool.false_eq_true, false_iff, not_and]
      rintro rfl
      exact against
  unfold twoLanes
  rw [BitVec.getLsbD_or, Bool.or_eq_true, one first inside, one second inside', or_and_right]

private theorem twoLanes_sees {first second : ℕ} (inside : first < 32) (inside' : second < 32)
    (predicate : ℕ → BitVec 32) :
    Sees {lane | lane = first ∨ lane = second} predicate (twoLanes first second) := by
  refine ⟨fun lane => ?_, fun lane member => ?_⟩
  · exact (twoLanes_bit inside inside' _ lane).trans (and_iff_left rfl)
  · refine (twoLanes_bit inside inside' _ lane).trans ((and_iff_right member).trans ?_)
    exact decide_eq_true_iff

/-- Lanes 0 and 2 of a warp vote for. -/
theorem votes_pair : All.op (twoLanes 0 2) (fun _ => 1) = true ∧
    Any.op (twoLanes 0 2) (fun _ => 1) = true := by
  have sees := @twoLanes_sees 0 2 (by decide) (by decide) fun _ => 1
  have clean (lane : ℕ) (_ : lane ∈ {lane | lane = 0 ∨ lane = 2}) (other : ℕ)
      (away : other ∉ {lane | lane = 0 ∨ lane = 2}) :
      (predicateMask (twoLanes 0 2) fun _ => 1).getLsbD other = false := by
    rw [← Bool.not_eq_true]
    exact mt (fun set => ((twoLanes_bit (by decide) (by decide) _ other).mp set).1) away
  have votes :=
    (votes_iff (fun _ _ => sees) ⟨0, .inl rfl⟩).mpr (.inr ⟨.inl rfl, clean⟩) 0 (.inl rfl)
  exact ⟨votes.1.mpr fun _ _ => by decide, votes.2.mpr ⟨0, .inl rfl, by decide⟩⟩

/-- Lane 1 alone votes for, and `All` says no. -/
theorem votes_lost :
    ¬ ∀ (warpSize : ℕ) (active : Set ℕ) (predicate : ℕ → BitVec 32)
        (subGroups : ℕ → SubGroup warpSize), active.Nonempty →
      (∀ lane ∈ active, Sees active predicate (subGroups lane)) → ∀ lane ∈ active,
        (All.op (subGroups lane) predicate = true ↔ ∀ other ∈ active, predicate other ≠ 0) ∧
          (Any.op (subGroups lane) predicate = true ↔ ∃ other ∈ active, predicate other ≠ 0) := by
  intro law
  have sees := @twoLanes_sees 1 1 (by decide) (by decide) fun _ => 1
  have votes := law 32 {lane | lane = 1 ∨ lane = 1} (fun _ => 1) (fun _ => twoLanes 1 1)
    ⟨1, .inl rfl⟩ (fun _ _ => sees) 1 (.inl rfl)
  have all := votes.1.mpr fun _ _ => by decide
  revert all
  decide

end Alpaka.OneApi
