import Mathlib.Data.BitVec
import Alpaka.Vec

/-! # Boundaries of a volume

A direction names the lower, middle or upper part in every dimension. The iterator
over the directions is an odometer whose end is marked by components that are out of
bounds. It visits every direction once before it reaches the end
(`Alpaka.visits_directions`). Their number is computed in 32 bits and wraps around when
it does not fit (`Alpaka.length_iff`).
-/

namespace Alpaka

/-- The types of boundary. The last one is invalid. -/
inductive BoundaryType
  | lower
  | middle
  | upper
  | oob
  deriving DecidableEq

variable {n : ℕ}

structure BoundaryDirection (n : ℕ) where
  data : Vec BoundaryType n
  lowerHaloSize : Vec ℕ n
  upperHaloSize : Vec ℕ n
  deriving DecidableEq

/-- No component is out of bounds. -/
def BoundaryDirection.Valid (direction : BoundaryDirection n) : Prop :=
  ∀ d, direction.data d ≠ .oob

structure BoundaryDirectionIter (n : ℕ) where
  boundaries : BoundaryDirection n
  lowerHaloSizes : Vec ℕ n
  upperHaloSizes : Vec ℕ n
  deriving DecidableEq

/-- The loop of the increment, from a component towards the slower ones: the components
afterwards, and whether all of them were full. A component that is out of bounds violates
an assertion. -/
def BoundaryDirectionIter.advance : (i : ℕ) → i ≤ n → Vec BoundaryType n →
    Option (Vec BoundaryType n × Bool)
  | 0, _, data => some (data, true)
  | i + 1, inside, data =>
      match data ⟨i, inside⟩ with
      | .lower => some (Function.update data ⟨i, inside⟩ .middle, false)
      | .middle => some (Function.update data ⟨i, inside⟩ .upper, false)
      | .upper => advance i (Nat.le_of_succ_le inside) (Function.update data ⟨i, inside⟩ .lower)
      | .oob => none

/-- The increment. -/
def BoundaryDirectionIter.next (iter : BoundaryDirectionIter n) :
    Option (BoundaryDirectionIter n) :=
  (advance n le_rfl iter.boundaries.data).map fun (data, oob) =>
    if oob then
      { iter with boundaries := ⟨fun _ => .oob, iter.lowerHaloSizes, iter.upperHaloSizes⟩ }
    else { iter with boundaries := { iter.boundaries with data := data } }

structure BoundaryDirectionsContainer (n : ℕ) where
  lowerHaloSizes : Vec ℕ n
  upperHaloSizes : Vec ℕ n

/-- The iterator at some components. -/
def BoundaryDirectionsContainer.at (container : BoundaryDirectionsContainer n)
    (data : Vec BoundaryType n) : BoundaryDirectionIter n :=
  ⟨⟨data, container.lowerHaloSizes, container.upperHaloSizes⟩, container.lowerHaloSizes,
    container.upperHaloSizes⟩

def BoundaryDirectionsContainer.begin (container : BoundaryDirectionsContainer n) :
    BoundaryDirectionIter n :=
  container.at fun _ => .lower

def BoundaryDirectionsContainer.end (container : BoundaryDirectionsContainer n) :
    BoundaryDirectionIter n :=
  container.at fun _ => .oob

/-- The integer power in 32 bits. -/
def ipow (base : BitVec 32) (exponent : ℕ) : BitVec 32 :=
  if exponent = 0 then 1
  else
    let result := ipow base (exponent / 2)
    let result := result * result
    if exponent % 2 ≠ 0 then result * base else result
termination_by exponent

/-- The number of directions. -/
def BoundaryDirectionsContainer.length (n : ℕ) : BitVec 32 := ipow 3 n

/-- The iterator after a number of increments. -/
def BoundaryDirectionsContainer.iterate (container : BoundaryDirectionsContainer n) :
    ℕ → Option (BoundaryDirectionIter n)
  | 0 => some container.begin
  | count + 1 => (container.iterate count).bind BoundaryDirectionIter.next

/-! ## Counting the directions -/

/-- The digit that a component stands for. -/
def BoundaryType.digit : BoundaryType → ℕ
  | .lower => 0
  | .middle => 1
  | .upper => 2
  | .oob => 3

/-- The number of a direction. -/
def rank (data : Vec BoundaryType (n + 1)) : ℕ :=
  Math.MixedRadix.value (fun _ => 3) fun d => (data d).digit

private theorem weight_three (d : Fin (n + 1)) :
    Math.MixedRadix.weight (fun _ => 3) d = 3 ^ (n - (d : ℕ)) := by
  unfold Math.MixedRadix.weight
  rw [Finset.prod_const, Fin.card_Ioi, Nat.add_sub_cancel]

private theorem digit_lt {type : BoundaryType} (valid : type ≠ .oob) : type.digit < 3 := by
  cases type with
  | oob => exact absurd rfl valid
  | _ => decide

private theorem digit_injective : Function.Injective BoundaryType.digit := by
  intro first second same
  cases first <;> cases second <;> first | rfl | cases same

private theorem rank_lt {data : Vec BoundaryType (n + 1)} (valid : ∀ d, data d ≠ .oob) :
    rank data < 3 ^ (n + 1) := by
  have below : rank data < ∏ _ : Fin (n + 1), 3 :=
    Math.MixedRadix.value_lt fun d => digit_lt (valid d)
  rwa [Finset.prod_const, Finset.card_univ, Fintype.card_fin] at below

/-- Different directions have different numbers. -/
theorem rank_injective {first second : Vec BoundaryType (n + 1)} (valid : ∀ d, first d ≠ .oob)
    (valid' : ∀ d, second d ≠ .oob) (same : rank first = rank second) : first = second := by
  have digits := (Math.MixedRadix.value_bijOn fun _ : Fin (n + 1) => 3).injOn
    (fun d => digit_lt (valid d)) (fun d => digit_lt (valid' d)) same
  funext d
  exact digit_injective (congrFun digits d)

private theorem rank_lower : rank (fun _ : Fin (n + 1) => .lower) = 0 := by
  unfold rank Math.MixedRadix.value
  exact Finset.sum_eq_zero fun d _ => Nat.zero_mul _

private theorem rank_update (data : Vec BoundaryType (n + 1)) (d : Fin (n + 1))
    (type : BoundaryType) :
    rank (Function.update data d type) + (data d).digit * 3 ^ (n - (d : ℕ)) =
      rank data + type.digit * 3 ^ (n - (d : ℕ)) := by
  have digits : (fun e => (Function.update data d type e).digit) =
      Function.update (fun e => (data e).digit) d type.digit :=
    Function.comp_update BoundaryType.digit data d type
  have values := Math.MixedRadix.value_update (fun _ => 3) (fun e => (data e).digit) d type.digit
  rw [weight_three, ← digits] at values
  exact values

private theorem update_valid {data : Vec BoundaryType n} (valid : ∀ d, data d ≠ .oob) (d : Fin n)
    {type : BoundaryType} (proper : type ≠ .oob) :
    ∀ e, Function.update data d type e ≠ .oob := by
  intro e
  by_cases same : e = d
  · rw [same, Function.update_self]
    exact proper
  · rw [Function.update_of_ne same]
    exact valid e

/-- The loop adds the worth of the component it starts with. A carry out of the slowest
component is worth all directions. -/
theorem advance_rank {i : ℕ} (inside : i ≤ n + 1) {data : Vec BoundaryType (n + 1)}
    (valid : ∀ d, data d ≠ .oob) :
    ∃ moved oob, BoundaryDirectionIter.advance i inside data = some (moved, oob) ∧
      (∀ d, moved d ≠ .oob) ∧
      rank moved + (if oob then 3 ^ (n + 1) else 0) = rank data + 3 ^ (n + 1 - i) := by
  induction i generalizing data with
  | zero => exact ⟨data, true, rfl, valid, rfl⟩
  | succ i ih =>
      have worth : n + 1 - (i + 1) = n - i := by omega
      have update := rank_update data ⟨i, inside⟩
      rw [worth]
      unfold BoundaryDirectionIter.advance
      cases type : data ⟨i, inside⟩ with
      | lower =>
          have changed := update .middle
          rw [type] at changed
          refine ⟨_, false, rfl, update_valid valid _ (by decide), ?_⟩
          simp only [BoundaryType.digit, Nat.zero_mul, Nat.one_mul, Nat.add_zero] at changed
          exact changed
      | middle =>
          have changed := update .upper
          rw [type] at changed
          refine ⟨_, false, rfl, update_valid valid _ (by decide), ?_⟩
          simp only [BoundaryType.digit, Bool.false_eq_true, if_false] at changed ⊢
          omega
      | upper =>
          have changed := update .lower
          rw [type] at changed
          obtain ⟨moved, oob, run, valid', total⟩ := ih (Nat.le_of_succ_le inside)
            (update_valid valid ⟨i, inside⟩ (show BoundaryType.lower ≠ .oob by decide))
          refine ⟨moved, oob, run, valid', ?_⟩
          have turn : n + 1 - i = n - i + 1 := by omega
          rw [turn, Nat.pow_succ 3 (n - i)] at total
          simp only [BoundaryType.digit] at changed
          omega
      | oob => exact absurd type (valid _)

/-- What one increment does to a direction that is not the last one. -/
theorem next_at (container : BoundaryDirectionsContainer (n + 1))
    {data : Vec BoundaryType (n + 1)} (valid : ∀ d, data d ≠ .oob)
    (more : rank data + 1 < 3 ^ (n + 1)) :
    ∃ moved, (container.at data).next = some (container.at moved) ∧
      (∀ d, moved d ≠ .oob) ∧ rank moved = rank data + 1 := by
  obtain ⟨moved, oob, run, valid', total⟩ := advance_rank le_rfl valid
  rw [Nat.sub_self, Nat.pow_zero] at total
  have inside : oob = false := by
    cases oob with
    | false => rfl
    | true =>
        rw [if_pos rfl] at total
        omega
  subst inside
  refine ⟨moved, ?_, valid', total⟩
  unfold BoundaryDirectionIter.next BoundaryDirectionsContainer.at
  rw [run]
  rfl

/-- The increment of the last direction reaches the end. -/
theorem next_last (container : BoundaryDirectionsContainer (n + 1))
    {data : Vec BoundaryType (n + 1)} (valid : ∀ d, data d ≠ .oob)
    (last : rank data + 1 = 3 ^ (n + 1)) : (container.at data).next = some container.end := by
  obtain ⟨moved, oob, run, valid', total⟩ := advance_rank le_rfl valid
  rw [Nat.sub_self, Nat.pow_zero, last] at total
  have outside : oob = true := by
    cases oob with
    | true => rfl
    | false =>
        have below := rank_lt valid'
        rw [if_neg Bool.false_ne_true] at total
        omega
  subst outside
  unfold BoundaryDirectionIter.next BoundaryDirectionsContainer.at
  rw [run]
  rfl

/-- The end is not incremented. -/
theorem next_end (container : BoundaryDirectionsContainer (n + 1)) :
    container.end.next = none := rfl

/-- The iterator after fewer increments than there are directions. -/
theorem iterate_at (container : BoundaryDirectionsContainer (n + 1)) {count : ℕ}
    (below : count < 3 ^ (n + 1)) :
    ∃ data, container.iterate count = some (container.at data) ∧ (∀ d, data d ≠ .oob) ∧
      rank data = count := by
  induction count with
  | zero => exact ⟨fun _ => .lower, rfl, fun _ => BoundaryType.noConfusion, rank_lower⟩
  | succ count ih =>
      obtain ⟨data, reached, valid, number⟩ := ih (Nat.lt_of_succ_lt below)
      obtain ⟨moved, step, valid', number'⟩ := next_at container valid (by rwa [number])
      refine ⟨moved, ?_, valid', by rw [number', number]⟩
      rw [BoundaryDirectionsContainer.iterate, reached]
      exact step

private theorem iterate_end (container : BoundaryDirectionsContainer (n + 1)) :
    container.iterate (3 ^ (n + 1)) = some container.end := by
  have positive : 0 < 3 ^ (n + 1) := Nat.pow_pos (by decide)
  obtain ⟨data, reached, valid, number⟩ :=
    iterate_at container (show 3 ^ (n + 1) - 1 < 3 ^ (n + 1) by omega)
  have step := next_last container valid (by omega)
  rw [show 3 ^ (n + 1) = 3 ^ (n + 1) - 1 + 1 by omega, BoundaryDirectionsContainer.iterate,
    reached]
  exact step

theorem iterate_after (container : BoundaryDirectionsContainer (n + 1)) (count : ℕ) :
    container.iterate (3 ^ (n + 1) + 1 + count) = none := by
  induction count with
  | zero =>
      rw [Nat.add_zero (3 ^ (n + 1) + 1), BoundaryDirectionsContainer.iterate, iterate_end]
      exact next_end container
  | succ count ih =>
      rw [← Nat.add_assoc, BoundaryDirectionsContainer.iterate, ih]
      rfl

private theorem at_injective (container : BoundaryDirectionsContainer n)
    {first second : Vec BoundaryType n} (same : container.at first = container.at second) :
    first = second :=
  congrArg (fun iter => iter.boundaries.data) same

/-- What it means that the iterator visits all directions in some number of steps. -/
structure Visits (container : BoundaryDirectionsContainer n) (count : ℕ) : Prop where
  reachesEnd : ∀ steps, container.iterate steps = some container.end ↔ steps = count
  proper : ∀ steps < count, ∃ direction : BoundaryDirection n, direction.Valid ∧
    container.iterate steps = some (container.at direction.data)
  once : ∀ direction : BoundaryDirection n, direction.Valid →
    ∃! steps, steps < count ∧ container.iterate steps = some (container.at direction.data)

/-- The iterator visits every direction exactly once. -/
theorem visits_directions (container : BoundaryDirectionsContainer (n + 1)) :
    Visits container (3 ^ (n + 1)) := by
  refine ⟨fun steps => ⟨fun reached => ?_, fun same => same ▸ iterate_end container⟩,
    fun steps below => ?_, fun direction valid => ⟨rank direction.data, ⟨rank_lt valid, ?_⟩, ?_⟩⟩
  · rcases Nat.lt_trichotomy steps (3 ^ (n + 1)) with before | same | after
    · obtain ⟨data, reached', valid, -⟩ := iterate_at container before
      have equal := at_injective container (Option.some.inj (reached.symm.trans reached'))
      exact absurd (congrFun equal 0).symm (valid 0)
    · exact same
    · have stopped := iterate_after container (steps - (3 ^ (n + 1) + 1))
      rw [Nat.add_sub_cancel' after, reached] at stopped
      cases stopped
  · obtain ⟨data, reached, valid, -⟩ := iterate_at container below
    exact ⟨⟨data, container.lowerHaloSizes, container.upperHaloSizes⟩, valid, reached⟩
  · obtain ⟨data, reached, valid', number⟩ := iterate_at container (rank_lt valid)
    rw [reached, rank_injective valid' valid number]
  · rintro steps ⟨below, reached⟩
    obtain ⟨data, reached', -, number⟩ := iterate_at container below
    have equal := at_injective container (Option.some.inj (reached.symm.trans reached'))
    rw [equal, number]

/-! ## The number of directions in 32 bits -/

private theorem ipow_eq (base : BitVec 32) (exponent : ℕ) :
    ipow base exponent = base ^ exponent := by
  induction exponent using Nat.strong_induction_on with
  | h exponent ih =>
      unfold ipow
      by_cases zero : exponent = 0
      · rw [if_pos zero, zero]
        rfl
      · have halves := Nat.div_add_mod exponent 2
        rw [if_neg zero, ih (exponent / 2) (by omega)]
        dsimp only
        rw [← pow_add, ← Nat.two_mul]
        by_cases odd : exponent % 2 ≠ 0
        · rw [if_pos odd, ← pow_succ]
          congr 1
          omega
        · rw [if_neg odd]
          congr 1
          omega

private theorem toNat_three_pow (exponent : ℕ) :
    ((3 : BitVec 32) ^ exponent).toNat = 3 ^ exponent % 2 ^ 32 := by
  induction exponent with
  | zero => rfl
  | succ exponent ih =>
      rw [pow_succ, BitVec.toNat_mul, ih, pow_succ]
      exact Nat.mod_mul_mod _ _ _

/-- The length is the number of directions exactly when that has 32 bits. -/
theorem length_iff (n : ℕ) :
    (BoundaryDirectionsContainer.length n).toNat = 3 ^ n ↔ 3 ^ n < 2 ^ 32 := by
  unfold BoundaryDirectionsContainer.length
  rw [ipow_eq, toNat_three_pow]
  constructor
  · intro same
    rw [← same]
    exact Nat.mod_lt _ (by decide)
  · exact Nat.mod_eq_of_lt

end Alpaka
