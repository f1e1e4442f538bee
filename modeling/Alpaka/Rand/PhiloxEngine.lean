import Alpaka.Math.BlockStream
import Alpaka.Rand.Philox

/-! # The Philox engines

The single-value engine hands out the words of one block after the other, the
vector engine whole blocks. Both start from the counter that `skipSubsequence`
and `skip4` leave. The counter is the intended one exactly when `skip4` adds no
stray carry (`Alpaka.Philox.counter_iff`). The constructor of the single-value
engine throws away the position within a block, so that an offset skips the
numbers it should only if it is made up of whole blocks
(`Alpaka.Philox.offset_iff`).
-/

namespace Alpaka.Philox

open Math.BlockStream

attribute [local instance (2000)] neZero_two neZero_four

/-- The state of the single-value engine. -/
structure SingleState where
  counter : Counter
  key : Key
  result : Counter
  position : BitVec 32
  deriving DecidableEq

/-- The state of the vector engine. -/
structure VectorState where
  counter : Counter
  key : Key
  deriving DecidableEq

namespace PhiloxSingle

/-- Advance the internal counter to the next value and store its block. -/
def advanceState (rounds : ℕ) (state : SingleState) : SingleState :=
  let counter := advanceCounter state.counter
  { state with counter := counter, result := nRounds rounds counter state.key, position := 0 }

/-- Element zero of the shifted result is the next number. -/
def shiftResult (result : Counter) : Counter := ![result 1, result 2, result 3, result 3]

/-- Get the next random number and advance the internal state. -/
def nextNumber (rounds : ℕ) (state : SingleState) : BitVec 32 × SingleState :=
  let result := state.result 0
  let state := { state with position := state.position + 1 }
  (result,
    if state.position = 4 then advanceState rounds state
    else { state with result := shiftResult state.result })

/-- Skips the next `offset` numbers. -/
def skip (offset : BitVec 64) (state : SingleState) : SingleState :=
  let position := state.position + (offset &&& 3).setWidth 32
  let offset := offset + if position < 4 then 0 else 4
  let position := position - if position < 4 then 0 else 4
  { state with
    position := position
    result := shiftResult^[position.toNat] state.result
    counter := skip4 (offset / 4) state.counter }

/-- The state before anything is skipped. -/
def initialState (seed : BitVec 64) : SingleState :=
  ⟨![0, 0, 0, 0], ![low32Bits seed, high32Bits seed], ![0, 0, 0, 0], 0⟩

/-- The constructor. -/
def make (rounds : ℕ) (seed subsequence offset : BitVec 64) : SingleState :=
  let state := initialState seed
  let state := { state with counter := skipSubsequence subsequence state.counter }
  advanceState rounds (skip offset state)

/-- The state after a number of calls of `operator()`. -/
def after (rounds calls : ℕ) (state : SingleState) : SingleState :=
  (fun current => (nextNumber rounds current).2)^[calls] state

/-- The output sequence: the numbers that the calls of `operator()` return. -/
def outputs (rounds : ℕ) (state : SingleState) (call : ℕ) : BitVec 32 :=
  (nextNumber rounds (after rounds call state)).1

/-- The counter of a result block, which lasts for four calls. -/
def blockCounter (rounds : ℕ) (state : SingleState) (block : ℕ) : Counter :=
  (after rounds (4 * block) state).counter

end PhiloxSingle

namespace PhiloxVector

/-- Get the next block and advance the internal state. -/
def nextVector (rounds : ℕ) (state : VectorState) : Counter × VectorState :=
  let counter := advanceCounter state.counter
  (nRounds rounds counter state.key, { state with counter := counter })

/-- Skips the next `offset` vectors. -/
def skip (offset : BitVec 64) (state : VectorState) : VectorState :=
  { state with counter := skip4 offset state.counter }

def initialState (seed : BitVec 64) : VectorState :=
  ⟨![0, 0, 0, 0], ![low32Bits seed, high32Bits seed]⟩

/-- The constructor. -/
def make (rounds : ℕ) (seed subsequence offset : BitVec 64) : VectorState :=
  let state := initialState seed
  let state := { state with counter := skipSubsequence subsequence state.counter }
  (nextVector rounds (skip offset state)).2

/-- The state after a number of calls of `operator()`. -/
def after (rounds calls : ℕ) (state : VectorState) : VectorState :=
  (fun current => (nextVector rounds current).2)^[calls] state

/-- The counter of a result block, the one that the call for it advances to. -/
def blockCounter (rounds : ℕ) (state : VectorState) (block : ℕ) : Counter :=
  (after rounds (block + 1) state).counter

end PhiloxVector

/-! ## The output sequence of the single-value engine -/

/-- The key of a seed. -/
def keyOf (seed : BitVec 64) : Key := ![low32Bits seed, high32Bits seed]

/-- The block of a counter, as a number. -/
def block (rounds : ℕ) (key : Key) (number : ℕ) : Fin 4 → BitVec 32 :=
  nRounds rounds (counterOf number) key

/-- Blocks repeat with the counter, and different counters have different
blocks. -/
theorem block_wraps (rounds : ℕ) (key : Key) : Wraps (block rounds key) 128 where
  block_eq_iff := fun first second => by
    rw [← counterOf_eq_iff]
    exact (nRounds_injective rounds key).eq_iff

namespace PhiloxSingle

/-- The state within a block: so many words of the block have been handed out,
and the rest has moved to the front. -/
structure InBlock (rounds : ℕ) (key : Key) (number position : ℕ) (state : SingleState) : Prop where
  sameCounter : state.counter = counterOf number
  sameKey : state.key = key
  samePosition : state.position = BitVec.ofNat 32 position
  rest : ∀ i : Fin 4, ∀ inside : position + i < 4,
    state.result i = block rounds key number ⟨position + i, inside⟩

variable {rounds : ℕ} {key : Key} {number position : ℕ} {state : SingleState}

/-- Advancing the state enters the next block. -/
theorem advanceState_inBlock (sameCounter : state.counter = counterOf number)
    (sameKey : state.key = key) :
    InBlock rounds key (number + 1) 0 (advanceState rounds state) where
  sameCounter := by
    unfold advanceState
    rw [sameCounter]
    exact advanceCounter_counterOf number
  sameKey := sameKey
  samePosition := rfl
  rest := fun i inside => by
    unfold advanceState block
    rw [sameCounter, sameKey, advanceCounter_counterOf]
    simp only [Nat.zero_add]

/-- A call within a block hands out the next word. -/
theorem nextNumber_inBlock (inside : position < 4)
    (inBlock : InBlock rounds key number position state) :
    (nextNumber rounds state).1 = block rounds key number ⟨position, inside⟩ ∧
      InBlock rounds key (number + (position + 1) / 4) ((position + 1) % 4)
        (nextNumber rounds state).2 := by
  refine ⟨inBlock.rest 0 inside, ?_⟩
  have last : state.position + 1 = 4 ↔ position = 3 := by
    rw [inBlock.samePosition, ← BitVec.toNat_inj, BitVec.toNat_add]
    simp only [BitVec.ofNat_eq_ofNat, BitVec.toNat_ofNat]
    omega
  unfold nextNumber
  dsimp only
  by_cases full : position = 3
  · subst full
    rw [if_pos (last.mpr rfl)]
    exact advanceState_inBlock inBlock.sameCounter inBlock.sameKey
  · rw [if_neg (mt last.mp full), Nat.div_eq_of_lt (by omega), Nat.mod_eq_of_lt (by omega),
      Nat.add_zero]
    refine ⟨inBlock.sameCounter, inBlock.sameKey, ?_, fun i below => ?_⟩
    · dsimp only
      rw [inBlock.samePosition]
      exact (BitVec.ofNat_add position 1).symm
    · have next (j : Fin 4) (ahead : j.val = i + 1) :
          state.result j = block rounds key number ⟨position + 1 + i, below⟩ := by
        rw [inBlock.rest j (by omega)]
        congr 2
        omega
      match i with
      | 0 => exact next 1 rfl
      | 1 => exact next 2 rfl
      | 2 => exact next 3 rfl
      | 3 =>
          change position + 1 + 3 < 4 at below
          omega

/-- After any number of calls the engine is within the block it has come to. -/
theorem after_inBlock (inBlock : InBlock rounds key number 0 state) (calls : ℕ) :
    InBlock rounds key (number + calls / 4) (calls % 4) (after rounds calls state) := by
  induction calls with
  | zero => exact inBlock
  | succ calls ih =>
      have step := (nextNumber_inBlock (Nat.mod_lt _ (by decide)) ih).2
      unfold after
      rw [Function.iterate_succ_apply']
      rw [Nat.add_assoc, show calls / 4 + (calls % 4 + 1) / 4 = (calls + 1) / 4 by omega,
        show (calls % 4 + 1) % 4 = (calls + 1) % 4 by omega] at step
      exact step

/-- **The output sequence.** From the begin of a block on, the calls hand out the
words of consecutive blocks. -/
theorem outputs_of_inBlock (inBlock : InBlock rounds key number 0 state) (call : ℕ) :
    outputs rounds state call = stream (block rounds key) number call :=
  (nextNumber_inBlock (Nat.mod_lt _ (by decide)) (after_inBlock inBlock call)).1

end PhiloxSingle

/-! ## Where the engines start -/

/-- The number of the counter that `skipSubsequence` and `skip4` leave. -/
def startOf (subsequence blocks : BitVec 64) : ℕ :=
  2 ^ 64 * subsequence.toNat + blocks.toNat +
    if low32Bits blocks < low32Bits subsequence then 2 ^ 96 else 0

private theorem skipped_counter (subsequence blocks : BitVec 64) :
    skip4 blocks (skipSubsequence subsequence ![0, 0, 0, 0]) =
      counterOf (startOf subsequence blocks) := by
  rw [skipSubsequence_zero, skip4_counterOf]
  rfl

/-- From the begin of a block, an offset skips its whole blocks. -/
theorem PhiloxSingle.skip_counter {state : SingleState} (fresh : state.position = 0#32)
    (offset : BitVec 64) :
    (PhiloxSingle.skip offset state).counter = skip4 (offset / 4) state.counter := by
  have small : state.position + (offset &&& 3).setWidth 32 < 4 := by
    have mask : (3 : BitVec 64).toNat = 2 ^ 2 - 1 := rfl
    rw [fresh, BitVec.lt_def, BitVec.zero_add, BitVec.toNat_setWidth, BitVec.toNat_and, mask,
      Nat.and_two_pow_sub_one_eq_mod]
    exact (Nat.mod_le _ _).trans_lt (Nat.mod_lt _ (by decide))
  unfold PhiloxSingle.skip
  dsimp only
  rw [if_pos small, show offset + 0 = offset from BitVec.add_zero offset]

/-- The constructor of the single-value engine, whatever the offset, ends at the
begin of a block. -/
theorem PhiloxSingle.make_inBlock (rounds : ℕ) (seed subsequence offset : BitVec 64) :
    PhiloxSingle.InBlock rounds (keyOf seed) (startOf subsequence (offset / 4) + 1) 0
      (PhiloxSingle.make rounds seed subsequence offset) := by
  apply PhiloxSingle.advanceState_inBlock
  · rw [PhiloxSingle.skip_counter rfl]
    exact skipped_counter subsequence (offset / 4)
  · rfl

/-- Two starts differ by their blocks alone exactly when both or none have the stray
carry. -/
theorem startOf_modEq_iff (subsequence : BitVec 64) {blocks further : BitVec 64} {skipped : ℕ}
    (ahead : further.toNat = blocks.toNat + skipped) :
    startOf subsequence blocks + 1 + skipped ≡ startOf subsequence further + 1 [MOD 2 ^ 128] ↔
      (low32Bits blocks < low32Bits subsequence ↔
        low32Bits further < low32Bits subsequence) := by
  unfold startOf Nat.ModEq
  rw [ahead]
  by_cases before : low32Bits blocks < low32Bits subsequence <;>
    by_cases behind : low32Bits further < low32Bits subsequence <;>
      simp only [before, behind, if_true, if_false, iff_true, iff_false, not_true] <;> omega

/-- **The offset law.** An engine that was made with an offset and then called
`count` times goes on like one that was made with both skipped exactly when whole
blocks are called for and the stray carry is the same for both offsets. -/
theorem offset_iff (rounds : ℕ) (seed subsequence offset count : BitVec 64)
    (fits : offset.toNat + count.toNat < 2 ^ 64) :
    (∀ call, PhiloxSingle.outputs rounds (PhiloxSingle.after rounds count.toNat
        (PhiloxSingle.make rounds seed subsequence offset)) call =
      PhiloxSingle.outputs rounds
        (PhiloxSingle.make rounds seed subsequence (offset + count)) call) ↔
      count.toNat % 4 = 0 ∧
        (low32Bits (offset / 4) < low32Bits subsequence ↔
          low32Bits ((offset + count) / 4) < low32Bits subsequence) := by
  have first := PhiloxSingle.outputs_of_inBlock
    (PhiloxSingle.make_inBlock rounds seed subsequence offset)
  have second := PhiloxSingle.outputs_of_inBlock
    (PhiloxSingle.make_inBlock rounds seed subsequence (offset + count))
  have later (call : ℕ) : PhiloxSingle.outputs rounds (PhiloxSingle.after rounds count.toNat
        (PhiloxSingle.make rounds seed subsequence offset)) call =
      PhiloxSingle.outputs rounds (PhiloxSingle.make rounds seed subsequence offset)
        (count.toNat + call) := by
    unfold PhiloxSingle.outputs PhiloxSingle.after
    rw [← Function.iterate_add_apply, Nat.add_comm]
  simp only [later, first, second]
  rw [stream_drop_iff (block_wraps rounds (keyOf seed)) (by decide)]
  refine and_congr_right fun whole => ?_
  apply startOf_modEq_iff
  rw [BitVec.toNat_udiv, BitVec.toNat_udiv, BitVec.toNat_add, Nat.mod_eq_of_lt fits]
  change (offset.toNat + count.toNat) / 4 = offset.toNat / 4 + count.toNat / 4
  omega

/-- The word that an offset of one skips is handed out nevertheless. -/
theorem offset_lost :
    ¬ ∀ seed subsequence offset count : BitVec 64, offset.toNat + count.toNat < 2 ^ 64 →
      ∀ call, PhiloxSingle.outputs 10 (PhiloxSingle.after 10 count.toNat
          (PhiloxSingle.make 10 seed subsequence offset)) call =
        PhiloxSingle.outputs 10 (PhiloxSingle.make 10 seed subsequence (offset + count)) call := by
  intro law
  have same := law 0 0 0 1 (by decide) 0
  revert same
  decide +kernel

/-- Two blocks are skipped as they should be. -/
theorem offset_twoBlocks :
    (16 : BitVec 64).toNat + (8 : BitVec 64).toNat < 2 ^ 64 ∧
      ∀ call, PhiloxSingle.outputs 10 (PhiloxSingle.after 10 8 (PhiloxSingle.make 10 7 3 16)) call =
        PhiloxSingle.outputs 10 (PhiloxSingle.make 10 7 3 24) call := by
  have fits : (16 : BitVec 64).toNat + (8 : BitVec 64).toNat < 2 ^ 64 := by decide
  exact ⟨fits, (offset_iff 10 7 3 16 8 fits).mpr (by decide)⟩

/-! ## Subsequences -/

theorem PhiloxVector.after_counter (rounds calls : ℕ) {number : ℕ} {state : VectorState}
    (sameCounter : state.counter = counterOf number) :
    (PhiloxVector.after rounds calls state).counter = counterOf (number + calls) := by
  induction calls with
  | zero => exact sameCounter
  | succ calls ih =>
      unfold PhiloxVector.after at ih ⊢
      rw [Function.iterate_succ_apply', ← Nat.add_assoc, ← advanceCounter_counterOf, ← ih]
      rfl

/-- The constructor of the vector engine discards the first block. -/
theorem PhiloxVector.make_counter (rounds : ℕ) (seed subsequence offset : BitVec 64) :
    (PhiloxVector.make rounds seed subsequence offset).counter =
      counterOf (startOf subsequence offset + 1) := by
  rw [← advanceCounter_counterOf, ← skipped_counter]
  rfl

/-- The stray carry keeps the subsequences apart: it is the same for subsequences
with the same fast word. -/
theorem subsequence_unique {first second blocks : BitVec 64} {i j : ℕ}
    (left : i < 2 ^ 64) (right : j < 2 ^ 64)
    (same : startOf first blocks + 1 + i ≡ startOf second blocks + 1 + j [MOD 2 ^ 128]) :
    first = second := by
  have firstBound := first.isLt
  have secondBound := second.isLt
  have word (x : BitVec 64) : low32Bits blocks < low32Bits x ↔
      blocks.toNat % 2 ^ 32 < x.toNat % 2 ^ 32 := by
    rw [BitVec.lt_def, toNat_low32Bits, toNat_low32Bits]
  apply BitVec.eq_of_toNat_eq
  unfold startOf Nat.ModEq at same
  simp only [word] at same
  split at same
  · split at same <;> omega
  · split at same <;> omega

/-- **The counters.** After `skipSubsequence` and `skip4` both engines have the
intended counter exactly when there is no stray carry. With or without it, two
subsequences have no counter in common among their first blocks. -/
theorem counter_iff (rounds : ℕ) (seed subsequence blocks : BitVec 64) :
    ((counterValue (skip4 blocks (skipSubsequence subsequence
          (PhiloxSingle.initialState seed).counter)) = 2 ^ 64 * subsequence.toNat + blocks.toNat ∧
      counterValue (skip4 blocks (skipSubsequence subsequence
          (PhiloxVector.initialState seed).counter)) = 2 ^ 64 * subsequence.toNat + blocks.toNat) ↔
      ¬ low32Bits blocks < low32Bits subsequence) ∧
    ∀ other offset : BitVec 64, other ≠ subsequence → ∀ i < 2 ^ 64, ∀ j < 2 ^ 64,
      PhiloxSingle.blockCounter rounds (PhiloxSingle.make rounds seed subsequence offset) i ≠
        PhiloxSingle.blockCounter rounds (PhiloxSingle.make rounds seed other offset) j ∧
      PhiloxVector.blockCounter rounds (PhiloxVector.make rounds seed subsequence offset) i ≠
        PhiloxVector.blockCounter rounds (PhiloxVector.make rounds seed other offset) j := by
  have single : (PhiloxSingle.initialState seed).counter = ![0, 0, 0, 0] := rfl
  have vector : (PhiloxVector.initialState seed).counter = ![0, 0, 0, 0] := rfl
  refine ⟨?_, fun other offset different i left j right => ⟨fun same => ?_, fun same => ?_⟩⟩
  · rw [single, vector, and_self, skipped_counter, value_counterOf]
    have subsequenceBound := subsequence.isLt
    have blocksBound := blocks.isLt
    unfold startOf
    by_cases stray : low32Bits blocks < low32Bits subsequence
    · simp only [stray, if_true, not_true, iff_false]
      omega
    · simp only [stray, if_false, not_false_iff, iff_true]
      omega
  · unfold PhiloxSingle.blockCounter at same
    rw [(PhiloxSingle.after_inBlock (PhiloxSingle.make_inBlock _ _ _ _) _).sameCounter,
      (PhiloxSingle.after_inBlock (PhiloxSingle.make_inBlock _ _ _ _) _).sameCounter,
      Nat.mul_div_cancel_left _ (by decide), Nat.mul_div_cancel_left _ (by decide),
      counterOf_eq_iff] at same
    exact different (subsequence_unique left right same).symm
  · unfold PhiloxVector.blockCounter at same
    rw [PhiloxVector.after_counter _ _ (PhiloxVector.make_counter _ _ _ _),
      PhiloxVector.after_counter _ _ (PhiloxVector.make_counter _ _ _ _),
      counterOf_eq_iff, ← Nat.add_assoc, ← Nat.add_assoc, Nat.ModEq.comm] at same
    exact different (subsequence_unique right left (Nat.ModEq.add_right_cancel' 1 same))

/-- The first subsequence starts where a much later one should. -/
theorem counter_stray :
    ¬ ∀ subsequence blocks : BitVec 64,
      counterValue (skip4 blocks (skipSubsequence subsequence
        (PhiloxSingle.initialState 0).counter)) = 2 ^ 64 * subsequence.toNat + blocks.toNat := by
  intro law
  have start := law 1 0
  revert start
  decide +kernel

/-- Subsequence zero gets its counters right and shares none with subsequence
one. -/
theorem counter_first :
    counterValue (skip4 5 (skipSubsequence 0 (PhiloxSingle.initialState 7).counter)) = 5 ∧
      PhiloxSingle.blockCounter 10 (PhiloxSingle.make 10 7 0 0) 3 ≠
        PhiloxSingle.blockCounter 10 (PhiloxSingle.make 10 7 1 0) 2 :=
  ⟨((counter_iff 10 7 0 5).1.mpr (by decide)).1,
    ((counter_iff 10 7 0 5).2 1 0 (by decide) 3 (by decide) 2 (by decide)).1⟩

end Alpaka.Philox
