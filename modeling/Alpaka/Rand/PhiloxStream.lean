import Alpaka.Rand.PhiloxEngine

/-! # The two Philox engines deliver the same stream

The vector engine hands out whole blocks, the single-value engine their words.
Both constructors discard the first block; the vector engine drops it, the
single-value engine still hands out its words. From the fifth number on, the
single-value engine therefore delivers the concatenated vectors of the vector
engine (`Alpaka.Philox.sameStream`).
-/

namespace Alpaka.Philox

open Math.BlockStream

namespace PhiloxVector

/-- The vectors that the calls of `operator()` return. -/
def vectors (rounds : ℕ) (state : VectorState) (call : ℕ) : Counter :=
  (nextVector rounds (after rounds call state)).1

/-- The first so many vectors, one behind the other. -/
def concatenated (rounds : ℕ) (state : VectorState) (count : ℕ) : List (BitVec 32) :=
  (List.range count).flatMap fun call => List.ofFn (vectors rounds state call)

private theorem after_succ (rounds calls : ℕ) (state : VectorState) :
    after rounds (calls + 1) state = (nextVector rounds (after rounds calls state)).2 :=
  Function.iterate_succ_apply' _ calls state

/-- No call touches the key. -/
theorem after_key (rounds calls : ℕ) (state : VectorState) :
    (after rounds calls state).key = state.key := by
  induction calls with
  | zero => rfl
  | succ calls ih =>
      rw [after_succ]
      exact ih

/-- A call returns the block behind the counter it finds. -/
theorem vectors_eq_block {number : ℕ} {state : VectorState}
    (sameCounter : state.counter = counterOf number) (rounds call : ℕ) :
    vectors rounds state call = block rounds state.key (number + call + 1) := by
  unfold vectors nextVector block
  simp only [after_counter rounds call sameCounter, after_key, advanceCounter_counterOf]

end PhiloxVector

/-- The numbers that the single-value engine returns from one call on. -/
def PhiloxSingle.numbers (rounds : ℕ) (state : SingleState) (first count : ℕ) :
    List (BitVec 32) :=
  (List.range count).map fun call => PhiloxSingle.outputs rounds state (first + call)

namespace PhiloxSingle

private theorem numbers_add (rounds : ℕ) (state : SingleState) (first count further : ℕ) :
    numbers rounds state first (count + further) =
      numbers rounds state first count ++ numbers rounds state (first + count) further := by
  unfold numbers
  simp only [List.range_add, List.map_append, List.map_map, Function.comp_def, Nat.add_assoc]

/-- From the begin of a block on, four calls hand out its words. -/
theorem numbers_block {rounds : ℕ} {key : Key} {number : ℕ} {state : SingleState}
    (inBlock : InBlock rounds key number 0 state) (blocks : ℕ) :
    numbers rounds state (4 * blocks) 4 = List.ofFn (block rounds key (number + blocks)) := by
  have word (position : ℕ) (inside : position < 4) :
      outputs rounds state (4 * blocks + position) =
        block rounds key (number + blocks) ⟨position, inside⟩ := by
    rw [outputs_of_inBlock inBlock, stream_add_mul]
    unfold stream
    simp only [Nat.div_eq_of_lt inside, Nat.mod_eq_of_lt inside, Nat.add_zero]
  have firstWord : outputs rounds state (4 * blocks) = block rounds key (number + blocks) 0 :=
    word 0 (by decide)
  unfold numbers
  simp [List.ofFn_succ, List.range_succ, word, firstWord]

end PhiloxSingle

/-- **One stream.** Behind its first four numbers the single-value engine delivers
the concatenated vectors of the vector engine. -/
theorem sameStream (rounds : ℕ) (seed subsequence : BitVec 64) (count : ℕ) :
    PhiloxSingle.numbers rounds (PhiloxSingle.make rounds seed subsequence 0) 4 (4 * count) =
      PhiloxVector.concatenated rounds (PhiloxVector.make rounds seed subsequence 0) count := by
  induction count with
  | zero => rfl
  | succ count ih =>
      have inBlock := PhiloxSingle.make_inBlock rounds seed subsequence 0
      have words := PhiloxSingle.numbers_block inBlock (count + 1)
      have vector := PhiloxVector.vectors_eq_block
        (PhiloxVector.make_counter rounds seed subsequence 0) rounds count
      unfold PhiloxVector.concatenated at ih ⊢
      rw [show 4 * (count + 1) = 4 * count + 4 from rfl, PhiloxSingle.numbers_add,
        List.range_succ, List.flatMap_append, ← ih, List.flatMap_singleton, vector,
        show 4 + 4 * count = 4 * (count + 1) by omega, words]
      rfl

end Alpaka.Philox
