import Alpaka.Rand.Philox

/-! # The number of rounds

The Philox function with `R` rounds shuffles `R` times and bumps the key in between.
The loop of `nRounds` runs `R` times behind the round that was peeled off, so there is
one round more. A round can be undone, and every pair of words belongs to one counter
that a round with the right key leaves as it is. These are the inputs for which the
surplus round does not show (`Alpaka.Philox.nRounds_eq_iff`).
-/

namespace Alpaka.Philox

attribute [local instance (2000)] neZero_two neZero_four

/-- The Philox function: round `i` takes the key bumped `i` times. -/
def philox (rounds : ℕ) (counter : Counter) (key : Key) : Counter :=
  (List.range rounds).foldl (fun counter i => singleRound counter (bumpKey^[i] key)) counter

private theorem philox_succ (rounds : ℕ) (counter : Counter) (key : Key) :
    philox (rounds + 1) counter key =
      singleRound (philox rounds counter key) (bumpKey^[rounds] key) := by
  unfold philox
  rw [List.range_succ, List.foldl_append]
  rfl

/-- The loop takes up where the rounds before it have stopped. -/
private theorem nRoundsLoop_philox (rounds before : ℕ) (counter : Counter) (key : Key) :
    nRoundsLoop rounds (bumpKey^[before] key) (philox (before + 1) counter key) =
      philox (before + 1 + rounds) counter key := by
  induction rounds generalizing before with
  | zero => rfl
  | succ rounds ih =>
      have next := ih (before + 1)
      rw [Function.iterate_succ_apply', philox_succ (before + 1), Function.iterate_succ_apply']
        at next
      rw [← Nat.add_assoc, Nat.add_right_comm, ← next]
      rfl

/-- There is one round more than configured. -/
theorem nRounds_eq_philox (rounds : ℕ) (counter : Counter) (key : Key) :
    nRounds rounds counter key = philox (rounds + 1) counter key := by
  have loop := nRoundsLoop_philox rounds 0 counter key
  rw [Nat.zero_add, Nat.add_comm 1 rounds] at loop
  exact loop

/-! ## Undoing a round -/

/-- The high half of the product of two words. -/
def highProduct (word multiplier : BitVec 32) : BitVec 32 :=
  (multiplyAndSplit64to32 (word.setWidth 64) (multiplier.setWidth 64)).1

private theorem singleRound_eq (counter : Counter) (key : Key) :
    singleRound counter key =
      ![highProduct (counter 2) multipliter4x32p1 ^^^ counter 1 ^^^ key 0,
        counter 2 * multipliter4x32p1,
        highProduct (counter 0) multipliter4x32p0 ^^^ counter 3 ^^^ key 1,
        counter 0 * multipliter4x32p0] := by
  rw [← low_product, ← low_product]
  rfl

/-- The inverses of the multipliers modulo `2 ^ 32`. -/
def inverse4x32p0 : BitVec 32 := 0x6D7CAE67#32

def inverse4x32p1 : BitVec 32 := 0x991A7CDB#32

/-- A round backwards. -/
def undoRound (counter : Counter) (key : Key) : Counter :=
  let word0 := counter 3 * inverse4x32p0
  let word2 := counter 1 * inverse4x32p1
  ![word0, highProduct word2 multipliter4x32p1 ^^^ (counter 0 ^^^ key 0), word2,
    highProduct word0 multipliter4x32p0 ^^^ (counter 2 ^^^ key 1)]

/-- Masks that are applied twice cancel. -/
private theorem xor_cancel (mask word key : BitVec 32) :
    mask ^^^ (mask ^^^ (word ^^^ key)) ^^^ key = word := by
  rw [← BitVec.xor_assoc, BitVec.xor_self, BitVec.zero_xor, BitVec.xor_assoc, BitVec.xor_self,
    BitVec.xor_zero]

private theorem singleRound_undoRound (counter : Counter) (key : Key) :
    singleRound (undoRound counter key) key = counter := by
  have inverse0 : inverse4x32p0 * multipliter4x32p0 = 1#32 := by decide
  have inverse1 : inverse4x32p1 * multipliter4x32p1 = 1#32 := by decide
  rw [singleRound_eq]
  unfold undoRound
  funext i
  match i with
  | 0 => exact xor_cancel _ _ _
  | 1 => exact (BitVec.mul_assoc _ _ _).trans (by rw [inverse1, BitVec.mul_one])
  | 2 => exact xor_cancel _ _ _
  | 3 => exact (BitVec.mul_assoc _ _ _).trans (by rw [inverse0, BitVec.mul_one])

private theorem singleRound_eq_iff (counter shuffled : Counter) (key : Key) :
    singleRound counter key = shuffled ↔ counter = undoRound shuffled key := by
  constructor
  · rintro rfl
    exact singleRound_injective key (singleRound_undoRound (singleRound counter key) key).symm
  · rintro rfl
    exact singleRound_undoRound shuffled key

/-- The rounds backwards, the last one first. -/
def undoRounds (rounds : ℕ) (counter : Counter) (key : Key) : Counter :=
  (List.range rounds).foldr (fun i counter => undoRound counter (bumpKey^[i] key)) counter

private theorem philox_eq_iff (rounds : ℕ) (counter shuffled : Counter) (key : Key) :
    philox rounds counter key = shuffled ↔ counter = undoRounds rounds shuffled key := by
  induction rounds generalizing shuffled with
  | zero => exact Iff.rfl
  | succ rounds ih =>
      rw [philox_succ, singleRound_eq_iff, ih]
      unfold undoRounds
      rw [List.range_succ, List.foldr_append]
      rfl

/-! ## What a round leaves as it is -/

/-- The key with which a round leaves the counter with the given words as it is. -/
def stillKey (word0 word2 : BitVec 32) : Key :=
  ![highProduct word2 multipliter4x32p1 ^^^ (word2 * multipliter4x32p1 ^^^ word0),
    highProduct word0 multipliter4x32p0 ^^^ (word0 * multipliter4x32p0 ^^^ word2)]

def stillCounter (word0 word2 : BitVec 32) : Counter :=
  ![word0, word2 * multipliter4x32p1, word2, word0 * multipliter4x32p0]

/-- Solving for the key. -/
private theorem xor_key_iff (mask word key result : BitVec 32) :
    mask ^^^ word ^^^ key = result ↔ key = mask ^^^ (word ^^^ result) := by
  constructor
  · rintro rfl
    rw [← BitVec.xor_assoc word, ← BitVec.xor_assoc word, BitVec.xor_comm word mask,
      BitVec.xor_assoc mask word word, BitVec.xor_self, BitVec.xor_zero, ← BitVec.xor_assoc,
      BitVec.xor_self, BitVec.zero_xor]
  · rintro rfl
    rw [← BitVec.xor_assoc mask word result, ← BitVec.xor_assoc, BitVec.xor_self,
      BitVec.zero_xor]

private theorem singleRound_still_iff (counter : Counter) (key : Key) :
    singleRound counter key = counter ↔
      ∃ word0 word2, key = stillKey word0 word2 ∧ counter = stillCounter word0 word2 := by
  rw [singleRound_eq]
  constructor
  · intro same
    have word1 := congrFun same 1
    have word3 := congrFun same 3
    have key0 := congrFun same 0
    have key1 := congrFun same 2
    simp only [Matrix.cons_val] at word1 word3 key0 key1
    refine ⟨counter 0, counter 2, ?_, ?_⟩
    · unfold stillKey
      rw [word1, word3, ← (xor_key_iff _ _ _ _).mp key0, ← (xor_key_iff _ _ _ _).mp key1]
      funext i
      match i with
      | 0 => rfl
      | 1 => rfl
    · unfold stillCounter
      rw [word1, word3]
      funext i
      match i with
      | 0 => rfl
      | 1 => rfl
      | 2 => rfl
      | 3 => rfl
  · rintro ⟨word0, word2, rfl, rfl⟩
    simp only [stillKey, stillCounter, Matrix.cons_val]
    rw [(xor_key_iff _ _ _ _).mpr rfl, (xor_key_iff _ _ _ _).mpr rfl]

/-- **The surplus round.** `nRounds` is the Philox function with the configured number
of rounds exactly for the inputs that come from a counter which the surplus round
leaves as it is, one for each pair of words. -/
theorem nRounds_eq_iff (rounds : ℕ) (counter : Counter) (key : Key) :
    nRounds rounds counter key = philox rounds counter key ↔
      ∃ word0 word2, bumpKey^[rounds] key = stillKey word0 word2 ∧
        counter = undoRounds rounds (stillCounter word0 word2) key := by
  rw [nRounds_eq_philox, philox_succ, singleRound_still_iff]
  simp only [philox_eq_iff]

/-- With ten rounds, counter zero and key zero. -/
theorem nRounds_surplus :
    ¬ ∀ rounds ≥ 1, ∀ (counter : Counter) (key : Key),
      nRounds rounds counter key = philox rounds counter key := by
  intro always
  exact absurd (always 10 (by decide) ![0, 0, 0, 0] ![0, 0]) (by decide)

end Alpaka.Philox
