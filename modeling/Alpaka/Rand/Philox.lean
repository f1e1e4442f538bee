import Alpaka.Vec
import Mathlib.Data.Nat.ModEq
import Mathlib.Data.BitVec

/-! # The Philox shuffle and its counter

Philox turns a 128-bit counter into four random words. The counter is kept as
four 32-bit words with hand-written carries. Advancing it by one is an addition
modulo `2 ^ 128`, and different counters are shuffled to different words
(`Alpaka.Philox.nRounds_injective`). Skipping ahead takes a carry into the
slowest word from the wrong place (`Alpaka.Philox.skip4_counterOf`).
-/

namespace Alpaka.Philox

attribute [local instance (2000)] neZero_two neZero_four

abbrev Counter := Vec (BitVec 32) 4

abbrev Key := Vec (BitVec 32) 2

def high32Bits (x : BitVec 64) : BitVec 32 := (x >>> 32).setWidth 32

def low32Bits (x : BitVec 64) : BitVec 32 := (x &&& 0xffffffff#64).setWidth 32

/-- Multiply and split the product into high and low 32 bits. -/
def multiplyAndSplit64to32 (a b : BitVec 64) : BitVec 32 × BitVec 32 :=
  let res64 := a * b
  (high32Bits res64, low32Bits res64)

def weyl64p0 : BitVec 64 := 0x9E3779B97F4A7C15#64

def weyl64p1 : BitVec 64 := 0xBB67AE8584CAA73B#64

def weyl32p0 : BitVec 32 := high32Bits weyl64p0

def weyl32p1 : BitVec 32 := high32Bits weyl64p1

def multipliter4x32p0 : BitVec 32 := 0xCD9E8D57#32

def multipliter4x32p1 : BitVec 32 := 0xD2511F53#32

/-- Single round of the Philox shuffle. -/
def singleRound (counter : Counter) (key : Key) : Counter :=
  let (h0, l0) := multiplyAndSplit64to32 ((counter 0).setWidth 64) (multipliter4x32p0.setWidth 64)
  let (h1, l1) := multiplyAndSplit64to32 ((counter 2).setWidth 64) (multipliter4x32p1.setWidth 64)
  ![h1 ^^^ counter 1 ^^^ key 0, l1, h0 ^^^ counter 3 ^^^ key 1, l0]

/-- Bump the key by the Weyl sequence step parameter. -/
def bumpKey (key : Key) : Key := ![key 0 + weyl32p0, key 1 + weyl32p1]

/-- The loop of `nRounds`. -/
def nRoundsLoop : ℕ → Key → Counter → Counter
  | 0, _, counter => counter
  | rounds + 1, key, counter =>
      let key := bumpKey key
      nRoundsLoop rounds key (singleRound counter key)

/-- The shuffle: a first round with the key as it is, then the loop. -/
def nRounds (rounds : ℕ) (counterIn : Counter) (keyIn : Key) : Counter :=
  nRoundsLoop rounds keyIn (singleRound counterIn keyIn)

/-- Advance the counter to the next state. -/
def advanceCounter (counter : Counter) : Counter :=
  let counter := Function.update counter 0 (counter 0 + 1)
  if counter 0 = 0 then
    let counter := Function.update counter 1 (counter 1 + 1)
    if counter 1 = 0 then
      let counter := Function.update counter 2 (counter 2 + 1)
      if counter 2 = 0 then Function.update counter 3 (counter 3 + 1) else counter
    else counter
  else counter

/-- Advance the counter by a number of blocks. The last two carries look at the
fastest word of the new counter. -/
def skip4 (offset : BitVec 64) (counter : Counter) : Counter :=
  let temp := counter
  let counter0 := temp 0 + low32Bits offset
  let counter1 := temp 1 + (high32Bits offset + if counter0 < temp 0 then 1 else 0)
  let counter2 := temp 2 + if counter0 < temp 1 then 1 else 0
  let counter3 := temp 3 + if counter0 < temp 2 then 1 else 0
  ![counter0, counter1, counter2, counter3]

/-- Advance the counter by the length of a number of subsequences. -/
def skipSubsequence (subsequence : BitVec 64) (counter : Counter) : Counter :=
  let temp := counter
  let counter2 := temp 2 + low32Bits subsequence
  let counter3 := temp 3 + (high32Bits subsequence + if counter2 < temp 2 then 1 else 0)
  ![temp 0, temp 1, counter2, counter3]

/-! ## Counters as numbers -/

/-- The words of a number modulo `2 ^ 128`. -/
def counterOf (number : ℕ) : Counter :=
  ![BitVec.ofNat 32 number, BitVec.ofNat 32 (number / 2 ^ 32), BitVec.ofNat 32 (number / 2 ^ 64),
    BitVec.ofNat 32 (number / 2 ^ 96)]

/-- The number a counter stands for, its fastest word first. -/
def counterValue (counter : Counter) : ℕ :=
  (counter 0).toNat + 2 ^ 32 * (counter 1).toNat + 2 ^ 64 * (counter 2).toNat +
    2 ^ 96 * (counter 3).toNat

private theorem counterOf_value (counter : Counter) :
    counterOf (counterValue counter) = counter := by
  have words (i : Fin 4) := (counter i).isLt
  have := words 0
  have := words 1
  have := words 2
  have := words 3
  funext i
  apply BitVec.eq_of_toNat_eq
  unfold counterOf counterValue
  match i with
  | 0 => simp only [Matrix.cons_val, BitVec.toNat_ofNat]; omega
  | 1 => simp only [Matrix.cons_val, BitVec.toNat_ofNat]; omega
  | 2 => simp only [Matrix.cons_val, BitVec.toNat_ofNat]; omega
  | 3 => simp only [Matrix.cons_val, BitVec.toNat_ofNat]; omega

theorem value_counterOf (number : ℕ) : counterValue (counterOf number) = number % 2 ^ 128 := by
  simp only [counterValue, counterOf, Matrix.cons_val, BitVec.toNat_ofNat]
  omega

theorem counterOf_eq_iff (first second : ℕ) :
    counterOf first = counterOf second ↔ first ≡ second [MOD 2 ^ 128] := by
  refine ⟨fun same => ?_, fun same => ?_⟩
  · have values := congrArg counterValue same
    rwa [value_counterOf, value_counterOf] at values
  · rw [← counterOf_value (counterOf first), ← counterOf_value (counterOf second),
      value_counterOf, value_counterOf, same]

/-- The carries of `advanceCounter` are those of an addition. -/
theorem value_advanceCounter (counter : Counter) :
    counterValue (advanceCounter counter) = (counterValue counter + 1) % 2 ^ 128 := by
  have overflow (word : BitVec 32) : word + 1 = 0 ↔ word.toNat = 2 ^ 32 - 1 := by
    rw [← BitVec.toNat_inj, BitVec.toNat_add]
    have := word.isLt
    simp only [BitVec.toNat_ofNat, BitVec.ofNat_eq_ofNat]
    omega
  have next (word : BitVec 32) : (word + 1).toNat = (word.toNat + 1) % 2 ^ 32 :=
    BitVec.toNat_add _ _
  have words (i : Fin 4) := (counter i).isLt
  have := words 0
  have := words 1
  have := words 2
  have := words 3
  unfold advanceCounter counterValue
  simp only [Function.update_self, Function.update_of_ne, ne_eq, Fin.reduceEq, not_false_eq_true,
    overflow]
  split
  · split
    · split <;> simp only [Function.update, Fin.reduceEq, ↓reduceDIte, next] <;> omega
    · simp only [Function.update, Fin.reduceEq, ↓reduceDIte, next]
      omega
  · simp only [Function.update, Fin.reduceEq, ↓reduceDIte, next]
    omega

theorem advanceCounter_counterOf (number : ℕ) :
    advanceCounter (counterOf number) = counterOf (number + 1) := by
  rw [← counterOf_value (advanceCounter _), value_advanceCounter, value_counterOf, counterOf_eq_iff]
  exact (Nat.mod_modEq _ _).trans ((Nat.mod_modEq _ _).add_right 1)

theorem iterate_advanceCounter (count number : ℕ) :
    advanceCounter^[count] (counterOf number) = counterOf (number + count) := by
  induction count generalizing number with
  | zero => rfl
  | succ count ih =>
      rw [Function.iterate_succ_apply, advanceCounter_counterOf, ih, Nat.add_assoc,
        Nat.add_comm 1 count]

theorem toNat_low32Bits (x : BitVec 64) : (low32Bits x).toNat = x.toNat % 2 ^ 32 := by
  unfold low32Bits
  rw [BitVec.toNat_setWidth, BitVec.toNat_and]
  have mask : (0xffffffff#64).toNat = 2 ^ 32 - 1 := rfl
  rw [mask, Nat.and_two_pow_sub_one_eq_mod, Nat.mod_mod]

private theorem toNat_high32Bits (x : BitVec 64) : (high32Bits x).toNat = x.toNat / 2 ^ 32 := by
  have := x.isLt
  unfold high32Bits
  rw [BitVec.toNat_setWidth, BitVec.toNat_ushiftRight, Nat.shiftRight_eq_div_pow]
  omega

/-- The words of a counter at the begin of a subsequence. -/
theorem counterOf_subsequence (subsequence : BitVec 64) :
    counterOf (2 ^ 64 * subsequence.toNat) =
      ![0, 0, low32Bits subsequence, high32Bits subsequence] := by
  have bound := subsequence.isLt
  funext i
  apply BitVec.eq_of_toNat_eq
  unfold counterOf
  match i with
  | 0 => simp only [Matrix.cons_val, BitVec.ofNat_eq_ofNat, BitVec.toNat_ofNat]; omega
  | 1 => simp only [Matrix.cons_val, BitVec.ofNat_eq_ofNat, BitVec.toNat_ofNat]; omega
  | 2 => simp only [Matrix.cons_val, BitVec.toNat_ofNat, toNat_low32Bits]; omega
  | 3 => simp only [Matrix.cons_val, BitVec.toNat_ofNat, toNat_high32Bits]; omega

theorem skipSubsequence_zero (subsequence : BitVec 64) :
    skipSubsequence subsequence ![0, 0, 0, 0] = counterOf (2 ^ 64 * subsequence.toNat) := by
  have noCarry : ¬ low32Bits subsequence < 0#32 := BitVec.not_lt_zero
  rw [counterOf_subsequence]
  unfold skipSubsequence
  simp only [Matrix.cons_val, BitVec.zero_add, BitVec.ofNat_eq_ofNat, noCarry, ↓reduceIte,
    BitVec.add_zero]

/-- **The stray carry.** From the begin of a subsequence, `skip4` adds a carry to
the slowest word when the fast word of the offset is below the third word of the
counter. -/
theorem skip4_counterOf (subsequence offset : BitVec 64) :
    skip4 offset (counterOf (2 ^ 64 * subsequence.toNat)) =
      counterOf (2 ^ 64 * subsequence.toNat + offset.toNat +
        if low32Bits offset < low32Bits subsequence then 2 ^ 96 else 0) := by
  have noCarry : ¬ low32Bits offset < 0#32 := BitVec.not_lt_zero
  have subsequenceBound := subsequence.isLt
  have offsetBound := offset.isLt
  have words : skip4 offset (counterOf (2 ^ 64 * subsequence.toNat)) =
      ![low32Bits offset, high32Bits offset, low32Bits subsequence,
        high32Bits subsequence + if low32Bits offset < low32Bits subsequence then 1 else 0] := by
    rw [counterOf_subsequence]
    unfold skip4
    simp only [Matrix.cons_val, BitVec.zero_add, BitVec.ofNat_eq_ofNat, noCarry, ↓reduceIte,
      BitVec.add_zero]
  have value : counterValue (skip4 offset (counterOf (2 ^ 64 * subsequence.toNat))) =
      (2 ^ 64 * subsequence.toNat + offset.toNat +
        if low32Bits offset < low32Bits subsequence then 2 ^ 96 else 0) % 2 ^ 128 := by
    rw [words]
    simp only [counterValue, Matrix.cons_val, toNat_low32Bits, toNat_high32Bits, BitVec.toNat_add]
    split
    · simp only [BitVec.ofNat_eq_ofNat, BitVec.toNat_ofNat]
      omega
    · simp only [BitVec.ofNat_eq_ofNat, BitVec.toNat_ofNat]
      omega
  rw [← counterOf_value (skip4 _ _), value, counterOf_eq_iff]
  exact Nat.mod_modEq _ _

/-! ## Different counters, different words -/

/-- The low half of the product of two words is their product modulo `2 ^ 32`. -/
theorem low_product (word multiplier : BitVec 32) :
    low32Bits (word.setWidth 64 * multiplier.setWidth 64) = word * multiplier := by
  apply BitVec.eq_of_toNat_eq
  have wide (word : BitVec 32) : word.toNat % 2 ^ 64 = word.toNat :=
    Nat.mod_eq_of_lt (word.isLt.trans (by decide))
  rw [toNat_low32Bits]
  simp only [BitVec.toNat_mul, BitVec.toNat_setWidth, wide]
  exact Nat.mod_mod_of_dvd _ (by decide)

/-- The low half of a product determines a factor when the other one is odd. -/
private theorem low_injective {multiplier : BitVec 32} (inverse : BitVec 32)
    (odd : multiplier * inverse = 1#32) {a b : BitVec 32}
    (same : low32Bits (a.setWidth 64 * multiplier.setWidth 64) =
      low32Bits (b.setWidth 64 * multiplier.setWidth 64)) : a = b := by
  rw [low_product, low_product] at same
  calc a = a * multiplier * inverse := by rw [BitVec.mul_assoc, odd, BitVec.mul_one]
    _ = b * multiplier * inverse := by rw [same]
    _ = b := by rw [BitVec.mul_assoc, odd, BitVec.mul_one]

theorem singleRound_injective (key : Key) : Function.Injective fun counter =>
    singleRound counter key := by
  intro first second same
  have word2 : first 2 = second 2 :=
    low_injective 0x991A7CDB#32 (by decide) (congrFun same 1)
  have word0 : first 0 = second 0 :=
    low_injective 0x6D7CAE67#32 (by decide) (congrFun same 3)
  have word1 : first 1 = second 1 := by
    have component := congrFun same 0
    simp only [singleRound, Matrix.cons_val, word2, BitVec.xor_left_inj, BitVec.xor_right_inj]
      at component
    exact component
  have word3 : first 3 = second 3 := by
    have component := congrFun same 2
    simp only [singleRound, Matrix.cons_val, word0, BitVec.xor_left_inj, BitVec.xor_right_inj]
      at component
    exact component
  funext i
  match i with
  | 0 => exact word0
  | 1 => exact word1
  | 2 => exact word2
  | 3 => exact word3

theorem nRounds_injective (rounds : ℕ) (key : Key) : Function.Injective fun counter =>
    nRounds rounds counter key := by
  have loop (keyIn : Key) : Function.Injective (nRoundsLoop rounds keyIn) := by
    induction rounds generalizing keyIn with
    | zero => exact Function.injective_id
    | succ rounds ih => exact (ih (bumpKey keyIn)).comp (singleRound_injective (bumpKey keyIn))
  exact (loop key).comp (singleRound_injective key)

end Alpaka.Philox
