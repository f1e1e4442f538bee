import Mathlib.Tactic.NormNum
import Alpaka.Math.Rounding

/-! # Uniform real numbers

A word of a random engine becomes a number between zero and one, which is scaled to the
requested interval. All steps round. A result lies in the interval for every word exactly when
the rounded difference of the bounds does not overflow and, depending on the interval, does not
lead beyond the upper bound or there is a number between the bounds at all
(`Alpaka.UniformReal.uniformReal_mem_iff`).
-/

namespace Alpaka.UniformReal

open Math (BinaryFormat)

inductive Interval
  | oc
  | co
  | cc
  | oo
  deriving DecidableEq

namespace Interval

def lowerOpen : Interval → Bool
  | .oc | .oo => true
  | .co | .cc => false

def upperOpen : Interval → Bool
  | .co | .oo => true
  | .oc | .cc => false

/-- The numbers between the bounds. -/
def Contains (interval : Interval) (min max x : ℚ) : Prop :=
  (if interval.lowerOpen then min < x else min ≤ x) ∧
    if interval.upperOpen then x < max else x ≤ max

end Interval

/-- The sizes of words and of floating-point types. -/
inductive Width
  | four
  | eight
  deriving DecidableEq

namespace Width

def bits : Width → ℕ
  | .four => 32
  | .eight => 64

variable (width : Width)

/-- The values of `float` and `double`. -/
def format : BinaryFormat :=
  match width with
  | .four => ⟨24, -149, by decide⟩
  | .eight => ⟨53, -1074, by decide⟩

def largest : ℚ :=
  match width with
  | .four => (2 ^ 24 - 1) * 2 ^ 104
  | .eight => (2 ^ 53 - 1) * 2 ^ 971

/-- The finite values. -/
def Finite (x : ℚ) : Prop := width.format.Representable x ∧ |x| ≤ width.largest

/-- The result of an operation, if it does not overflow. -/
def rounded (x : ℚ) : Option ℚ :=
  let result := width.format.round x
  if |result| ≤ width.largest then some result else none

/-- A product and a sum, which the compiler may contract. -/
def mulAdd (contract : Bool) (a b c : ℚ) : Option ℚ :=
  if contract then width.rounded (a * b + c)
  else do
    let product ← width.rounded (a * b)
    width.rounded (product + c)

/-- The positive normal number with a bit pattern. -/
def bitCast (bits : ℕ) : ℚ :=
  let fraction := width.format.precision - 1
  ((2 ^ fraction + bits % 2 ^ fraction : ℕ) : ℚ) *
    2 ^ (((bits / 2 ^ fraction : ℕ) : ℤ) - 1 + width.format.minExponent)

def nextafter (start towards : ℚ) : ℚ :=
  if start = towards then towards
  else if start < towards then width.format.nextUp start
  else width.format.nextDown start

/-! ## Conversion -/

def prevOne : ℚ :=
  match width with
  | .four => bitCast .four 0x3f7fffff
  | .eight => bitCast .eight 0x3fefffffffffffff

/-- The largest word, as a floating-point number. -/
def wordMax : Option ℚ := width.rounded ((2 ^ width.bits - 1 : ℕ) : ℚ)

def normalizedIntervalBin : Option ℚ := do width.rounded (1 / (← width.wordMax))

def halfBinWidth : Option ℚ := do width.rounded ((← width.normalizedIntervalBin) / 2)

def normalizedOpenIntervalBin : Option ℚ := do width.rounded (width.prevOne / (← width.wordMax))

/-- `IntervalAwareConversion` -/
def convert (contract : Bool) (interval : Interval) (word : BitVec width.bits) : Option ℚ := do
  let x ← width.rounded word.toNat
  match interval with
  | .co => width.rounded (x * (← width.normalizedOpenIntervalBin))
  | .oo => width.mulAdd contract x (← width.normalizedOpenIntervalBin) (← width.halfBinWidth)
  | .oc => width.mulAdd contract x (← width.normalizedIntervalBin) (← width.halfBinWidth)
  | .cc => width.rounded (x * (← width.normalizedIntervalBin))

/-- A result on an open bound moves inside. -/
def shiftBounds (interval : Interval) (min max res : ℚ) : ℚ :=
  let res := if interval.lowerOpen ∧ res = min then width.nextafter min max else res
  if interval.upperOpen ∧ res = max then width.nextafter max min else res

def scaleInterval (contract : Bool) (interval : Interval) (min max range normalizedVal : ℚ) :
    Option ℚ := do
  let res ← width.mulAdd contract normalizedVal range min
  return width.shiftBounds interval min max res

/-- The number that a distribution makes of a word. -/
def ofWord (contract : Bool) (interval : Interval) (min max : ℚ) (word : BitVec width.bits) :
    Option ℚ := do
  let range ← width.rounded (max - min)
  width.scaleInterval contract interval min max range (← width.convert contract interval word)

end Width

/-! ## Engines -/

section Engines

variable {S : Type*}

/-- `BitLengthConformityAdapter`. The order of two calls in one expression is not specified. -/
def adapt (leftFirst : Bool) : (source target : Width) → (S → BitVec source.bits × S) → S →
    BitVec target.bits × S
  | .four, .four, engine, state => engine state
  | .eight, .eight, engine, state => engine state
  | .four, .eight, engine, state =>
      let (first, state) := engine state
      let (second, state) := engine state
      let (high, low) := if leftFirst then (first, second) else (second, first)
      (high.setWidth 64 <<< 32 ||| low.setWidth 64, state)
  | .eight, .four, engine, state =>
      let (word, state) := engine state
      (word.setWidth 32, state)

/-- `vectorDispatchWrapper`: an engine of vectors as an engine of words. Wide words take vectors
of at least two elements, which a static assertion checks. -/
def vectorDispatch {dim : ℕ} [NeZero dim] : (target : Width) →
    (S → (Fin dim → BitVec 32) × S) → S → BitVec target.bits × S
  | .four, engine, state =>
      let (res, state) := engine state
      (res 0, state)
  | .eight, engine, state =>
      let (res, state) := engine state
      ((res 0).setWidth 64 <<< 32 ||| (res 1).setWidth 64, state)

/-- `UniformReal::operator()` for an engine of words. -/
def uniformReal (width : Width) (contract leftFirst : Bool) (interval : Interval) (min max : ℚ)
    (source : Width) (engine : S → BitVec source.bits × S) (state : S) : Option ℚ × S :=
  let (word, state) := adapt leftFirst source width engine state
  (width.ofWord contract interval min max word, state)

/-- `UniformReal::operator()` for an engine of vectors. -/
def uniformRealVector {dim : ℕ} [NeZero dim] (width : Width) (contract : Bool)
    (interval : Interval) (min max : ℚ) (engine : S → (Fin dim → BitVec 32) × S) (state : S) :
    Option ℚ × S :=
  uniformReal width contract true interval min max width (vectorDispatch width engine) state

end Engines

namespace Width

variable {width : Width} {contract : Bool} {interval : Interval} {min max range x y u : ℚ}

/-! ## Operations that do not overflow -/

private theorem rounded_eq_some (nonneg : 0 ≤ x) (le : x ≤ y) (finite : width.Finite y) :
    width.rounded x = some (width.format.round x) ∧ 0 ≤ width.format.round x ∧
      width.format.round x ≤ y := by
  have lower : 0 ≤ width.format.round x :=
    BinaryFormat.le_roundBy BinaryFormat.representable_zero nonneg
  have upper : width.format.round x ≤ y := BinaryFormat.roundBy_le finite.1 le
  refine ⟨if_pos ?_, lower, upper⟩
  rw [abs_of_nonneg lower]
  exact upper.trans ((le_abs_self y).trans finite.2)

theorem Finite.rounded (finite : width.Finite x) : width.rounded x = some x := by
  unfold Width.rounded
  dsimp only
  rw [show width.format.round x = x from BinaryFormat.roundBy_eq_self finite.1, if_pos finite.2]

private theorem eq_of_rounded (rounded : width.rounded x = some y) :
    y = width.format.round x ∧ width.Finite y := by
  obtain ⟨small, equal⟩ := Option.ite_none_right_eq_some.mp rounded
  obtain rfl := Option.some.inj equal
  exact ⟨rfl, BinaryFormat.representable_roundBy, small⟩

/-- A product that does not overflow, rounded or not. -/
theorem mulAdd_eq (contract : Bool) {a b : ℚ} (nonneg : 0 ≤ a * b) (le : a * b ≤ y)
    (finite : width.Finite y) (c : ℚ) :
    ∃ product, width.mulAdd contract a b c = width.rounded (product + c) ∧
      (product = a * b ∨ product = width.format.round (a * b)) ∧ 0 ≤ product ∧ product ≤ y := by
  obtain ⟨rounded, lower, upper⟩ := width.rounded_eq_some nonneg le finite
  cases contract with
  | true => exact ⟨a * b, if_pos rfl, .inl rfl, nonneg, le⟩
  | false =>
      refine ⟨width.format.round (a * b), ?_, .inr rfl, lower, upper⟩
      unfold mulAdd
      rw [if_neg Bool.false_ne_true, rounded]
      rfl

/-! ## The constants -/

private theorem wordMax_eq : width.wordMax = some (2 ^ width.bits) := by
  cases width <;> decide +kernel

private theorem normalizedIntervalBin_eq :
    width.normalizedIntervalBin = some (1 / 2 ^ width.bits) := by
  cases width <;> decide +kernel

private theorem halfBinWidth_eq : width.halfBinWidth = some (1 / 2 ^ (width.bits + 1)) := by
  cases width <;> decide +kernel

private theorem normalizedOpenIntervalBin_eq : width.normalizedOpenIntervalBin =
    some ((1 - 1 / 2 ^ width.format.precision) / 2 ^ width.bits) := by
  cases width <;> decide +kernel

private theorem representable_zpow (width : Width) (e : ℤ) (above : -149 ≤ e) :
    width.format.Representable (2 ^ e) := by
  refine BinaryFormat.representable_zpow (le_trans ?_ above)
  cases width <;> decide

private theorem finite_one : width.Finite 1 := by
  refine ⟨by simpa using representable_zpow width 0 (by decide), ?_⟩
  cases width <;> decide +kernel

private theorem finite_prevOne : width.Finite (1 - 1 / 2 ^ width.format.precision) := by
  refine ⟨⟨2 ^ width.format.precision - 1, -width.format.precision, ?_, ?_, ?_⟩, ?_⟩
  · cases width <;> decide +kernel
  · cases width <;> decide +kernel
  · cases width <;> decide +kernel
  · cases width <;> decide +kernel

private theorem finite_wordMax : width.Finite (2 ^ width.bits) := by
  refine ⟨?_, ?_⟩
  · exact_mod_cast representable_zpow width width.bits
      (le_trans (by decide) (Int.natCast_nonneg _))
  · cases width <;> decide +kernel

private theorem halfBinWidth_representable :
    width.format.Representable (1 / 2 ^ (width.bits + 1)) := by
  have : (1 : ℚ) / 2 ^ (width.bits + 1) = 2 ^ (-(width.bits + 1 : ℕ) : ℤ) := by
    rw [zpow_neg, zpow_natCast, one_div]
  rw [this]
  refine representable_zpow width _ ?_
  cases width <;> decide

private theorem round_prevOne_add : width.format.round
    (1 - 1 / 2 ^ width.format.precision + 1 / 2 ^ (width.bits + 1)) =
      1 - 1 / 2 ^ width.format.precision := by
  cases width <;> decide +kernel

private theorem round_one_add : width.format.round (1 + 1 / 2 ^ (width.bits + 1)) = 1 := by
  cases width <;> decide +kernel

/-! ## Normalized numbers -/

/-- A word as a floating-point number. -/
theorem rounded_word (word : BitVec width.bits) : ∃ x, width.rounded word.toNat = some x ∧
    0 ≤ x ∧ x ≤ 2 ^ width.bits :=
  ⟨_, width.rounded_eq_some (Nat.cast_nonneg _) (by exact_mod_cast word.isLt.le) finite_wordMax⟩

private theorem rounded_allOnes :
    width.rounded (BitVec.allOnes width.bits).toNat = some (2 ^ width.bits) := by
  rw [BitVec.toNat_allOnes]
  exact wordMax_eq

/-- A scaled number with the half of a bin. -/
private theorem mulAdd_half (contract : Bool) {a top : ℚ} (nonneg : 0 ≤ x * a) (le : x * a ≤ top)
    (finite : width.Finite top)
    (absorbed : width.format.round (top + 1 / 2 ^ (width.bits + 1)) = top) :
    ∃ u, width.mulAdd contract x a (1 / 2 ^ (width.bits + 1)) = some u ∧ 0 < u ∧ u ≤ top := by
  have positive : (0 : ℚ) < 1 / 2 ^ (width.bits + 1) := by positivity
  obtain ⟨product, equal, -, lower, upper⟩ := mulAdd_eq contract nonneg le finite
    (1 / 2 ^ (width.bits + 1))
  have above : 1 / 2 ^ (width.bits + 1) ≤
      width.format.round (product + 1 / 2 ^ (width.bits + 1)) :=
    BinaryFormat.le_roundBy halfBinWidth_representable (le_add_of_nonneg_left lower)
  have below : width.format.round (product + 1 / 2 ^ (width.bits + 1)) ≤ top := by
    rw [← absorbed]
    exact BinaryFormat.roundBy_mono (add_le_add_left upper _)
  refine ⟨_, equal.trans (if_pos ?_), positive.trans_le above, below⟩
  rw [abs_of_pos (positive.trans_le above)]
  exact below.trans ((le_abs_self top).trans finite.2)

private theorem convert_eq (contract : Bool) (interval : Interval) (word : BitVec width.bits) :
    ∃ u, width.convert contract interval word = some u ∧ interval.Contains 0 1 u ∧
      (interval.upperOpen → u ≤ 1 - 1 / 2 ^ width.format.precision) := by
  obtain ⟨x, rounded, nonneg, le⟩ := width.rounded_word word
  have power : (0 : ℚ) < 2 ^ width.bits := by positivity
  have last : (0 : ℚ) < 1 / 2 ^ width.format.precision := by positivity
  have prevOne : (0 : ℚ) ≤ 1 - 1 / 2 ^ width.format.precision := by
    cases width <;> decide +kernel
  have lower : 0 ≤ x * (1 / 2 ^ width.bits) := mul_nonneg nonneg (by positivity)
  have upper : x * (1 / 2 ^ width.bits) ≤ 1 := by
    rw [mul_one_div]
    exact (div_le_one power).mpr le
  have lower' : 0 ≤ x * ((1 - 1 / 2 ^ width.format.precision) / 2 ^ width.bits) :=
    mul_nonneg nonneg (div_nonneg prevOne power.le)
  have upper' : x * ((1 - 1 / 2 ^ width.format.precision) / 2 ^ width.bits) ≤
      1 - 1 / 2 ^ width.format.precision := by
    rw [mul_div_assoc', div_le_iff₀ power, mul_comm]
    exact mul_le_mul_of_nonneg_left le prevOne
  unfold convert
  rw [rounded]
  cases interval with
  | co =>
      obtain ⟨equal, above, below⟩ := width.rounded_eq_some lower' upper' finite_prevOne
      refine ⟨_, ?_, ⟨above, below.trans_lt ?_⟩, fun _ => below⟩
      · simp only [normalizedOpenIntervalBin_eq, Option.bind_eq_bind, Option.bind_some]
        exact equal
      · exact sub_lt_self 1 last
  | oo =>
      obtain ⟨u, equal, above, below⟩ := mulAdd_half contract lower' upper'
        finite_prevOne round_prevOne_add
      refine ⟨u, ?_, ⟨above, below.trans_lt (sub_lt_self 1 last)⟩, fun _ => below⟩
      simp only [normalizedOpenIntervalBin_eq, halfBinWidth_eq, Option.bind_eq_bind,
        Option.bind_some]
      exact equal
  | oc =>
      obtain ⟨u, equal, above, below⟩ := mulAdd_half contract lower upper
        finite_one round_one_add
      refine ⟨u, ?_, ⟨above, below⟩, nofun⟩
      simp only [normalizedIntervalBin_eq, halfBinWidth_eq, Option.bind_eq_bind,
        Option.bind_some]
      exact equal
  | cc =>
      obtain ⟨equal, above, below⟩ := width.rounded_eq_some lower upper finite_one
      refine ⟨_, ?_, ⟨above, below⟩, nofun⟩
      simp only [normalizedIntervalBin_eq, Option.bind_eq_bind, Option.bind_some]
      exact equal

private theorem convert_allOnes (contract : Bool) {interval : Interval}
    (closed : ¬interval.upperOpen) :
    width.convert contract interval (BitVec.allOnes width.bits) = some 1 := by
  have power : (0 : ℚ) < 2 ^ width.bits := by positivity
  have scaled : (2 : ℚ) ^ width.bits * (1 / 2 ^ width.bits) = 1 := mul_one_div_cancel power.ne'
  unfold convert
  rw [rounded_allOnes]
  cases interval with
  | co => exact absurd rfl closed
  | oo => exact absurd rfl closed
  | oc =>
      simp only [normalizedIntervalBin_eq, halfBinWidth_eq, Option.bind_eq_bind, Option.bind_some]
      obtain ⟨product, equal, value, -⟩ := mulAdd_eq contract
        (zero_le_one.trans_eq scaled.symm) scaled.le (finite_one : width.Finite 1)
        (1 / 2 ^ (width.bits + 1))
      rw [scaled, show width.format.round 1 = 1 from BinaryFormat.roundBy_eq_self finite_one.1,
        or_self] at value
      rw [equal, value]
      unfold rounded
      dsimp only
      rw [round_one_add, if_pos finite_one.2]
  | cc =>
      simp only [normalizedIntervalBin_eq, Option.bind_eq_bind, Option.bind_some]
      rw [scaled]
      exact finite_one.rounded

/-! ## Scaling -/

/-- The bounds of a distribution are finite values of the type. -/
structure Bounds (width : Width) (min max : ℚ) : Prop where
  lower : width.Finite min
  upper : width.Finite max
  lt : min < max

namespace Bounds

private theorem finite_of_between (bounds : Bounds width min max) (above : min ≤ x)
    (below : x ≤ max) :
    |x| ≤ width.largest := by
  refine abs_le.mpr ⟨?_, below.trans ((le_abs_self max).trans bounds.upper.2)⟩
  exact (neg_le.mp ((neg_le_abs min).trans bounds.lower.2)).trans above

private theorem lt_nextafter (bounds : Bounds width min max) : min < width.nextafter min max := by
  unfold nextafter
  rw [if_neg bounds.lt.ne, if_pos bounds.lt]
  exact BinaryFormat.lt_nextUp

private theorem nextafter_le (bounds : Bounds width min max)
    (representable : width.format.Representable x)
    (lt : min < x) : width.nextafter min max ≤ x := by
  unfold nextafter
  rw [if_neg bounds.lt.ne, if_pos bounds.lt]
  exact BinaryFormat.nextUp_le bounds.lower.1 representable lt

private theorem nextafter_lt (bounds : Bounds width min max) : width.nextafter max min < max := by
  unfold nextafter
  rw [if_neg bounds.lt.ne', if_neg bounds.lt.le.not_gt]
  exact BinaryFormat.nextDown_lt

private theorem le_nextafter (bounds : Bounds width min max)
    (representable : width.format.Representable x)
    (lt : x < max) : x ≤ width.nextafter max min := by
  unfold nextafter
  rw [if_neg bounds.lt.ne', if_neg bounds.lt.le.not_gt]
  exact BinaryFormat.le_nextDown representable bounds.upper.1 lt

/-- A result between the bounds moves into the interval, if there is anything inside. -/
theorem contains_shiftBounds (bounds : Bounds width min max) {res : ℚ}
    (above : min ≤ res) (below : res ≤ max)
    (room : interval = .oo → ∃ x, width.format.Representable x ∧ min < x ∧ x < max) :
    interval.Contains min max (width.shiftBounds interval min max res) := by
  cases interval with
  | cc => exact ⟨above, below⟩
  | oc =>
      by_cases lowest : res = min
      · have shifted : width.shiftBounds .oc min max res = width.nextafter min max := by
          simp [shiftBounds, Interval.lowerOpen, Interval.upperOpen, lowest]
        rw [shifted]
        exact ⟨bounds.lt_nextafter, bounds.nextafter_le bounds.upper.1 bounds.lt⟩
      · have kept : width.shiftBounds .oc min max res = res := by
          simp [shiftBounds, Interval.lowerOpen, Interval.upperOpen, lowest]
        rw [kept]
        exact ⟨lt_of_le_of_ne above (Ne.symm lowest), below⟩
  | co =>
      by_cases highest : res = max
      · have shifted : width.shiftBounds .co min max res = width.nextafter max min := by
          simp [shiftBounds, Interval.lowerOpen, Interval.upperOpen, highest]
        rw [shifted]
        exact ⟨bounds.le_nextafter bounds.lower.1 bounds.lt, bounds.nextafter_lt⟩
      · have kept : width.shiftBounds .co min max res = res := by
          simp [shiftBounds, Interval.lowerOpen, Interval.upperOpen, highest]
        rw [kept]
        exact ⟨above, lt_of_le_of_ne below highest⟩
  | oo =>
      obtain ⟨x, inside, lower, upper⟩ := room rfl
      by_cases lowest : res = min
      · have lt : width.nextafter min max < max := (bounds.nextafter_le inside lower).trans_lt upper
        have shifted : width.shiftBounds .oo min max res = width.nextafter min max := by
          simp [shiftBounds, Interval.lowerOpen, Interval.upperOpen, lowest, lt.ne]
        rw [shifted]
        exact ⟨bounds.lt_nextafter, lt⟩
      · by_cases highest : res = max
        · have shifted : width.shiftBounds .oo min max res = width.nextafter max min := by
            simp [shiftBounds, Interval.lowerOpen, Interval.upperOpen, highest, bounds.lt.ne']
          rw [shifted]
          exact ⟨lower.trans_le (bounds.le_nextafter inside upper), bounds.nextafter_lt⟩
        · have kept : width.shiftBounds .oo min max res = res := by
            simp [shiftBounds, Interval.lowerOpen, Interval.upperOpen, lowest, highest]
          rw [kept]
          exact ⟨lt_of_le_of_ne above (Ne.symm lowest), lt_of_le_of_ne below highest⟩

/-- A scaled number stays between the bounds: with a factor below one always, with any factor
if the rounded difference leads back to the upper bound at most. -/
theorem mulAdd_between (bounds : Bounds width min max) (contract : Bool)
    (difference : width.rounded (max - min) = some range) (nonneg : 0 ≤ u) (le_one : u ≤ 1)
    (stays : u ≤ 1 - 1 / 2 ^ width.format.precision ∨ width.format.round (range + min) ≤ max) :
    ∃ res, width.mulAdd contract u range min = some res ∧ min ≤ res ∧ res ≤ max := by
  obtain ⟨rfl, finite⟩ := eq_of_rounded difference
  set range := width.format.round (max - min) with rounded
  have positive : 0 ≤ range :=
    BinaryFormat.le_roundBy BinaryFormat.representable_zero (sub_nonneg.mpr bounds.lt.le)
  obtain ⟨product, equal, value, lower, upper⟩ := mulAdd_eq contract
    (mul_nonneg nonneg positive) (mul_le_of_le_one_left positive le_one) finite min
  have above : min ≤ width.format.round (product + min) :=
    BinaryFormat.le_roundBy bounds.lower.1 (le_add_of_nonneg_left lower)
  have below : width.format.round (product + min) ≤ max := by
    rcases stays with small | back
    · have scaled := bounds.upper.1.mul_round_sub_le bounds.lower.1 bounds.lt small
      have inside : product ≤ max - min := by
        rcases value with exactly | rounding
        · exact exactly.trans_le scaled.2
        · exact rounding.trans_le scaled.1
      exact BinaryFormat.roundBy_le bounds.upper.1 (le_sub_iff_add_le.mp inside)
    · exact (BinaryFormat.roundBy_mono (add_le_add_left upper min)).trans back
  exact ⟨_, equal.trans (if_pos (bounds.finite_of_between above below)), above, below⟩

end Bounds

/-- What bounds have to satisfy: their difference does not overflow, there is a value between
open bounds, and the rounded difference does not lead beyond a closed upper bound. -/
def Fits (width : Width) (interval : Interval) (min max : ℚ) : Prop :=
  ∃ range, width.rounded (max - min) = some range ∧
    match interval with
    | .co => True
    | .oo => ∃ x, width.format.Representable x ∧ min < x ∧ x < max
    | .oc | .cc => width.format.round (range + min) ≤ max

/-- With bounds that fit every word gives a number in the interval. -/
theorem contains_ofWord (bounds : Bounds width min max) (fits : width.Fits interval min max)
    (contract : Bool) (word : BitVec width.bits) :
    ∃ x, width.ofWord contract interval min max word = some x ∧ interval.Contains min max x := by
  obtain ⟨range, difference, fits⟩ := fits
  obtain ⟨u, converted, normalized, small⟩ := convert_eq contract interval word
  have nonneg : 0 ≤ u := by
    have lower := normalized.1
    split at lower
    · exact lower.le
    · exact lower
  have le_one : u ≤ 1 := by
    have upper := normalized.2
    split at upper
    · exact upper.le
    · exact upper
  have stays : u ≤ 1 - 1 / 2 ^ width.format.precision ∨
      width.format.round (range + min) ≤ max := by
    cases interval with
    | co => exact .inl (small rfl)
    | oo => exact .inl (small rfl)
    | oc => exact .inr fits
    | cc => exact .inr fits
  obtain ⟨res, scaled, above, below⟩ :=
    bounds.mulAdd_between contract difference nonneg le_one stays
  refine ⟨_, ?_, bounds.contains_shiftBounds above below ?_⟩
  · unfold ofWord scaleInterval
    rw [difference, converted]
    simp only [Option.bind_eq_bind, Option.bind_some]
    rw [scaled]
    rfl
  · rintro rfl
    exact fits

private theorem representable_mulAdd {a b c : ℚ} (equal : width.mulAdd contract a b c = some x) :
    width.format.Representable x := by
  unfold mulAdd at equal
  split at equal
  · exact (eq_of_rounded equal).2.1
  · obtain ⟨product, -, sum⟩ := Option.bind_eq_some_iff.mp equal
    exact (eq_of_rounded sum).2.1

private theorem representable_nextafter (representable : width.format.Representable y) :
    width.format.Representable (width.nextafter x y) := by
  unfold nextafter
  split
  · exact representable
  · split
    · exact BinaryFormat.representable_roundBy
    · exact BinaryFormat.representable_roundBy

private theorem representable_shiftBounds (bounds : Bounds width min max)
    (representable : width.format.Representable x) :
    width.format.Representable (width.shiftBounds interval min max x) := by
  have shifted : width.format.Representable
      (if interval.lowerOpen ∧ x = min then width.nextafter min max else x) := by
    split
    · exact representable_nextafter bounds.upper.1
    · exact representable
  unfold shiftBounds
  dsimp only
  generalize (if interval.lowerOpen ∧ x = min then width.nextafter min max else x) = y at *
  split
  · exact representable_nextafter bounds.lower.1
  · exact shifted

/-- If all ones give a number in the interval, the bounds fit. -/
theorem fits_of_contains (bounds : Bounds width min max)
    (equal : width.ofWord contract interval min max (BitVec.allOnes width.bits) = some x)
    (contains : interval.Contains min max x) : width.Fits interval min max := by
  unfold ofWord scaleInterval at equal
  obtain ⟨range, difference, equal⟩ := Option.bind_eq_some_iff.mp equal
  obtain ⟨u, converted, equal⟩ := Option.bind_eq_some_iff.mp equal
  obtain ⟨res, scaled, equal⟩ := Option.bind_eq_some_iff.mp equal
  obtain rfl := Option.some.inj equal
  refine ⟨range, difference, ?_⟩
  have closed (top : ¬interval.upperOpen) : width.format.round (range + min) ≤ max := by
    obtain rfl := Option.some.inj (converted.symm.trans (convert_allOnes contract top))
    obtain ⟨same, finite⟩ := eq_of_rounded difference
    have positive : 0 ≤ range := same ▸
      BinaryFormat.le_roundBy BinaryFormat.representable_zero (sub_nonneg.mpr bounds.lt.le)
    obtain ⟨product, mulAdd, value, -⟩ := mulAdd_eq contract
      (mul_nonneg zero_le_one positive) (one_mul range).le finite min
    rw [one_mul, show width.format.round range = range from BinaryFormat.roundBy_eq_self finite.1,
      or_self] at value
    rw [value] at mulAdd
    obtain ⟨rounded, -⟩ := eq_of_rounded (mulAdd.symm.trans scaled)
    rw [← rounded]
    by_contra beyond
    have shifted : width.shiftBounds interval min max res = res := by
      have above : res ≠ min := (bounds.lt.trans (not_le.mp beyond)).ne'
      simp [shiftBounds, above, top]
    have upper := contains.2
    rw [shifted, if_neg top] at upper
    exact beyond upper
  cases interval with
  | co => trivial
  | oo => exact ⟨_, representable_shiftBounds bounds (representable_mulAdd scaled), contains⟩
  | oc => exact closed Bool.false_ne_true
  | cc => exact closed Bool.false_ne_true

end Width

variable {width : Width} {min max : ℚ}

private theorem adapt_allOnes (leftFirst : Bool) (source : Width) :
    (adapt leftFirst source width (fun _ : Unit => (BitVec.allOnes source.bits, ())) ()).1 =
      BitVec.allOnes width.bits := by
  cases source <;> cases width <;> cases leftFirst <;> decide

/-- **Intervals.** Whatever the engine and its state, and whether products and sums are
contracted or not, a distribution gives a number in the requested interval exactly if its
bounds fit. -/
theorem uniformReal_mem_iff (contract leftFirst : Bool) (interval : Interval) (source : Width)
    (bounds : width.Bounds min max) :
    (∀ (S : Type) (engine : S → BitVec source.bits × S) (state : S), ∃ x,
      (uniformReal width contract leftFirst interval min max source engine state).1 = some x ∧
        interval.Contains min max x) ↔ width.Fits interval min max := by
  constructor
  · intro all
    obtain ⟨x, equal, contains⟩ := all Unit (fun _ => (BitVec.allOnes source.bits, ())) ()
    change width.ofWord contract interval min max (adapt leftFirst source width _ ()).1 = some x
      at equal
    rw [adapt_allOnes] at equal
    exact Width.fits_of_contains bounds equal contains
  · intro fits S engine state
    exact Width.contains_ofWord bounds fits contract _

/-- A float distribution over a closed interval exceeds its upper bound. -/
theorem uniformReal_beyond :
    ¬∀ (S : Type) (engine : S → BitVec Width.four.bits × S) (state : S), ∃ x,
      (uniformReal .four false true .cc (-1) (3 / 2 ^ 25) .four engine state).1 = some x ∧
        Interval.cc.Contains (-1) (3 / 2 ^ 25) x := by
  have bounds : Width.four.Bounds (-1) (3 / 2 ^ 25) := by
    refine ⟨⟨?_, by decide +kernel⟩, ⟨⟨3, -25, ?_, ?_, ?_⟩, by decide +kernel⟩, by decide +kernel⟩
    · exact Width.finite_one.1.neg
    · decide +kernel
    · decide
    · decide +kernel
  rw [uniformReal_mem_iff false true .cc .four bounds]
  rintro ⟨range, difference, fits⟩
  have equal : Width.four.rounded (3 / 2 ^ 25 - -1) = some (1 + 1 / 2 ^ 23) := by decide +kernel
  obtain rfl := Option.some.inj (difference.symm.trans equal)
  exact absurd fits (by decide +kernel)

/-- The default bounds fit. -/
theorem fits_zero_one (interval : Interval) : width.Fits interval 0 1 := by
  have difference : width.rounded (1 - 0) = some 1 := by
    rw [sub_zero]
    exact Width.finite_one.rounded
  refine ⟨1, difference, ?_⟩
  have back : width.format.round (1 + 0) ≤ 1 := by
    rw [add_zero]
    exact (BinaryFormat.roundBy_eq_self Width.finite_one.1).le
  cases interval with
  | co => trivial
  | oo =>
      refine ⟨1 / 2 ^ (width.bits + 1), Width.halfBinWidth_representable, by positivity, ?_⟩
      cases width <;> decide +kernel
  | oc => exact back
  | cc => exact back

/-- Without bounds the results of an engine of vectors lie between zero and one. -/
theorem uniformRealVector_default {S : Type*} {dim : ℕ} [NeZero dim] (contract : Bool)
    (interval : Interval) (engine : S → (Fin dim → BitVec 32) × S) (state : S) :
    ∃ x, (uniformRealVector width contract interval 0 1 engine state).1 = some x ∧
      interval.Contains 0 1 x :=
  Width.contains_ofWord
    ⟨⟨BinaryFormat.representable_zero, by cases width <;> decide +kernel⟩, Width.finite_one,
      zero_lt_one⟩ (fits_zero_one interval) contract _

end Alpaka.UniformReal
