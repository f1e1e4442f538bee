import Mathlib.Algebra.Order.Floor.Ring
import Mathlib.Algebra.Order.Round
import Mathlib.Data.Int.Log
import Mathlib.Data.Rat.Floor
import Mathlib.Tactic.FieldSimp
import Mathlib.Tactic.Linarith
import Mathlib.Tactic.Positivity
import Mathlib.Tactic.Ring

/-! # Binary floating-point formats

The values of a format are the integers below a power of two, scaled by powers of two that are
not too small. An integer rounding (`Math.IntegerRounding`) gives a rounding of the format,
which is monotone (`Math.BinaryFormat.roundBy_mono`) and leaves the values of the format alone
(`Math.BinaryFormat.roundBy_eq_self`). Rounding to nearest changes a number by at most half of
its last place (`Math.BinaryFormat.nearest_error`). Exponents are not bounded from above.
-/

namespace Math

/-- How quotients become integers. -/
structure IntegerRounding where
  toInt : ℚ → ℤ
  monotone : ∀ q r, q ≤ r → toInt q ≤ toInt r
  intCast : ∀ n : ℤ, toInt n = n

namespace IntegerRounding

def down : IntegerRounding := ⟨Int.floor, fun _ _ => Int.floor_le_floor, Int.floor_intCast⟩

def up : IntegerRounding := ⟨Int.ceil, fun _ _ => Int.ceil_le_ceil, Int.ceil_intCast⟩

/-- The nearest integer, the even one of two. -/
def toNearest (q : ℚ) : ℤ :=
  if Int.fract q < 1 / 2 ∨ Int.fract q = 1 / 2 ∧ Even ⌊q⌋ then ⌊q⌋ else ⌊q⌋ + 1

private theorem floor_le_toNearest (q : ℚ) : ⌊q⌋ ≤ toNearest q := by
  unfold toNearest
  split
  · exact le_rfl
  · omega

private theorem toNearest_le_floor_add_one (q : ℚ) : toNearest q ≤ ⌊q⌋ + 1 := by
  unfold toNearest
  split
  · omega
  · exact le_rfl

theorem toNearest_mono (q r : ℚ) (le : q ≤ r) : toNearest q ≤ toNearest r := by
  rcases (Int.floor_le_floor le).lt_or_eq with below | same
  · calc toNearest q ≤ ⌊q⌋ + 1 := toNearest_le_floor_add_one q
      _ ≤ ⌊r⌋ := below
      _ ≤ toNearest r := floor_le_toNearest r
  · have fract : Int.fract q ≤ Int.fract r := by
      rw [← Int.self_sub_floor, ← Int.self_sub_floor, same]
      linarith only [le]
    unfold toNearest
    rw [same]
    split
    · split
      · exact le_rfl
      · omega
    · rename_i high
      rw [if_neg]
      rintro (low | ⟨middle, even⟩)
      · exact high (.inl (fract.trans_lt low))
      · rcases fract.lt_or_eq with below | equal
        · exact high (.inl (below.trans_eq middle))
        · exact high (.inr ⟨equal.trans middle, even⟩)

theorem toNearest_intCast (n : ℤ) : toNearest n = n := by
  unfold toNearest
  rw [Int.fract_intCast, Int.floor_intCast, if_pos (.inl (by norm_num))]

def nearest : IntegerRounding := ⟨toNearest, toNearest_mono, toNearest_intCast⟩

theorem abs_nearest_sub_le (q : ℚ) : |(nearest.toInt q : ℚ) - q| ≤ 1 / 2 := by
  change |((toNearest q : ℤ) : ℚ) - q| ≤ 1 / 2
  have split := Int.floor_add_fract q
  have positive := Int.fract_nonneg q
  have small := Int.fract_lt_one q
  unfold toNearest
  rw [abs_le]
  split
  · rename_i low
    have : Int.fract q ≤ 1 / 2 := low.elim le_of_lt fun middle => middle.1.le
    constructor <;> linarith
  · rename_i high
    have : 1 / 2 ≤ Int.fract q := le_of_not_gt fun low => high (.inl low)
    push_cast
    constructor <;> linarith

variable (rounding : IntegerRounding)

/-- The rounding on the other side of zero. -/
def neg : IntegerRounding where
  toInt := fun q => -rounding.toInt (-q)
  monotone := fun _ _ le => neg_le_neg (rounding.monotone _ _ (neg_le_neg le))
  intCast := fun n => by
    rw [← Int.cast_neg, rounding.intCast, neg_neg]

variable {rounding} {q : ℚ} {n : ℤ}

theorem le_toInt (le : n ≤ q) : n ≤ rounding.toInt q :=
  (rounding.intCast n).symm.trans_le (rounding.monotone _ _ le)

theorem toInt_le (le : q ≤ n) : rounding.toInt q ≤ n :=
  (rounding.monotone _ _ le).trans_eq (rounding.intCast n)

end IntegerRounding

/-- The bits of the significands and the exponent of the smallest positive value. -/
structure BinaryFormat where
  precision : ℕ
  minExponent : ℤ
  positive : 0 < precision

namespace BinaryFormat

variable (format : BinaryFormat)

/-- The values of the format. -/
def Representable (x : ℚ) : Prop :=
  ∃ (m e : ℤ), |m| < 2 ^ format.precision ∧ format.minExponent ≤ e ∧ x = m * 2 ^ e

/-- The exponent of the last place of a number. -/
def exponent (x : ℚ) : ℤ :=
  if x = 0 then format.minExponent
  else max format.minExponent (Int.log 2 |x| + 1 - format.precision)

def ulp (x : ℚ) : ℚ := 2 ^ format.exponent x

def roundBy (rounding : IntegerRounding) (x : ℚ) : ℚ :=
  rounding.toInt (x / format.ulp x) * format.ulp x

/-- Rounding to nearest, ties to even. -/
def round (x : ℚ) : ℚ := format.roundBy .nearest x

/-- The next value above and the next value below. -/
def nextUp (x : ℚ) : ℚ := format.roundBy .up (x + 2 ^ format.minExponent)

def nextDown (x : ℚ) : ℚ := format.roundBy .down (x - 2 ^ format.minExponent)

variable {format} {x y : ℚ} {rounding : IntegerRounding}

theorem representable_zero : format.Representable 0 :=
  ⟨0, format.minExponent, by simp, le_rfl, by simp⟩

theorem Representable.neg (representable : format.Representable x) :
    format.Representable (-x) := by
  obtain ⟨m, e, small, above, rfl⟩ := representable
  exact ⟨-m, e, by rwa [abs_neg], above, by push_cast; ring⟩

theorem representable_zpow {e : ℤ} (above : format.minExponent ≤ e) :
    format.Representable (2 ^ e) :=
  ⟨1, e, by rw [abs_one]; exact one_lt_pow₀ one_lt_two format.positive.ne', above, by simp⟩

theorem minExponent_le_exponent : format.minExponent ≤ format.exponent x := by
  unfold exponent
  split
  · exact le_rfl
  · exact le_max_left _ _

theorem ulp_pos : 0 < format.ulp x := zpow_pos two_pos _

theorem exponent_neg : format.exponent (-x) = format.exponent x := by
  unfold exponent
  simp only [neg_eq_zero, abs_neg]

theorem ulp_neg : format.ulp (-x) = format.ulp x := by
  unfold ulp
  rw [exponent_neg]

/-- The significand of a number has no more bits than the format. -/
theorem abs_lt_ulp : |x| < 2 ^ format.precision * format.ulp x := by
  by_cases zero : x = 0
  · subst zero
    rw [abs_zero]
    exact mul_pos (by positivity) ulp_pos
  · have below : Int.log 2 |x| + 1 ≤ format.precision + format.exponent x := by
      unfold exponent
      rw [if_neg zero]
      have := le_max_right format.minExponent (Int.log 2 |x| + 1 - format.precision)
      omega
    calc |x| < (2 : ℚ) ^ (Int.log 2 |x| + 1) := by
          exact_mod_cast Int.lt_zpow_succ_log_self one_lt_two |x|
      _ ≤ (2 : ℚ) ^ (format.precision + format.exponent x) :=
          zpow_le_zpow_right₀ one_le_two below
      _ = 2 ^ format.precision * format.ulp x := by
          rw [zpow_add₀ two_ne_zero, zpow_natCast]
          rfl

/-- Above the smallest exponent the significand has all bits of the format. -/
theorem ulp_le_abs (normal : format.minExponent < format.exponent x) :
    2 ^ (format.precision - 1) * format.ulp x ≤ |x| := by
  have nonzero : x ≠ 0 := by
    rintro rfl
    unfold exponent at normal
    rw [if_pos rfl] at normal
    exact lt_irrefl _ normal
  have exponent : format.exponent x = Int.log 2 |x| + 1 - format.precision := by
    unfold BinaryFormat.exponent at normal ⊢
    rw [if_neg nonzero] at normal ⊢
    exact max_eq_right (by omega)
  have positive := format.positive
  calc 2 ^ (format.precision - 1) * format.ulp x =
        (2 : ℚ) ^ (((format.precision - 1 : ℕ) : ℤ) + format.exponent x) := by
          rw [zpow_add₀ two_ne_zero, zpow_natCast]
          rfl
    _ = (2 : ℚ) ^ Int.log 2 |x| := by
          congr 1
          omega
    _ ≤ |x| := by
          exact_mod_cast Int.zpow_log_le_self one_lt_two (abs_pos.mpr nonzero)

private theorem two_pow_precision (format : BinaryFormat) :
    (2 : ℚ) ^ format.precision = 2 * 2 ^ (format.precision - 1) := by
  rw [← pow_succ', Nat.sub_add_cancel format.positive]

/-- A larger exponent makes up for a bit less. -/
private theorem pow_mul_zpow_le (format : BinaryFormat) {e f : ℤ} (lt : e < f) :
    (2 : ℚ) ^ format.precision * 2 ^ e ≤ 2 ^ (format.precision - 1) * 2 ^ f := by
  rw [format.two_pow_precision, mul_comm 2, mul_assoc, ← zpow_one_add₀ two_ne_zero]
  exact mul_le_mul_of_nonneg_left (zpow_le_zpow_right₀ one_le_two (by omega)) (by positivity)

theorem exponent_le_of_abs_lt {e : ℤ} (above : format.minExponent ≤ e)
    (small : |x| < 2 ^ format.precision * 2 ^ e) : format.exponent x ≤ e := by
  by_contra larger
  have large : 2 ^ (format.precision - 1) * format.ulp x ≤ |x| := ulp_le_abs (by omega)
  have power : (2 : ℚ) ^ format.precision * 2 ^ e ≤
      2 ^ (format.precision - 1) * format.ulp x :=
    format.pow_mul_zpow_le (not_le.mp larger)
  exact absurd (small.trans_le (power.trans large)) (lt_irrefl _)

theorem exponent_mono (le : |x| ≤ |y|) : format.exponent x ≤ format.exponent y :=
  exponent_le_of_abs_lt minExponent_le_exponent (le.trans_lt abs_lt_ulp)

/-! ## Roundings -/

/-- A value of the format is a multiple of the last place. -/
theorem Representable.eq_mul (representable : format.Representable x) :
    ∃ n : ℤ, x = n * format.ulp x := by
  obtain ⟨m, e, small, above, equal⟩ := representable
  have exponent : format.exponent x ≤ e := by
    refine exponent_le_of_abs_lt above ?_
    rw [equal, abs_mul, abs_of_pos (zpow_pos two_pos e : (0 : ℚ) < 2 ^ e)]
    exact mul_lt_mul_of_pos_right (by exact_mod_cast small) (zpow_pos two_pos e)
  refine ⟨m * 2 ^ (e - format.exponent x).toNat, ?_⟩
  unfold ulp
  push_cast
  rw [mul_assoc, ← zpow_natCast, ← zpow_add₀ two_ne_zero, Int.toNat_of_nonneg (by omega),
    sub_add_cancel, equal]

theorem roundBy_eq_self (representable : format.Representable x) :
    format.roundBy rounding x = x := by
  obtain ⟨n, equal⟩ := representable.eq_mul
  unfold roundBy
  have quotient : x / format.ulp x = n := by
    rw [div_eq_iff ulp_pos.ne', ← equal]
  rw [quotient, rounding.intCast, ← equal]

theorem roundBy_eq_neg (x : ℚ) :
    format.roundBy rounding x = -format.roundBy rounding.neg (-x) := by
  unfold roundBy IntegerRounding.neg
  dsimp only
  rw [ulp_neg, neg_div, neg_neg]
  push_cast
  ring

private theorem toInt_abs_le (format : BinaryFormat) (rounding : IntegerRounding) (x : ℚ) :
    |rounding.toInt (x / format.ulp x)| ≤ 2 ^ format.precision := by
  have small := abs_lt.mp (format.abs_lt_ulp (x := x))
  rw [abs_le]
  constructor
  · refine rounding.le_toInt ?_
    rw [le_div_iff₀ ulp_pos]
    push_cast
    linarith only [small.1]
  · refine rounding.toInt_le ?_
    rw [div_le_iff₀ ulp_pos]
    push_cast
    exact small.2.le

/-- A rounding gives a value of the format. -/
theorem representable_roundBy : format.Representable (format.roundBy rounding x) := by
  rcases (toInt_abs_le format rounding x).lt_or_eq with small | carry
  · exact ⟨_, _, small, minExponent_le_exponent, rfl⟩
  · have power : format.Representable ((2 : ℚ) ^ (format.precision + format.exponent x)) :=
      representable_zpow (by have := format.minExponent_le_exponent (x := x); omega)
    have value : (2 : ℚ) ^ (format.precision + format.exponent x) =
        2 ^ format.precision * format.ulp x := by
      rw [zpow_add₀ two_ne_zero, zpow_natCast]
      rfl
    unfold roundBy
    rcases abs_eq (by positivity) |>.mp carry with up | down
    · rw [up]
      push_cast
      rwa [← value]
    · rw [down]
      push_cast
      rw [neg_mul, ← value]
      exact power.neg

private theorem roundBy_nonneg (nonneg : 0 ≤ x) : 0 ≤ format.roundBy rounding x := by
  have : (0 : ℤ) ≤ rounding.toInt (x / format.ulp x) :=
    rounding.le_toInt (by push_cast; exact div_nonneg nonneg ulp_pos.le)
  exact mul_nonneg (by exact_mod_cast this) ulp_pos.le

private theorem roundBy_mono_of_nonneg (nonneg : 0 ≤ x) (le : x ≤ y) :
    format.roundBy rounding x ≤ format.roundBy rounding y := by
  have magnitude : |x| ≤ |y| := by rwa [abs_of_nonneg nonneg, abs_of_nonneg (nonneg.trans le)]
  rcases (format.exponent_mono magnitude).lt_or_eq with below | same
  · -- a power of two lies between
    have power : (2 : ℚ) ^ format.precision * format.ulp x ≤
        2 ^ (format.precision - 1) * format.ulp y :=
      format.pow_mul_zpow_le below
    have lower : format.roundBy rounding x ≤ 2 ^ format.precision * format.ulp x := by
      have := (abs_le.mp (toInt_abs_le format rounding x)).2
      exact mul_le_mul_of_nonneg_right (by exact_mod_cast this) ulp_pos.le
    have large : 2 ^ (format.precision - 1) * format.ulp y ≤ y := by
      have := format.ulp_le_abs (x := y) (minExponent_le_exponent.trans_lt below)
      rwa [abs_of_nonneg (nonneg.trans le)] at this
    have upper : (2 ^ (format.precision - 1) : ℤ) ≤ rounding.toInt (y / format.ulp y) := by
      refine rounding.le_toInt ?_
      rw [le_div_iff₀ ulp_pos]
      push_cast
      exact large
    calc format.roundBy rounding x ≤ 2 ^ format.precision * format.ulp x := lower
      _ ≤ 2 ^ (format.precision - 1) * format.ulp y := power
      _ ≤ format.roundBy rounding y :=
          mul_le_mul_of_nonneg_right (by exact_mod_cast upper) ulp_pos.le
  · have ulp : format.ulp x = format.ulp y := congrArg (2 ^ ·) same
    unfold roundBy
    rw [ulp]
    refine mul_le_mul_of_nonneg_right ?_ ulp_pos.le
    exact_mod_cast rounding.monotone _ _ (div_le_div_of_nonneg_right le ulp_pos.le)

theorem roundBy_mono : Monotone (format.roundBy rounding) := by
  intro x y le
  rcases le_total 0 x with nonneg | negative
  · exact roundBy_mono_of_nonneg nonneg le
  · rw [roundBy_eq_neg x]
    rcases le_total 0 y with nonneg | negative'
    · exact (neg_nonpos.mpr (roundBy_nonneg (neg_nonneg.mpr negative))).trans
        (roundBy_nonneg nonneg)
    · rw [roundBy_eq_neg y]
      exact neg_le_neg (roundBy_mono_of_nonneg (neg_nonneg.mpr negative') (neg_le_neg le))

/-- Rounding does not cross values of the format. -/
theorem le_roundBy (representable : format.Representable x) (le : x ≤ y) :
    x ≤ format.roundBy rounding y :=
  (roundBy_eq_self representable).symm.trans_le (roundBy_mono le)

theorem roundBy_le (representable : format.Representable y) (le : x ≤ y) :
    format.roundBy rounding x ≤ y :=
  (roundBy_mono le).trans_eq (roundBy_eq_self representable)

/-- The error of rounding to nearest. -/
theorem nearest_error : |format.round x - x| ≤ format.ulp x / 2 := by
  have scaled : format.round x - x =
      (IntegerRounding.nearest.toInt (x / format.ulp x) - x / format.ulp x) * format.ulp x := by
    rw [sub_mul, div_mul_cancel₀ x ulp_pos.ne']
    rfl
  rw [scaled, abs_mul, abs_of_pos ulp_pos]
  have := mul_le_mul_of_nonneg_right
    (IntegerRounding.abs_nearest_sub_le (x / format.ulp x)) (format.ulp_pos (x := x)).le
  linarith only [this]

/-! ## Neighbours

All values of a format are multiples of the smallest positive one. -/

theorem Representable.eq_mul_zpow (representable : format.Representable x) :
    ∃ n : ℤ, x = n * 2 ^ format.minExponent := by
  obtain ⟨m, e, -, above, equal⟩ := representable
  refine ⟨m * 2 ^ (e - format.minExponent).toNat, ?_⟩
  push_cast
  rw [mul_assoc, ← zpow_natCast, ← zpow_add₀ two_ne_zero, Int.toNat_of_nonneg (by omega),
    sub_add_cancel, equal]

theorem Representable.add_le (representable : format.Representable x)
    (representable' : format.Representable y) (lt : x < y) : x + 2 ^ format.minExponent ≤ y := by
  have positive : (0 : ℚ) < 2 ^ format.minExponent := zpow_pos two_pos _
  obtain ⟨m, rfl⟩ := representable.eq_mul_zpow
  obtain ⟨n, rfl⟩ := representable'.eq_mul_zpow
  have below : m < n := by exact_mod_cast lt_of_mul_lt_mul_right lt positive.le
  have next : (m : ℚ) + 1 ≤ n := by exact_mod_cast below
  linarith only [mul_le_mul_of_nonneg_right next positive.le]

theorem le_roundBy_up : x ≤ format.roundBy .up x :=
  (div_le_iff₀ ulp_pos).mp (Int.le_ceil _)

theorem roundBy_down_le : format.roundBy .down x ≤ x :=
  (le_div_iff₀ ulp_pos).mp (Int.floor_le _)

theorem lt_nextUp : x < format.nextUp x :=
  (lt_add_of_pos_right x (zpow_pos two_pos _)).trans_le le_roundBy_up

theorem nextDown_lt : format.nextDown x < x :=
  roundBy_down_le.trans_lt (sub_lt_self x (zpow_pos two_pos _))

/-- There is no value of the format between a value and the next one. -/
theorem nextUp_le (representable : format.Representable x)
    (representable' : format.Representable y) (lt : x < y) : format.nextUp x ≤ y :=
  roundBy_le representable' (representable.add_le representable' lt)

theorem le_nextDown (representable : format.Representable x)
    (representable' : format.Representable y) (lt : x < y) : x ≤ format.nextDown y :=
  le_roundBy representable (le_sub_iff_add_le.mpr (representable.add_le representable' lt))

/-! ## Differences

A difference of values that is not a value itself is large enough for its rounding to have a
full significand. -/

theorem Representable.sub_or_normal (representable : format.Representable x)
    (representable' : format.Representable y) :
    format.Representable (x - y) ∨ format.minExponent < format.exponent (format.round (x - y)) := by
  obtain ⟨m, rfl⟩ := representable.eq_mul_zpow
  obtain ⟨n, rfl⟩ := representable'.eq_mul_zpow
  rw [← sub_mul, ← Int.cast_sub]
  by_cases small : |m - n| < 2 ^ format.precision
  · exact .inl ⟨m - n, format.minExponent, small, le_rfl, rfl⟩
  · refine .inr (lt_of_not_ge fun subnormal => ?_)
    have power : format.Representable ((2 : ℚ) ^ (format.precision + format.minExponent)) :=
      representable_zpow (by omega)
    have value : (2 : ℚ) ^ (format.precision + format.minExponent) =
        2 ^ format.precision * 2 ^ format.minExponent := by
      rw [zpow_add₀ two_ne_zero, zpow_natCast]
    have positive : (0 : ℚ) < 2 ^ format.minExponent := zpow_pos two_pos _
    set R := format.round (((m - n : ℤ) : ℚ) * 2 ^ format.minExponent) with round
    have large : (2 : ℚ) ^ (format.precision + format.minExponent) ≤ |R| := by
      rcases le_abs.mp (not_lt.mp small) with above | below
      · refine le_abs.mpr (.inl (le_roundBy power ?_))
        rw [value]
        exact mul_le_mul_of_nonneg_right (by exact_mod_cast above) positive.le
      · refine le_abs.mpr (.inr (le_neg_of_le_neg (roundBy_le power.neg ?_)))
        rw [value, ← neg_mul]
        refine mul_le_mul_of_nonneg_right ?_ positive.le
        have : m - n ≤ -2 ^ format.precision := by omega
        exact_mod_cast this
    have exponent : format.exponent R = format.minExponent :=
      le_antisymm subnormal minExponent_le_exponent
    have bound := format.abs_lt_ulp (x := R)
    unfold ulp at bound
    rw [exponent, ← value] at bound
    exact absurd (large.trans_lt bound) (lt_irrefl _)

/-- A value with a full significand that shrinks by as much as one last place at most does not
round back. -/
theorem round_mul_lt {R u : ℚ} (positive : 0 < R)
    (normal : format.minExponent < format.exponent R)
    (below : u ≤ 1 - 1 / 2 ^ format.precision) : format.round (u * R) < R := by
  have power : (0 : ℚ) < 2 ^ format.precision := by positivity
  have half := format.two_pow_precision
  have shrunk : u * R ≤ R - R / 2 ^ format.precision := by
    calc u * R ≤ (1 - 1 / 2 ^ format.precision) * R :=
          mul_le_mul_of_nonneg_right below positive.le
      _ = R - R / 2 ^ format.precision := by ring
  refine (roundBy_mono shrunk).trans_lt ?_
  have full := format.ulp_le_abs normal
  rw [abs_of_pos positive] at full
  rcases full.eq_or_lt with least | more
  · -- the value is a power of two, and the shrunk one is the value below
    have value : R - R / 2 ^ format.precision =
        ((2 ^ format.precision - 1 : ℤ) : ℚ) * 2 ^ (format.exponent R - 1) := by
      rw [zpow_sub_one₀ two_ne_zero]
      change _ = _ * (format.ulp R * 2⁻¹)
      push_cast
      rw [div_eq_mul_inv]
      nth_rewrite 1 [← least]
      nth_rewrite 2 [← least]
      rw [half]
      field_simp
    have shrunkRepresentable : format.Representable (R - R / 2 ^ format.precision) := by
      refine ⟨_, _, ?_, by omega, value⟩
      have one_le : (1 : ℤ) ≤ 2 ^ format.precision := one_le_pow₀ one_le_two
      rw [abs_of_nonneg (by omega)]
      omega
    rw [roundBy_eq_self shrunkRepresentable]
    exact sub_lt_self R (div_pos positive power)
  · have error := (abs_le.mp (format.nearest_error (x := R - R / 2 ^ format.precision))).2
    have ulp : format.ulp (R - R / 2 ^ format.precision) ≤ format.ulp R := by
      refine zpow_le_zpow_right₀ one_le_two (exponent_mono ?_)
      have shrinking : R / 2 ^ format.precision ≤ R :=
        div_le_self positive.le (one_le_pow₀ one_le_two)
      rw [abs_of_pos positive, abs_of_nonneg (sub_nonneg.mpr shrinking)]
      exact sub_le_self R (div_pos positive power).le
    have half_lt : format.ulp R / 2 < R / 2 ^ format.precision := by
      rw [half, lt_div_iff₀ (by positivity)]
      linarith only [more]
    change format.round _ < R
    linarith only [error, ulp, half_lt]

/-- **Scaled differences.** A factor below one by a last place keeps the rounded difference of
two values below the difference itself, also without the rounding of the product. -/
theorem Representable.mul_round_sub_le {u : ℚ} (representable : format.Representable x)
    (representable' : format.Representable y) (lt : y < x)
    (below : u ≤ 1 - 1 / 2 ^ format.precision) :
    format.round (u * format.round (x - y)) ≤ x - y ∧ u * format.round (x - y) ≤ x - y := by
  set R := format.round (x - y) with difference
  have rounded : format.Representable R := representable_roundBy
  have power : (0 : ℚ) < 1 / 2 ^ format.precision := by positivity
  rcases representable.sub_or_normal representable' with exactly | normal
  · have equal : R = x - y := roundBy_eq_self exactly
    have smaller : u * R ≤ R :=
      mul_le_of_le_one_left (equal ▸ sub_nonneg.mpr lt.le) (by linarith only [below, power])
    exact ⟨equal ▸ roundBy_le rounded smaller, equal ▸ smaller⟩
  · have positive : 0 < R := by
      refine lt_of_le_of_ne (le_roundBy representable_zero (sub_nonneg.mpr lt.le)) ?_
      intro zero
      rw [← difference, ← zero] at normal
      unfold exponent at normal
      rw [if_pos rfl] at normal
      exact lt_irrefl _ normal
    refine ⟨le_of_not_gt fun larger => ?_, ?_⟩
    · have := round_mul_lt positive normal below
      exact absurd (roundBy_le representable_roundBy larger.le) (not_le_of_gt this)
    · by_cases grown : R ≤ x - y
      · exact (mul_le_of_le_one_left positive.le (by linarith only [below, power])).trans grown
      · have ulp : format.ulp (x - y) ≤ format.ulp R := by
          refine zpow_le_zpow_right₀ one_le_two (exponent_mono ?_)
          rw [abs_of_pos (sub_pos.mpr lt), abs_of_pos positive]
          exact (not_le.mp grown).le
        have full := format.ulp_le_abs normal
        rw [abs_of_pos positive] at full
        have half_le : format.ulp R / 2 ≤ 1 / 2 ^ format.precision * R := by
          rw [format.two_pow_precision, one_div_mul_eq_div, le_div_iff₀ (by positivity)]
          linarith only [full]
        have error := (abs_le.mp (format.nearest_error (x := x - y))).2
        have shrunk := mul_le_mul_of_nonneg_right below positive.le
        linarith only [error, shrunk, half_le, ulp, difference]

end BinaryFormat

end Math
