import Mathlib.Data.BitVec
import Mathlib.Order.Bounds.Basic
import Alpaka.Math.Bisection
import Alpaka.Math.While

/-! # Integer roots

`nthRootFloor` bisects the interval from zero to the value in the arithmetic of its type.
The sum of the bounds may wrap around there, and so may the power of a midpoint, which then
looks small. The function returns the root exactly if no such thing happens on the way
(`Alpaka.nthRootFloor_iff`); for the largest value it never returns
(`Alpaka.nthRootFloor_largest`).
-/

namespace Alpaka

open Math (Settles)
open Math.Bisection (intervals bisect bisect_single bisect_upper bisect_lower bisect_mem
  intervals_single intervals_upper intervals_lower mem_intervals bisect_eq_iff)
open Math.Loop (Fault)

variable {w : ℕ}

/-- The power in the arithmetic of the type. -/
def intPow (base n : BitVec w) : BitVec w :=
  if n = 0 then 1 else (fun r => r * base)^[n.toNat - 1] base

/-- The body of the loop over the bounds. -/
def halve (value n : BitVec w) (bounds : BitVec w × BitVec w) : BitVec w × BitVec w :=
  let m := (bounds.1 + bounds.2) / 2
  if intPow m n ≤ value then (m, bounds.2) else (bounds.1, m)

/-- The loop over the bounds. -/
def narrow (value n : BitVec w) (fuel : ℕ) (bounds : BitVec w × BitVec w) :
    Except Fault (BitVec w × BitVec w) :=
  Math.While.run (fun bounds => bounds.1 ≠ bounds.2 - 1) (halve value n) fuel bounds

def nthRootFloor (value n : BitVec w) (fuel : ℕ) : Except Fault (BitVec w) := do
  let bounds ← narrow value n fuel (0, value + 1)
  return bounds.1

private theorem toNat_intPow (base n : BitVec w) :
    (intPow base n).toNat = base.toNat ^ n.toNat % 2 ^ w := by
  have loop (count : ℕ) :
      ((fun r => r * base)^[count] base).toNat = base.toNat ^ (count + 1) % 2 ^ w := by
    induction count with
    | zero => rw [Function.iterate_zero_apply, Nat.zero_add, Nat.pow_one,
        Nat.mod_eq_of_lt base.isLt]
    | succ count ih =>
        rw [Function.iterate_succ_apply', BitVec.toNat_mul, ih, Nat.mod_mul_mod, ← Nat.pow_succ]
  unfold intPow
  split
  · next none =>
      subst none
      simp
  · next some =>
      have positive : 0 < n.toNat := by
        by_contra none
        exact some (BitVec.eq_of_toNat_eq (Nat.eq_zero_of_not_pos none))
      rw [loop, Nat.sub_add_cancel positive]

/-- Half of a number; in a type without a two there is nothing to halve. -/
theorem toNat_half (sum : BitVec w) : (sum / 2).toNat = sum.toNat / 2 := by
  have below := sum.isLt
  have two : (2 : BitVec w).toNat = 2 % 2 ^ w := BitVec.toNat_ofNat 2 w
  rw [BitVec.toNat_udiv, two]
  rcases Nat.lt_or_ge w 2 with narrow | wide
  · have small : 2 ^ w ≤ 2 ^ 1 := Nat.pow_le_pow_right Nat.two_pos (Nat.le_of_lt_succ narrow)
    have none : 2 % 2 ^ w = 0 :=
      Nat.mod_eq_zero_of_dvd (Nat.pow_dvd_pow 2 (Nat.le_of_lt_succ narrow))
    rw [none, Nat.div_zero]
    omega
  · have large : 2 ^ 2 ≤ 2 ^ w := Nat.pow_le_pow_right Nat.two_pos wide
    rw [Nat.mod_eq_of_lt (by omega)]

/-- The midpoint of two bounds. -/
theorem toNat_midpoint (l r : BitVec w) :
    ((l + r) / 2).toNat = (l.toNat + r.toNat) % 2 ^ w / 2 := by
  rw [toNat_half, BitVec.toNat_add]

namespace NthRoot

/-- Whether the code takes a number to be at most the root. -/
def judge (value n : BitVec w) (m : ℕ) : Bool := intPow (BitVec.ofNat w m) n ≤ value

/-- Whether a number is at most the root. -/
def exact (value n : BitVec w) (m : ℕ) : Bool := m ^ n.toNat ≤ value.toNat

/-- The numbers to which the lower bound is raised while the upper one stays at its begin. -/
inductive Raised (value n : BitVec w) : ℕ → Prop
  | zero : Raised value n 0
  | raise {l : ℕ} : Raised value n l → l ≠ value.toNat →
      judge value n ((l + (value.toNat + 1)) % 2 ^ w / 2) = true →
        Raised value n ((l + (value.toNat + 1)) % 2 ^ w / 2)

/-- In the bisection in unbounded integers no sum wraps around, and no midpoint that is too
large is taken to be at most the root. -/
def Straight (value n : BitVec w) (l : ℕ) : Prop :=
  ∀ i ∈ intervals (exact value n) l (value.toNat + 1), i.1 + i.2 < 2 ^ w ∧
    (exact value n ((i.1 + i.2) / 2) = false → judge value n ((i.1 + i.2) / 2) = false)

variable {value n l r : BitVec w} {m root : ℕ}

private theorem judge_iff : judge value n m = true ↔ m ^ n.toNat % 2 ^ w ≤ value.toNat := by
  unfold judge
  rw [decide_eq_true_iff, BitVec.le_def, toNat_intPow, BitVec.toNat_ofNat, ← Nat.pow_mod]

private theorem exact_iff : exact value n m = true ↔ m ^ n.toNat ≤ value.toNat :=
  decide_eq_true_iff

/-- The power of a number that is at most the root does not wrap around. -/
theorem judge_of_exact (small : exact value n m = true) : judge value n m = true :=
  judge_iff.mpr ((Nat.mod_le _ _).trans (exact_iff.mp small))

/-- What the code decides about a midpoint. -/
private theorem judge_midpoint :
    judge value n ((l.toNat + r.toNat) % 2 ^ w / 2) = true ↔ intPow ((l + r) / 2) n ≤ value := by
  unfold judge
  rw [← toNat_midpoint, BitVec.ofNat_toNat, BitVec.setWidth_eq, decide_eq_true_iff]

private theorem halve_upper (yes : judge value n ((l.toNat + r.toNat) % 2 ^ w / 2) = true) :
    halve value n (l, r) = ((l + r) / 2, r) :=
  if_pos (judge_midpoint.mp yes)

private theorem halve_lower (no : judge value n ((l.toNat + r.toNat) % 2 ^ w / 2) = false) :
    halve value n (l, r) = (l, (l + r) / 2) :=
  if_neg fun small => Bool.false_ne_true (no.symm.trans (judge_midpoint.mpr small))

private theorem toNat_add_one (room : l.toNat + 1 < 2 ^ w) : (l + 1).toNat = l.toNat + 1 := by
  have one : (1 : BitVec w).toNat = 1 := by
    rw [show (1 : BitVec w).toNat = 1 % 2 ^ w from BitVec.toNat_ofNat 1 w]
    exact Nat.mod_eq_of_lt (by omega)
  rw [BitVec.toNat_add_of_lt (by rwa [one]), one]

/-- Bounds in order are done when a single number is left. -/
theorem continues_iff (ordered : l.toNat < r.toNat) : l ≠ r - 1 ↔ l.toNat + 1 < r.toNat := by
  have below := r.isLt
  rw [ne_eq, BitVec.eq_sub_iff_add_eq, ← BitVec.toNat_inj, toNat_add_one (by omega)]
  omega

/-- Bounds that have passed each other are never done. -/
theorem continues_of_passed (wide : 1 < 2 ^ w) (passed : r.toNat ≤ l.toNat)
    (low : 2 * l.toNat < 2 ^ w) : l ≠ r - 1 := by
  rw [ne_eq, BitVec.eq_sub_iff_add_eq, ← BitVec.toNat_inj, toNat_add_one (by omega)]
  omega

private theorem narrow_done (done : ¬l ≠ r - 1) :
    Settles (fun fuel => narrow value n fuel (l, r)) (l, r) :=
  Math.While.settles_of_done (decide_eq_false done)

/-- Going on does not change what the loop settles on. -/
theorem narrow_step_iff (going : l ≠ r - 1) {final : BitVec w × BitVec w} :
    Settles (fun fuel => narrow value n fuel (l, r)) final ↔
      Settles (fun fuel => narrow value n fuel (halve value n (l, r))) final :=
  Math.While.settles_step_iff (decide_eq_true going)

/-- A step whose sum does not wrap around. -/
theorem halve_of_lt (value n : BitVec w) (sum : l.toNat + r.toNat < 2 ^ w) :
    ∃ m : BitVec w, m.toNat = (l.toNat + r.toNat) / 2 ∧
      halve value n (l, r) =
        if judge value n ((l.toNat + r.toNat) / 2) then (m, r) else (l, m) := by
  have whole := Nat.mod_eq_of_lt sum
  refine ⟨(l + r) / 2, by rw [toNat_midpoint, whole], ?_⟩
  cases answer : judge value n ((l.toNat + r.toNat) / 2) with
  | true => exact halve_upper (whole.symm ▸ answer)
  | false => exact halve_lower (whole.symm ▸ answer)

/-- Bounds that have passed each other stay so. -/
theorem halve_of_passed (value n : BitVec w) (passed : r.toNat ≤ l.toNat)
    (low : 2 * l.toNat < 2 ^ w) :
    (halve value n (l, r)).2.toNat ≤ (halve value n (l, r)).1.toNat ∧
      2 * (halve value n (l, r)).1.toNat < 2 ^ w := by
  obtain ⟨m, midpoint, step⟩ := halve_of_lt value n (l := l) (r := r) (by omega)
  rw [step]
  split
  · exact ⟨by dsimp only; omega, by dsimp only; omega⟩
  · exact ⟨by dsimp only; omega, low⟩

/-- The upper bound of the largest value begins at zero. -/
theorem toNat_begin_largest (largest : value.toNat + 1 = 2 ^ w) : (value + 1).toNat = 0 := by
  rw [BitVec.toNat_add, show (1 : BitVec w).toNat = 1 % 2 ^ w from BitVec.toNat_ofNat 1 w,
    Nat.add_mod_mod, largest, Nat.mod_self]

/-- The loop settles on what the bisection ends on, unless a sum wraps around. -/
theorem settles_bisect (value n : BitVec w) (ordered : l.toNat < r.toNat)
    (sums : ∀ i ∈ intervals (judge value n) l.toNat r.toNat, i.1 + i.2 < 2 ^ w) :
    ∃ final, Settles (fun fuel => narrow value n fuel (l, r)) final ∧
      final.1.toNat = bisect (judge value n) l.toNat r.toNat := by
  induction distance : r.toNat - l.toNat using Nat.strong_induction_on generalizing l r with
  | _ distance ih =>
      by_cases wide : l.toNat + 1 < r.toNat
      · have going := (continues_iff ordered).mpr wide
        have first : l.toNat + r.toNat < 2 ^ w := by
          cases answer : judge value n ((l.toNat + r.toNat) / 2) with
          | true => exact sums _ (intervals_upper wide answer ▸ List.mem_cons_self)
          | false => exact sums _ (intervals_lower wide answer ▸ List.mem_cons_self)
        obtain ⟨m, midpoint, step⟩ := halve_of_lt value n first
        simp only [narrow_step_iff going, step]
        cases answer : judge value n ((l.toNat + r.toNat) / 2) with
        | true =>
            rw [intervals_upper wide answer, ← midpoint] at sums
            rw [bisect_upper wide answer, ← midpoint]
            exact ih (r.toNat - m.toNat) (by omega) (by omega)
              (fun i member => sums i (List.mem_cons_of_mem _ member)) rfl
        | false =>
            rw [intervals_lower wide answer, ← midpoint] at sums
            rw [bisect_lower wide answer, ← midpoint]
            exact ih (m.toNat - l.toNat) (by omega) (by omega)
              (fun i member => sums i (List.mem_cons_of_mem _ member)) rfl
      · rw [bisect_single wide]
        exact ⟨(l, r), narrow_done fun going => wide ((continues_iff ordered).mp going), rfl⟩

private theorem toNat_begin (room : value.toNat + 1 < 2 ^ w) :
    (value + 1).toNat = value.toNat + 1 :=
  toNat_add_one room

/-- The lower bound stays below the value and below the middle of the type. -/
theorem Raised.bounds (room : value.toNat + 1 < 2 ^ w) {l : ℕ} (raised : Raised value n l) :
    l ≤ value.toNat ∧ 2 * l < 2 ^ w := by
  induction raised with
  | zero => omega
  | @raise l _ _ _ ih =>
      have small := Nat.mod_lt (l + (value.toNat + 1)) (Nat.two_pow_pos w)
      rcases Nat.lt_or_ge (l + (value.toNat + 1)) (2 ^ w) with sum | wraps
      · rw [Nat.mod_eq_of_lt sum]
        omega
      · rw [Nat.mod_eq_sub_mod wraps, Nat.mod_eq_of_lt (by omega)]
        omega

/-- The loop raises the lower bound. -/
private theorem settles_raised (room : value.toNat + 1 < 2 ^ w) {final : BitVec w × BitVec w}
    (raised : Raised value n l.toNat) :
    Settles (fun fuel => narrow value n fuel (0, value + 1)) final ↔
      Settles (fun fuel => narrow value n fuel (l, value + 1)) final := by
  generalize reached : l.toNat = k at raised
  induction raised generalizing l with
  | zero =>
      obtain rfl : l = 0 := BitVec.eq_of_toNat_eq reached
      exact Iff.rfl
  | @raise k raised different yes ih =>
      have inside := raised.bounds room
      have before : (BitVec.ofNat w k).toNat = k := by
        rw [BitVec.toNat_ofNat, Nat.mod_eq_of_lt (by omega)]
      have going : BitVec.ofNat w k ≠ value + 1 - 1 := by
        rw [continues_iff] <;> rw [before, toNat_begin room] <;> omega
      have step : halve value n (BitVec.ofNat w k, value + 1) = (l, value + 1) := by
        rw [halve_upper (by rwa [before, toNat_begin room])]
        refine Prod.ext (BitVec.eq_of_toNat_eq ?_) rfl
        rw [toNat_midpoint, before, toNat_begin room]
        exact reached.symm
      rw [ih before, narrow_step_iff going, step]

/-- There is a largest number whose power is at most the value. -/
theorem exists_root (value : BitVec w) {n : BitVec w} (positive : n ≠ 0) :
    ∃ root, ∀ m, exact value n m = true ↔ m ≤ root := by
  have several : n.toNat ≠ 0 := fun none => positive (BitVec.eq_of_toNat_eq none)
  refine ⟨Nat.findGreatest (fun m => m ^ n.toNat ≤ value.toNat) value.toNat, fun m => ?_⟩
  rw [exact_iff]
  constructor
  · intro small
    exact Nat.le_findGreatest ((Nat.le_self_pow several m).trans small) small
  · intro below
    have none : 0 ^ n.toNat ≤ value.toNat := by
      rw [Nat.zero_pow (Nat.pos_of_ne_zero several)]
      exact Nat.zero_le _
    have largest := Nat.findGreatest_spec (P := fun m => m ^ n.toNat ≤ value.toNat)
      (Nat.zero_le value.toNat) none
    exact (Nat.pow_le_pow_left below _).trans largest

private theorem isGreatest_iff (threshold : ∀ m, exact value n m = true ↔ m ≤ root) {x : ℕ} :
    IsGreatest {r : ℕ | r ^ n.toNat ≤ value.toNat} x ↔ x = root := by
  have largest : IsGreatest {r : ℕ | r ^ n.toNat ≤ value.toNat} root :=
    ⟨exact_iff.mp ((threshold root).mpr le_rfl),
      fun m small => (threshold m).mp (exact_iff.mpr small)⟩
  exact ⟨fun other => other.unique largest, fun same => same ▸ largest⟩

/-- On a straight way the loop settles on the root. -/
private theorem settles_straight (room : value.toNat + 1 < 2 ^ w)
    (threshold : ∀ m, exact value n m = true ↔ m ≤ root) (below : root ≤ value.toNat)
    (low : l.toNat ≤ root) (straight : Straight value n l.toNat) :
    ∃ final, Settles (fun fuel => narrow value n fuel (l, value + 1)) final ∧
      final.1.toNat = root := by
  have agree : ∀ i ∈ intervals (exact value n) l.toNat (value.toNat + 1),
      judge value n ((i.1 + i.2) / 2) = exact value n ((i.1 + i.2) / 2) := by
    intro i member
    cases answer : exact value n ((i.1 + i.2) / 2) with
    | true => exact judge_of_exact answer
    | false => exact (straight i member).2 answer
  obtain ⟨same, ends⟩ := Math.Bisection.congr agree
  have first := toNat_begin room
  obtain ⟨final, settles, found⟩ := settles_bisect value n (l := l)
    (r := value + 1) (by omega) (by
      rw [first, same]
      exact fun i member => (straight i member).1)
  refine ⟨final, settles, ?_⟩
  rw [found, first, ends]
  exact Math.Bisection.bisect_eq_threshold threshold low (Nat.lt_succ_of_le below)

/-- Bounds from which the loop does not settle on the root: the lower bound is still being
raised, the bounds have passed each other, or the bisection ends elsewhere. -/
private inductive Misses (value n : BitVec w) (root : ℕ) : BitVec w × BitVec w → Prop
  | raised {l : BitVec w} : value.toNat + 1 < 2 ^ w → Raised value n l.toNat →
      Misses value n root (l, value + 1)
  | passed {l r : BitVec w} : r.toNat ≤ l.toNat → 2 * l.toNat < 2 ^ w → Misses value n root (l, r)
  | elsewhere {l r : BitVec w} : l.toNat < r.toNat → 2 * r.toNat ≤ 2 ^ w →
      bisect (judge value n) l.toNat r.toNat ≠ root → Misses value n root (l, r)

/-- Bounds whose bisection ends on the root, after the upper bound has dropped. -/
private theorem straight_of_dropped (threshold : ∀ m, exact value n m = true ↔ m ≤ root)
    (wide : l.toNat + 1 < value.toNat + 1) (sum : l.toNat + (value.toNat + 1) < 2 ^ w)
    (no : judge value n ((l.toNat + (value.toNat + 1)) / 2) = false)
    (found : bisect (judge value n) l.toNat ((l.toNat + (value.toNat + 1)) / 2) = root) :
    l.toNat ≤ root ∧ Straight value n l.toNat := by
  have inside := bisect_mem (judge value n)
    (show l.toNat < (l.toNat + (value.toNat + 1)) / 2 by omega)
  have low : l.toNat ≤ root := found ▸ inside.1
  have high : root < (l.toNat + (value.toNat + 1)) / 2 := found ▸ inside.2
  have large : exact value n ((l.toNat + (value.toNat + 1)) / 2) = false :=
    Bool.eq_false_iff.mpr fun yes => absurd ((threshold _).mp yes) (not_le.mpr high)
  have upTo : ∀ m ≤ root, judge value n m = true := fun m small =>
    judge_of_exact ((threshold m).mpr small)
  have right := (bisect_eq_iff threshold upTo low high).mp found
  refine ⟨low, fun i member => ?_⟩
  rw [intervals_lower wide large] at member
  obtain rfl | later := List.mem_cons.mp member
  · exact ⟨sum, fun _ => no⟩
  · have part := mem_intervals later
    refine ⟨by omega, fun above => right i later ?_⟩
    exact not_le.mp fun small => Bool.false_ne_true (above.symm.trans ((threshold _).mpr small))

private theorem Misses.halve (threshold : ∀ m, exact value n m = true ↔ m ≤ root)
    (crooked : value.toNat + 1 < 2 ^ w → ∀ l, Raised value n l → l ≤ root →
      ¬ Straight value n l)
    {bounds : BitVec w × BitVec w} (misses : Misses value n root bounds)
    (going : bounds.1 ≠ bounds.2 - 1) : Misses value n root (halve value n bounds) := by
  cases misses with
  | @raised l room raised =>
      have inside := raised.bounds room
      have first := toNat_begin room
      have more : l.toNat + 1 < value.toNat + 1 := by
        rw [← first, ← continues_iff (by omega)]
        exact going
      cases answer : judge value n ((l.toNat + (value + 1).toNat) % 2 ^ w / 2) with
      | true =>
          rw [halve_upper answer]
          rw [first] at answer
          apply Misses.raised room
          rw [toNat_midpoint, first]
          exact raised.raise (by omega) answer
      | false =>
          rw [halve_lower answer]
          have midpoint := toNat_midpoint l (value + 1)
          rw [first] at answer midpoint
          rcases Nat.lt_or_ge (l.toNat + (value.toNat + 1)) (2 ^ w) with sum | wraps
          · rw [Nat.mod_eq_of_lt sum] at answer midpoint
            apply Misses.elsewhere
            · omega
            · omega
            · rw [midpoint]
              intro found
              obtain ⟨low, straight⟩ :=
                straight_of_dropped threshold more sum answer found
              exact crooked room _ raised low straight
          · rw [Nat.mod_eq_sub_mod wraps, Nat.mod_eq_of_lt (by omega)] at midpoint
            apply Misses.passed
            · omega
            · omega
  | @passed l r passed low =>
      obtain ⟨passed, low⟩ := halve_of_passed value n passed low
      exact Misses.passed passed low
  | @elsewhere l r ordered low ends =>
      have more := (continues_iff ordered).mp going
      obtain ⟨m, midpoint, step⟩ := halve_of_lt value n (l := l) (r := r)
        (by omega)
      rw [step]
      cases answer : judge value n ((l.toNat + r.toNat) / 2) with
      | true =>
          rw [bisect_upper more answer, ← midpoint] at ends
          exact Misses.elsewhere (by omega) low ends
      | false =>
          rw [bisect_lower more answer, ← midpoint] at ends
          exact Misses.elsewhere (by omega) (by omega) ends

private theorem Misses.done (wide : 1 < 2 ^ w)
    (crooked : value.toNat + 1 < 2 ^ w → ∀ l, Raised value n l → l ≤ root →
      ¬ Straight value n l)
    {bounds : BitVec w × BitVec w} (misses : Misses value n root bounds)
    (done : ¬bounds.1 ≠ bounds.2 - 1) : bounds.1.toNat ≠ root := by
  cases misses with
  | @raised l room raised =>
      have inside := raised.bounds room
      have first := toNat_begin room
      have single : ¬l.toNat + 1 < value.toNat + 1 := by
        rw [← first, ← continues_iff (by omega)]
        exact done
      intro same
      apply crooked room _ raised (le_of_eq same)
      unfold Straight
      rw [intervals_single single]
      exact fun i member => absurd member List.not_mem_nil
  | @passed l r passed low => exact absurd (continues_of_passed wide passed low) done
  | @elsewhere l r ordered low ends =>
      rw [bisect_single fun more => done ((continues_iff ordered).mpr more)] at ends
      exact ends

/-- The function settles on the lower bound that the loop settles on. -/
theorem settles_nthRootFloor_iff {x : BitVec w} :
    Settles (nthRootFloor value n) x ↔
      ∃ final, Settles (fun fuel => narrow value n fuel (0, value + 1)) final ∧ final.1 = x := by
  constructor
  · rintro ⟨bound, settles⟩
    have ran := settles bound le_rfl
    unfold nthRootFloor at ran
    cases ended : narrow value n bound (0, value + 1) with
    | error fault =>
        rw [ended] at ran
        cases ran
    | ok final =>
        rw [ended] at ran
        exact ⟨final, Math.While.settles_of_run ended, Except.ok.inj ran⟩
  · rintro ⟨final, settles, rfl⟩
    exact settles.bind (Settles.pure _)

/-- Bounds from which the loop does not settle on the root lead to none that it settles on. -/
private theorem misses_start (wide : 1 < 2 ^ w) : Misses value n root (0, value + 1) := by
  have zero : (0 : BitVec w).toNat = 0 := BitVec.toNat_zero
  rcases Nat.lt_or_ge (value.toNat + 1) (2 ^ w) with room | full
  · exact .raised room (zero.symm ▸ .zero)
  · have whole : value.toNat + 1 = 2 ^ w := by
      have := value.isLt
      omega
    have begins := toNat_begin_largest whole
    exact .passed (by omega) (by omega)

end NthRoot

variable {value n : BitVec w}

open NthRoot in
/-- For the largest value the function never returns. -/
theorem nthRootFloor_largest (positive : 0 < w) (largest : value.toNat + 1 = 2 ^ w)
    (x : BitVec w) : ¬ Settles (nthRootFloor value n) x := by
  have wide : 2 ^ 0 < 2 ^ w := Nat.pow_lt_pow_right Nat.one_lt_two positive
  have zero : (0 : BitVec w).toNat = 0 := BitVec.toNat_zero
  have begins := toNat_begin_largest largest
  intro returns
  obtain ⟨final, settles, -⟩ := settles_nthRootFloor_iff.mp returns
  refine Math.While.not_settles (fun bounds : BitVec w × BitVec w =>
    bounds.2.toNat ≤ bounds.1.toNat ∧ 2 * bounds.1.toNat < 2 ^ w) ?_ ?_ settles
  · rintro ⟨l, r⟩ ⟨passed, low⟩
    exact ⟨decide_eq_true (continues_of_passed wide passed low), halve_of_passed value n passed low⟩
  · rw [begins, zero]
    omega

open NthRoot in
/-- The function returns the root where the bisection goes straight to it from a number to which
the lower bound is raised. -/
private theorem nthRootFloor_of_raised (positive : n ≠ 0) (room : value.toNat + 1 < 2 ^ w) {l : ℕ}
    (raised : Raised value n l) (small : l ^ n.toNat ≤ value.toNat)
    (straight : Straight value n l) : ∃ root, Settles (nthRootFloor value n) root ∧
      IsGreatest {r : ℕ | r ^ n.toNat ≤ value.toNat} root.toNat := by
  obtain ⟨root, threshold⟩ := exists_root value positive
  have several : n.toNat ≠ 0 := fun none => positive (BitVec.eq_of_toNat_eq none)
  have below : root ≤ value.toNat :=
    (Nat.le_self_pow several root).trans (exact_iff.mp ((threshold root).mpr le_rfl))
  have low : l ≤ root := (threshold l).mp (exact_iff.mpr small)
  have reached : (BitVec.ofNat w l).toNat = l := by
    rw [BitVec.toNat_ofNat, Nat.mod_eq_of_lt (by omega)]
  obtain ⟨final, settles, found⟩ := settles_straight (l := BitVec.ofNat w l) room threshold below
    (by omega) (reached.symm ▸ straight)
  refine ⟨final.1, settles_nthRootFloor_iff.mpr ⟨final, ?_, rfl⟩,
    (isGreatest_iff threshold).mpr found⟩
  exact (settles_raised room (reached.symm ▸ raised)).mpr settles

open NthRoot in
/-- For a value that is not the largest one, it is enough that no sum of the bisection from zero
wraps around and no midpoint above the root has a power that looks small. -/
theorem nthRootFloor_of_straight (positive : n ≠ 0) (room : value.toNat + 1 < 2 ^ w)
    (straight : Straight value n 0) : ∃ root, Settles (nthRootFloor value n) root ∧
      IsGreatest {r : ℕ | r ^ n.toNat ≤ value.toNat} root.toNat := by
  refine nthRootFloor_of_raised positive room .zero ?_ straight
  rw [zero_pow fun none => positive (BitVec.eq_of_toNat_eq none)]
  exact Nat.zero_le _

open NthRoot in
/-- **The integer root.** The function returns the root if and only if the value is not the
largest one of its type, and from a number to which the lower bound is raised, the bisection
in unbounded integers meets no sum that wraps around and no midpoint above the root whose
power looks small. -/
theorem nthRootFloor_iff (positive : n ≠ 0) :
    (∃ root, Settles (nthRootFloor value n) root ∧
        IsGreatest {r : ℕ | r ^ n.toNat ≤ value.toNat} root.toNat) ↔
      value.toNat + 1 < 2 ^ w ∧
        ∃ l, Raised value n l ∧ l ^ n.toNat ≤ value.toNat ∧ Straight value n l := by
  constructor
  · rintro ⟨x, returns, found⟩
    obtain ⟨root, threshold⟩ := exists_root value positive
    have several : n.toNat ≠ 0 := fun none => positive (BitVec.eq_of_toNat_eq none)
    have below : root ≤ value.toNat :=
      (Nat.le_self_pow several root).trans (exact_iff.mp ((threshold root).mpr le_rfl))
    rw [isGreatest_iff threshold] at found
    obtain ⟨final, settles, rfl⟩ := settles_nthRootFloor_iff.mp returns
    by_contra none
    have crooked : value.toNat + 1 < 2 ^ w → ∀ l, Raised value n l → l ≤ root →
        ¬ Straight value n l := by
      intro room l raised low straight
      exact none ⟨room, l, raised, exact_iff.mp ((threshold l).mpr low), straight⟩
    have wide : 1 < 2 ^ w := by
      have := n.isLt
      omega
    obtain ⟨misses, done⟩ := Math.While.invariant (Misses value n root)
      (fun bounds misses going => misses.halve threshold crooked (of_decide_eq_true going))
      (misses_start wide) settles
    exact misses.done wide crooked (of_decide_eq_false done) found
  · rintro ⟨room, l, raised, small, straight⟩
    exact nthRootFloor_of_raised positive room raised small straight

/-- The square root of the largest 32-bit number is not found. -/
theorem nthRootFloor_uint32 :
    ¬ ∃ root, Settles (nthRootFloor (4294967295 : BitVec 32) 2) root ∧
        IsGreatest {r : ℕ | r ^ (2 : BitVec 32).toNat ≤ (4294967295 : BitVec 32).toNat}
          root.toNat := by
  rintro ⟨root, returns, -⟩
  exact nthRootFloor_largest (by decide) (by decide) root returns

open NthRoot in
/-- The square root of eight. -/
theorem nthRootFloor_iff_eight :
    ∃ root, Settles (nthRootFloor (8 : BitVec 8) 2) root ∧
        IsGreatest {r : ℕ | r ^ (2 : BitVec 8).toNat ≤ (8 : BitVec 8).toNat} root.toNat := by
  refine (nthRootFloor_iff (by decide)).mpr ⟨by decide, 0, .zero, by decide, ?_⟩
  have way : intervals (exact (8 : BitVec 8) 2) 0 9 = [(0, 9), (0, 4), (2, 4)] := by
    simp [intervals, exact]
  change ∀ i ∈ intervals (exact (8 : BitVec 8) 2) 0 9, _
  rw [way]
  decide

end Alpaka
