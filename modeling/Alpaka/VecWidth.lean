import Mathlib.Data.BitVec
import Alpaka.Vec

/-! # Linear indices in machine arithmetic

Products, pitches and linear indices are computed modulo a power of two. When the
product of the extents is representable, `mapToND` is exact on the indices below the
product (`Alpaka.toNats_mapToND`) and numbers the indices of the box one-to-one
(`Alpaka.mapToND_bijOn`); a linear index is exact when it is representable itself
(`Alpaka.toNat_linearize`).
-/

namespace Alpaka

open Math.MixedRadix

variable {w n : ℕ}

theorem toNat_cast (number : ℕ) : ((number : BitVec w)).toNat = number % 2 ^ w :=
  BitVec.toNat_ofNat number w

/-- A representable number is kept. -/
theorem toNat_cast_of_lt {number : ℕ} (below : number < 2 ^ w) :
    (number : BitVec w).toNat = number := by
  rw [toNat_cast, Nat.mod_eq_of_lt below]

theorem natCast_toNat (number : BitVec w) : ((number.toNat : ℕ) : BitVec w) = number := by
  apply BitVec.eq_of_toNat_eq
  rw [toNat_cast, Nat.mod_eq_of_lt number.isLt]

/-- The minimum of words is that of the numbers. -/
theorem toNat_stdMin (a b : BitVec w) : (stdMin a b).toNat = min a.toNat b.toNat := by
  unfold stdMin
  simp only [BitVec.lt_def]
  split <;> omega

/-- Comparing words of representable numbers. -/
theorem natCast_lt_iff {a b : ℕ} (left : a < 2 ^ w) (right : b < 2 ^ w) :
    (a : BitVec w) < (b : BitVec w) ↔ a < b := by
  rw [BitVec.lt_def, toNat_cast, toNat_cast, Nat.mod_eq_of_lt left, Nat.mod_eq_of_lt right]

theorem natCast_le_iff {a b : ℕ} (left : a < 2 ^ w) (right : b < 2 ^ w) :
    (a : BitVec w) ≤ (b : BitVec w) ↔ a ≤ b := by
  rw [BitVec.le_def, toNat_cast, toNat_cast, Nat.mod_eq_of_lt left, Nat.mod_eq_of_lt right]

/-- Dividing words of representable numbers. -/
theorem natCast_div {a b : ℕ} (left : a < 2 ^ w) (right : b < 2 ^ w) :
    ((a / b : ℕ) : BitVec w) = (a : BitVec w) / (b : BitVec w) := by
  apply BitVec.eq_of_toNat_eq
  rw [BitVec.toNat_udiv, toNat_cast, toNat_cast, toNat_cast, Nat.mod_eq_of_lt left,
    Nat.mod_eq_of_lt right, Nat.mod_eq_of_lt ((Nat.div_le_self a b).trans_lt left)]

theorem natCast_mod {a b : ℕ} (left : a < 2 ^ w) (right : b < 2 ^ w) :
    ((a % b : ℕ) : BitVec w) = (a : BitVec w) % (b : BitVec w) := by
  apply BitVec.eq_of_toNat_eq
  rw [BitVec.toNat_umod, toNat_cast, toNat_cast, toNat_cast, Nat.mod_eq_of_lt left,
    Nat.mod_eq_of_lt right, Nat.mod_eq_of_lt ((Nat.mod_le a b).trans_lt left)]

theorem natCast_min {a b : ℕ} (left : a < 2 ^ w) (right : b < 2 ^ w) :
    ((min a b : ℕ) : BitVec w) = stdMin (a : BitVec w) (b : BitVec w) := by
  apply BitVec.eq_of_toNat_eq
  rw [toNat_stdMin, toNat_cast, toNat_cast, toNat_cast, Nat.mod_eq_of_lt left,
    Nat.mod_eq_of_lt right, Nat.mod_eq_of_lt ((Nat.min_le_left a b).trans_lt left)]

/-- Rounding up in machine arithmetic is exact when the numerator is representable. -/
theorem toNat_divCeil {number divisor : ℕ} (positive : 0 < divisor) (narrow : divisor < 2 ^ w)
    (dividend : BitVec w) (same : dividend.toNat = number % 2 ^ w) :
    (divCeil dividend (divisor : BitVec w)).toNat =
      (number + divisor - 1) % 2 ^ w / divisor := by
  have cast : dividend = (number : BitVec w) := by
    apply BitVec.eq_of_toNat_eq
    rw [same, toNat_cast]
  have whole : (number : BitVec w) + (divisor : BitVec w) - 1 =
      ((number + divisor - 1 : ℕ) : BitVec w) := by
    have split : number + divisor = number + divisor - 1 + 1 := by omega
    rw [← Nat.cast_add, split, Nat.cast_succ, add_sub_cancel_right, Nat.add_sub_cancel]
  unfold divCeil
  rw [cast, whole, BitVec.toNat_udiv, toNat_cast, toNat_cast, Nat.mod_eq_of_lt narrow]

/-- A power of two that divides a number divides it in machine arithmetic of any width. -/
theorem two_pow_dvd_mod {bits number : ℕ} (divides : 2 ^ bits ∣ number) (w : ℕ) :
    2 ^ bits ∣ number % 2 ^ w := by
  rcases Nat.le_total bits w with narrow | wide
  · exact (Nat.dvd_mod_iff (Nat.pow_dvd_pow 2 narrow)).mpr divides
  · rw [Nat.mod_eq_zero_of_dvd ((Nat.pow_dvd_pow 2 wide).trans divides)]
    exact Nat.dvd_zero _

namespace Vec

/-- The components as numbers. -/
def toNats (v : Vec (BitVec w) n) : Vec ℕ n := fun d => (v d).toNat

/-- Numbers as components. -/
def ofNats (v : Vec ℕ n) : Vec (BitVec w) n := fun d => (v d : BitVec w)

theorem toNats_injective : Function.Injective (toNats : Vec (BitVec w) n → Vec ℕ n) := by
  intro first second same
  funext d
  exact BitVec.eq_of_toNat_eq (congrFun same d)

theorem ofNats_toNats (v : Vec (BitVec w) n) : ofNats v.toNats = v :=
  funext fun d => natCast_toNat (v d)

theorem toNats_ofNats {v : Vec ℕ n} (representable : ∀ d, v d < 2 ^ w) :
    (ofNats v : Vec (BitVec w) n).toNats = v := by
  funext d
  exact (toNat_cast (v d)).trans (Nat.mod_eq_of_lt (representable d))

theorem ofNats_update (v : Vec ℕ n) (d : Fin n) (number : ℕ) :
    (ofNats (Function.update v d number) : Vec (BitVec w) n) =
      Function.update (ofNats v) d (number : BitVec w) :=
  funext fun e => Function.apply_update (fun _ (number : ℕ) => (number : BitVec w)) v d number e

/-- The product of words is the word of the product. -/
theorem product_ofNats (v : Vec ℕ (n + 1)) :
    Vec.product (Vec.ofNats v : Vec (BitVec w) (n + 1)) = ((∏ d, v d : ℕ) : BitVec w) := by
  have loop (m : ℕ) (start : ℕ) (u : Vec ℕ m) :
      Fin.foldl m (fun result i => result * (u i : BitVec w)) (start : BitVec w) =
        ((start * ∏ i, u i : ℕ) : BitVec w) := by
    induction m with
    | zero => rw [Fin.foldl_zero, Fin.prod_univ_zero, Nat.mul_one]
    | succ m ih =>
        rw [Fin.foldl_succ_last, ih, Fin.prod_univ_castSucc, ← Nat.cast_mul, Nat.mul_assoc]
  unfold product
  rw [Fin.prod_univ_succ]
  exact loop n (v 0) fun i => v i.succ

/-- A product is exact modulo the width. -/
theorem toNat_product (v : Vec (BitVec w) (n + 1)) :
    v.product.toNat = (∏ d, (v d).toNat) % 2 ^ w := by
  have product := product_ofNats (w := w) v.toNats
  rw [ofNats_toNats] at product
  rw [product, toNat_cast]
  rfl

end Vec

/-- The indices of a vector of extents. -/
def box (extents : Vec (BitVec w) n) : Set (Vec (BitVec w) n) := {idx | ∀ d, idx d < extents d}

/-- Pitches are exact modulo the width. -/
theorem toNat_pitchExtents (extents : Vec (BitVec w) (n + 1)) (d : Fin n) :
    (pitchExtents extents d).toNat = pitchExtents extents.toNats d % 2 ^ w := by
  induction n with
  | zero => exact d.elim0
  | succ n ih =>
      cases n with
      | zero => exact (Nat.mod_eq_of_lt (extents 1).isLt).symm
      | succ n =>
          cases d using Fin.cases with
          | zero =>
              have faster := ih (Vec.rshrink extents) 0
              change (extents 1 * pitchExtents (Vec.rshrink extents) 0).toNat =
                (extents 1).toNat * pitchExtents (Vec.rshrink extents.toNats) 0 % 2 ^ w
              rw [BitVec.toNat_mul, faster, Nat.mul_mod_mod]
              rfl
          | succ d => exact ih (Vec.rshrink extents) d

/-- With exact pitches the loop is exact. -/
private theorem toNats_mapToNDLoop {pitch : Vec (BitVec w) n} {precise : Vec ℕ n}
    (pitches : pitch.toNats = precise) (linearIdx : BitVec w) :
    (mapToNDLoop pitch linearIdx).toNats = mapToNDLoop precise linearIdx.toNat := by
  induction n generalizing linearIdx with
  | zero => rfl
  | succ n ih =>
      have head : (pitch 0).toNat = precise 0 := congrFun pitches 0
      have component : (linearIdx / pitch 0).toNat = linearIdx.toNat / precise 0 := by
        rw [BitVec.toNat_udiv, head]
      have whole : precise 0 * (linearIdx.toNat / precise 0) ≤ linearIdx.toNat := Nat.mul_div_le _ _
      have taken : (pitch 0 * (linearIdx / pitch 0)).toNat =
          precise 0 * (linearIdx.toNat / precise 0) := by
        rw [BitVec.toNat_mul, head, component, Nat.mod_eq_of_lt (whole.trans_lt linearIdx.isLt)]
      have remaining : (linearIdx - pitch 0 * (linearIdx / pitch 0)).toNat =
          linearIdx.toNat - precise 0 * (linearIdx.toNat / precise 0) := by
        rw [BitVec.toNat_sub_of_le (by rw [BitVec.le_def, taken]; exact whole), taken]
      have faster : (Vec.rshrink pitch).toNats = Vec.rshrink precise :=
        funext fun d => congrFun pitches d.succ
      have rest := ih faster (linearIdx - pitch 0 * (linearIdx / pitch 0))
      rw [remaining] at rest
      funext d
      cases d using Fin.cases with
      | zero => exact component
      | succ d => exact congrFun rest d

section MapToND

variable {extents : Vec (BitVec w) (n + 1)}

/-- `mapToND` is exact below a representable product. -/
theorem toNats_mapToND (representable : ∏ d, (extents d).toNat < 2 ^ w) {linearIdx : BitVec w}
    (below : linearIdx.toNat < ∏ d, (extents d).toNat) :
    (mapToND extents linearIdx).toNats = mapToND extents.toNats linearIdx.toNat := by
  apply toNats_mapToNDLoop
  funext d
  have nonzero : ∏ d, (extents d).toNat ≠ 0 := Nat.ne_zero_of_lt below
  have divides : weight extents.toNats d.castSucc ∣ ∏ d, (extents d).toNat :=
    Finset.prod_dvd_prod_of_subset _ _ _ (Finset.subset_univ _)
  have pitch : pitchExtents extents.toNats d < 2 ^ w := by
    rw [pitchExtents_eq_weight]
    exact (Nat.le_of_dvd (Nat.pos_of_ne_zero nonzero) divides).trans_lt representable
  exact (toNat_pitchExtents extents d).trans (Nat.mod_eq_of_lt pitch)

/-- Below a representable product the linear indices number the indices of the box. -/
theorem mapToND_bijOn (representable : ∏ d, (extents d).toNat < 2 ^ w) :
    Set.BijOn (mapToND extents) {linearIdx | linearIdx.toNat < ∏ d, (extents d).toNat}
      {idx | ∀ d, idx d < extents d} := by
  have digits {linearIdx : BitVec w} (below : linearIdx.toNat < ∏ d, (extents d).toNat) :
      (mapToND extents linearIdx).toNats = place extents.toNats linearIdx.toNat := by
    rw [toNats_mapToND representable below, mapToND_eq_place]
  have numbers := place_bijOn extents.toNats
  refine ⟨fun linearIdx below d => ?_, fun first firstIn second secondIn same => ?_,
    fun idx inside => ?_⟩
  · rw [BitVec.lt_def]
    have digit := numbers.mapsTo below d
    rwa [← digits below] at digit
  · have equal := congrArg Vec.toNats same
    rw [digits firstIn, digits secondIn] at equal
    exact BitVec.eq_of_toNat_eq (numbers.injOn firstIn secondIn equal)
  · obtain ⟨number, below, reached⟩ := numbers.surjOn (show idx.toNats ∈ _ from inside)
    have cast : (number : BitVec w).toNat = number := by
      rw [toNat_cast, Nat.mod_eq_of_lt (lt_trans below representable)]
    have inside' : (number : BitVec w).toNat < ∏ d, (extents d).toNat := by
      rw [cast]
      exact below
    refine ⟨number, inside', Vec.toNats_injective ?_⟩
    rw [digits inside', cast, reached]

end MapToND

/-- Along a fastest dimension with a single index the component is zero, whatever overflows. -/
theorem mapToND_back (extents : Vec (BitVec w) (n + 2)) (single : extents.back = 1)
    (linearIdx : BitVec w) : (mapToND extents linearIdx).back = 0 := by
  induction n generalizing linearIdx with
  | zero =>
      change linearIdx - extents.back * (linearIdx / extents.back) = 0
      have whole : linearIdx / 1 = linearIdx := BitVec.udiv_one
      rw [single, whole, one_mul, sub_self]
  | succ n ih =>
      have faster : (Vec.rshrink extents).back = 1 := single
      exact ih (Vec.rshrink extents) faster _

/-- The linear index of words is the word of the linear index. -/
theorem linearize_ofNats (dim idx : Vec ℕ (n + 1)) :
    linearize (Vec.ofNats dim : Vec (BitVec w) (n + 1)) (Vec.ofNats idx) =
      ((linearize dim idx : ℕ) : BitVec w) := by
  have loop (m : ℕ) (dim idx : Vec ℕ m) (start : ℕ) :
      Fin.foldl m (fun linearIdx d => linearIdx * (dim d : BitVec w) + (idx d : BitVec w))
          (start : BitVec w) =
        ((Fin.foldl m (fun linearIdx d => linearIdx * dim d + idx d) start : ℕ) : BitVec w) := by
    induction m with
    | zero => rw [Fin.foldl_zero, Fin.foldl_zero]
    | succ m ih =>
        have slower := ih (fun d => dim d.castSucc) fun d => idx d.castSucc
        rw [Fin.foldl_succ_last, Fin.foldl_succ_last, slower, Nat.cast_add, Nat.cast_mul]
  exact loop n (Vec.rshrink dim) (Vec.rshrink idx) (idx 0)

/-- A linear index is exact modulo the width. -/
theorem toNat_linearize (dim idx : Vec (BitVec w) (n + 1)) :
    (linearize dim idx).toNat = linearize dim.toNats idx.toNats % 2 ^ w := by
  have index := linearize_ofNats (w := w) dim.toNats idx.toNats
  rw [Vec.ofNats_toNats, Vec.ofNats_toNats] at index
  rw [index, toNat_cast]

end Alpaka
