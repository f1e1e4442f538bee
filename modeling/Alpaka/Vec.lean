import Mathlib.Data.Fin.Tuple.Basic
import Alpaka.Math.MixedRadix

/-! # Vectors, selections and linear indices

Component `0` of a vector belongs to the slowest moving dimension, the last one
to the fastest. The definitions are generic in the value type, as the templates
are; over the naturals they compute in exact arithmetic. There `linearize` is
the value of a mixed-radix numeral and `mapToND` reads the digits back.
-/

namespace Alpaka

/-- A vector with `dim` components. -/
abbrev Vec (T : Type*) (dim : ℕ) := Fin dim → T

/-- A compile time selection of dimensions, in the order in which they are
listed. -/
abbrev CSelect (selected dim : ℕ) := Fin selected → Fin dim

/-- Vectors of a dimension that is not zero have a first component. Modules with such
vectors take these facts as local instances. -/
theorem neZero_add_one (n : ℕ) : NeZero (n + 1) := ⟨Nat.succ_ne_zero _⟩

attribute [local instance (2000)] neZero_add_one

theorem neZero_one : NeZero (0 + 1) := ⟨Nat.one_ne_zero⟩

theorem neZero_two : NeZero 2 := ⟨two_ne_zero⟩

theorem neZero_four : NeZero 4 := ⟨four_ne_zero⟩

theorem neZero_add_three (n : ℕ) : NeZero (n + 1 + 2) := ⟨Nat.succ_ne_zero _⟩

section Scalar

variable {T : Type*}

/-- The minimum as the standard library computes it: the first argument unless
the second is smaller. -/
def stdMin [LT T] [DecidableLT T] (a b : T) : T := if b < a then b else a

/-- The ceiling of `a / b`. -/
def divCeil [Add T] [Sub T] [Div T] [OfNat T 1] (a b : T) : T := (a + b - 1) / b

@[simp] theorem stdMin_eq_min (a b : ℕ) : stdMin a b = min a b := by
  unfold stdMin
  split <;> omega

/-- Rounding up to a multiple of the alignment. -/
theorem le_divCeil_mul {alignment : ℕ} (positive : 0 < alignment) (bytes : ℕ) :
    bytes ≤ divCeil bytes alignment * alignment := by
  unfold divCeil
  have := Nat.div_add_mod (bytes + alignment - 1) alignment
  have := Nat.mod_lt (bytes + alignment - 1) positive
  rw [Nat.mul_comm]
  omega

end Scalar

namespace Vec

variable {T : Type*} {n k : ℕ}

def fill (value : T) : Vec T n := fun _ => value

/-- The component of the fastest moving dimension. -/
def back (v : Vec T (n + 1)) : T := v (Fin.last n)

/-- The vector without the slowest moving dimension. -/
def rshrink (v : Vec T (n + 1)) : Vec T n := fun i => v i.succ

/-- A copy of the vector with the fastest moving dimension replaced. -/
def rAssign (v : Vec T (n + 1)) (value : T) : Vec T (n + 1) :=
  Function.update v (Fin.last n) value

/-- The swizzle operator: the selected components. -/
def swizzle (v : Vec T n) (selection : CSelect k n) : Vec T k := fun i => v (selection i)

/-- The components named by a selection are combined in turn with a right-hand
side, as the assignment operators do on `v.ref(selection)`. -/
def refAssign (op : T → T → T) (v : Vec T n) (selection : CSelect k n) (rhs : Vec T k) : Vec T n :=
  Fin.foldl k (fun result i =>
    Function.update result (selection i) (op (result (selection i)) (rhs i))) v

def product [Mul T] (v : Vec T (n + 1)) : T :=
  Fin.foldl n (fun result i => result * v i.succ) (v 0)

/-- An assignment through a selection leaves the other components alone. -/
theorem refAssign_of_not_mem (op : T → T → T) (v : Vec T n) (selection : CSelect k n)
    (rhs : Vec T k) (d : Fin n) (unselected : ∀ i, selection i ≠ d) :
    refAssign op v selection rhs d = v d := by
  induction k with
  | zero => rfl
  | succ k ih =>
      unfold refAssign
      rw [Fin.foldl_succ_last, Function.update_of_ne (unselected (Fin.last k)).symm]
      exact ih (fun i => selection i.castSucc) (fun i => rhs i.castSucc)
        fun i => unselected i.castSucc

/-- An assignment through a selection of distinct dimensions combines each of
them once. -/
theorem refAssign_selected (op : T → T → T) (v : Vec T n) {selection : CSelect k n}
    (distinct : Function.Injective selection) (rhs : Vec T k) (i : Fin k) :
    refAssign op v selection rhs (selection i) = op (v (selection i)) (rhs i) := by
  induction k with
  | zero => exact i.elim0
  | succ k ih =>
      have inner : Function.Injective fun j : Fin k => selection j.castSucc :=
        distinct.comp (Fin.castSucc_injective k)
      unfold refAssign
      rw [Fin.foldl_succ_last]
      cases i using Fin.lastCases with
      | last =>
          have kept := refAssign_of_not_mem op v (fun j : Fin k => selection j.castSucc)
            (fun j => rhs j.castSucc) (selection (Fin.last k)) fun j same =>
              (Fin.castSucc_lt_last j).ne (distinct same)
          unfold refAssign at kept
          rw [Function.update_self, kept]
      | cast i =>
          have other : selection i.castSucc ≠ selection (Fin.last k) := fun same =>
            (Fin.castSucc_lt_last i).ne (distinct same)
          rw [Function.update_of_ne other]
          exact ih inner (fun j => rhs j.castSucc) i

theorem product_eq_prod (v : Vec ℕ (n + 1)) : product v = ∏ i, v i := by
  have loop (m start : ℕ) (w : Vec ℕ m) :
      Fin.foldl m (fun result i => result * w i) start = start * ∏ i, w i := by
    induction m generalizing start with
    | zero => simp
    | succ m ih =>
        have rest := ih (start * w 0) fun i => w i.succ
        rw [Fin.foldl_succ, rest, Fin.prod_univ_succ, Nat.mul_assoc]
  unfold product
  rw [loop n (v 0) fun i => v i.succ, Fin.prod_univ_succ]

end Vec

section Linear

variable {T : Type*} {n : ℕ}

/-- The linear index of an N-dimensional index; the extent of the slowest
dimension is not needed. -/
def linearizeShrunk [Add T] [Mul T] (dim : Vec T n) (idx : Vec T (n + 1)) : T :=
  Fin.foldl n (fun linearIdx d => linearIdx * dim d + idx d.succ) (idx 0)

/-- The linear index of an N-dimensional index within an index space. -/
def linearize [Add T] [Mul T] (dim idx : Vec T (n + 1)) : T :=
  linearizeShrunk (Vec.rshrink dim) idx

/-- The pitches of `mapToND`, filled from the back: a pitch is the next faster
extent times the next faster pitch. -/
def pitchExtents [Mul T] : {n : ℕ} → Vec T (n + 1) → Vec T n
  | 0, _ => Fin.elim0
  | 1, extents => fun _ => extents 1
  | _ + 2, extents =>
      let faster := pitchExtents (Vec.rshrink extents)
      Fin.cons (extents 1 * faster 0) faster

/-- The loop of `mapToND` over the pitches; what remains is the fastest
component. -/
def mapToNDLoop [Sub T] [Mul T] [Div T] : {n : ℕ} → Vec T n → T → Vec T (n + 1)
  | 0, _, linearIdx => fun _ => linearIdx
  | _ + 1, pitch, linearIdx =>
      let component := linearIdx / pitch 0
      Fin.cons component (mapToNDLoop (Vec.rshrink pitch) (linearIdx - pitch 0 * component))

/-- Maps a linear index to an N-dimensional index. -/
def mapToND [Sub T] [Mul T] [Div T] (extents : Vec T (n + 1)) (linearIdx : T) : Vec T (n + 1) :=
  mapToNDLoop (pitchExtents extents) linearIdx

end Linear

open Math.MixedRadix

variable {n : ℕ}

private theorem linearize_loop (dim idx : Vec ℕ (n + 1)) (start : ℕ) :
    Fin.foldl n (fun linearIdx d => linearIdx * dim d.succ + idx d.succ) start =
      start * weight dim 0 + ∑ i : Fin n, idx i.succ * weight dim i.succ := by
  induction n generalizing start with
  | zero =>
      have unit : weight dim 0 = 1 := weight_last dim
      simp [unit]
  | succ n ih =>
      have rest := ih (Fin.tail dim) (Fin.tail idx) (start * dim 1 + idx 1)
      have head : weight dim 0 = dim 1 * weight (Fin.tail dim) 0 := by
        have split := weight_castSucc dim 0
        rw [weight_succ] at split
        exact split
      rw [Fin.foldl_succ]
      refine rest.trans ?_
      have faster : ∀ i : Fin n, weight (Fin.tail dim) i.succ = weight dim i.succ.succ :=
        fun i => (weight_succ dim i.succ).symm
      rw [Fin.sum_univ_succ, head, weight_succ dim 0]
      simp only [faster, Fin.tail, Fin.succ_zero_eq_one]
      ring

/-- A linear index is the value of a numeral. -/
theorem linearize_eq_value (dim idx : Vec ℕ (n + 1)) : linearize dim idx = value dim idx := by
  unfold linearize linearizeShrunk value Vec.rshrink
  rw [linearize_loop, Fin.sum_univ_succ]

theorem pitchExtents_eq_weight (extents : Vec ℕ (n + 1)) (i : Fin n) :
    pitchExtents extents i = weight extents i.castSucc := by
  induction n with
  | zero => exact i.elim0
  | succ n ih =>
      rw [weight_castSucc]
      cases n with
      | zero =>
          rw [Fin.fin_one_eq_zero i, show weight extents (Fin.succ 0) = 1 from weight_last extents,
            Nat.mul_one]
          rfl
      | succ n =>
          have faster (j : Fin (n + 1)) : pitchExtents (Vec.rshrink extents) j =
              weight extents j.succ.castSucc := by
            rw [ih (Vec.rshrink extents) j, ← Fin.succ_castSucc, weight_succ]
            rfl
          cases i using Fin.cases with
          | zero => exact congrArg (extents 1 * ·) (faster 0)
          | succ i =>
              rw [← weight_castSucc]
              exact faster i

/-- The components of a linear index are the digits of that number. -/
theorem mapToND_eq_place (extents : Vec ℕ (n + 1)) (linearIdx : ℕ) :
    mapToND extents linearIdx = place extents linearIdx := by
  have loop (m : ℕ) (radix : Vec ℕ (m + 1)) (pitch : Vec ℕ m) (number : ℕ)
      (pitches : ∀ i, pitch i = weight radix i.castSucc) :
      mapToNDLoop pitch number = place radix number := by
    induction m generalizing number with
    | zero =>
        funext i
        rw [Fin.fin_one_eq_zero i, place_zero, show weight radix 0 = 1 from weight_last radix,
          Nat.div_one]
        rfl
    | succ m ih =>
        have head : pitch 0 = weight radix 0 := pitches 0
        have rest := ih (Fin.tail radix) (Vec.rshrink pitch) (number % weight radix 0)
          fun i => (pitches i.succ).trans (by rw [← Fin.succ_castSucc, weight_succ])
        funext i
        unfold mapToNDLoop
        simp only [head]
        cases i using Fin.cases with
        | zero => rw [Fin.cons_zero, place_zero]
        | succ i =>
            rw [Fin.cons_succ, place_succ, ← rest, Nat.mod_eq_sub_mul_div]
  exact loop n extents (pitchExtents extents) linearIdx (pitchExtents_eq_weight extents)

/-- **Linear indices.** `linearize` and `mapToND` are inverse to each other, and a linear
index grows with the lexicographic order of the indices. -/
theorem linearize_mapToND (extents : Vec ℕ (n + 1)) (positive : ∀ d, 0 < extents d) :
    (∀ idx : Vec ℕ (n + 1), (∀ d, idx d < extents d) →
      mapToND extents (linearize extents idx) = idx) ∧
    (∀ linearIdx < Vec.product extents, linearize extents (mapToND extents linearIdx) = linearIdx ∧
      ∀ d, mapToND extents linearIdx d < extents d) ∧
    ∀ idx other : Vec ℕ (n + 1), (∀ d, idx d < extents d) → (∀ d, other d < extents d) →
      toLex idx < toLex other → linearize extents idx < linearize extents other := by
  refine ⟨fun idx inside => ?_, fun linearIdx below => ⟨?_, ?_⟩,
    fun idx other inside _ before => ?_⟩
  · rw [mapToND_eq_place, linearize_eq_value]
    exact place_value fun d _ => inside d
  · rw [mapToND_eq_place, linearize_eq_value]
    exact value_place (fun d _ => positive d) linearIdx
  · rw [mapToND_eq_place]
    rw [Vec.product_eq_prod] at below
    exact place_lt_of_lt below
  · rw [linearize_eq_value, linearize_eq_value]
    exact value_lt_of_lex (fun d _ => inside d) before

/-- A box of two by three by four. -/
theorem linearize_mapToND_box :
    (∀ idx : Vec ℕ 3, (∀ d, idx d < ![2, 3, 4] d) →
      mapToND ![2, 3, 4] (linearize ![2, 3, 4] idx) = idx) ∧
    (∀ linearIdx < Vec.product ![2, 3, 4],
      linearize ![2, 3, 4] (mapToND ![2, 3, 4] linearIdx) = linearIdx ∧
        ∀ d, mapToND ![2, 3, 4] linearIdx d < ![2, 3, 4] d) ∧
    ∀ idx other : Vec ℕ 3, (∀ d, idx d < ![2, 3, 4] d) → (∀ d, other d < ![2, 3, 4] d) →
      toLex idx < toLex other → linearize ![2, 3, 4] idx < linearize ![2, 3, 4] other :=
  linearize_mapToND ![2, 3, 4] (by decide)

end Alpaka
