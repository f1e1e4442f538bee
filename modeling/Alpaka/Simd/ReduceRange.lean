import Mathlib.Data.List.FinRange
import Alpaka.Math.Segment
import Alpaka.Simd.SimdMask
import Alpaka.Vec

/-! # Reductions

Vectors, SIMD packs and masks are reduced by splitting the range of their elements at the
midpoint. A build for SYCL, which cannot call recursive functions, loops over the range. For
an associative functor both are the left fold over the elements
(`Alpaka.reduceRange_eq_foldl`).
-/

namespace Alpaka

open Math (foldl1 foldl1_append segment segment_append segment_cons segment_self segment_all)

variable {α : Type*} {width : ℕ}

/-- The template that the classes share, with the operator that reads an element. The flag
is that of a build for SYCL. -/
def reduceRange (langSycl : Bool) (reduceFunc : α → α → α) (element : Fin width → α)
    (start stop : ℕ) (nonempty : start < stop) (inside : stop ≤ width) : α :=
  let size := stop - start
  if single : size = 1 then element ⟨start, nonempty.trans_le inside⟩
  else if langSycl then
    Fin.foldl (stop - (start + 1))
      (fun result i => reduceFunc result (element ⟨start + 1 + i, by omega⟩))
      (element ⟨start, nonempty.trans_le inside⟩)
  else
    let mid := start + size / 2
    reduceFunc (reduceRange langSycl reduceFunc element start mid (by omega) (by omega))
      (reduceRange langSycl reduceFunc element mid stop (by omega) inside)
termination_by stop - start

def Vec.reduceRange {n : ℕ} (langSycl : Bool) (reduceFunc : α → α → α) (v : Vec α (n + 1)) : α :=
  Alpaka.reduceRange langSycl reduceFunc v 0 (n + 1) (Nat.succ_pos n) le_rfl

def Simd.reduceRange {n : ℕ} (langSycl : Bool) (reduceFunc : α → α → α) (pack : Fin (n + 1) → α) :
    α :=
  Alpaka.reduceRange langSycl reduceFunc pack 0 (n + 1) (Nat.succ_pos n) le_rfl

/-- The lanes of a mask are read as Booleans. -/
def SimdMask.reduceRange {bytes n : ℕ} (langSycl : Bool) (reduceFunc : Bool → Bool → Bool)
    (mask : EmuSimdMask bytes n) : Bool :=
  Alpaka.reduceRange langSycl reduceFunc (fun lane => read (mask lane)) 0 (n + 1) (Nat.succ_pos n)
    le_rfl

variable {langSycl : Bool} {op : α → α → α} {element : Fin width → α}

/-- A loop over a range. -/
private theorem foldl_segment (count : ℕ) {start stop : ℕ} (x : α) (whole : start + count = stop)
    (inside : stop ≤ width) :
    Fin.foldl count (fun result i => op result (element ⟨start + i, by omega⟩)) x =
      (segment (List.ofFn element) start stop).foldl op x := by
  induction count generalizing start x with
  | zero =>
      subst whole
      rw [Fin.foldl_zero, Nat.add_zero, segment_self, List.foldl_nil]
  | succ count ih =>
      have length : start < (List.ofFn element).length := by
        rw [List.length_ofFn]
        omega
      rw [Fin.foldl_succ, segment_cons (by omega) length, List.foldl_cons, List.getElem_ofFn]
      refine Eq.trans ?_ (ih (op x (element ⟨start, by omega⟩)) (by omega))
      congr 1
      funext result i
      refine congrArg (fun place => op result (element place)) (Fin.ext ?_)
      exact (Nat.succ_add_eq_add_succ start i).symm

/-- A reduction is the left fold over its range. -/
private theorem foldl1_segment (langSycl : Bool) (element : Fin width → α)
    (assoc : ∀ a b c, op (op a b) c = op a (op b c)) {start stop : ℕ}
    (nonempty : start < stop) (inside : stop ≤ width) :
    foldl1 op (segment (List.ofFn element) start stop) =
      some (reduceRange langSycl op element start stop nonempty inside) := by
  have length {start : ℕ} (below : start < width) : start < (List.ofFn element).length := by
    rwa [List.length_ofFn]
  fun_induction reduceRange langSycl op element start stop nonempty inside with
  | case1 start stop nonempty inside size single =>
      have last : stop = start + 1 := by omega
      subst last
      rw [segment_cons nonempty (length (by omega)), segment_self, List.getElem_ofFn]
      rfl
  | case2 start stop nonempty inside size several sycl =>
      rw [segment_cons nonempty (length (by omega)), List.getElem_ofFn]
      exact congrArg some (foldl_segment _ _ (by omega) inside).symm
  | case3 start stop nonempty inside size several recursive mid left right =>
      rw [← segment_append (List.ofFn element) (show start ≤ mid by omega)
        (show mid ≤ stop by omega)]
      exact foldl1_append assoc left right

/-- A reduction of all elements is the left fold. -/
theorem reduceRange_all {n : ℕ} (assoc : ∀ a b c, op (op a b) c = op a (op b c))
    (element : Fin (n + 1) → α) :
    reduceRange langSycl op element 0 (n + 1) (Nat.succ_pos n) le_rfl =
      (List.ofFn fun i : Fin n => element i.succ).foldl op (element 0) := by
  have folded := foldl1_segment langSycl element assoc (Nat.succ_pos n) le_rfl
  have whole := segment_all (List.ofFn element)
  rw [List.length_ofFn] at whole
  rw [whole, List.ofFn_succ] at folded
  exact (Option.some.inj folded).symm

/-- **Tree and loop.** In every build the reductions of vectors, packs and masks are the left
folds over the elements. Every element is used once: the lists of single elements are joined
to the list of all of them. -/
theorem reduceRange_eq_foldl (assoc : ∀ a b c, op (op a b) c = op a (op b c))
    {maskOp : Bool → Bool → Bool}
    (maskAssoc : ∀ a b c, maskOp (maskOp a b) c = maskOp a (maskOp b c)) (langSycl : Bool)
    (bytes n : ℕ) :
    (∀ v : Vec α (n + 1), v.reduceRange langSycl op =
      (List.ofFn fun i : Fin n => v i.succ).foldl op (v 0)) ∧
    (∀ pack : Fin (n + 1) → α, Simd.reduceRange langSycl op pack =
      (List.ofFn fun i : Fin n => pack i.succ).foldl op (pack 0)) ∧
    (∀ mask : SimdMask.EmuSimdMask bytes n, SimdMask.reduceRange langSycl maskOp mask =
      (List.ofFn fun i : Fin n => SimdMask.read (mask i.succ)).foldl maskOp
        (SimdMask.read (mask 0))) ∧
    reduceRange langSycl (· ++ ·) (fun i : Fin (n + 1) => [i]) 0 (n + 1) (Nat.succ_pos n) le_rfl =
      List.finRange (n + 1) := by
  refine ⟨fun v => reduceRange_all assoc v, fun pack => reduceRange_all assoc pack,
    fun mask => reduceRange_all maskAssoc _, ?_⟩
  rw [reduceRange_all List.append_assoc, List.finRange_succ, List.ofFn_eq_map, List.foldl_map,
    List.foldl_append_eq_append, ← List.flatMap_def]
  exact congrArg ([0] ++ ·) List.map_eq_flatMap.symm

/-- Three lists are joined, and three lanes of a mask. -/
theorem reduceRange_eq_foldl_lists :
    (∀ v : Vec (List ℕ) 3, v.reduceRange false (· ++ ·) =
      (List.ofFn fun i : Fin 2 => v i.succ).foldl (· ++ ·) (v 0)) ∧
    (∀ pack : Fin 3 → List ℕ, Simd.reduceRange false (· ++ ·) pack =
      (List.ofFn fun i : Fin 2 => pack i.succ).foldl (· ++ ·) (pack 0)) ∧
    (∀ mask : SimdMask.EmuSimdMask 4 2, SimdMask.reduceRange false and mask =
      (List.ofFn fun i : Fin 2 => SimdMask.read (mask i.succ)).foldl and
        (SimdMask.read (mask 0))) ∧
    reduceRange false (· ++ ·) (fun i : Fin 3 => [i]) 0 3 (by decide) le_rfl =
      List.finRange 3 :=
  reduceRange_eq_foldl List.append_assoc Bool.and_assoc false 4 2

end Alpaka
