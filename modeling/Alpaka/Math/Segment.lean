import Mathlib.Data.List.Basic

/-! # Folds over segments of a list

The left fold over a list that is not empty needs no initial value. For an associative
operation it can be put together from the folds of adjacent segments, wherever they are cut
(`Math.foldl1_append`, `Math.segment_append`).
-/

namespace Math

variable {α : Type*}

/-- The left fold over a list that is not empty. -/
def foldl1 (op : α → α → α) : List α → Option α
  | [] => none
  | x :: rest => some (rest.foldl op x)

/-- The folds of two lists are combined to the fold of both. -/
theorem foldl1_append {op : α → α → α} (assoc : ∀ a b c, op (op a b) c = op a (op b c))
    {first second : List α} {x y : α} (left : foldl1 op first = some x)
    (right : foldl1 op second = some y) : foldl1 op (first ++ second) = some (op x y) := by
  have : Std.Associative op := ⟨assoc⟩
  cases first with
  | nil => cases left
  | cons a first =>
      cases second with
      | nil => cases right
      | cons b second =>
          obtain rfl := Option.some.inj left
          obtain rfl := Option.some.inj right
          rw [List.cons_append]
          apply congrArg some
          rw [List.foldl_append, List.foldl_cons, List.foldl_assoc]

/-- The elements from one index on and before another one. -/
def segment (elements : List α) (start stop : ℕ) : List α := (elements.take stop).drop start

theorem segment_append (elements : List α) {start mid stop : ℕ} (left : start ≤ mid)
    (right : mid ≤ stop) :
    segment elements start mid ++ segment elements mid stop = segment elements start stop := by
  have early : (elements.take stop).take mid = elements.take mid := by
    rw [List.take_take, Nat.min_eq_left right]
  unfold segment
  rw [← early, List.drop_take]
  have late : (elements.take stop).drop mid =
      ((elements.take stop).drop start).drop (mid - start) := by
    rw [List.drop_drop, Nat.add_sub_of_le left]
  rw [late, List.take_append_drop]

theorem segment_cons {elements : List α} {start stop : ℕ} (below : start < stop)
    (inside : start < elements.length) :
    segment elements start stop = elements[start] :: segment elements (start + 1) stop := by
  have length : start < (elements.take stop).length := by
    rw [List.length_take]
    exact Nat.lt_min.mpr ⟨below, inside⟩
  unfold segment
  rw [List.drop_eq_getElem_cons length, List.getElem_take]

@[simp] theorem segment_self (elements : List α) (start : ℕ) : segment elements start start = [] :=
  List.drop_eq_nil_of_le (List.length_take_le _ _)

theorem segment_all (elements : List α) : segment elements 0 elements.length = elements := by
  unfold segment
  rw [List.drop_zero, List.take_length]

end Math
