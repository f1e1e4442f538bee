import Mathlib.Order.Nat

/-! # Bisection

An interval is halved by asking a judge about its midpoint until a single number is left.
Two judges that agree on the midpoints of one bisection lead to the same number
(`Math.Bisection.congr`). A judge that is right about all numbers up to a threshold finds it
if and only if it is right about the midpoints on the way (`Math.Bisection.bisect_eq_iff`).
-/

namespace Math.Bisection

variable {judge exact : ℕ → Bool} {l r root : ℕ}

/-- The intervals that a bisection halves. -/
def intervals (judge : ℕ → Bool) (l r : ℕ) : List (ℕ × ℕ) :=
  if l + 1 < r then
    (l, r) :: if judge ((l + r) / 2) then intervals judge ((l + r) / 2) r
      else intervals judge l ((l + r) / 2)
  else []
termination_by r - l
decreasing_by all_goals omega

/-- The number on which a bisection ends. -/
def bisect (judge : ℕ → Bool) (l r : ℕ) : ℕ :=
  if l + 1 < r then
    if judge ((l + r) / 2) then bisect judge ((l + r) / 2) r else bisect judge l ((l + r) / 2)
  else l
termination_by r - l
decreasing_by all_goals omega

section Steps

theorem intervals_single (single : ¬l + 1 < r) : intervals judge l r = [] := by
  rw [intervals, if_neg single]

theorem intervals_upper (wide : l + 1 < r) (yes : judge ((l + r) / 2) = true) :
    intervals judge l r = (l, r) :: intervals judge ((l + r) / 2) r := by
  rw [intervals, if_pos wide, if_pos yes]

theorem intervals_lower (wide : l + 1 < r) (no : judge ((l + r) / 2) = false) :
    intervals judge l r = (l, r) :: intervals judge l ((l + r) / 2) := by
  rw [intervals, if_pos wide, if_neg (Bool.not_eq_true _ ▸ no)]

theorem bisect_single (single : ¬l + 1 < r) : bisect judge l r = l := by
  rw [bisect, if_neg single]

theorem bisect_upper (wide : l + 1 < r) (yes : judge ((l + r) / 2) = true) :
    bisect judge l r = bisect judge ((l + r) / 2) r := by
  rw [bisect, if_pos wide, if_pos yes]

theorem bisect_lower (wide : l + 1 < r) (no : judge ((l + r) / 2) = false) :
    bisect judge l r = bisect judge l ((l + r) / 2) := by
  rw [bisect, if_pos wide, if_neg (Bool.not_eq_true _ ▸ no)]

end Steps

/-- The intervals are parts of the first one. -/
theorem mem_intervals {i : ℕ × ℕ} (member : i ∈ intervals judge l r) :
    l ≤ i.1 ∧ i.1 + 1 < i.2 ∧ i.2 ≤ r := by
  induction l, r using bisect.induct judge with
  | case1 l r wide yes ih =>
      rw [intervals_upper wide yes] at member
      obtain rfl | later := List.mem_cons.mp member
      · exact ⟨le_rfl, wide, le_rfl⟩
      · have inside := ih later
        omega
  | case2 l r wide no ih =>
      rw [intervals_lower wide (Bool.not_eq_true _ ▸ no)] at member
      obtain rfl | later := List.mem_cons.mp member
      · exact ⟨le_rfl, wide, le_rfl⟩
      · have inside := ih later
        omega
  | case3 l r single =>
      rw [intervals_single single] at member
      exact absurd member List.not_mem_nil

/-- The bisection stays in its interval. -/
theorem bisect_mem (judge : ℕ → Bool) {l r : ℕ} (ordered : l < r) :
    l ≤ bisect judge l r ∧ bisect judge l r < r := by
  induction l, r using bisect.induct judge with
  | case1 l r wide yes ih =>
      have inside := ih (by omega)
      rw [bisect_upper wide yes]
      omega
  | case2 l r wide no ih =>
      have inside := ih (by omega)
      rw [bisect_lower wide (Bool.not_eq_true _ ▸ no)]
      omega
  | case3 l r single =>
      rw [bisect_single single]
      exact ⟨le_rfl, ordered⟩

/-- **Agreement.** Only the midpoints that are met matter. -/
theorem congr (agree : ∀ i ∈ intervals exact l r,
      judge ((i.1 + i.2) / 2) = exact ((i.1 + i.2) / 2)) :
    intervals judge l r = intervals exact l r ∧ bisect judge l r = bisect exact l r := by
  induction l, r using bisect.induct exact with
  | case1 l r wide yes ih =>
      rw [intervals_upper wide yes] at agree
      have same : judge ((l + r) / 2) = true := (agree _ List.mem_cons_self).trans yes
      obtain ⟨rest, ends⟩ := ih fun i member => agree i (List.mem_cons_of_mem _ member)
      rw [intervals_upper wide yes, intervals_upper wide same, bisect_upper wide yes,
        bisect_upper wide same, rest, ends]
      exact ⟨rfl, rfl⟩
  | case2 l r wide no ih =>
      rw [Bool.not_eq_true] at no
      rw [intervals_lower wide no] at agree
      have same : judge ((l + r) / 2) = false := (agree _ List.mem_cons_self).trans no
      obtain ⟨rest, ends⟩ := ih fun i member => agree i (List.mem_cons_of_mem _ member)
      rw [intervals_lower wide no, intervals_lower wide same, bisect_lower wide no,
        bisect_lower wide same, rest, ends]
      exact ⟨rfl, rfl⟩
  | case3 l r single =>
      rw [intervals_single single, intervals_single single, bisect_single single,
        bisect_single single]
      exact ⟨rfl, rfl⟩

/-- A bisection finds a threshold. -/
theorem bisect_eq_threshold (threshold : ∀ m, exact m = true ↔ m ≤ root) (low : l ≤ root)
    (high : root < r) : bisect exact l r = root := by
  induction l, r using bisect.induct exact with
  | case1 l r wide yes ih =>
      rw [bisect_upper wide yes]
      exact ih ((threshold _).mp yes) high
  | case2 l r wide no ih =>
      rw [bisect_lower wide (Bool.not_eq_true _ ▸ no)]
      exact ih low (not_le.mp fun below => no ((threshold _).mpr below))
  | case3 l r single =>
      rw [bisect_single single]
      omega

/-- **Misjudging.** A judge that says yes up to the threshold finds it if and only if it
says no to the midpoints above it. -/
theorem bisect_eq_iff (threshold : ∀ m, exact m = true ↔ m ≤ root)
    (upTo : ∀ m ≤ root, judge m = true) (low : l ≤ root) (high : root < r) :
    bisect judge l r = root ↔
      ∀ i ∈ intervals exact l r, root < (i.1 + i.2) / 2 → judge ((i.1 + i.2) / 2) = false := by
  constructor
  · intro found
    induction l, r using bisect.induct exact with
    | case1 l r wide yes ih =>
        have below := (threshold _).mp yes
        rw [bisect_upper wide (upTo _ below)] at found
        rw [intervals_upper wide yes]
        intro i member above
        obtain rfl | later := List.mem_cons.mp member
        · exact absurd below (not_le.mpr above)
        · exact ih below high found i later above
    | case2 l r wide no ih =>
        have above : root < (l + r) / 2 := not_le.mp fun below => no ((threshold _).mpr below)
        have right : judge ((l + r) / 2) = false := by
          by_contra misjudged
          rw [bisect_upper wide (Bool.of_not_eq_false misjudged)] at found
          have beyond := bisect_mem judge (show (l + r) / 2 < r by omega)
          omega
        rw [bisect_lower wide right] at found
        rw [intervals_lower wide (Bool.not_eq_true _ ▸ no)]
        intro i member beyond
        obtain rfl | later := List.mem_cons.mp member
        · exact right
        · exact ih low above found i later beyond
    | case3 l r single =>
        rw [intervals_single single]
        exact fun i member => absurd member List.not_mem_nil
  · intro right
    have agree : ∀ i ∈ intervals exact l r,
        judge ((i.1 + i.2) / 2) = exact ((i.1 + i.2) / 2) := by
      intro i member
      rcases Nat.lt_or_ge root ((i.1 + i.2) / 2) with above | below
      · rw [right i member above]
        exact (Bool.eq_false_iff.mpr fun yes =>
          absurd ((threshold _).mp yes) (not_le.mpr above)).symm
      · rw [upTo _ below, (threshold _).mpr below]
    rw [(congr agree).2]
    exact bisect_eq_threshold threshold low high

end Math.Bisection
