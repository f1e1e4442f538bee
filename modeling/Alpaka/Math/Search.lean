import Mathlib.Order.Lattice
import Mathlib.Data.List.Basic

/-! # Searching for the largest value

A search goes through a list and keeps the first candidate with the largest value seen so
far, together with this value. In the end no candidate has a larger one
(`Math.le_search`).
-/

namespace Math

variable {α β : Type*} [LinearOrder β] (value : α → β)

/-- The best candidate and what is held to be its value. -/
def search (candidates : List α) (best : α × β) : α × β :=
  candidates.foldl (fun best x => if best.2 < value x then (x, value x) else best) best

/-- The search finds a candidate that is as good as all of them. -/
theorem le_search (candidates : List α) (best : α × β) (real : best.2 ≤ value best.1) :
    best.2 ≤ value (search value candidates best).1 ∧
      ∀ x ∈ candidates, value x ≤ value (search value candidates best).1 := by
  unfold search
  induction candidates generalizing best with
  | nil => exact ⟨real, fun _ member => absurd member List.not_mem_nil⟩
  | cons x candidates ih =>
      rw [List.foldl_cons]
      split
      · next larger =>
        obtain ⟨kept, others⟩ := ih (x, value x) le_rfl
        exact ⟨larger.le.trans kept, List.forall_mem_cons.mpr ⟨kept, others⟩⟩
      · next smaller =>
        obtain ⟨kept, others⟩ := ih best real
        exact ⟨kept, List.forall_mem_cons.mpr ⟨(le_of_not_gt smaller).trans kept, others⟩⟩

end Math
