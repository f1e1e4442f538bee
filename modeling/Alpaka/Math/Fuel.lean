import Mathlib.Data.List.Basic

/-! # Programs with fuel

A program that is given fuel *settles* on a value when every sufficient amount
of fuel makes it return that value (`Math.Settles`). Settling is kept by
sequencing and by running a program for every element of a list.
-/

namespace Math

variable {ε α β : Type}

/-- What a sequence of two programs returns. -/
theorem exists_of_bind {program : Except ε α} {rest : α → Except ε β} {value : β}
    (run : program >>= rest = .ok value) :
    ∃ first, program = .ok first ∧ rest first = .ok value := by
  cases program with
  | error fault => cases run
  | ok first => exact ⟨first, rfl, run⟩

/-- What a program returns that is run for every element of a list. -/
theorem exists_of_mapM {program : α → Except ε β} {elements : List α} {values : List β}
    (run : elements.mapM program = .ok values) {value : β} (held : value ∈ values) :
    ∃ x ∈ elements, program x = .ok value := by
  induction elements generalizing values with
  | nil =>
      rw [List.mapM_nil] at run
      rw [← Except.ok.inj run] at held
      exact absurd held List.not_mem_nil
  | cons x elements ih =>
      rw [List.mapM_cons] at run
      obtain ⟨first, head, run⟩ := exists_of_bind run
      obtain ⟨others, tail, run⟩ := exists_of_bind run
      rw [← Except.ok.inj run] at held
      rcases List.mem_cons.mp held with rfl | later
      · exact ⟨x, List.mem_cons_self, head⟩
      · obtain ⟨y, member, ran⟩ := ih tail later
        exact ⟨y, List.mem_cons_of_mem _ member, ran⟩

/-- Every sufficient amount of fuel makes the program return the value. -/
def Settles (program : ℕ → Except ε α) (value : α) : Prop :=
  ∃ bound, ∀ fuel, bound ≤ fuel → program fuel = .ok value

namespace Settles

theorem pure (value : α) : Settles (fun _ => (Pure.pure value : Except ε α)) value :=
  ⟨0, fun _ _ => rfl⟩

/-- A program that spends some fuel on its own. -/
theorem succ {program next : ℕ → Except ε α} {value : α} (settles : Settles program value)
    (step : ∀ fuel, next (fuel + 1) = program fuel) : Settles next value := by
  obtain ⟨bound, run⟩ := settles
  refine ⟨bound + 1, fun fuel enough => ?_⟩
  obtain ⟨fuel, rfl⟩ := Nat.exists_eq_add_of_le' (Nat.le_of_add_left_le enough)
  rw [step]
  exact run fuel (Nat.le_of_add_le_add_right enough)

/-- A program settles on one value. -/
theorem unique {program : ℕ → Except ε α} {first second : α} (left : Settles program first)
    (right : Settles program second) : first = second := by
  obtain ⟨bound, run⟩ := left
  obtain ⟨otherBound, otherRun⟩ := right
  have same := (run (max bound otherBound) (Nat.le_max_left _ _)).symm.trans
    (otherRun (max bound otherBound) (Nat.le_max_right _ _))
  exact Except.ok.inj same

theorem bind {program : ℕ → Except ε α} {rest : ℕ → α → Except ε β} {first : α} {second : β}
    (settles : Settles program first) (later : Settles (fun fuel => rest fuel first) second) :
    Settles (fun fuel => program fuel >>= rest fuel) second := by
  obtain ⟨bound, run⟩ := settles
  obtain ⟨laterBound, laterRun⟩ := later
  refine ⟨max bound laterBound, fun fuel enough => ?_⟩
  have ran := run fuel (Nat.le_trans (Nat.le_max_left _ _) enough)
  have laterRan := laterRun fuel (Nat.le_trans (Nat.le_max_right _ _) enough)
  simp only [ran, Bind.bind, Except.bind]
  exact laterRan

/-- A program run for every element of a list. -/
theorem mapM {program : ℕ → α → Except ε β} {result : α → β} {elements : List α}
    (settles : ∀ x ∈ elements, Settles (fun fuel => program fuel x) (result x)) :
    Settles (fun fuel => elements.mapM (program fuel)) (elements.map result) := by
  induction elements with
  | nil => exact pure []
  | cons x elements ih =>
      have head := settles x List.mem_cons_self
      have tail := ih fun y member => settles y (List.mem_cons_of_mem _ member)
      simp only [List.mapM_cons, List.map_cons]
      exact head.bind (tail.bind (pure _))

/-- A program that passes a value on from element to element of a list. -/
theorem foldlM {program : ℕ → β → α → Except ε β} {result : β → α → β} {elements : List α}
    (settles : ∀ x ∈ elements, ∀ value,
      Settles (fun fuel => program fuel value x) (result value x)) (value : β) :
    Settles (fun fuel => elements.foldlM (program fuel) value) (elements.foldl result value) := by
  induction elements generalizing value with
  | nil => exact pure value
  | cons x elements ih =>
      have rest := ih (fun y member => settles y (List.mem_cons_of_mem _ member)) (result value x)
      simp only [List.foldlM_cons, List.foldl_cons]
      exact (settles x List.mem_cons_self value).bind rest

end Settles

end Math
