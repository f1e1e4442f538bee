import Mathlib.Logic.Function.Iterate
import Alpaka.Math.Fuel
import Alpaka.Math.Loop

/-! # While loops

A while loop is total when given fuel. It settles if a variant decreases along an invariant
(`Math.While.exists_settles`), what it settles on keeps every invariant
(`Math.While.invariant`), and it never settles if an invariant keeps it going
(`Math.While.not_settles`).
-/

namespace Math.While

open Loop (Fault)

variable {σ : Type} (continues : σ → Bool) (step : σ → σ)

/-- The state after the loop. -/
def run : ℕ → σ → Except Fault σ
  | 0, _ => .error .outOfFuel
  | fuel + 1, state => if continues state then run fuel (step state) else .ok state

variable {continues step} {state final : σ}

theorem settles_of_done (done : continues state = false) :
    Settles (fun fuel => run continues step fuel state) state := by
  refine ⟨1, fun fuel enough => ?_⟩
  obtain ⟨rest, rfl⟩ := Nat.exists_eq_add_of_le' enough
  exact if_neg (Bool.not_eq_true _ ▸ done)

/-- A loop that goes on settles on what it settles on after a step. -/
theorem settles_step_iff (going : continues state = true) :
    Settles (fun fuel => run continues step fuel state) final ↔
      Settles (fun fuel => run continues step fuel (step state)) final := by
  have unfolded (fuel : ℕ) :
      run continues step (fuel + 1) state = run continues step fuel (step state) := if_pos going
  constructor
  · rintro ⟨bound, settles⟩
    refine ⟨bound, fun fuel enough => ?_⟩
    exact (unfolded fuel).symm.trans (settles (fuel + 1) (Nat.le_succ_of_le enough))
  · rintro ⟨bound, settles⟩
    refine ⟨bound + 1, fun fuel enough => ?_⟩
    obtain ⟨rest, rfl⟩ : ∃ rest, fuel = rest + 1 := ⟨fuel - 1, by omega⟩
    exact (unfolded rest).trans (settles rest (Nat.le_of_succ_le_succ enough))

/-- More fuel does not change what a loop returns. -/
theorem settles_of_run {fuel : ℕ} (ran : run continues step fuel state = .ok final) :
    Settles (fun fuel => run continues step fuel state) final := by
  induction fuel generalizing state with
  | zero => cases ran
  | succ fuel ih =>
      unfold run at ran
      cases going : continues state with
      | false =>
          rw [if_neg (Bool.not_eq_true _ ▸ going)] at ran
          obtain rfl := Except.ok.inj ran
          exact settles_of_done going
      | true =>
          rw [if_pos going] at ran
          exact (settles_step_iff going).mpr (ih ran)

/-- **Termination.** Every step keeps the invariant and decreases the variant. -/
theorem exists_settles (invariant : σ → Prop) (variant : σ → ℕ)
    (preserved : ∀ state, invariant state → continues state = true →
      invariant (step state) ∧ variant (step state) < variant state)
    (holds : invariant state) :
    ∃ final, Settles (fun fuel => run continues step fuel state) final ∧ invariant final ∧
      continues final = false := by
  induction measure : variant state using Nat.strong_induction_on generalizing state with
  | _ count ih =>
      cases going : continues state with
      | false => exact ⟨state, settles_of_done going, holds, going⟩
      | true =>
          obtain ⟨kept, smaller⟩ := preserved state holds going
          obtain ⟨final, settles, done⟩ := ih _ (measure ▸ smaller) kept rfl
          exact ⟨final, (settles_step_iff going).mpr settles, done⟩

/-- What a loop settles on has been kept by every step. -/
theorem invariant (invariant : σ → Prop)
    (preserved : ∀ state, invariant state → continues state = true → invariant (step state))
    (holds : invariant state)
    (settles : Settles (fun fuel => run continues step fuel state) final) :
    invariant final ∧ continues final = false := by
  obtain ⟨bound, runs⟩ := settles
  have ran : run continues step bound state = .ok final := runs bound le_rfl
  clear runs
  induction bound generalizing state with
  | zero => cases ran
  | succ bound ih =>
      unfold run at ran
      cases going : continues state with
      | false =>
          rw [if_neg (Bool.not_eq_true _ ▸ going)] at ran
          obtain rfl := Except.ok.inj ran
          exact ⟨holds, going⟩
      | true =>
          rw [if_pos going] at ran
          exact ih (preserved state holds going) ran

/-- An invariant under which the loop goes on keeps it from settling. -/
theorem not_settles (invariant : σ → Prop)
    (preserved : ∀ state, invariant state → continues state = true ∧ invariant (step state))
    (holds : invariant state) : ¬ Settles (fun fuel => run continues step fuel state) final := by
  intro settles
  obtain ⟨kept, done⟩ := While.invariant invariant (fun state holds _ => (preserved state holds).2)
    holds settles
  rw [(preserved final kept).1] at done
  cases done

end Math.While
