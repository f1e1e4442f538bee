import Mathlib.Logic.Function.Iterate
import Alpaka.Math.Loop
import Alpaka.Math.Partition

/-! # Loops that share out a set

Every worker runs a loop of its own. The loops *share out* a set when all of them
terminate and the elements they visit partition the set (`Math.Loop.SharesOut`). A loop
visits what it points at after a number of steps if it has not reached the end before
(`Math.Loop.Visits`); where the loops share out a set, every visit is to an element of the
set, and no two visits are to the same one.
-/

namespace Math.Loop

variable {σ α : Type*} (loop : Loop σ α)

/-- After so many steps the loop has not reached the end and points at the element. -/
def Visits (state : σ) (steps : ℕ) (x : α) : Prop :=
  (∀ step ≤ steps, loop.done (loop.next^[step] state) = false) ∧
    loop.deref (loop.next^[steps] state) = x

/-- **Visiting.** A closed form of the iterator after each step tells what is visited. -/
theorem visits_of_states (states : ℕ → σ) (steps : ℕ)
    (advance : ∀ step < steps, loop.next (states step) = states (step + 1))
    (running : ∀ step ≤ steps, loop.done (states step) = false) :
    loop.Visits (states 0) steps (loop.deref (states steps)) := by
  have reached (step : ℕ) (within : step ≤ steps) : loop.next^[step] (states 0) = states step := by
    induction step with
    | zero => rfl
    | succ step ih => rw [Function.iterate_succ_apply', ih (by omega), advance step within]
  constructor
  · intro step within
    rw [reached step within]
    exact running step within
  · rw [reached steps le_rfl]

/-- What a terminating loop visits stands in its list. -/
theorem Yields.visits_iff {state : σ} {visited : List α} (yields : loop.Yields state visited)
    (steps : ℕ) (x : α) : loop.Visits state steps x ↔ visited[steps]? = some x := by
  induction visited generalizing state steps with
  | nil =>
      constructor
      · intro visits
        have running := visits.1 0 (Nat.zero_le _)
        rw [Function.iterate_zero_apply, yields.done] at running
        exact absurd running (by decide)
      · intro held
        rw [List.getElem?_nil] at held
        exact absurd held (by simp)
  | cons y visited ih =>
      obtain ⟨running, here, later⟩ := yields.step
      cases steps with
      | zero =>
          rw [List.getElem?_cons_zero, Option.some.injEq, ← here]
          constructor
          · intro visits
            exact visits.2
          · intro same
            refine ⟨fun step within => ?_, same⟩
            obtain rfl := Nat.le_zero.mp within
            exact running
      | succ steps =>
          rw [List.getElem?_cons_succ, ← ih later]
          constructor
          · intro visits
            exact ⟨fun step within => visits.1 (step + 1) (Nat.succ_le_succ within), visits.2⟩
          · intro visits
            refine ⟨fun step within => ?_, visits.2⟩
            cases step with
            | zero => exact running
            | succ step => exact visits.1 step (Nat.le_of_succ_le_succ within)

/-! ## One loop for every worker -/

section Workers

variable {ι : Type*}

/-- All loops terminate, and what they visit partitions the target. -/
def SharesOut (loop : ι → Loop σ α) (start : ι → σ) (workers : Set ι) (target : Set α) : Prop :=
  ∃ share : ι → List α, (∀ worker ∈ workers, (loop worker).Yields (start worker) (share worker)) ∧
    Partitions workers share target

variable {loop : ι → Loop σ α} {start : ι → σ} {workers : Set ι} {target : Set α}

/-- Every visit is to an element of the target. -/
theorem SharesOut.target_of_visits (shares : SharesOut loop start workers target) {worker : ι}
    (member : worker ∈ workers) {steps : ℕ} {x : α}
    (visits : (loop worker).Visits (start worker) steps x) : x ∈ target := by
  obtain ⟨share, yields, partition⟩ := shares
  have held := ((yields worker member).visits_iff _ steps x).mp visits
  exact partition.sound member (List.mem_of_getElem? held)

/-- Every element of the target is visited. -/
theorem SharesOut.exists_visits (shares : SharesOut loop start workers target) {x : α}
    (inside : x ∈ target) :
    ∃ worker ∈ workers, ∃ steps, (loop worker).Visits (start worker) steps x := by
  obtain ⟨share, yields, partition⟩ := shares
  obtain ⟨worker, member, held⟩ := (partition.mem_iff x).mp inside
  obtain ⟨steps, here⟩ := List.mem_iff_getElem?.mp held
  exact ⟨worker, member, steps, ((yields worker member).visits_iff _ steps x).mpr here⟩

/-- No element is visited twice. -/
theorem SharesOut.eq_of_visits (shares : SharesOut loop start workers target)
    {first second : ι} (firstIn : first ∈ workers) (secondIn : second ∈ workers)
    {firstSteps secondSteps : ℕ} {x : α}
    (firstVisits : (loop first).Visits (start first) firstSteps x)
    (secondVisits : (loop second).Visits (start second) secondSteps x) :
    first = second ∧ firstSteps = secondSteps := by
  obtain ⟨share, yields, partition⟩ := shares
  have firstHeld := ((yields first firstIn).visits_iff _ firstSteps x).mp firstVisits
  have secondHeld := ((yields second secondIn).visits_iff _ secondSteps x).mp secondVisits
  have same := partition.unique first firstIn second secondIn x (List.mem_of_getElem? firstHeld)
    (List.mem_of_getElem? secondHeld)
  subst same
  refine ⟨rfl, ?_⟩
  have inside : firstSteps < (share first).length := (List.getElem?_eq_some_iff.mp firstHeld).1
  exact (List.getElem?_inj inside (partition.nodup first firstIn)).mp
    (firstHeld.trans secondHeld.symm)

/-- Loops that are at the end from the start share out nothing, and only nothing. -/
theorem sharesOut_iff_of_done
    (done : ∀ worker ∈ workers, (loop worker).done (start worker) = true) :
    SharesOut loop start workers target ↔ target = ∅ := by
  constructor
  · intro shares
    apply Set.eq_empty_iff_forall_notMem.mpr
    intro x inside
    obtain ⟨worker, member, steps, visits⟩ := shares.exists_visits inside
    have running := visits.1 0 (Nat.zero_le _)
    rw [Function.iterate_zero_apply, done worker member] at running
    exact absurd running (by decide)
  · rintro rfl
    refine ⟨fun _ => [], fun worker member => ⟨1, fun fuel enough => ?_⟩, ?_⟩
    · obtain ⟨rest, rfl⟩ : ∃ rest, fuel = rest + 1 := ⟨fuel - 1, by omega⟩
      rw [run, if_pos (done worker member)]
    · refine ⟨fun _ _ => List.nodup_nil, fun _ _ _ _ x held => absurd held List.not_mem_nil,
        fun x => ⟨fun inside => inside.elim, ?_⟩⟩
      rintro ⟨worker, member, held⟩
      exact absurd held List.not_mem_nil

end Workers

end Math.Loop
