import Mathlib.Data.List.Basic
import Mathlib.Data.List.Range

/-! # Iterating until the end is reached

A range-based loop over an iterator dereferences the iterator and advances it
until it compares equal to the end. The loop is total when given fuel; a loop
*yields* a sequence when every sufficient amount of fuel makes it terminate
with that sequence (`Math.Loop.Yields`). The one rule needed to run a loop is a
closed form of the iterator after each step (`Math.Loop.run_of_states`).

An unrolled loop advances the iterator several times before it looks at the end
again. It is safe when the number of elements is a multiple of the number of
advances (`Math.Loop.runBursts_of_yields`).
-/

namespace Math

/-- An iterator: when it has reached the end, what it points at, how it
advances. -/
structure Loop (σ α : Type*) where
  done : σ → Bool
  deref : σ → α
  next : σ → σ

namespace Loop

variable {σ α : Type*} (loop : Loop σ α)

/-- The elements visited from a state, or `none` when the fuel runs out. -/
def run : ℕ → σ → Option (List α)
  | 0, _ => none
  | fuel + 1, state =>
      if loop.done state then some []
      else (run fuel (loop.next state)).map (loop.deref state :: ·)

/-- The loop terminates after having visited exactly the given elements. -/
def Yields (state : σ) (visited : List α) : Prop :=
  ∃ bound, ∀ fuel, bound ≤ fuel → loop.run fuel state = some visited

/-- **Running a loop.** When the state after each step is known in closed form,
the loop visits the states before the first one that has reached the end. -/
theorem run_of_states (states : ℕ → σ) (count : ℕ)
    (advance : ∀ step < count, loop.next (states step) = states (step + 1))
    (running : ∀ step < count, loop.done (states step) = false)
    (stopped : loop.done (states count) = true) (fuel : ℕ) (enough : count < fuel) :
    loop.run fuel (states 0) =
      some ((List.range count).map fun step => loop.deref (states step)) := by
  induction count generalizing states fuel with
  | zero =>
      obtain ⟨rest, rfl⟩ : ∃ rest, fuel = rest + 1 := ⟨fuel - 1, by omega⟩
      simp only [run, stopped, ↓reduceIte, List.range_zero, List.map_nil]
  | succ count ih =>
      obtain ⟨rest, rfl⟩ : ∃ rest, fuel = rest + 1 := ⟨fuel - 1, by omega⟩
      have tail := ih (fun step => states (step + 1))
        (fun step below => advance (step + 1) (by omega))
        (fun step below => running (step + 1) (by omega)) stopped rest (by omega)
      simp only [run, running 0 (by omega), Bool.false_eq_true, ↓reduceIte,
        advance 0 (by omega)]
      rw [tail, List.range_succ_eq_map, List.map_cons, List.map_map]
      rfl

/-- **Simulation.** A loop whose states are those of another loop under other names
visits the same elements. -/
theorem run_of_simulation {τ : Type*} (other : Loop τ α) (rename : σ → τ)
    (done : ∀ state, other.done (rename state) = loop.done state)
    (deref : ∀ state, other.deref (rename state) = loop.deref state)
    (next : ∀ state, other.next (rename state) = rename (loop.next state)) (fuel : ℕ) (state : σ) :
    other.run fuel (rename state) = loop.run fuel state := by
  induction fuel generalizing state with
  | zero => rfl
  | succ fuel ih => simp only [run, done, deref, next, ih]

theorem Yields.done {state : σ} (yields : loop.Yields state []) : loop.done state = true := by
  obtain ⟨bound, run⟩ := yields
  have finished := run (bound + 1) (Nat.le_succ _)
  unfold Loop.run at finished
  by_cases atEnd : loop.done state
  · exact atEnd
  · rw [if_neg atEnd, Option.map_eq_some_iff] at finished
    obtain ⟨rest, _, impossible⟩ := finished
    exact absurd impossible (List.cons_ne_nil _ _)

/-- A loop visits one sequence. -/
theorem Yields.unique {state : σ} {visited other : List α} (yields : loop.Yields state visited)
    (otherYields : loop.Yields state other) : visited = other := by
  obtain ⟨bound, run⟩ := yields
  obtain ⟨otherBound, otherRun⟩ := otherYields
  have both := (run (max bound otherBound) (Nat.le_max_left _ _)).symm.trans
    (otherRun _ (Nat.le_max_right _ _))
  exact Option.some.inj both

theorem Yields.step {state : σ} {x : α} {visited : List α}
    (yields : loop.Yields state (x :: visited)) :
    loop.done state = false ∧ loop.deref state = x ∧ loop.Yields (loop.next state) visited := by
  obtain ⟨bound, run⟩ := yields
  have first (fuel : ℕ) (enough : bound ≤ fuel) : loop.done state = false ∧
      loop.deref state = x ∧ loop.run fuel (loop.next state) = some visited := by
    have finished := run (fuel + 1) (by omega)
    unfold Loop.run at finished
    by_cases atEnd : loop.done state
    · rw [if_pos atEnd] at finished
      exact absurd (Option.some.inj finished) (List.cons_ne_nil _ _).symm
    · rw [if_neg atEnd, Option.map_eq_some_iff] at finished
      obtain ⟨rest, rests, same⟩ := finished
      obtain ⟨head, tail⟩ := List.cons.inj same
      exact ⟨by simpa using atEnd, head, tail ▸ rests⟩
  obtain ⟨running, here, _⟩ := first bound le_rfl
  exact ⟨running, here, bound, fun fuel enough => (first fuel enough).2.2⟩

/-- **Refinement.** A loop that goes through the renamed states of another one, as long as
an invariant holds of these, visits the renamed elements. -/
theorem Yields.rename {τ β : Type*} (other : Loop τ β) (rename : σ → τ) (f : α → β)
    (invariant : σ → Prop)
    (done : ∀ state, invariant state → other.done (rename state) = loop.done state)
    (deref : ∀ state, invariant state → loop.done state = false →
      other.deref (rename state) = f (loop.deref state))
    (next : ∀ state, invariant state → loop.done state = false →
      other.next (rename state) = rename (loop.next state) ∧ invariant (loop.next state))
    {state : σ} {visited : List α} (holds : invariant state) (yields : loop.Yields state visited) :
    other.Yields (rename state) (visited.map f) := by
  obtain ⟨bound, run⟩ := yields
  refine ⟨bound, fun fuel enough => ?_⟩
  have finished := run fuel enough
  clear run enough
  induction fuel generalizing state visited with
  | zero => exact absurd finished (by simp only [Loop.run, reduceCtorEq, not_false_eq_true])
  | succ fuel ih =>
      unfold Loop.run at finished ⊢
      rw [done state holds]
      cases atEnd : loop.done state with
      | true =>
          rw [if_pos atEnd] at finished
          rw [← Option.some.inj finished, if_pos rfl]
          rfl
      | false =>
          have running : ¬ loop.done state = true := by rw [atEnd]; exact Bool.false_ne_true
          rw [if_neg running, Option.map_eq_some_iff] at finished
          obtain ⟨rest, rests, rfl⟩ := finished
          obtain ⟨moved, kept⟩ := next state holds atEnd
          rw [if_neg Bool.false_ne_true, moved, ih kept rests, deref state holds atEnd]
          rfl

/-- What can go wrong with a loop: the fuel runs out, it does not look at the end in time, or
where it begins is not defined. -/
inductive Fault where
  | outOfFuel
  | pastEnd
  | divisionByZero
  deriving DecidableEq

/-- A number of elements dereferenced and advanced over without looking at the
end; it is a fault to dereference an iterator that has reached it. -/
def burst : ℕ → σ → Except Fault (List α × σ)
  | 0, state => .ok ([], state)
  | count + 1, state =>
      if loop.done state then .error .pastEnd
      else (burst count (loop.next state)).map fun rest => (loop.deref state :: rest.1, rest.2)

/-- The loop that looks at the end only before every burst; the result is the
bursts in turn. -/
def runBursts (count : ℕ) : ℕ → σ → Except Fault (List (List α))
  | 0, _ => .error .outOfFuel
  | fuel + 1, state =>
      if loop.done state then .ok []
      else
        match loop.burst count state with
        | .error fault => .error fault
        | .ok (taken, reached) => (runBursts count fuel reached).map (taken :: ·)

theorem burst_of_yields (taken : List α) {later : List α} {state : σ}
    (yields : loop.Yields state (taken ++ later)) :
    ∃ reached, loop.burst taken.length state = .ok (taken, reached) ∧
      loop.Yields reached later := by
  induction taken generalizing state with
  | nil => exact ⟨state, rfl, yields⟩
  | cons x taken ih =>
      obtain ⟨running, here, rest⟩ := yields.step
      obtain ⟨reached, bursts, yieldsLater⟩ := ih rest
      refine ⟨reached, ?_, yieldsLater⟩
      simp only [List.length_cons, burst, running, Bool.false_eq_true, ↓reduceIte, bursts, here]
      rfl

/-- A sequence cut into pieces of one length; what is left over at the end is dropped. -/
def bursts (count : ℕ) (visited : List α) : List (List α) :=
  (List.range (visited.length / count)).map fun round => (visited.drop (round * count)).take count

theorem bursts_map {β : Type*} (count : ℕ) (f : α → β) (visited : List α) :
    bursts count (visited.map f) = (bursts count visited).map (List.map f) := by
  unfold bursts
  rw [List.map_map, List.length_map]
  apply List.map_congr_left
  intro round _
  rw [Function.comp_apply, List.map_take, List.map_drop]

/-- The first piece and the pieces of the rest. -/
theorem bursts_of_le {count : ℕ} (positive : 0 < count) {visited : List α}
    (enough : count ≤ visited.length) :
    bursts count visited = visited.take count :: bursts count (visited.drop count) := by
  obtain ⟨later, length⟩ : ∃ later, visited.length = later + count :=
    ⟨visited.length - count, by omega⟩
  unfold bursts
  rw [List.length_drop, length, Nat.add_sub_cancel, Nat.add_div_right _ positive,
    List.range_succ_eq_map, List.map_cons, List.map_map, Nat.zero_mul, List.drop_zero]
  congr 1
  apply List.map_congr_left
  intro round _
  rw [Function.comp_apply, List.drop_drop, Nat.succ_mul, Nat.add_comm]

theorem length_of_mem_bursts {count : ℕ} {visited taken : List α}
    (member : taken ∈ bursts count visited) : taken.length = count := by
  obtain ⟨round, before, rfl⟩ := List.mem_map.mp member
  have room := Nat.mul_le_mul_right count (List.mem_range.mp before)
  have whole := Nat.div_mul_le_self visited.length count
  rw [Nat.succ_mul] at room
  rw [List.length_take, List.length_drop]
  omega

theorem flatten_bursts {count : ℕ} (positive : 0 < count) {visited : List α}
    (divides : count ∣ visited.length) : (bursts count visited).flatten = visited := by
  obtain ⟨rounds, total⟩ := divides
  induction rounds generalizing visited with
  | zero =>
      obtain rfl := List.eq_nil_of_length_eq_zero total
      unfold bursts
      rw [List.length_nil, Nat.zero_div]
      rfl
  | succ rounds ih =>
      rw [Nat.mul_succ] at total
      rw [bursts_of_le positive (by omega), List.flatten_cons,
        ih (by rw [List.length_drop]; omega), List.take_append_drop]

/-- **Unrolling a loop.** A loop that visits a multiple of the burst length never
dereferences an iterator that has reached the end. -/
theorem runBursts_of_yields {count : ℕ} (positive : 0 < count) {visited : List α} {state : σ}
    (yields : loop.Yields state visited) (divides : count ∣ visited.length) (fuel : ℕ)
    (enough : visited.length < fuel) :
    loop.runBursts count fuel state = .ok (bursts count visited) := by
  obtain ⟨rounds, total⟩ := divides
  induction rounds generalizing visited state fuel with
  | zero =>
      obtain rfl := List.eq_nil_of_length_eq_zero total
      obtain ⟨rest, rfl⟩ : ∃ rest, fuel = rest + 1 := ⟨fuel - 1, by omega⟩
      simp only [runBursts, yields.done, ↓reduceIte, bursts, List.length_nil, Nat.zero_div,
        List.range_zero, List.map_nil]
  | succ rounds ih =>
      rw [Nat.mul_succ] at total
      have length : (visited.take count).length = count := List.length_take_of_le (by omega)
      have running : loop.done state = false := by
        cases visited with
        | nil => rw [List.length_nil] at total; omega
        | cons x visited => exact yields.step.1
      obtain ⟨reached, taken, later⟩ := loop.burst_of_yields (visited.take count)
        (by rwa [List.take_append_drop] : loop.Yields state (_ ++ visited.drop count))
      rw [length] at taken
      obtain ⟨rest, rfl⟩ : ∃ rest, fuel = rest + 1 := ⟨fuel - 1, by omega⟩
      have rests := ih later rest (by rw [List.length_drop]; omega)
        (by rw [List.length_drop]; omega)
      rw [bursts_of_le positive (by omega)]
      simp only [runBursts, running, Bool.false_eq_true, ↓reduceIte, taken, rests, Except.map]

/-! ## What a loop dereferences

A loop need not terminate for this, and one that is unrolled dereferences the iterator also where
it has reached the end within a burst.
-/

/-- What the loop dereferences that looks at the end only before every burst. -/
inductive Reaches (count : ℕ) : σ → α → Prop
  | here {state : σ} {advances : ℕ} (running : loop.done state = false)
      (early : advances < count) : Reaches count state (loop.deref (loop.next^[advances] state))
  | later {state : σ} {x : α} (running : loop.done state = false)
      (rest : Reaches count (loop.next^[count] state) x) : Reaches count state x

section Reached

variable {loop}

/-- **Invariants.** What holds before every burst, and gives a property of everything that the
burst dereferences, gives it of everything. -/
theorem Reaches.of_invariant {count : ℕ} (invariant : σ → Prop) (property : α → Prop)
    (holds : ∀ state, invariant state → loop.done state = false → ∀ advances < count,
      property (loop.deref (loop.next^[advances] state)))
    (kept : ∀ state, invariant state → loop.done state = false →
      invariant (loop.next^[count] state))
    {state : σ} {x : α} (reached : loop.Reaches count state x) (start : invariant state) :
    property x := by
  induction reached with
  | here running early => exact holds _ start running _ early
  | later running _ ih => exact ih (kept _ start running)

/-- A loop that dereferences anything has not reached the end from the start. -/
theorem Reaches.running {count : ℕ} {state : σ} {x : α} (reached : loop.Reaches count state x) :
    loop.done state = false := by
  cases reached with
  | here running => exact running
  | later running => exact running

end Reached

/-- A loop that terminates goes on with the rest of what it visits. -/
private theorem Yields.iterate {state : σ} {visited : List α} (yields : loop.Yields state visited)
    {advances : ℕ} (within : advances ≤ visited.length) :
    loop.Yields (loop.next^[advances] state) (visited.drop advances) := by
  induction advances generalizing state visited with
  | zero => exact yields
  | succ advances ih =>
      cases visited with
      | nil => exact absurd within (Nat.not_succ_le_zero _)
      | cons x visited =>
          rw [Function.iterate_succ_apply, List.drop_succ_cons]
          exact ih yields.step.2.2 (Nat.le_of_succ_le_succ within)

/-- **Whole bursts.** A loop that terminates dereferences only what it visits if the length of
the bursts divides the number of what it visits. -/
theorem Yields.mem_of_reaches {count : ℕ} {state : σ} {visited : List α} {x : α}
    (yields : loop.Yields state visited) (divides : count ∣ visited.length)
    (reached : loop.Reaches count state x) : x ∈ visited := by
  have whole {state : σ} {visited : List α} (yields : loop.Yields state visited)
      (divides : count ∣ visited.length) (running : loop.done state = false) :
      count ≤ visited.length := by
    refine Nat.le_of_dvd (Nat.pos_of_ne_zero fun none => ?_) divides
    rw [List.eq_nil_of_length_eq_zero none] at yields
    rw [yields.done] at running
    cases running
  induction reached generalizing visited with
  | @here state advances running early =>
      have enough := whole yields divides running
      have rest := yields.iterate loop (early.trans_le enough).le
      cases left : visited.drop advances with
      | nil =>
          have none := congrArg List.length left
          rw [List.length_drop, List.length_nil] at none
          omega
      | cons y others =>
          rw [left] at rest
          rw [rest.step.2.1]
          exact List.mem_of_mem_drop (left ▸ List.mem_cons_self)
  | later running _ ih =>
      have enough := whole yields divides running
      refine List.mem_of_mem_drop (ih (yields.iterate loop enough) ?_)
      rw [List.length_drop]
      exact Nat.dvd_sub divides (Nat.dvd_refl _)

/-- A burst dereferences the iterator after each advance. -/
private theorem burst_states {count : ℕ} {state reached : σ} {taken : List α}
    (run : loop.burst count state = .ok (taken, reached)) :
    reached = loop.next^[count] state ∧
      ∀ x ∈ taken, ∃ advances < count, x = loop.deref (loop.next^[advances] state) := by
  induction count generalizing state taken with
  | zero =>
      obtain ⟨rfl, rfl⟩ := Prod.mk.inj (Except.ok.inj run)
      exact ⟨rfl, fun x none => absurd none List.not_mem_nil⟩
  | succ count ih =>
      unfold burst at run
      cases atEnd : loop.done state with
      | true =>
          rw [if_pos atEnd] at run
          cases run
      | false =>
          rw [if_neg (by rw [atEnd]; exact Bool.false_ne_true)] at run
          cases rest : loop.burst count (loop.next state) with
          | error fault =>
              rw [rest] at run
              cases run
          | ok pair =>
              rw [rest] at run
              obtain ⟨rfl, rfl⟩ := Prod.mk.inj (Except.ok.inj run)
              obtain ⟨same, states⟩ := ih rest
              refine ⟨same, fun x held => ?_⟩
              rcases List.mem_cons.mp held with rfl | later
              · exact ⟨0, Nat.succ_pos _, rfl⟩
              · obtain ⟨advances, early, here⟩ := states x later
                exact ⟨advances + 1, Nat.succ_lt_succ early, here⟩

/-- What an unrolled loop returns it has dereferenced. -/
theorem reaches_of_runBursts {count fuel : ℕ} {state : σ} {visited : List (List α)}
    (run : loop.runBursts count fuel state = .ok visited) {taken : List α}
    (burst : taken ∈ visited) {x : α} (held : x ∈ taken) : loop.Reaches count state x := by
  induction fuel generalizing state visited with
  | zero => cases run
  | succ fuel ih =>
      unfold runBursts at run
      cases atEnd : loop.done state with
      | true =>
          rw [if_pos atEnd] at run
          rw [← Except.ok.inj run] at burst
          exact absurd burst List.not_mem_nil
      | false =>
          rw [if_neg (by rw [atEnd]; exact Bool.false_ne_true)] at run
          cases first : loop.burst count state with
          | error fault =>
              rw [first] at run
              cases run
          | ok pair =>
              obtain ⟨same, states⟩ := loop.burst_states first
              rw [first] at run
              dsimp only at run
              cases rest : loop.runBursts count fuel pair.2 with
              | error fault =>
                  rw [rest] at run
                  cases run
              | ok others =>
                  rw [rest] at run
                  rw [← Except.ok.inj run] at burst
                  rcases List.mem_cons.mp burst with rfl | later
                  · obtain ⟨advances, early, rfl⟩ := states x held
                    exact .here atEnd early
                  · refine .later atEnd ?_
                    rw [← same]
                    exact ih rest later

/-- A loop that is not at the end from the start dereferences what it begins at. -/
theorem reaches_first {state : σ} (running : loop.done state = false) :
    loop.Reaches 1 state (loop.deref state) := by
  have first := @Reaches.here _ _ loop 1 state 0 running Nat.one_pos
  rwa [Function.iterate_zero_apply] at first

/-- What a loop returns it has dereferenced. -/
theorem reaches_of_run {fuel : ℕ} {state : σ} {visited : List α}
    (run : loop.run fuel state = some visited) {x : α} (held : x ∈ visited) :
    loop.Reaches 1 state x := by
  induction fuel generalizing state visited with
  | zero => cases run
  | succ fuel ih =>
      unfold Loop.run at run
      cases atEnd : loop.done state with
      | true =>
          rw [if_pos atEnd] at run
          rw [← Option.some.inj run] at held
          exact absurd held List.not_mem_nil
      | false =>
          rw [if_neg (by rw [atEnd]; exact Bool.false_ne_true), Option.map_eq_some_iff] at run
          obtain ⟨rest, rests, rfl⟩ := run
          rcases List.mem_cons.mp held with rfl | later
          · exact loop.reaches_first atEnd
          · exact .later atEnd (ih rests later)

end Loop

end Math
