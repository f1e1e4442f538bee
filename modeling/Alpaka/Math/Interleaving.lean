import Mathlib.Data.List.Basic

/-! # Interleaved runs

Agents take turns; a run is a list of actions, each of which belongs to an agent
and may be refused. What every action preserves holds in every reachable state
(`Math.Interleaving.Reachable.induction`). An invariant that consists of a shared
part and of what each agent asserts at its point of the program is preserved if
the agent that moves re-establishes its own assertion and disturbs no other
(`Math.Interleaving.Undisturbed.reachable`). That something can still happen is shown by
actions that lead there (`Math.Interleaving.Leads`).
-/

namespace Math.Interleaving

variable {State Action Agent : Type*}

/-- The state after a list of actions, if none of them is refused. -/
def run (step : State → Action → Option State) (state : State) (actions : List Action) :
    Option State :=
  actions.foldlM step state

/-- The states that some interleaving leads to. -/
def Reachable (step : State → Action → Option State) (start state : State) : Prop :=
  ∃ actions, run step start actions = some state

variable {step : State → Action → Option State} {start state : State}

/-- One more action. -/
theorem Reachable.snoc {next : State} {action : Action} (reachable : Reachable step start state)
    (taken : step state action = some next) : Reachable step start next := by
  obtain ⟨actions, before⟩ := reachable
  refine ⟨actions ++ [action], ?_⟩
  unfold run at before ⊢
  rw [List.foldlM_append, before]
  simpa using taken

theorem run_preserves {holds : State → Prop}
    (preserved : ∀ state action next, holds state → step state action = some next → holds next)
    {actions : List Action} {final : State} (initially : holds start)
    (reached : run step start actions = some final) : holds final := by
  induction actions generalizing start with
  | nil =>
      cases reached
      exact initially
  | cons action actions ih =>
      obtain ⟨next, first, rest⟩ := Option.bind_eq_some_iff.mp reached
      exact ih (preserved start action next initially first) rest

/-- What holds at the start and is preserved by every action holds in every
reachable state. -/
theorem Reachable.induction {holds : State → Prop} (reachable : Reachable step start state)
    (initially : holds start)
    (preserved : ∀ state action next, holds state → step state action = some next → holds next) :
    holds state := by
  obtain ⟨actions, reached⟩ := reachable
  exact run_preserves preserved initially reached

/-- Where every action is also one of another system, so is every run. -/
theorem Reachable.mono {step' : State → Action → Option State}
    (steps : ∀ state action next, step state action = some next → step' state action = some next)
    (reachable : Reachable step start state) : Reachable step' start state := by
  obtain ⟨actions, reached⟩ := reachable
  refine ⟨actions, ?_⟩
  induction actions generalizing start with
  | nil => exact reached
  | cons action actions ih =>
      obtain ⟨next, first, rest⟩ := Option.bind_eq_some_iff.mp reached
      exact Option.bind_eq_some_iff.mpr ⟨next, steps _ _ _ first, ih rest⟩

/-- A run is no longer than what every action makes grow has grown. -/
theorem run_length_le {holds : State → Prop} {measure : State → ℕ}
    (preserved : ∀ state action next, holds state → step state action = some next → holds next)
    (grows : ∀ state action next, holds state → step state action = some next →
      measure state < measure next)
    {actions : List Action} {final : State} (initially : holds start)
    (reached : run step start actions = some final) :
    actions.length + measure start ≤ measure final := by
  induction actions generalizing start with
  | nil =>
      cases reached
      exact Nat.le_of_eq (Nat.zero_add _)
  | cons action actions ih =>
      obtain ⟨next, first, rest⟩ := Option.bind_eq_some_iff.mp reached
      have later := ih (preserved start action next initially first) rest
      have grown := grows start action next initially first
      rw [List.length_cons]
      omega

/-- The states that actions lead to each of which meets a condition. -/
inductive ReachableBy (allowed : State → Action → Prop) (step : State → Action → Option State)
    (start : State) : State → Prop
  | start : ReachableBy allowed step start start
  | step {state next : State} {action : Action} (reached : ReachableBy allowed step start state)
      (meets : allowed state action) (taken : step state action = some next) :
      ReachableBy allowed step start next

theorem ReachableBy.reachable {allowed : State → Action → Prop}
    (reached : ReachableBy allowed step start state) : Reachable step start state := by
  induction reached with
  | start => exact ⟨[], rfl⟩
  | step _ _ taken ih => exact ih.snoc taken

/-- Actions of a kind each of which meets the condition, and after which the next one does. -/
theorem ReachableBy.of_run {allowed : State → Action → Prop} {kind : Action → Prop}
    {holds : State → Prop}
    (meets : ∀ state action next, holds state → kind action → step state action = some next →
      allowed state action ∧ holds next)
    {actions : List Action} {final : State} (reached : ReachableBy allowed step start state)
    (initially : holds state) (all : ∀ action ∈ actions, kind action)
    (runs : run step state actions = some final) : ReachableBy allowed step start final := by
  induction actions generalizing state with
  | nil =>
      cases runs
      exact reached
  | cons action actions ih =>
      obtain ⟨next, first, rest⟩ := Option.bind_eq_some_iff.mp runs
      obtain ⟨allows, later⟩ := meets state action next initially (all action (.head _)) first
      exact ih (reached.step allows first) later (fun other member => all other (.tail _ member))
        rest

/-- Some actions of a kind lead to a state of the wanted sort. -/
inductive Leads (kind : Action → Prop) (step : State → Action → Option State)
    (goal : State → Prop) : State → Prop
  | here {state : State} (there : goal state) : Leads kind step goal state
  | next {state next : State} {action : Action} (allowed : kind action)
      (taken : step state action = some next) (rest : Leads kind step goal next) :
      Leads kind step goal state

theorem Leads.trans {kind : Action → Prop} {middle goal : State → Prop}
    (first : Leads kind step middle state)
    (second : ∀ state, middle state → Leads kind step goal state) : Leads kind step goal state := by
  induction first with
  | here there => exact second _ there
  | next allowed taken _ ih => exact .next allowed taken ih

theorem Leads.run {kind : Action → Prop} {goal : State → Prop}
    (leads : Leads kind step goal state) :
    ∃ actions final, (∀ action ∈ actions, kind action) ∧
      run step state actions = some final ∧ goal final := by
  induction leads with
  | here there => exact ⟨[], _, fun _ => by rintro ⟨⟩, rfl, there⟩
  | @next _ _ action allowed taken _ ih =>
      obtain ⟨actions, final, all, runs, there⟩ := ih
      refine ⟨action :: actions, final, List.forall_mem_cons.mpr ⟨allowed, all⟩, ?_, there⟩
      exact Option.bind_eq_some_iff.mpr ⟨_, taken, runs⟩

theorem Leads.reachable {kind : Action → Prop} {goal : State → Prop}
    (leads : Leads kind step goal state) (reached : Reachable step start state) :
    ∃ final, Reachable step start final ∧ goal final := by
  induction leads with
  | here there => exact ⟨_, reached, there⟩
  | next _ taken _ ih => exact ih (reached.snoc taken)

/-- Where an action is possible until the goal and lets a bounded measure grow, the goal
can be reached. -/
theorem Leads.of_measure {kind : Action → Prop} {goal holds : State → Prop} {measure : State → ℕ}
    {bound : ℕ} (bounded : ∀ state, holds state → measure state ≤ bound)
    (live : ∀ state, holds state → goal state ∨ ∃ action next, kind action ∧
      step state action = some next ∧ measure state < measure next ∧ holds next)
    (initially : holds state) : Leads kind step goal state := by
  induction distance : bound - measure state using Nat.strongRecOn generalizing state with
  | ind distance ih =>
      obtain there | ⟨action, next, allowed, taken, grown, kept⟩ := live state initially
      · exact .here there
      · have below := bounded next kept
        exact .next allowed taken (ih _ (by omega) kept rfl)

/-- An agent that moves keeps the shared invariant and its own assertion and
disturbs the assertion of no other agent. -/
structure Undisturbed (step : State → Action → Option State) (agent : Action → Agent)
    (invariant : State → Prop) (asserts : State → Agent → Prop) : Prop where
  shared : ∀ state action next, invariant state → (∀ a, asserts state a) →
    step state action = some next → invariant next
  own : ∀ state action next, invariant state → (∀ a, asserts state a) →
    step state action = some next → asserts next (agent action)
  others : ∀ state action next, invariant state → (∀ a, asserts state a) →
    step state action = some next → ∀ other, other ≠ agent action → asserts next other

/-- **The interleaving rule.** -/
theorem Undisturbed.reachable {agent : Action → Agent} {invariant : State → Prop}
    {asserts : State → Agent → Prop} (undisturbed : Undisturbed step agent invariant asserts)
    (reachable : Reachable step start state) (initially : invariant start)
    (asserted : ∀ a, asserts start a) : invariant state ∧ ∀ a, asserts state a := by
  apply reachable.induction ⟨initially, asserted⟩
  intro state action next ⟨shared, own⟩ taken
  refine ⟨undisturbed.shared state action next shared own taken, fun a => ?_⟩
  by_cases mine : a = agent action
  · rw [mine]
    exact undisturbed.own state action next shared own taken
  · exact undisturbed.others state action next shared own taken a mine

end Math.Interleaving
