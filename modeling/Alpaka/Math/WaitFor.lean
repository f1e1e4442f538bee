import Mathlib.Logic.Relation

/-! # Mutexes and who waits for whom

A mutex has at most one holder. If each agent holds at most one mutex of a family, the
table of the holders and the points at which the agents are agree after every step that
takes or releases one (`Math.WaitFor.Owned.turn`). An agent that cannot go on waits for one
other agent; where every chain of waiting agents ends there is no cycle
(`Math.WaitFor.Ends.acyclic`). Dependencies that change at one agent at a time stay
well-founded as long as no change closes a chain (`Math.WaitFor.wellFounded_of_moved`).
-/

namespace Math.WaitFor

variable {Name Agent : Type*}

/-- The table of the holders says what the agents hold. -/
def Owned (holder : Name → Option Agent) (holds : Agent → Option Name) : Prop :=
  ∀ name agent, holder name = some agent ↔ holds agent = some name

/-- What a step of an agent does with the mutexes, and what it holds before and after. -/
inductive Turn (agent : Agent) (holder holder' : Name → Option Agent) :
    Option Name → Option Name → Prop
  | keep (table : ∀ name, holder' name = holder name) (held : Option Name) :
      Turn agent holder holder' held held
  | lock {name : Name} (free : holder name = none) (locked : holder' name = some agent)
      (table : ∀ other, other ≠ name → holder' other = holder other) :
      Turn agent holder holder' none (some name)
  | unlock {name : Name} (unlocked : holder' name = none)
      (table : ∀ other, other ≠ name → holder' other = holder other) :
      Turn agent holder holder' (some name) none

section Owned

variable {agent : Agent} {holder holder' : Name → Option Agent} {holds holds' : Agent → Option Name}

theorem Owned.turn (owned : Owned holder holds) (agent : Agent)
    (turn : Turn agent holder holder' (holds agent) (holds' agent))
    (others : ∀ other, other ≠ agent → holds' other = holds other) : Owned holder' holds' := by
  generalize before : holds agent = held, after : holds' agent = held' at turn
  intro name other
  cases turn with
  | keep table =>
      rw [table, owned]
      by_cases same : other = agent
      · rw [same, before, after]
      · rw [others other same]
  | @lock locked free here table =>
      by_cases same : other = agent
      · rw [same, after]
        by_cases this : name = locked
        · rw [this, here]
          exact iff_of_true rfl rfl
        · rw [table name this, owned, before]
          exact iff_of_false (fun impossible => nomatch impossible)
            (fun equal => this (Option.some.inj equal).symm)
      · rw [others other same]
        by_cases this : name = locked
        · rw [this, here]
          refine iff_of_false (fun equal => same (Option.some.inj equal).symm) fun held => ?_
          rw [(owned locked other).mpr held] at free
          cases free
        · rw [table name this, owned]
  | @unlock released here table =>
      by_cases same : other = agent
      · rw [same, after]
        refine iff_of_false (fun held => ?_) (fun impossible => nomatch impossible)
        by_cases this : name = released
        · rw [this, here] at held
          cases held
        · rw [table name this, owned, before] at held
          exact this (Option.some.inj held).symm
      · rw [others other same]
        by_cases this : name = released
        · rw [this, here]
          refine iff_of_false (fun impossible => nomatch impossible) fun held => ?_
          have first := (owned released other).mpr held
          rw [(owned released agent).mpr before] at first
          exact same (Option.some.inj first).symm
        · rw [table name this, owned]

end Owned

/-- A chain of agents, each of which waits for the next one, up to one that waits for
nobody. -/
inductive Ends (waits : Agent → Option Agent) : Agent → Agent → Prop
  | here {agent : Agent} (free : waits agent = none) : Ends waits agent agent
  | next {agent other last : Agent} (waiting : waits agent = some other)
      (rest : Ends waits other last) : Ends waits agent last

variable {waits : Agent → Option Agent} {agent last : Agent}

theorem Ends.free (ends_ : Ends waits agent last) : waits last = none := by
  induction ends_ with
  | here free => exact free
  | next _ _ ih => exact ih

/-- What an agent passes on to the one it waits for holds at the end of the chain. -/
theorem Ends.carries {holds : Agent → Prop} (ends_ : Ends waits agent last) (begins : holds agent)
    (passes : ∀ agent other, waits agent = some other → holds other) : holds last := by
  induction ends_ with
  | here => exact begins
  | next waiting _ ih => exact ih (passes _ _ waiting)

/-- **No cycle.** A chain that ends does not come back. -/
theorem Ends.acyclic (ends_ : Ends waits agent last) :
    ¬ Relation.TransGen (fun first second => waits first = some second) agent agent := by
  induction ends_ with
  | here free =>
      intro cycle
      obtain ⟨other, waiting, _⟩ := Relation.TransGen.head'_iff.mp cycle
      rw [free] at waiting
      cases waiting
  | next waiting _ ih =>
      intro cycle
      obtain ⟨other, waiting', rest⟩ := Relation.TransGen.head'_iff.mp cycle
      cases waiting.symm.trans waiting'
      exact ih (Relation.TransGen.tail' rest waiting)

/-! ## New dependencies of one agent -/

section New

variable {before after : Agent → Agent → Prop} {moved : Agent}

/-- **One agent at a time.** Dependencies that change at one agent only stay well-founded if
no chain leads from this agent back to it. -/
theorem wellFounded_of_moved (wellFounded : WellFounded (Function.swap before))
    (elsewhere : ∀ first second, first ≠ moved → second ≠ moved → after first second →
      before first second)
    (returns : ∀ first, after moved first → ¬ Relation.ReflTransGen after first moved) :
    WellFounded (Function.swap after) := by
  have away (agent : Agent) :
      ¬ Relation.ReflTransGen after agent moved → Acc (Function.swap after) agent := by
    refine wellFounded.induction (C := fun agent => ¬ Relation.ReflTransGen after agent moved →
      Acc (Function.swap after) agent) agent fun agent ih never => ⟨agent, fun next depends => ?_⟩
    have later : ¬ Relation.ReflTransGen after next moved :=
      fun chain => never (.head depends chain)
    refine ih next (elsewhere agent next (fun same => ?_) (fun same => ?_) depends) later
    · rw [same] at never
      exact never .refl
    · rw [same] at later
      exact later .refl
  have here : Acc (Function.swap after) moved :=
    ⟨moved, fun next depends => away next (returns next depends)⟩
  refine ⟨fun agent => wellFounded.induction (C := Acc (Function.swap after)) agent
    fun agent ih => ?_⟩
  by_cases same : agent = moved
  · rw [same]
    exact here
  · refine ⟨agent, fun next depends => ?_⟩
    by_cases back : next = moved
    · rw [back]
      exact here
    · exact ih next (elsewhere agent next same back depends)

/-- The part of a chain that leads to an agent for the first time. -/
theorem exists_first_return
    (elsewhere : ∀ first second, first ≠ moved → second ≠ moved → after first second →
      before first second) {agent : Agent} (chain : Relation.ReflTransGen after agent moved)
    (different : agent ≠ moved) :
    ∃ last, last ≠ moved ∧ Relation.ReflTransGen before agent last ∧ after last moved := by
  induction chain using Relation.ReflTransGen.head_induction_on with
  | refl => exact absurd rfl different
  | @head agent next depends _ ih =>
      by_cases same : next = moved
      · rw [same] at depends
        exact ⟨agent, different, .refl, depends⟩
      · obtain ⟨last, away, rest, back⟩ := ih same
        exact ⟨last, away, .head (elsewhere agent next different same depends) rest, back⟩

end New

end Math.WaitFor
