import Mathlib.Data.List.Pairwise

/-! # Linearizable histories

Concurrent calls on one object are linearizable if there is an order of them that a
sequential execution reproduces, and that agrees with the order in real time
(`Math.Linearization.Linearized`). Such an order is built along a run: a call
that begins leaves it alone (`Linearized.invoke`), a call that takes effect
comes last (`Linearized.takeEffect`), and a call that returns has taken effect
before (`Linearized.respond`).
-/

namespace Math.Linearization

variable {Thread Call Value : Type*}

/-- What an observer sees. The calls of a thread are numbered. -/
inductive Event (Thread Call Value : Type*)
  | invoked (thread : Thread) (number : ℕ) (call : Call)
  | returned (thread : Thread) (number : ℕ) (value : Value)
  deriving DecidableEq

/-- A call with the value it returns. -/
structure Entry (Thread Call Value : Type*) where
  thread : Thread
  number : ℕ
  call : Call
  returned : Value
  deriving DecidableEq

/-- The entry is for this call of this thread. -/
def Entry.IsFor (entry : Entry Thread Call Value) (thread : Thread) (number : ℕ) : Prop :=
  entry.thread = thread ∧ entry.number = number

/-- Execute calls one after another: the values that they return and the value that
they leave behind. -/
def execute (functor : Call → Value → Value × Value) : List Call → Value → List Value × Value
  | [], value => ([], value)
  | call :: rest, value =>
      let later := execute functor rest (functor call value).2
      ((functor call value).1 :: later.1, later.2)

/-- One more call at the end. -/
theorem execute_snoc (functor : Call → Value → Value × Value) (calls : List Call) (call : Call)
    (start : Value) :
    execute functor (calls ++ [call]) start =
      ((execute functor calls start).1 ++ [(functor call (execute functor calls start).2).1],
        (functor call (execute functor calls start).2).2) := by
  induction calls generalizing start with
  | nil => rfl
  | cons head rest ih => simp only [List.cons_append, execute, ih]

/-- **Linearizability.** An order of the calls of a history: executed in this order,
the calls return what they returned and leave the current value; every call that
has returned is in it, once; and a call that had returned before another one began
comes before it. A call that has not returned yet may be in it or not. -/
structure Linearized (functor : Call → Value → Value × Value) (start current : Value)
    (history : List (Event Thread Call Value)) (order : List (Entry Thread Call Value)) :
    Prop where
  sequential : execute functor (order.map Entry.call) start = (order.map Entry.returned, current)
  once : order.Pairwise fun first second => ¬ second.IsFor first.thread first.number
  begun : ∀ entry ∈ order, .invoked entry.thread entry.number entry.call ∈ history
  completed : ∀ thread number value, .returned thread number value ∈ history →
    ∃ call, ⟨thread, number, call, value⟩ ∈ order
  realTime : ∀ before thread number call after,
    history = before ++ .invoked thread number call :: after →
    ∃ earlier later, order = earlier ++ later ∧ (∀ entry ∈ earlier, ¬ entry.IsFor thread number) ∧
      ∀ other m value, .returned other m value ∈ before → ∃ entry ∈ earlier, entry.IsFor other m

/-- An event that is appended is the last one or belongs to what follows. -/
theorem split_snoc {E : Type*} {history before after : List E} {event added : E}
    (split : history ++ [added] = before ++ event :: after) :
    (after = [] ∧ history = before ∧ added = event) ∨
      ∃ rest, after = rest ++ [added] ∧ history = before ++ event :: rest := by
  rcases List.eq_nil_or_concat after with none | ⟨rest, last, some⟩
  · subst none
    obtain ⟨same, same'⟩ := List.append_inj' split rfl
    exact .inl ⟨rfl, same, List.singleton_inj.mp same'⟩
  · subst some
    rw [List.concat_eq_append, ← List.cons_append, ← List.append_assoc] at split
    obtain ⟨same, same'⟩ := List.append_inj' split rfl
    exact .inr ⟨rest, by rw [List.concat_eq_append, List.singleton_inj.mp same'], same⟩

namespace Linearized

variable {functor : Call → Value → Value × Value} {start current : Value}
  {history : List (Event Thread Call Value)} {order : List (Entry Thread Call Value)}
  {thread : Thread} {number : ℕ} {call : Call} {value : Value}

theorem empty (functor : Call → Value → Value × Value) (start : Value) :
    Linearized functor start start ([] : List (Event Thread Call Value)) [] where
  sequential := rfl
  once := .nil
  begun := fun _ member => absurd member List.not_mem_nil
  completed := fun _ _ _ member => absurd member List.not_mem_nil
  realTime := fun before _ _ _ _ split => by simp at split

/-- A call has one entry at most. -/
theorem unique (linearized : Linearized functor start current history order)
    {first second : Entry Thread Call Value} (left : first ∈ order) (right : second ∈ order)
    (same : second.IsFor first.thread first.number) : first = second := by
  by_contra different
  have symmetric : Std.Symm fun first second : Entry Thread Call Value =>
      ¬ second.IsFor first.thread first.number :=
    ⟨fun _ _ apart isFor => apart ⟨isFor.1.symm, isFor.2.symm⟩⟩
  exact linearized.once.forall left right different same

/-- A call begins. -/
theorem invoke (linearized : Linearized functor start current history order)
    (fresh : ∀ entry ∈ order, ¬ entry.IsFor thread number) :
    Linearized functor start current (history ++ [.invoked thread number call]) order where
  sequential := linearized.sequential
  once := linearized.once
  begun := fun entry member => List.mem_append_left _ (linearized.begun entry member)
  completed := fun other m result member => by
    apply linearized.completed other m result
    simpa using member
  realTime := fun before other m begun after split => by
    rcases split_snoc split with ⟨-, same, last⟩ | ⟨rest, -, inside⟩
    · -- all that has returned so far is in the order
      cases last
      refine ⟨order, [], (List.append_nil _).symm, fresh, fun other m value member => ?_⟩
      obtain ⟨_, there⟩ := linearized.completed other m value (same ▸ member)
      exact ⟨_, there, rfl, rfl⟩
    · exact linearized.realTime before other m begun rest inside

/-- A call that has begun takes effect. -/
theorem takeEffect (linearized : Linearized functor start current history order)
    (begun : .invoked thread number call ∈ history)
    (pending : ∀ entry ∈ order, ¬ entry.IsFor thread number) :
    Linearized functor start (functor call current).2 history
      (order ++ [⟨thread, number, call, (functor call current).1⟩]) where
  sequential := by
    rw [List.map_append, List.map_singleton, execute_snoc, linearized.sequential,
      List.map_append, List.map_singleton]
  once := by
    refine List.pairwise_append.mpr ⟨linearized.once, List.pairwise_singleton _ _, ?_⟩
    intro entry member last same isFor
    rw [List.mem_singleton.mp same] at isFor
    exact pending entry member ⟨isFor.1.symm, isFor.2.symm⟩
  begun := fun entry member => by
    rcases List.mem_append.mp member with old | new
    · exact linearized.begun entry old
    · rw [List.mem_singleton.mp new]
      exact begun
  completed := fun other m result member => by
    obtain ⟨call, there⟩ := linearized.completed other m result member
    exact ⟨call, List.mem_append_left _ there⟩
  realTime := fun before other m begun after split => by
    obtain ⟨earlier, later, same, absent, present⟩ :=
      linearized.realTime before other m begun after split
    exact ⟨earlier, later ++ [_], by rw [same, List.append_assoc], absent, present⟩

/-- A call that has taken effect returns. -/
theorem respond (linearized : Linearized functor start current history order)
    (inEffect : ⟨thread, number, call, value⟩ ∈ order) :
    Linearized functor start current (history ++ [.returned thread number value]) order where
  sequential := linearized.sequential
  once := linearized.once
  begun := fun entry member => List.mem_append_left _ (linearized.begun entry member)
  completed := fun other m result member => by
    rcases List.mem_append.mp member with old | new
    · exact linearized.completed other m result old
    · cases List.mem_singleton.mp new
      exact ⟨call, inEffect⟩
  realTime := fun before other m begun after split => by
    rcases split_snoc split with ⟨-, -, last⟩ | ⟨rest, -, inside⟩
    · cases last
    · exact linearized.realTime before other m begun rest inside

end Linearized

end Math.Linearization
