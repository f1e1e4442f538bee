import Alpaka.Math.Interleaving
import Mathlib.Data.List.Count
import Mathlib.Logic.Function.Basic

/-! # Threads with stacks of frames

Every thread has a stack of frames; an action replaces the topmost frames of one
thread. If what the frames assert is kept by every action and holds for the frames
that an action puts on top, it holds for all frames of every reachable state
(`Math.Stacks.Framed.reachable`). What the shared state counts for a thread is
the number of frames of the thread that account for it, if every action changes
both by the same amount (`Math.Stacks.Accounts.replace`).
-/

namespace Math.Stacks

open Math.Interleaving

variable {State Action Thread Frame : Type*}

/-- An action keeps the shared invariant and what the frames assert, and establishes
what the new frames assert. -/
structure Framed (step : State → Action → Option State) (frames : State → Thread → List Frame)
    (invariant : State → Prop) (asserts : State → Thread → Frame → Prop) : Prop where
  shared : ∀ state action next, invariant state →
    (∀ thread, ∀ frame ∈ frames state thread, asserts state thread frame) →
    step state action = some next → invariant next
  kept : ∀ state action next, invariant state →
    (∀ thread, ∀ frame ∈ frames state thread, asserts state thread frame) →
    step state action = some next → ∀ thread frame,
      asserts state thread frame → asserts next thread frame
  pushed : ∀ state action next, invariant state →
    (∀ thread, ∀ frame ∈ frames state thread, asserts state thread frame) →
    step state action = some next → ∀ thread, ∀ frame ∈ frames next thread,
      frame ∈ frames state thread ∨ asserts next thread frame

/-- **The rule of frames.** -/
theorem Framed.reachable {step : State → Action → Option State}
    {frames : State → Thread → List Frame} {invariant : State → Prop}
    {asserts : State → Thread → Frame → Prop} (framed : Framed step frames invariant asserts)
    {start state : State} (reachable : Reachable step start state) (initially : invariant start)
    (empty : ∀ thread, frames start thread = []) :
    invariant state ∧ ∀ thread, ∀ frame ∈ frames state thread, asserts state thread frame := by
  apply reachable.induction
  · refine ⟨initially, fun thread frame member => ?_⟩
    rw [empty] at member
    cases member
  · intro state action next ⟨shared, own⟩ taken
    refine ⟨framed.shared state action next shared own taken, fun thread frame member => ?_⟩
    obtain old | asserted := framed.pushed state action next shared own taken thread frame member
    · exact framed.kept state action next shared own taken thread frame (own thread frame old)
    · exact asserted

/-- The number counted for each thread is the number of its frames of a sort. -/
def Accounts (sort : Frame → Bool) (frames : Thread → List Frame) (count : Thread → ℕ) : Prop :=
  ∀ thread, count thread = (frames thread).countP sort

variable {sort : Frame → Bool} {frames : Thread → List Frame} {count changed : Thread → ℕ}
  {thread : Thread} {old new below : List Frame}

/-- The counts stay right if the new topmost frames make up for the change. -/
theorem Accounts.replace [DecidableEq Thread] (accounts : Accounts sort frames count)
    (top : frames thread = old ++ below)
    (own : changed thread + old.countP sort = count thread + new.countP sort)
    (others : ∀ other ≠ thread, changed other = count other) :
    Accounts sort (Function.update frames thread (new ++ below)) changed := by
  intro other
  by_cases mine : other = thread
  · subst mine
    have before := accounts other
    rw [top, List.countP_append] at before
    rw [Function.update_self, List.countP_append]
    omega
  · rw [Function.update_of_ne mine, others other mine]
    exact accounts other

/-- A frame of the sort is counted. -/
theorem Accounts.pos (accounts : Accounts sort frames count) {frame : Frame}
    (member : frame ∈ frames thread) (sorted : sort frame = true) : 0 < count thread := by
  rw [accounts thread, List.countP_pos_iff]
  exact ⟨frame, member, sorted⟩

end Math.Stacks
