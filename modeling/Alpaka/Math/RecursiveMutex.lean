import Mathlib.Data.Option.Basic
import Mathlib.Data.Nat.Notation
import Mathlib.Tactic.ByContra

/-! # Recursive mutexes

A mutex that its owner can acquire again. It is free, or there is an owner and
the number of further acquisitions, so that an owned mutex has been acquired at
least once. What the threads have acquired determines the owner
(`Math.RecursiveMutex.owner_of_count`).
-/

namespace Math

/-- The owner of the mutex and how often it has acquired the mutex again. -/
structure RecursiveMutex (Thread : Type*) where
  owned : Option (Thread × ℕ) := none

namespace RecursiveMutex

variable {Thread : Type*} [DecidableEq Thread] {mutex next : RecursiveMutex Thread}
  {thread other : Thread}

def owner (mutex : RecursiveMutex Thread) : Option Thread := mutex.owned.map Prod.fst

/-- How often a thread has acquired the mutex. -/
def count (mutex : RecursiveMutex Thread) (thread : Thread) : ℕ :=
  match mutex.owned with
  | none => 0
  | some (owner, again) => if owner = thread then again + 1 else 0

/-- Acquire the mutex, if no other thread owns it. -/
def lock (thread : Thread) (mutex : RecursiveMutex Thread) : Option (RecursiveMutex Thread) :=
  match mutex.owned with
  | none => some ⟨some (thread, 0)⟩
  | some (owner, again) => if owner = thread then some ⟨some (owner, again + 1)⟩ else none

/-- Release the mutex once. -/
def unlock (mutex : RecursiveMutex Thread) : RecursiveMutex Thread :=
  match mutex.owned with
  | some (owner, again + 1) => ⟨some (owner, again)⟩
  | _ => ⟨none⟩

theorem count_of_ne (different : mutex.owner ≠ some thread) : mutex.count thread = 0 := by
  unfold owner at different
  unfold count
  cases owned : mutex.owned with
  | none => rfl
  | some pair =>
      rw [owned] at different
      exact if_neg fun same => different (congrArg some same)

/-- **Exclusion.** A thread that has acquired the mutex is its owner. -/
theorem owner_of_count (acquired : 0 < mutex.count thread) : mutex.owner = some thread := by
  by_contra different
  rw [count_of_ne different] at acquired
  exact Nat.lt_irrefl 0 acquired

theorem lock_owner (locked : mutex.lock thread = some next) : next.owner = some thread := by
  unfold lock at locked
  split at locked
  · cases locked
    rfl
  · split at locked
    case isTrue same =>
      cases locked
      exact congrArg some same
    case isFalse => cases locked

/-- Only a free mutex and one of the same thread can be acquired. -/
theorem owner_of_lock (locked : mutex.lock thread = some next) :
    mutex.owner = none ∨ mutex.owner = some thread := by
  unfold lock at locked
  unfold owner
  split at locked
  case h_1 free =>
    rw [free]
    exact .inl rfl
  case h_2 owner again owned =>
    split at locked
    case isTrue same =>
      rw [owned]
      exact .inr (congrArg some same)
    case isFalse => cases locked

theorem count_lock (locked : mutex.lock thread = some next) (other : Thread) :
    next.count other = mutex.count other + if other = thread then 1 else 0 := by
  unfold lock at locked
  unfold count
  split at locked
  case h_1 =>
    cases locked
    dsimp only
    rw [Nat.zero_add, Nat.zero_add]
    exact if_congr eq_comm rfl rfl
  case h_2 owner again owned =>
    split at locked
    case isTrue same =>
      cases locked
      subst same
      dsimp only
      by_cases mine : other = owner
      · rw [if_pos mine.symm, if_pos mine.symm, if_pos mine]
      · rw [if_neg (Ne.symm mine), if_neg (Ne.symm mine), if_neg mine]
    case isFalse => cases locked

theorem count_unlock (owns : mutex.owner = some thread) (other : Thread) :
    mutex.unlock.count other + (if other = thread then 1 else 0) = mutex.count other := by
  unfold owner at owns
  unfold unlock count
  cases owned : mutex.owned with
  | none =>
      rw [owned] at owns
      cases owns
  | some pair =>
      obtain ⟨owner, again⟩ := pair
      rw [owned] at owns
      cases owns
      cases again with
      | zero =>
          dsimp only
          rw [Nat.zero_add, Nat.zero_add]
          exact if_congr eq_comm rfl rfl
      | succ again =>
          dsimp only
          by_cases mine : owner = other
          · rw [if_pos mine, if_pos mine, if_pos mine.symm]
          · rw [if_neg mine, if_neg mine, if_neg (Ne.symm mine)]

/-- The owner is done with the mutex when it has released it as often as acquired. -/
theorem owner_unlock (owns : mutex.owner = some thread) :
    mutex.unlock.owner = none ∧ mutex.count thread = 1 ∨ mutex.unlock.owner = some thread := by
  unfold owner at owns
  unfold unlock count owner
  cases owned : mutex.owned with
  | none =>
      rw [owned] at owns
      cases owns
  | some pair =>
      obtain ⟨owner, again⟩ := pair
      rw [owned] at owns
      cases owns
      cases again with
      | zero => exact .inl ⟨rfl, if_pos rfl⟩
      | succ again => exact .inr rfl

end RecursiveMutex

end Math
