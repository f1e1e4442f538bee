import Alpaka.Math.Interleaving
import Alpaka.Math.Linearization
import Mathlib.Algebra.Group.Nat.Defs
import Mathlib.Data.ZMod.Defs
import Mathlib.Logic.Equiv.Defs
import Mathlib.Logic.Function.Basic
import Mathlib.Order.Fin.Basic

/-! # Emulated atomics

Where there is no instruction for an atomic operation, the back-ends load the old
value, compute the new one and try to exchange them until nobody else has come in
between. The host and SYCL use the weak compare-exchange, which may fail for no
reason; CUDA and HIP compare the integers of the same size and see from the value
that the exchange returns whether it took place. The steps of the threads that call
such loops on one location fall in any order. Every call takes effect with its
successful exchange, so that the calls are linearizable
(`Alpaka.Atomics.linearizable`).
-/

namespace Alpaka

open Math.Interleaving Math.Linearization

/-! ## The operation functors -/

/-- A functor returns the old value and leaves a new one. -/
def operation.Min {T : Type*} [LinearOrder T] (addr value : T) : T × T := (addr, min addr value)

def operation.Max {T : Type*} [LinearOrder T] (addr value : T) : T × T := (addr, max addr value)

def operation.Exch {T : Type*} (addr value : T) : T × T := (addr, value)

/-- Increments up to value, then reset to 0. -/
def operation.Inc {T : Type*} [LinearOrder T] [Zero T] [One T] [Add T] (addr value : T) : T × T :=
  let old := addr
  (old, if old ≥ value then 0 else old + 1)

/-- Decrement down to 0, then reset to value. -/
def operation.Dec {T : Type*} [LinearOrder T] [Zero T] [One T] [Sub T] (addr value : T) : T × T :=
  let old := addr
  (old, if old = 0 ∨ old > value then value else old - 1)

def operation.Cas {T : Type*} [DecidableEq T] (addr compare value : T) : T × T :=
  let old := addr
  (old, if old = compare then value else old)

def operation.Add {T : Type*} [Add T] (addr value : T) : T × T := (addr, addr + value)

def operation.And {T : Type*} [AndOp T] (addr value : T) : T × T := (addr, addr &&& value)

def operation.Or {T : Type*} [OrOp T] (addr value : T) : T × T := (addr, addr ||| value)

def operation.Xor {T : Type*} [XorOp T] (addr value : T) : T × T := (addr, addr ^^^ value)

namespace Atomics

/-! ## The calls -/

/-- The loops around the weak compare-exchange: those of the host and the two of
`casWithCondition`. -/
inductive WeakLoop (T : Type*)
  | hostMin (value : T)
  | hostMax (value : T)
  | hostExch (value : T)
  | hostInc (value : T)
  | hostDec (value : T)
  | hostCas (compare value : T)
  | syclInc (value : T)
  | syclDec (value : T)
  deriving DecidableEq

/-- The functors that `EmulateAtomic` is instantiated with. -/
inductive TOp
  | add
  | min
  | max
  | exch
  | inc
  | dec
  | and
  | or
  | xor
  deriving DecidableEq

/-- A call of an emulated atomic operation. -/
inductive Call (T : Type*)
  | loop (loop : WeakLoop T)
  | emulate (op : TOp) (value : T)
  | emulateCas (compare value : T)
  deriving DecidableEq

variable {T E Thread : Type*} [LinearOrder T] [Zero T] [One T] [Add T] [Sub T] [AndOp T] [OrOp T]
  [XorOp T]

/-- The new value that a loop computes from the old one, before the loop and after
every failure, at the begin of its body or as the argument of the exchange. -/
def WeakLoop.result (old : T) : WeakLoop T → T
  | .hostMin value =>
      let result := old
      min result value
  | .hostMax value =>
      let result := old
      max result value
  | .hostExch value => value
  | .hostInc value => if old ≥ value then 0 else old + 1
  | .hostDec value => if old = 0 ∨ old > value then value else old - 1
  | .hostCas compare value => if old = compare then value else old
  | .syclInc value => if old ≥ value then 0 else old + 1
  | .syclDec value => if old = 0 ∨ old > value then value else old - 1

/-- Apply the functor. -/
def TOp.apply (addr value : T) : TOp → T × T
  | .add => operation.Add addr value
  | .min => operation.Min addr value
  | .max => operation.Max addr value
  | .exch => operation.Exch addr value
  | .inc => operation.Inc addr value
  | .dec => operation.Dec addr value
  | .and => operation.And addr value
  | .or => operation.Or addr value
  | .xor => operation.Xor addr value

/-- The functor that a call stands for. -/
def Call.functor (call : Call T) (addr : T) : T × T :=
  match call with
  | .loop (.hostMin value) => operation.Min addr value
  | .loop (.hostMax value) => operation.Max addr value
  | .loop (.hostExch value) => operation.Exch addr value
  | .loop (.hostInc value) => operation.Inc addr value
  | .loop (.hostDec value) => operation.Dec addr value
  | .loop (.hostCas compare value) => operation.Cas addr compare value
  | .loop (.syclInc value) => operation.Inc addr value
  | .loop (.syclDec value) => operation.Dec addr value
  | .emulate op value => op.apply addr value
  | .emulateCas compare value => operation.Cas addr compare value

/-! ## The steps -/

/-- How far a thread is in its call. The registers of `EmulateAtomic` hold
integers. -/
inductive Point (T E : Type*)
  | idle
  | load (loop : WeakLoop T)
  | compute (loop : WeakLoop T) (old : T)
  | compareExchange (loop : WeakLoop T) (old result : T)
  | emulateLoad (op : TOp) (value : T)
  | emulateCompute (op : TOp) (value : T) (old : E)
  | emulateExchange (op : TOp) (value : T) (assumed v : E)
  | emulateCompare (op : TOp) (value : T) (assumed old : E)
  | exchangeCas (compare value : T)
  | return (call : Call T) (old : T)
  deriving DecidableEq

/-- The location and the threads that use it. What the threads begin and return is
kept as history. -/
structure State (Thread T E : Type*) where
  memory : T
  points : Thread → Point T E := fun _ => .idle
  calls : Thread → ℕ := fun _ => 0
  history : List (Math.Linearization.Event Thread (Call T) T) := []

/-- A thread begins a call or takes its next step, in which a weak exchange may fail
spuriously. -/
inductive Action (Thread T : Type*)
  | call (thread : Thread) (call : Call T)
  | step (thread : Thread) (spurious : Bool)

/-- Where a call begins. -/
def Call.begin : Call T → Point T E
  | .loop inner => .load inner
  | .emulate op value => .emulateLoad op value
  | .emulateCas compare value => .exchangeCas compare value

variable [DecidableEq Thread] [DecidableEq E]

def State.goTo (state : State Thread T E) (thread : Thread) (point : Point T E) :
    State Thread T E :=
  { state with points := Function.update state.points thread point }

/-- The next step of a thread. -/
def State.advance (bitCast : T ≃ E) (state : State Thread T E) (thread : Thread)
    (spurious : Bool) : Option (State Thread T E) :=
  match state.points thread with
  | .idle => none
  | .load loop => some (state.goTo thread (.compute loop state.memory))
  | .compute loop old => some (state.goTo thread (.compareExchange loop old (loop.result old)))
  | .compareExchange loop old result =>
      if state.memory = old ∧ spurious = false then
        some ({ state with memory := result }.goTo thread (.return (.loop loop) old))
      else some (state.goTo thread (.compute loop state.memory))
  | .emulateLoad op value =>
      some (state.goTo thread (.emulateCompute op value (bitCast state.memory)))
  | .emulateCompute op value old =>
      let assumed := old
      let v := (op.apply (bitCast.symm assumed) value).2
      some (state.goTo thread (.emulateExchange op value assumed (bitCast v)))
  | .emulateExchange op value assumed v =>
      let old := bitCast state.memory
      let memory := if old = assumed then bitCast.symm v else state.memory
      some ({ state with memory := memory }.goTo thread (.emulateCompare op value assumed old))
  | .emulateCompare op value assumed old =>
      if assumed ≠ old then some (state.goTo thread (.emulateCompute op value old))
      else some (state.goTo thread (.return (.emulate op value) (bitCast.symm old)))
  | .exchangeCas compare value =>
      let old := bitCast state.memory
      let memory := if old = bitCast compare then bitCast.symm (bitCast value) else state.memory
      some ({ state with memory := memory }.goTo thread
        (.return (.emulateCas compare value) (bitCast.symm old)))
  | .return _ old =>
      some { state with
        points := Function.update state.points thread .idle
        calls := Function.update state.calls thread (state.calls thread + 1)
        history := state.history ++ [.returned thread (state.calls thread) old] }

def step (bitCast : T ≃ E) (state : State Thread T E) : Action Thread T → Option (State Thread T E)
  | .call thread call =>
      if state.points thread = .idle then
        some { state with
          points := Function.update state.points thread call.begin
          history := state.history ++ [.invoked thread (state.calls thread) call] }
      else none
  | .step thread spurious => state.advance bitCast thread spurious

/-! ## Linearizability -/

/-- A loop computes what its functor leaves, and the functor returns the old
value. -/
theorem functor_loop (loop : WeakLoop T) (old : T) :
    (Call.loop loop).functor old = (old, loop.result old) := by
  cases loop <;> rfl

private theorem functor_emulate (op : TOp) (value old : T) :
    (Call.emulate op value).functor old = (old, (op.apply old value).2) := by
  cases op <;> rfl

/-- A call has begun and has not taken effect. -/
structure Pending (history : List (Math.Linearization.Event Thread (Call T) T))
    (order : List (Entry Thread (Call T) T))
    (thread : Thread) (number : ℕ) (call : Call T) : Prop where
  begun : .invoked thread number call ∈ history
  absent : ∀ entry ∈ order, ¬ entry.IsFor thread number

/-- Whether the call of a thread has taken effect, and what its registers hold. -/
def Point.Placed (bitCast : T ≃ E) (history : List (Math.Linearization.Event Thread (Call T) T))
    (order : List (Entry Thread (Call T) T)) (thread : Thread) (number : ℕ) : Point T E → Prop
  | .idle => ∀ entry ∈ order, ¬ entry.IsFor thread number
  | .load inner => Pending history order thread number (.loop inner)
  | .compute inner _ => Pending history order thread number (.loop inner)
  | .compareExchange inner old result =>
      Pending history order thread number (.loop inner) ∧ result = inner.result old
  | .emulateLoad op value => Pending history order thread number (.emulate op value)
  | .emulateCompute op value _ => Pending history order thread number (.emulate op value)
  | .emulateExchange op value assumed v =>
      Pending history order thread number (.emulate op value) ∧
        bitCast.symm v = (op.apply (bitCast.symm assumed) value).2
  | .emulateCompare op value assumed old =>
      (assumed = old → ⟨thread, number, .emulate op value, bitCast.symm old⟩ ∈ order) ∧
        (assumed ≠ old → Pending history order thread number (.emulate op value))
  | .exchangeCas compare value =>
      Pending history order thread number (.emulateCas compare value)
  | .return call old => ⟨thread, number, call, old⟩ ∈ order

/-- The invariant: an order of the calls that have taken effect, and where the
threads are. -/
structure Sound (bitCast : T ≃ E) (start : T) (state : State Thread T E)
    (order : List (Entry Thread (Call T) T)) : Prop where
  linearized : Linearized Call.functor start state.memory state.history order
  numbered : ∀ entry ∈ order, entry.number ≤ state.calls entry.thread
  returned : ∀ entry ∈ order, entry.number < state.calls entry.thread →
    .returned entry.thread entry.number entry.returned ∈ state.history
  placed : ∀ thread,
    (state.points thread).Placed bitCast state.history order thread (state.calls thread)

section

variable {bitCast : T ≃ E} {start : T} {state next : State Thread T E}
  {history later : List (Math.Linearization.Event Thread (Call T) T)}
  {order further : List (Entry Thread (Call T) T)} {thread : Thread} {number : ℕ}
  {call : Call T} {point : Point T E}

omit [LinearOrder T] [Zero T] [One T] [Add T] [Sub T] [AndOp T] [OrOp T] [XorOp T]
  [DecidableEq Thread] [DecidableEq E] in
theorem Pending.mono (pending : Pending history order thread number call)
    (events : ∀ event ∈ history, event ∈ later)
    (foreign : ∀ entry ∈ further, entry ∈ order ∨ ¬ entry.IsFor thread number) :
    Pending later further thread number call where
  begun := events _ pending.begun
  absent := fun entry member => (foreign entry member).elim (pending.absent entry) id

omit [DecidableEq Thread] [DecidableEq E] in
/-- What a thread has done does not depend on the calls of the others. -/
theorem Point.Placed.mono (placed : point.Placed bitCast history order thread number)
    (events : ∀ event ∈ history, event ∈ later) (entries : ∀ entry ∈ order, entry ∈ further)
    (foreign : ∀ entry ∈ further, entry ∈ order ∨ ¬ entry.IsFor thread number) :
    point.Placed bitCast later further thread number := by
  cases point with
  | idle => exact fun entry member => (foreign entry member).elim (placed entry) id
  | load _ => exact Pending.mono placed events foreign
  | compute _ _ => exact Pending.mono placed events foreign
  | compareExchange _ _ _ => exact ⟨placed.1.mono events foreign, placed.2⟩
  | emulateLoad _ _ => exact Pending.mono placed events foreign
  | emulateCompute _ _ _ => exact Pending.mono placed events foreign
  | emulateExchange _ _ _ _ => exact ⟨placed.1.mono events foreign, placed.2⟩
  | emulateCompare _ _ _ _ =>
      exact ⟨fun same => entries _ (placed.1 same),
        fun failed => (placed.2 failed).mono events foreign⟩
  | exchangeCas _ _ => exact Pending.mono placed events foreign
  | «return» _ _ => exact entries _ placed

omit [DecidableEq E] in
/-- A step that has no effect on the location. -/
theorem Sound.goTo (sound : Sound bitCast start state order)
    (placed : point.Placed bitCast state.history order thread (state.calls thread)) :
    Sound bitCast start (state.goTo thread point) order where
  linearized := sound.linearized
  numbered := sound.numbered
  returned := sound.returned
  placed := fun other => by
    unfold State.goTo
    dsimp only
    by_cases same : other = thread
    · subst same
      rw [Function.update_self]
      exact placed
    · rw [Function.update_of_ne same]
      exact sound.placed other

omit [DecidableEq E] in
/-- A successful exchange: the call takes effect. -/
theorem Sound.takeEffect (sound : Sound bitCast start state order)
    (pending : Pending state.history order thread (state.calls thread) call) {memory : T}
    (leaves : memory = (call.functor state.memory).2)
    (placed : ⟨thread, state.calls thread, call, (call.functor state.memory).1⟩ ∈
        order ++ [⟨thread, state.calls thread, call, (call.functor state.memory).1⟩] →
      point.Placed bitCast state.history
        (order ++ [⟨thread, state.calls thread, call, (call.functor state.memory).1⟩]) thread
        (state.calls thread)) :
    Sound bitCast start ({ state with memory := memory }.goTo thread point)
      (order ++ [⟨thread, state.calls thread, call, (call.functor state.memory).1⟩]) where
  linearized := by
    rw [leaves]
    exact sound.linearized.takeEffect pending.begun pending.absent
  numbered := fun entry member => by
    rcases List.mem_append.mp member with old | new
    · exact sound.numbered entry old
    · rw [List.mem_singleton.mp new]
      exact Nat.le_refl _
  returned := fun entry member before => by
    rcases List.mem_append.mp member with old | new
    · exact sound.returned entry old before
    · rw [List.mem_singleton.mp new] at before
      exact absurd before (Nat.lt_irrefl _)
  placed := fun other => by
    unfold State.goTo
    dsimp only
    by_cases same : other = thread
    · subst same
      rw [Function.update_self]
      exact placed (List.mem_append_right _ (List.mem_singleton.mpr rfl))
    · rw [Function.update_of_ne same]
      apply (sound.placed other).mono (fun _ member => member)
        (fun _ member => List.mem_append_left _ member)
      intro entry member
      rcases List.mem_append.mp member with old | new
      · exact .inl old
      · rw [List.mem_singleton.mp new]
        exact .inr fun isFor => same isFor.1.symm

omit [DecidableEq E] in
/-- An idle thread begins a call. -/
theorem Sound.begin (sound : Sound bitCast start state order)
    (idle : state.points thread = .idle) :
    Sound bitCast start { state with
      points := Function.update state.points thread call.begin
      history := state.history ++ [.invoked thread (state.calls thread) call] } order := by
  have absent : ∀ entry ∈ order, ¬ entry.IsFor thread (state.calls thread) := by
    have placed := sound.placed thread
    rw [idle] at placed
    exact placed
  constructor
  · exact sound.linearized.invoke absent
  · exact sound.numbered
  · intro entry member before
    exact List.mem_append_left _ (sound.returned entry member before)
  · intro other
    by_cases same : other = thread
    · subst same
      have pending : Pending (state.history ++ [.invoked other (state.calls other) call]) order
          other (state.calls other) call :=
        ⟨List.mem_append_right _ (List.mem_singleton.mpr rfl), absent⟩
      dsimp only
      rw [Function.update_self]
      cases call <;> exact pending
    · dsimp only
      rw [Function.update_of_ne same]
      exact (sound.placed other).mono (fun _ member => List.mem_append_left _ member)
        (fun _ member => member) (fun _ member => .inl member)

omit [DecidableEq E] in
/-- A call returns. -/
theorem Sound.return {old : T} (sound : Sound bitCast start state order)
    (returns : state.points thread = .return call old) :
    Sound bitCast start { state with
      points := Function.update state.points thread .idle
      calls := Function.update state.calls thread (state.calls thread + 1)
      history := state.history ++ [.returned thread (state.calls thread) old] } order := by
  have inEffect : ⟨thread, state.calls thread, call, old⟩ ∈ order := by
    have placed := sound.placed thread
    rw [returns] at placed
    exact placed
  constructor
  · exact sound.linearized.respond inEffect
  · intro entry member
    dsimp only
    by_cases same : entry.thread = thread
    · rw [same, Function.update_self]
      exact Nat.le_succ_of_le (same ▸ sound.numbered entry member)
    · rw [Function.update_of_ne same]
      exact sound.numbered entry member
  · intro entry member before
    dsimp only at before ⊢
    by_cases current : entry.IsFor thread (state.calls thread)
    · rw [← sound.linearized.unique inEffect member current]
      exact List.mem_append_right _ (List.mem_singleton.mpr rfl)
    · apply List.mem_append_left _ (sound.returned entry member _)
      apply Nat.lt_of_le_of_ne (sound.numbered entry member)
      intro last
      by_cases same : entry.thread = thread
      · exact current ⟨same, same ▸ last⟩
      · rw [Function.update_of_ne same] at before
        exact absurd last (Nat.ne_of_lt before)
  · intro other
    dsimp only
    by_cases same : other = thread
    · subst same
      rw [Function.update_self, Function.update_self]
      intro entry member isFor
      have number := sound.numbered entry member
      rw [isFor.1, isFor.2] at number
      exact absurd number (Nat.not_succ_le_self _)
    · rw [Function.update_of_ne same, Function.update_of_ne same]
      exact (sound.placed other).mono (fun _ member => List.mem_append_left _ member)
        (fun _ member => member) (fun _ member => .inl member)

/-- Every step keeps the invariant. -/
theorem Sound.advance {spurious : Bool} (sound : Sound bitCast start state order)
    (taken : state.advance bitCast thread spurious = some next) :
    ∃ order, Sound bitCast start next order := by
  have placed := sound.placed thread
  unfold State.advance at taken
  cases at' : state.points thread with
  | idle => simp [at'] at taken
  | load inner =>
      rw [at'] at placed
      simp only [at', Option.some.injEq] at taken
      subst taken
      exact ⟨order, sound.goTo placed⟩
  | compute inner old =>
      rw [at'] at placed
      simp only [at', Option.some.injEq] at taken
      subst taken
      exact ⟨order, sound.goTo ⟨placed, rfl⟩⟩
  | compareExchange inner old result =>
      rw [at'] at placed
      obtain ⟨pending, computed⟩ := placed
      simp only [at'] at taken
      split at taken
      · rename_i exchanged
        cases taken
        refine ⟨_, sound.takeEffect pending ?_ fun inEffect => ?_⟩
        · rw [functor_loop, computed, exchanged.1]
        · rw [functor_loop] at inEffect ⊢
          rw [← exchanged.1]
          exact inEffect
      · cases taken
        exact ⟨order, sound.goTo pending⟩
  | emulateLoad op value =>
      rw [at'] at placed
      simp only [at', Option.some.injEq] at taken
      subst taken
      exact ⟨order, sound.goTo placed⟩
  | emulateCompute op value old =>
      rw [at'] at placed
      simp only [at', Option.some.injEq] at taken
      subst taken
      exact ⟨order, sound.goTo ⟨placed, bitCast.symm_apply_apply _⟩⟩
  | emulateExchange op value assumed v =>
      rw [at'] at placed
      obtain ⟨pending, computed⟩ := placed
      simp only [at', Option.some.injEq] at taken
      subst taken
      by_cases same : bitCast state.memory = assumed
      · refine ⟨_, sound.takeEffect pending ?_ fun inEffect => ?_⟩
        · rw [if_pos same, functor_emulate, computed, ← same, bitCast.symm_apply_apply]
        · rw [functor_emulate] at inEffect ⊢
          refine ⟨fun _ => ?_, fun failed => absurd same.symm failed⟩
          rw [bitCast.symm_apply_apply]
          exact inEffect
      · rw [if_neg same]
        exact ⟨order, sound.goTo ⟨fun exchanged => absurd exchanged.symm same, fun _ => pending⟩⟩
  | emulateCompare op value assumed old =>
      rw [at'] at placed
      simp only [at'] at taken
      split at taken
      · rename_i failed
        cases taken
        exact ⟨order, sound.goTo (placed.2 failed)⟩
      · rename_i exchanged
        cases taken
        exact ⟨order, sound.goTo (placed.1 (not_not.mp exchanged))⟩
  | exchangeCas compare value =>
      rw [at'] at placed
      simp only [at', Option.some.injEq] at taken
      subst taken
      refine ⟨_, sound.takeEffect placed ?_ fun inEffect => ?_⟩
      · simp only [Call.functor, operation.Cas, bitCast.injective.eq_iff,
          bitCast.symm_apply_apply]
      · rw [bitCast.symm_apply_apply]
        exact inEffect
  | «return» call old =>
      simp only [at', Option.some.injEq] at taken
      subst taken
      exact ⟨order, sound.return at'⟩

theorem Sound.step {action : Action Thread T} (sound : Sound bitCast start state order)
    (taken : step bitCast state action = some next) : ∃ order, Sound bitCast start next order := by
  cases action with
  | call thread call =>
      unfold Atomics.step at taken
      dsimp only at taken
      split at taken
      · rename_i idle
        cases taken
        exact ⟨order, sound.begin idle⟩
      · cases taken
  | step thread spurious => exact sound.advance taken

omit [DecidableEq Thread] [DecidableEq E] in
/-- Nobody has begun. -/
theorem sound_start (bitCast : T ≃ E) (start : T) :
    Sound bitCast start ({ memory := start } : State Thread T E) [] where
  linearized := .empty Call.functor start
  numbered := fun _ member => absurd member List.not_mem_nil
  returned := fun _ member => absurd member List.not_mem_nil
  placed := fun _ _ member => absurd member List.not_mem_nil

/-- **Emulated atomics are linearizable.** In every reachable state there is an order
of calls in which the functors, applied one after another, return what the calls
have returned and leave the value of the location. It contains every completed call
and agrees with their order in real time. Apart from completed calls it contains
only current calls of threads that are between their exchange and their return. -/
theorem linearizable (bitCast : T ≃ E) (start : T) {state : State Thread T E}
    (reachable : Reachable (step bitCast) { memory := start } state) :
    ∃ order, Linearized Call.functor start state.memory state.history order ∧
      ∀ entry ∈ order, .returned entry.thread entry.number entry.returned ∈ state.history ∨
        entry.number = state.calls entry.thread ∧ state.points entry.thread ≠ .idle := by
  have invariant : ∃ order, Sound bitCast start state order := by
    apply reachable.induction ⟨[], sound_start bitCast start⟩
    intro state action next ⟨order, sound⟩ taken
    exact sound.step taken
  obtain ⟨order, sound⟩ := invariant
  refine ⟨order, sound.linearized, fun entry member => ?_⟩
  rcases Nat.lt_or_eq_of_le (sound.numbered entry member) with before | current
  · exact .inl (sound.returned entry member before)
  · refine .inr ⟨current, fun idle => ?_⟩
    have absent := sound.placed entry.thread
    rw [idle] at absent
    exact absent entry member ⟨rfl, current⟩

end

/-- The increment of one thread fails spuriously, loses against the addition of the
other thread and succeeds in the end. -/
theorem linearizable_twoThreads :
    ∃ state : State Bool (Fin (2 ^ 32)) (Fin (2 ^ 32)),
      state.memory = 9 ∧ state.history.length = 4 ∧
      ∃ order, Linearized Call.functor 3 state.memory state.history order ∧
        ∀ entry ∈ order, .returned entry.thread entry.number entry.returned ∈ state.history ∨
          entry.number = state.calls entry.thread ∧ state.points entry.thread ≠ .idle := by
  have reached : ∃ state : State Bool (Fin (2 ^ 32)) (Fin (2 ^ 32)),
      Reachable (step (Equiv.refl (Fin (2 ^ 32)))) { memory := 3 } state ∧
        state.memory = 9 ∧ state.history.length = 4 := by
    refine ⟨_, ⟨[.call false (.loop (.hostInc 10)), .step false false, .step false false,
      .step false true, .step false false, .call true (.emulate .add 5), .step true false,
      .step true false, .step true false, .step false false, .step true false, .step true false,
      .step false false, .step false false, .step false false], rfl⟩, ?_, ?_⟩
    · decide
    · rfl
  obtain ⟨state, reachable, memory, events⟩ := reached
  exact ⟨state, memory, events, linearizable (Equiv.refl _) 3 reachable⟩

end Atomics

end Alpaka
