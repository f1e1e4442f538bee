import Alpaka.Math.Interleaving
import Mathlib.Logic.Function.Basic
import Mathlib.Order.Basic

/-! # Whether a SYCL queue is empty

A task is submitted to the native in-order queue in one step, and its event is
recorded as the last one in another. `isQueueEmpty` copies the recorded event and
asks for its status. In between, another thread may have recorded the event of an
earlier task, so that a task whose enqueue call has returned goes unnoticed. As
long as no such event is recorded, the answer can be relied on, and as soon as one
is, a wrong answer is possible (`Alpaka.SyclQueue.empty_iff`).
-/

namespace Alpaka.SyclQueue

open Math.Interleaving

/-- How far a thread is in its call. The tasks whose enqueue calls had returned when
`isQueueEmpty` was called are kept as history. -/
inductive Point
  | idle
  | setLastEvent (task : ℕ)
  | getLastEvent (before : List ℕ)
  | getInfo (before : List ℕ) (event : Option ℕ)
  deriving DecidableEq

/-- What a call of `isQueueEmpty` returns, and how many tasks have completed by
then. -/
structure Answer where
  before : List ℕ
  empty : Bool
  completed : ℕ
  deriving DecidableEq

/-- A non-blocking queue and the threads that use it. Tasks are numbered as they are
submitted, and complete in this order. There is no last event at the begin. -/
structure Queue (Thread : Type*) where
  submitted : ℕ := 0
  completed : ℕ := 0
  lastEvent : Option ℕ := none
  points : Thread → Point := fun _ => .idle
  returned : List ℕ := []
  answers : List Answer := []

/-- The status of an event. An event that belongs to no task is complete. -/
def isComplete (completed : ℕ) : Option ℕ → Bool
  | none => true
  | some task => task < completed

/-- A thread submits a task or calls `isQueueEmpty`, or takes the next step of its
call, or the next task completes. -/
inductive Action (Thread : Type*)
  | enqueue (thread : Thread)
  | isQueueEmpty (thread : Thread)
  | advance (thread : Thread)
  | complete

variable {Thread : Type*} [DecidableEq Thread]

def Queue.goTo (queue : Queue Thread) (thread : Thread) (point : Point) : Queue Thread :=
  { queue with points := Function.update queue.points thread point }

/-- The next step of a call. -/
def Queue.advance (queue : Queue Thread) (thread : Thread) : Option (Queue Thread) :=
  match queue.points thread with
  | .idle => none
  | .setLastEvent task =>
      some ({ queue with
        lastEvent := some task
        returned := task :: queue.returned }.goTo thread .idle)
  | .getLastEvent before => some (queue.goTo thread (.getInfo before queue.lastEvent))
  | .getInfo before event =>
      some ({ queue with
        answers := ⟨before, isComplete queue.completed event, queue.completed⟩ :: queue.answers
        }.goTo thread .idle)

def step (queue : Queue Thread) : Action Thread → Option (Queue Thread)
  | .enqueue thread =>
      if queue.points thread = .idle then
        some ({ queue with
          submitted := queue.submitted + 1 }.goTo thread (.setLastEvent queue.submitted))
      else none
  | .isQueueEmpty thread =>
      if queue.points thread = .idle then
        some (queue.goTo thread (.getLastEvent queue.returned))
      else none
  | .advance thread => queue.advance thread
  | .complete =>
      if queue.completed < queue.submitted then
        some { queue with completed := queue.completed + 1 }
      else none

/-- An answer that can be relied on: if the queue is said to be empty, all tasks have
completed whose enqueue calls had returned before. -/
def Answer.Right (answer : Answer) : Prop :=
  answer.empty = true → ∀ task ∈ answer.before, task < answer.completed

instance (answer : Answer) : Decidable answer.Right :=
  inferInstanceAs (Decidable (_ → ∀ _ ∈ _, _))

/-- No step records the event of a task that is older than one whose enqueue call
has returned and that has not completed. -/
def InOrder (queue : Queue Thread) : Action Thread → Prop
  | .advance thread => ∀ task, queue.points thread = .setLastEvent task →
      ∀ later ∈ queue.returned, task < later → later < queue.completed
  | _ => True

/-! ## Answers that can be relied on -/

/-- The tasks have completed or are not younger than the event. -/
def Covers (completed : ℕ) (event : Option ℕ) (tasks : List ℕ) : Prop :=
  ∀ task ∈ tasks, task < completed ∨ ∃ last, event = some last ∧ task ≤ last

theorem Covers.mono {completed later : ℕ} {event : Option ℕ} {tasks : List ℕ}
    (covers : Covers completed event tasks) (le : completed ≤ later) :
    Covers later event tasks := by
  intro task member
  apply (covers task member).imp_left
  intro before
  exact Nat.lt_of_lt_of_le before le

/-- Once a covering event is complete, so are the tasks. -/
theorem Covers.all {completed : ℕ} {event : Option ℕ} {tasks : List ℕ}
    (covers : Covers completed event tasks) (complete : isComplete completed event = true) :
    ∀ task ∈ tasks, task < completed := by
  intro task member
  rcases covers task member with before | ⟨last, same, le⟩
  · exact before
  · rw [same] at complete
    exact Nat.lt_of_le_of_lt le (of_decide_eq_true complete)

/-- What a thread that is in `isQueueEmpty` relies on. -/
def Point.Sound (returned : List ℕ) (completed : ℕ) : Point → Prop
  | .idle => True
  | .setLastEvent _ => True
  | .getLastEvent before => before ⊆ returned
  | .getInfo before event => Covers completed event before

theorem Point.Sound.mono {point : Point} {returned further : List ℕ} {completed later : ℕ}
    (sound : point.Sound returned completed) (grows : returned ⊆ further)
    (le : completed ≤ later) : point.Sound further later := by
  cases point with
  | idle => trivial
  | setLastEvent _ => trivial
  | getLastEvent _ => exact List.Subset.trans sound grows
  | getInfo _ _ => exact Covers.mono sound le

/-- The invariant of a run that records in order. -/
structure Sound (queue : Queue Thread) : Prop where
  recorded : Covers queue.completed queue.lastEvent queue.returned
  points : ∀ thread, (queue.points thread).Sound queue.returned queue.completed
  answers : ∀ answer ∈ queue.answers, answer.Right

/-- The point of the thread that moves is sound, and those of the others stay so. -/
theorem points_goTo {queue next : Queue Thread} {thread : Thread} {point : Point}
    (points : ∀ other, (queue.points other).Sound queue.returned queue.completed)
    (grows : queue.returned ⊆ next.returned) (le : queue.completed ≤ next.completed)
    (moved : next.points = Function.update queue.points thread point)
    (sound : point.Sound next.returned next.completed) (other : Thread) :
    (next.points other).Sound next.returned next.completed := by
  rw [moved]
  by_cases same : other = thread
  · rw [same, Function.update_self]
    exact sound
  · rw [Function.update_of_ne same]
    exact (points other).mono grows le

theorem Sound.advance {queue next : Queue Thread} {thread : Thread} (sound : Sound queue)
    (inOrder : InOrder queue (.advance thread)) (taken : queue.advance thread = some next) :
    Sound next := by
  have own := sound.points thread
  unfold Queue.advance at taken
  cases at' : queue.points thread with
  | idle => simp [at'] at taken
  | setLastEvent task =>
      simp only [at', Option.some.injEq] at taken
      subst taken
      have grows : queue.returned ⊆ task :: queue.returned := List.subset_cons_self _ _
      refine ⟨fun earlier member => ?_, points_goTo sound.points grows (Nat.le_refl _) rfl trivial,
        sound.answers⟩
      -- what has returned before is not younger, or has completed
      rcases List.mem_cons.mp member with same | before
      · exact .inr ⟨task, rfl, Nat.le_of_eq same⟩
      · by_cases older : task < earlier
        · exact .inl (inOrder task at' earlier before older)
        · exact .inr ⟨task, rfl, Nat.le_of_not_lt older⟩
  | getLastEvent before =>
      rw [at'] at own
      simp only [at', Option.some.injEq] at taken
      subst taken
      refine ⟨sound.recorded, points_goTo sound.points (List.Subset.refl _) (Nat.le_refl _) rfl ?_,
        sound.answers⟩
      intro task member
      exact sound.recorded task (own member)
  | getInfo before event =>
      rw [at'] at own
      simp only [at', Option.some.injEq] at taken
      subst taken
      refine ⟨sound.recorded,
        points_goTo sound.points (List.Subset.refl _) (Nat.le_refl _) rfl trivial,
        fun answer member => ?_⟩
      rcases List.mem_cons.mp member with new | old
      · subst new
        intro empty
        exact Covers.all own empty
      · exact sound.answers answer old

/-- Every step that records in order keeps the invariant. -/
theorem Sound.step {queue next : Queue Thread} {action : Action Thread} (sound : Sound queue)
    (inOrder : InOrder queue action) (taken : step queue action = some next) : Sound next := by
  cases action with
  | enqueue thread =>
      obtain ⟨-, ⟨⟩⟩ := Option.ite_none_right_eq_some.mp taken
      exact ⟨sound.recorded,
        points_goTo sound.points (List.Subset.refl _) (Nat.le_refl _) rfl trivial,
        sound.answers⟩
  | isQueueEmpty thread =>
      obtain ⟨-, ⟨⟩⟩ := Option.ite_none_right_eq_some.mp taken
      exact ⟨sound.recorded,
        points_goTo sound.points (List.Subset.refl _) (Nat.le_refl _) rfl (List.Subset.refl _),
        sound.answers⟩
  | advance thread => exact sound.advance inOrder taken
  | complete =>
      obtain ⟨-, ⟨⟩⟩ := Option.ite_none_right_eq_some.mp taken
      exact ⟨sound.recorded.mono (Nat.le_succ _),
        fun thread => (sound.points thread).mono (List.Subset.refl _) (Nat.le_succ _),
        sound.answers⟩

omit [DecidableEq Thread] in
theorem sound_start : Sound ({} : Queue Thread) where
  recorded := fun _ member => absurd member List.not_mem_nil
  points := fun _ => trivial
  answers := fun _ member => absurd member List.not_mem_nil

/-! ## Wrong answers -/

/-- Tasks that are being recorded or have completed have been submitted. -/
structure Submitted (queue : Queue Thread) : Prop where
  recording : ∀ thread task, queue.points thread = .setLastEvent task → task < queue.submitted
  completed : queue.completed ≤ queue.submitted

omit [DecidableEq Thread] in
private theorem submitted_start : Submitted ({} : Queue Thread) where
  recording := fun _ _ => by rintro ⟨⟩
  completed := Nat.le_refl _

private theorem recording_goTo {queue next : Queue Thread} {thread : Thread} {point : Point}
    (submitted : Submitted queue) (le : queue.submitted ≤ next.submitted)
    (moved : next.points = Function.update queue.points thread point)
    (own : ∀ task, point = .setLastEvent task → task < next.submitted) (other : Thread) (task : ℕ)
    (recording : next.points other = .setLastEvent task) : task < next.submitted := by
  rw [moved] at recording
  by_cases same : other = thread
  · rw [same, Function.update_self] at recording
    exact own task recording
  · rw [Function.update_of_ne same] at recording
    exact Nat.lt_of_lt_of_le (submitted.recording other task recording) le

theorem Submitted.step {queue next : Queue Thread} {action : Action Thread}
    (submitted : Submitted queue) (taken : step queue action = some next) : Submitted next := by
  cases action with
  | enqueue thread =>
      obtain ⟨-, ⟨⟩⟩ := Option.ite_none_right_eq_some.mp taken
      refine ⟨recording_goTo submitted (Nat.le_succ _) rfl ?_,
        Nat.le_succ_of_le submitted.completed⟩
      intro task same
      cases same
      exact Nat.lt_succ_self _
  | isQueueEmpty thread =>
      obtain ⟨-, ⟨⟩⟩ := Option.ite_none_right_eq_some.mp taken
      exact ⟨recording_goTo submitted (Nat.le_refl _) rfl (by simp), submitted.completed⟩
  | advance thread =>
      unfold SyclQueue.step Queue.advance at taken
      cases at' : queue.points thread <;> simp only [at'] at taken <;> cases taken <;>
        exact ⟨recording_goTo submitted (Nat.le_refl _) rfl (by simp), submitted.completed⟩
  | complete =>
      obtain ⟨enough, ⟨⟩⟩ := Option.ite_none_right_eq_some.mp taken
      exact ⟨submitted.recording, enough⟩

/-- The queue was said to be empty although it was not. -/
def Wrong (queue : Queue Thread) : Prop :=
  ∃ answer ∈ queue.answers, ¬ answer.Right

/-- First, some more tasks complete. -/
theorem leads_complete {queue : Queue Thread} (count : ℕ)
    (enough : queue.completed + count ≤ queue.submitted)
    (rest : Leads (fun _ => True) step Wrong { queue with completed := queue.completed + count }) :
    Leads (fun _ => True) step Wrong queue := by
  induction count generalizing queue with
  | zero => exact rest
  | succ count ih =>
      have taken : step queue .complete = some { queue with completed := queue.completed + 1 } :=
        if_pos (by omega)
      apply Leads.next trivial taken
      apply ih
      · dsimp only
        omega
      · rw [Nat.add_right_comm, Nat.add_assoc]
        exact rest

/-- Then an idle thread asks whether the queue is empty. -/
theorem leads_isQueueEmpty {queue : Queue Thread} {thread : Thread} {task : ℕ}
    (idle : queue.points thread = .idle) (returned : task ∈ queue.returned)
    (incomplete : ¬ task < queue.completed)
    (complete : isComplete queue.completed queue.lastEvent = true) :
    Leads (fun _ => True) step Wrong queue := by
  have asks : step queue (.isQueueEmpty thread) =
      some (queue.goTo thread (.getLastEvent queue.returned)) := if_pos idle
  have reads : step (queue.goTo thread (.getLastEvent queue.returned)) (.advance thread) =
      some (queue.goTo thread (.getInfo queue.returned queue.lastEvent)) := by
    simp [step, Queue.advance, Queue.goTo]
  have answers : step (queue.goTo thread (.getInfo queue.returned queue.lastEvent))
      (.advance thread) = some ({ queue with
        answers := ⟨queue.returned, true, queue.completed⟩ :: queue.answers }.goTo thread
          .idle) := by
    simp [step, Queue.advance, Queue.goTo, complete]
  apply Leads.next trivial asks
  apply Leads.next trivial reads
  apply Leads.next trivial answers
  apply Leads.here
  exact ⟨_, .head _, fun right => incomplete (right rfl task returned)⟩

/-- A step that does not record in order leaves its thread free to get a wrong answer
once the task it has recorded completes. -/
theorem wrong_answer {queue next : Queue Thread} {action : Action Thread}
    (submitted : Submitted queue) (outOfOrder : ¬ InOrder queue action)
    (taken : step queue action = some next) : Leads (fun _ => True) step Wrong next := by
  cases action with
  | enqueue _ => exact absurd trivial outOfOrder
  | isQueueEmpty _ => exact absurd trivial outOfOrder
  | complete => exact absurd trivial outOfOrder
  | advance thread =>
      unfold InOrder at outOfOrder
      push Not at outOfOrder
      obtain ⟨task, recording, later, returned, older, incomplete⟩ := outOfOrder
      simp only [step, Queue.advance, recording, Option.some.injEq] at taken
      subst taken
      have bound := submitted.recording thread task recording
      have completed := submitted.completed
      apply leads_complete (task + 1 - queue.completed)
      · change queue.completed + _ ≤ queue.submitted
        omega
      · apply leads_isQueueEmpty (Function.update_self thread _ _)
          (List.mem_cons_of_mem task returned)
        · change ¬ later < queue.completed + _
          omega
        · apply decide_eq_true
          change task < queue.completed + _
          omega

/-- **Emptiness.** In a run in which every step records in order, a queue is said to
be empty only if all tasks have completed whose enqueue calls had returned before;
and the first step that does not can be continued to a wrong answer. -/
theorem empty_iff {queue : Queue Thread} (reached : ReachableBy InOrder step {} queue) :
    (∀ answer ∈ queue.answers, answer.Right) ∧
      ∀ action next, step queue action = some next → ¬ InOrder queue action →
        ∃ actions final, run step next actions = some final ∧
          ∃ answer ∈ final.answers, ¬ answer.Right := by
  have invariant : Sound queue ∧ Submitted queue := by
    induction reached with
    | start => exact ⟨sound_start, submitted_start⟩
    | step _ inOrder taken ih => exact ⟨ih.1.step inOrder taken, ih.2.step taken⟩
  refine ⟨invariant.1.answers, fun action next taken outOfOrder => ?_⟩
  obtain ⟨actions, final, -, runs, wrong⟩ := (wrong_answer invariant.2 outOfOrder taken).run
  exact ⟨actions, final, runs, wrong⟩

/-- The event of the first task is recorded after that of the second one. -/
theorem empty_lost :
    ¬ ∀ queue : Queue (Fin 2), Reachable step {} queue →
      ∀ answer ∈ queue.answers, answer.Right := by
  intro law
  have right := law _ ⟨[.enqueue 0, .enqueue 1, .advance 1, .advance 0, .complete,
    .isQueueEmpty 1, .advance 1, .advance 1], rfl⟩ _ (.head _)
  revert right
  decide

/-- Two threads submit a task each and record the events in the order of the tasks; the
queue is said to be empty once both tasks have completed. -/
theorem empty_twoTasks :
    ∃ queue : Queue (Fin 2), queue.answers = [⟨[1, 0], true, 2⟩] ∧
      ∀ answer ∈ queue.answers, answer.Right := by
  have next {queue next : Queue (Fin 2)} (action : Action (Fin 2))
      (reached : ReachableBy InOrder step {} queue) (inOrder : InOrder queue action)
      (taken : step queue action = some next) : ReachableBy InOrder step {} next :=
    reached.step inOrder taken
  have first := next (.enqueue 0) .start trivial rfl
  have second := next (.enqueue 1) first trivial rfl
  have records := next (.advance 0) second (fun _ _ _ => by rintro ⟨⟩) rfl
  have recordsNext := next (.advance 1) records (fun task recording later returned older => by
    obtain rfl : later = 0 := List.mem_singleton.mp returned
    exact absurd older (Nat.not_lt_zero task)) rfl
  have completes := next .complete recordsNext trivial rfl
  have both := next .complete completes trivial rfl
  have asks := next (.isQueueEmpty 0) both trivial rfl
  have reads := next (.advance 0) asks (by rintro _ ⟨⟩) rfl
  have answers := next (.advance 0) reads (by rintro _ ⟨⟩) rfl
  exact ⟨_, rfl, (empty_iff answers).1⟩

end Alpaka.SyclQueue
