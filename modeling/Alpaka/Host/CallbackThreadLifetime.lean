import Alpaka.Host.CallbackThread
import Alpaka.Math.Interleaving

/-! # A callback thread from its first task to its destruction

Any number of threads submit tasks, running tasks submit further ones, the worker sleeps
and is woken up, and the destructor stops and joins it. Tasks are run once and in order
whatever the interleaving, and none is left behind
(`Alpaka.CallbackThread.runs_everything`).

Once the destructor has begun, only code that the worker itself executes still uses the
object: another thread that did so would race with its destruction.
-/

namespace Alpaka.CallbackThread

open Math.Interleaving

variable {Task : Type*}

/-- How far the destructor is. -/
inductive Destructor
  | pending
  | stopping
  | joined
  | detached
  deriving DecidableEq

/-- The thread with its sleep and its end. What the tasks did and which of them have been
destroyed is kept as history. -/
structure Lifetime (Task : Type*) where
  thread : CallbackThread Task Unit := {}
  asleep : Bool := false
  destructor : Destructor := .pending
  outcomes : ℕ → Option Outcome := fun _ => none
  destroyed : List ℕ := []

/-- What can happen: calls of other threads, calls of a task while it is run or destroyed,
the steps of the worker, wake-ups without a reason, and the end of the running task. -/
inductive LifetimeAction (Task : Type*)
  | submit (task : Task)
  | submitInside (task : Task)
  | worker
  | wakeUp
  | finish (outcome : Outcome)
  | destruct
  | destructInside
  | join

namespace Lifetime

variable {life next : Lifetime Task}

/-- Tasks are executing user code while they are run and while they are destroyed. -/
def inUserCode : Worker Task Unit → Bool
  | .running _ _ | .popped _ _ => true
  | _ => false

/-- A task is appended under the lock, and the worker is notified. -/
def push (task : Task) (life : Lifetime Task) : Lifetime Task :=
  { life with thread := (life.thread.submit task).2, asleep := false }

/-- The destructor requests the stop under the lock, and notifies the worker. -/
def requestStop (destructor : Destructor) (life : Lifetime Task) : Lifetime Task :=
  { life with
    thread := { life.thread with stopRequested := true }
    asleep := false
    destructor := destructor }

/-- The task that the next step of the worker destroys. -/
def destroys : Worker Task Unit → List ℕ
  | .popped package _ => [package.promise]
  | _ => []

/-- The condition on which the worker waits. -/
def awaited (life : Lifetime Task) : Bool :=
  life.thread.stopRequested || !life.thread.tasks.isEmpty

/-- A step of the worker. It goes to sleep if it has nothing to wait for. -/
def workerStep (life : Lifetime Task) : Option (Lifetime Task) :=
  if life.asleep then none
  else
    match life.thread.worker, life.awaited with
    | .waiting, false => some { life with asleep := true }
    | worker, _ => (life.thread.advance ()).map fun thread =>
        { life with thread := thread, destroyed := life.destroyed ++ destroys worker }

/-- The running task returns or throws. -/
def finishTask (outcome : Outcome) (life : Lifetime Task) : Option (Lifetime Task) :=
  match life.thread.worker with
  | .running package _ => some { life with
      thread := life.thread.finish package outcome
      outcomes := Function.update life.outcomes package.promise (some outcome) }
  | _ => none

/-- There is nothing to wait for in a join: no thread, or one that has ended. -/
def hasEnded : Worker Task Unit → Bool
  | .absent | .exited => true
  | _ => false

def step (life : Lifetime Task) : LifetimeAction Task → Option (Lifetime Task)
  | .submit task => if life.destructor = .pending then some (life.push task) else none
  | .submitInside task =>
      if inUserCode life.thread.worker ∧ (life.destructor = .pending ∨ life.destructor = .stopping)
      then some (life.push task) else none
  | .worker => life.workerStep
  | .wakeUp => if life.asleep then some { life with asleep := false } else none
  | .finish outcome => life.finishTask outcome
  | .destruct => if life.destructor = .pending then some (life.requestStop .stopping) else none
  | .destructInside =>
      if inUserCode life.thread.worker ∧ life.destructor = .pending
      then some (life.requestStop .detached) else none
  | .join =>
      if life.destructor = .stopping ∧ hasEnded life.thread.worker
      then some { life with destructor := .joined } else none

/-! ## Invariants -/

/-- Who sleeps, who has ended, and why. -/
structure Controlled (life : Lifetime Task) : Prop where
  asleep : life.asleep = true → life.thread.worker = .waiting ∧ life.awaited = false
  exited : life.thread.worker = .exited → life.thread.tasks = [] ∧ life.thread.stopRequested = true
  stopRequested : life.thread.stopRequested = true → life.destructor ≠ .pending
  joined : life.destructor = .joined → hasEnded life.thread.worker = true

/-- What the futures hold, and what has been destroyed before. -/
structure Recorded (life : Lifetime Task) : Prop where
  outcomes : ∀ promise, (life.outcomes promise).isSome ↔ promise ∈ life.thread.finished
  ran : ∀ package outcome, life.thread.worker = .ran package outcome ∨
    life.thread.worker = .popped package outcome → life.outcomes package.promise = some outcome
  held : ∀ promise outcome, life.thread.worker = .destroyed promise outcome →
    life.outcomes promise = some outcome ∧ promise ∈ life.destroyed
  fulfilled : ∀ promise outcome, life.thread.fulfilled promise = some outcome →
    life.outcomes promise = some outcome ∧ promise ∈ life.destroyed
  destroyed : ∀ promise ∈ life.destroyed, promise ∈ life.thread.finished

private theorem controlled_initial : ({} : Lifetime Task).Controlled where
  asleep := fun impossible => nomatch impossible
  exited := fun impossible => nomatch impossible
  stopRequested := fun impossible => nomatch impossible
  joined := fun impossible => nomatch impossible

private theorem recorded_initial : ({} : Lifetime Task).Recorded where
  outcomes := fun _ => iff_of_false (fun impossible => nomatch impossible) List.not_mem_nil
  ran := fun _ _ impossible => by obtain impossible | impossible := impossible <;> cases impossible
  held := fun _ _ impossible => nomatch impossible
  fulfilled := fun _ _ impossible => nomatch impossible
  destroyed := fun _ member => absurd member List.not_mem_nil

/-- The worker holds the result of a task. -/
def holdsResult : Worker Task Unit → Bool
  | .ran _ _ | .popped _ _ | .destroyed _ _ => true
  | _ => false

/-- Steps that leave the records alone. -/
theorem Recorded.quiet (recorded : life.Recorded)
    (finished : next.thread.finished = life.thread.finished)
    (fulfilled : next.thread.fulfilled = life.thread.fulfilled)
    (outcomes : next.outcomes = life.outcomes) (destroyed : next.destroyed = life.destroyed)
    (worker : next.thread.worker = life.thread.worker ∨ holdsResult next.thread.worker = false) :
    next.Recorded where
  outcomes := by
    rw [outcomes, finished]
    exact recorded.outcomes
  ran := fun package outcome at_ => by
    obtain same | quiet := worker
    · rw [outcomes]
      rw [same] at at_
      exact recorded.ran package outcome at_
    · obtain at_ | at_ := at_ <;> rw [at_] at quiet <;> cases quiet
  held := fun promise outcome at_ => by
    obtain same | quiet := worker
    · rw [outcomes, destroyed]
      rw [same] at at_
      exact recorded.held promise outcome at_
    · rw [at_] at quiet
      cases quiet
  fulfilled := by
    rw [fulfilled, outcomes, destroyed]
    exact recorded.fulfilled
  destroyed := by
    rw [destroyed, finished]
    exact recorded.destroyed

private theorem worker_push (life : Lifetime Task) (task : Task) :
    (life.push task).thread.worker = life.thread.worker ∨
      holdsResult (life.push task).thread.worker = false := by
  obtain same | ⟨_, waiting⟩ := worker_submit life.thread task
  · exact .inl same
  · refine .inr ?_
    change holdsResult (life.thread.submit task).2.worker = false
    rw [waiting]
    rfl

theorem Recorded.push (recorded : life.Recorded) (task : Task) : (life.push task).Recorded :=
  recorded.quiet rfl rfl rfl rfl (worker_push life task)

/-- A task that is being run has not returned. -/
theorem Recorded.finishTask (recorded : life.Recorded) (ordered : life.thread.Ordered)
    {outcome : Outcome} (stepped : life.finishTask outcome = some next) : next.Recorded := by
  unfold Lifetime.finishTask at stepped
  split at stepped
  case h_2 => cases stepped
  case h_1 package point working =>
    cases stepped
    have fresh : package.promise ∉ life.thread.finished := (ordered.running working).2.2
    have other {promise : ℕ} (member : promise ∈ life.thread.finished) :
        Function.update life.outcomes package.promise (some outcome) promise =
          life.outcomes promise :=
      Function.update_of_ne (ne_of_mem_of_not_mem member fresh) _ _
    have old {promise : ℕ} {past : Outcome} (known : life.outcomes promise = some past) :
        Function.update life.outcomes package.promise (some outcome) promise = some past :=
      (other ((recorded.outcomes promise).mp (known ▸ rfl))).trans known
    refine ⟨fun promise => ?_, fun current past at_ => ?_,
      fun _ _ impossible => (nomatch impossible), fun promise past ready => ?_,
      fun promise member => ?_⟩
    · simp only [finish, List.mem_append, List.mem_singleton, Function.update_apply]
      by_cases same : promise = package.promise
      · rw [if_pos same]
        exact iff_of_true rfl (.inr same)
      · rw [if_neg same, recorded.outcomes promise]
        exact ⟨.inl, fun member => member.resolve_right same⟩
    · obtain at_ | at_ := at_
      · cases at_
        exact Function.update_self _ _ _
      · cases at_
    · obtain ⟨known, gone⟩ := recorded.fulfilled promise past ready
      exact ⟨old known, gone⟩
    · exact List.mem_append_left _ (recorded.destroyed promise member)

/-- The worker keeps the records. -/
theorem Recorded.workerStep (recorded : life.Recorded)
    (stepped : life.workerStep = some next) : next.Recorded := by
  unfold Lifetime.workerStep at stepped
  split at stepped
  case isTrue => cases stepped
  case isFalse =>
    split at stepped
    case h_1 =>
      cases stepped
      exact recorded.quiet rfl rfl rfl rfl (.inl rfl)
    case h_2 =>
      obtain ⟨thread, advanced, rfl⟩ := Option.map_eq_some_iff.mp stepped
      obtain ⟨package, rest, working, -, rfl⟩ | ⟨working, -, -, rfl⟩ | ⟨package, working, rfl⟩ |
        ⟨package, outcome, working, rfl⟩ | ⟨package, outcome, working, rfl⟩ |
        ⟨promise, outcome, working, rfl⟩ := advance_cases advanced
      · exact recorded.quiet rfl rfl rfl (by rw [working]; exact List.append_nil _) (.inr rfl)
      · exact recorded.quiet rfl rfl rfl (by rw [working]; exact List.append_nil _) (.inr rfl)
      · exact recorded.quiet rfl rfl rfl (by rw [working]; exact List.append_nil _) (.inr rfl)
      · refine ⟨recorded.outcomes, fun current past at_ => ?_,
          fun _ _ impossible => (nomatch impossible), fun promise past ready => ?_,
          fun promise member => ?_⟩
        · obtain at_ | at_ := at_
          · cases at_
          · cases at_
            exact recorded.ran package outcome (.inl working)
        · obtain ⟨known, gone⟩ := recorded.fulfilled promise past ready
          exact ⟨known, List.mem_append_left _ gone⟩
        · rw [working] at member
          exact recorded.destroyed promise (by simpa only [destroys, List.append_nil] using member)
      · have known := recorded.ran package outcome (.inr working)
        refine ⟨recorded.outcomes, fun current past at_ => ?_, fun promise past at_ => ?_,
          fun promise past ready => ?_, fun promise member => ?_⟩
        · obtain at_ | at_ := at_ <;> cases at_
        · cases at_
          rw [working]
          exact ⟨known, List.mem_append_right _ (List.mem_singleton_self _)⟩
        · obtain ⟨past, gone⟩ := recorded.fulfilled promise past ready
          exact ⟨past, List.mem_append_left _ gone⟩
        · rw [working] at member
          obtain old | here := List.mem_append.mp member
          · exact recorded.destroyed promise old
          · rw [List.mem_singleton.mp here]
            exact (recorded.outcomes _).mp (known ▸ rfl)
      · have held := recorded.held promise outcome working
        rw [working]
        refine ⟨recorded.outcomes, fun current past at_ => ?_,
          fun _ _ impossible => (nomatch impossible), fun other past ready => ?_,
          fun other member => ?_⟩
        · obtain at_ | at_ := at_ <;> cases at_
        · simp only [Function.update_apply] at ready
          simp only [destroys, List.append_nil]
          split at ready
          case isTrue same =>
            cases ready
            exact same ▸ held
          case isFalse => exact recorded.fulfilled other past ready
        · exact recorded.destroyed other
            (by simpa only [destroys, List.append_nil] using member)

/-- Code of a user is executed by a worker that has not ended and does not sleep. -/
theorem Controlled.push (controlled : life.Controlled) (task : Task)
    (present : life.thread.worker ≠ .exited)
    (unjoined : life.destructor ≠ .joined) : (life.push task).Controlled where
  asleep := fun impossible => nomatch impossible
  exited := fun at_ => by
    obtain same | ⟨_, waiting⟩ := worker_submit life.thread task
    · exact absurd (same.symm.trans at_) present
    · exact nomatch waiting.symm.trans at_
  stopRequested := controlled.stopRequested
  joined := fun at_ => absurd at_ unjoined

theorem Controlled.requestStop (controlled : life.Controlled) {destructor : Destructor}
    (begun : destructor ≠ .pending) (unjoined : destructor ≠ .joined) :
    (life.requestStop destructor).Controlled where
  asleep := fun impossible => nomatch impossible
  exited := fun at_ => ⟨(controlled.exited at_).1, rfl⟩
  stopRequested := fun _ => begun
  joined := fun at_ => absurd at_ unjoined

/-- The worker ends only when there is nothing left. -/
theorem Controlled.workerStep (controlled : life.Controlled)
    (stepped : life.workerStep = some next) : next.Controlled := by
  unfold Lifetime.workerStep at stepped
  split at stepped
  case isTrue => cases stepped
  case isFalse awake =>
    split at stepped
    case h_1 working unawaited =>
      cases stepped
      exact ⟨fun _ => ⟨working, unawaited⟩, controlled.exited, controlled.stopRequested,
        controlled.joined⟩
    case h_2 =>
      obtain ⟨thread, advanced, rfl⟩ := Option.map_eq_some_iff.mp stepped
      have unjoined : life.destructor ≠ .joined ∨ hasEnded life.thread.worker = true := by
        by_cases joined : life.destructor = .joined
        · exact .inr (controlled.joined joined)
        · exact .inl joined
      have asleep (woken : life.asleep = true) : False := awake woken
      obtain ⟨package, rest, working, -, rfl⟩ | ⟨working, empty, stop, rfl⟩ |
        ⟨package, working, rfl⟩ | ⟨package, outcome, working, rfl⟩ |
        ⟨package, outcome, working, rfl⟩ | ⟨promise, outcome, working, rfl⟩ :=
          advance_cases advanced
      case inr.inl =>
        exact ⟨fun woken => (asleep woken).elim, fun _ => ⟨empty, stop⟩, controlled.stopRequested,
          fun _ => rfl⟩
      all_goals
        exact ⟨fun woken => (asleep woken).elim, fun impossible => (nomatch impossible),
          controlled.stopRequested, fun joined => by
            obtain unjoined | ended := unjoined
            · exact absurd joined unjoined
            · rw [working] at ended
              cases ended⟩

private theorem of_guard {condition : Prop} [Decidable condition] {result : Lifetime Task}
    (stepped : (if condition then some result else none) = some next) :
    condition ∧ result = next := by
  split at stepped
  case isTrue holds => exact ⟨holds, Option.some.inj stepped⟩
  case isFalse => cases stepped

/-- What holds of a thread at any time. -/
structure Valid (life : Lifetime Task) : Prop where
  ordered : life.thread.Ordered
  controlled : life.Controlled
  recorded : life.Recorded

private theorem valid_initial : ({} : Lifetime Task).Valid :=
  ⟨ordered_initial, controlled_initial, recorded_initial⟩

theorem Valid.requestStop (valid : life.Valid) {destructor : Destructor}
    (begun : destructor ≠ .pending) (unjoined : destructor ≠ .joined) :
    (life.requestStop destructor).Valid :=
  ⟨valid.ordered.requestStop, valid.controlled.requestStop begun unjoined,
    valid.recorded.quiet rfl rfl rfl rfl (.inl rfl)⟩

theorem Valid.workerStep (valid : life.Valid) (stepped : life.workerStep = some next) :
    next.Valid := by
  refine ⟨?_, valid.controlled.workerStep stepped, valid.recorded.workerStep stepped⟩
  unfold Lifetime.workerStep at stepped
  split at stepped
  case isTrue => cases stepped
  case isFalse =>
    split at stepped
    case h_1 =>
      cases stepped
      exact valid.ordered
    case h_2 =>
      obtain ⟨thread, advanced, rfl⟩ := Option.map_eq_some_iff.mp stepped
      obtain ⟨done, inOrder⟩ := valid.ordered
      exact inOrder.advance advanced

theorem Valid.finishTask (valid : life.Valid) {outcome : Outcome}
    (stepped : life.finishTask outcome = some next) : next.Valid := by
  have recorded := valid.recorded.finishTask valid.ordered stepped
  unfold Lifetime.finishTask at stepped
  split at stepped
  case h_2 => cases stepped
  case h_1 package point working =>
    cases stepped
    obtain ⟨done, inOrder⟩ := valid.ordered
    refine ⟨inOrder.finish working outcome,
      ⟨fun woken => ?_, fun impossible => (nomatch impossible),
        valid.controlled.stopRequested, fun joined => ?_⟩, recorded⟩
    · have waiting := (valid.controlled.asleep woken).1
      rw [working] at waiting
      cases waiting
    · have ended := valid.controlled.joined joined
      rw [working] at ended
      cases ended

/-- Every action keeps what holds of a thread. -/
theorem Valid.step (valid : life.Valid) {action : LifetimeAction Task}
    (stepped : life.step action = some next) : next.Valid := by
  cases action with
  | submit task =>
      obtain ⟨pending, rfl⟩ := of_guard stepped
      have unended : life.thread.worker ≠ .exited := fun ended =>
        valid.controlled.stopRequested (valid.controlled.exited ended).2 pending
      exact ⟨valid.ordered.submit task,
        valid.controlled.push task unended (by rw [pending]; exact Destructor.noConfusion),
        valid.recorded.push task⟩
  | submitInside task =>
      obtain ⟨⟨inside, begun⟩, rfl⟩ := of_guard stepped
      have unended : life.thread.worker ≠ .exited := fun ended => by
        rw [ended] at inside
        cases inside
      have unjoined : life.destructor ≠ .joined := fun joined => by
        rw [joined] at begun
        obtain impossible | impossible := begun <;> cases impossible
      exact ⟨valid.ordered.submit task, valid.controlled.push task unended unjoined,
        valid.recorded.push task⟩
  | worker => exact valid.workerStep stepped
  | wakeUp =>
      obtain ⟨-, rfl⟩ := of_guard stepped
      exact ⟨valid.ordered, ⟨fun impossible => (nomatch impossible), valid.controlled.exited,
        valid.controlled.stopRequested, valid.controlled.joined⟩,
        valid.recorded.quiet rfl rfl rfl rfl (.inl rfl)⟩
  | finish outcome => exact valid.finishTask stepped
  | destruct =>
      obtain ⟨-, rfl⟩ := of_guard stepped
      exact valid.requestStop Destructor.noConfusion Destructor.noConfusion
  | destructInside =>
      obtain ⟨-, rfl⟩ := of_guard stepped
      exact valid.requestStop Destructor.noConfusion Destructor.noConfusion
  | join =>
      obtain ⟨⟨-, ended⟩, rfl⟩ := of_guard stepped
      exact ⟨valid.ordered, ⟨valid.controlled.asleep, valid.controlled.exited,
        fun _ => Destructor.noConfusion, fun _ => ended⟩,
        valid.recorded.quiet rfl rfl rfl rfl (.inl rfl)⟩

private theorem valid_reachable (reachable : Reachable step {} life) : life.Valid :=
  reachable.induction valid_initial fun _ _ _ valid stepped => valid.step stepped

/-! ## Later tasks still run -/

/-- Steps that the worker takes whatever the other threads do. -/
def ofWorker : LifetimeAction Task → Bool
  | .worker | .finish _ => true
  | _ => false

/-- The tasks that had no outcome have got the given one or still none. -/
def Settled (outcome : ℕ → Outcome) (life next : Lifetime Task) : Prop :=
  ∀ promise, next.outcomes promise = life.outcomes promise ∨
    life.outcomes promise = none ∧ next.outcomes promise = some (outcome promise)

theorem Settled.trans {outcome : ℕ → Outcome} {last : Lifetime Task}
    (first : Settled outcome life next) (second : Settled outcome next last) :
    Settled outcome life last := fun promise => by
  rcases first promise with same | ⟨fresh, ended⟩
  · rcases second promise with same' | ⟨fresh, ended⟩
    · exact .inl (same'.trans same)
    · exact .inr ⟨same.symm.trans fresh, ended⟩
  · rcases second promise with same' | ⟨fresh', _⟩
    · exact .inr ⟨fresh, same'.trans ended⟩
    · rw [ended] at fresh'
      cases fresh'

/-- A worker that can go on is neither asleep nor about to sleep. -/
private theorem Valid.worker_enabled (valid : life.Valid) {thread : CallbackThread Task Unit}
    (work : life.thread.tasks = [] → takenCount life.thread.worker ≠ 0)
    (advanced : life.thread.advance () = some thread) :
    life.step .worker = some { life with
      thread := thread, destroyed := life.destroyed ++ destroys life.thread.worker } := by
  have awaited (waiting : life.thread.worker = .waiting) : life.awaited = true := by
    have some_ : life.thread.tasks ≠ [] := fun empty => work empty (by rw [waiting]; rfl)
    unfold awaited
    rw [List.isEmpty_eq_false_iff.mpr some_]
    exact Bool.or_true _
  have awake : life.asleep = false := Bool.eq_false_iff.mpr fun woken => by
    obtain ⟨waiting, unawaited⟩ := valid.controlled.asleep woken
    rw [awaited waiting] at unawaited
    cases unawaited
  change life.workerStep = _
  unfold Lifetime.workerStep
  rw [awake, advanced]
  split
  case isTrue impossible => cases impossible
  case isFalse =>
    split
    case h_1 waiting unawaited =>
      rw [awaited waiting] at unawaited
      cases unawaited
    case h_2 => rfl

/-- As long as there is work, the worker goes on. -/
theorem Valid.advances (valid : life.Valid) (outcome : ℕ → Outcome) {promise : ℕ}
    (submitted : promise < life.thread.submitted.length)
    (unfulfilled : life.thread.fulfilled promise = none) :
    ∃ action next, ofWorker action = true ∧ life.step action = some next ∧
      next.thread.remaining < life.thread.remaining ∧
      next.thread.submitted = life.thread.submitted ∧ Settled outcome life next := by
  have work (empty : life.thread.tasks = []) : takenCount life.thread.worker ≠ 0 := fun idle => by
    have ready := valid.ordered.fulfilled_of_isEmpty empty idle submitted
    rw [unfulfilled] at ready
    cases ready
  by_cases running : ∃ package point, life.thread.worker = .running package point
  · obtain ⟨package, point, working⟩ := running
    have finished : life.finishTask (outcome package.promise) = some { life with
        thread := life.thread.finish package (outcome package.promise)
        outcomes := Function.update life.outcomes package.promise
          (some (outcome package.promise)) } := by
      unfold Lifetime.finishTask
      rw [working]
    refine ⟨.finish (outcome package.promise), _, rfl, finished, ?_, rfl, fun other => ?_⟩
    · unfold remaining
      rw [working]
      exact Nat.add_lt_add_left (Nat.lt_succ_self 3) _
    · by_cases same : other = package.promise
      · have fresh : life.outcomes other = none := Option.not_isSome_iff_eq_none.mp fun known =>
          (valid.ordered.running working).2.2 (same ▸ (valid.recorded.outcomes other).mp known)
        refine .inr ⟨fresh, ?_⟩
        rw [same]
        exact Function.update_self _ _ _
      · exact .inl (Function.update_of_ne same _ _)
  · have unended : life.thread.worker ≠ .exited := fun ended =>
      work (valid.controlled.exited ended).1 (by rw [ended]; rfl)
    obtain ⟨thread, advanced, fewer⟩ := valid.ordered.advances () work unended
      fun package point working => running ⟨package, point, working⟩
    exact ⟨.worker, _, rfl, valid.worker_enabled work advanced, fewer,
      (advance_history advanced).2.1, fun _ => .inl rfl⟩

/-- **Drained.** However the remaining tasks end, the worker runs them all. -/
theorem Valid.drains (valid : life.Valid) (outcome : ℕ → Outcome) :
    ∃ actions, (∀ action ∈ actions, ofWorker action = true) ∧ ∃ last,
      run Lifetime.step life actions = some last ∧
      last.thread.submitted = life.thread.submitted ∧
      ∀ promise < life.thread.submitted.length, last.thread.fulfilled promise =
        some ((life.outcomes promise).getD (outcome promise)) := by
  have settles (count : ℕ) : ∀ life : Lifetime Task, life.Valid → life.thread.remaining < count →
      ∃ actions, (∀ action ∈ actions, ofWorker action = true) ∧ ∃ last : Lifetime Task,
        last.Valid ∧ run Lifetime.step life actions = some last ∧
        last.thread.submitted = life.thread.submitted ∧ Settled outcome life last ∧
        ∀ promise < life.thread.submitted.length, last.thread.fulfilled promise ≠ none := by
    induction count with
    | zero => exact fun _ _ below => absurd below (Nat.not_lt_zero _)
    | succ count ih =>
        intro life valid below
        by_cases left : ∃ promise < life.thread.submitted.length,
          life.thread.fulfilled promise = none
        · obtain ⟨promise, submitted, unfulfilled⟩ := left
          obtain ⟨action, next, own, stepped, fewer, same, settled⟩ :=
            valid.advances outcome submitted unfulfilled
          obtain ⟨actions, others, last, valid', reached, same', settled', all⟩ :=
            ih next (valid.step stepped) (by omega)
          refine ⟨action :: actions, List.forall_mem_cons.mpr ⟨own, others⟩, last, valid', ?_,
            same'.trans same, settled.trans settled', same ▸ all⟩
          unfold run
          rw [List.foldlM_cons, stepped]
          exact reached
        · exact ⟨[], fun _ member => absurd member List.not_mem_nil, life, valid, rfl, rfl,
            fun _ => .inl rfl, fun promise submitted unfulfilled =>
              left ⟨promise, submitted, unfulfilled⟩⟩
  obtain ⟨actions, own, last, valid', reached, same, settled, all⟩ :=
    settles _ life valid (Nat.lt_succ_self _)
  refine ⟨actions, own, last, reached, same, fun promise submitted => ?_⟩
  obtain ⟨result, ready⟩ := Option.ne_none_iff_exists'.mp (all promise submitted)
  have known := (valid'.recorded.fulfilled promise result ready).1
  rw [ready]
  rcases settled promise with unchanged | ⟨fresh, ended⟩
  · rw [← unchanged, known]
    rfl
  · rw [fresh, ← known, ended]
    rfl

/-! ## Everything once, in order -/

/-- What the users of a callback thread rely on. -/
structure Sound (life : Lifetime Task) : Prop where
  /-- Tasks are started in the order of their submission, each of them once, and the one
  before has returned. -/
  inOrder : ∃ finished started, finished ≤ started ∧ started ≤ finished + 1 ∧
    started ≤ life.thread.submitted.length ∧
    life.thread.finished = List.range finished ∧ life.thread.started = List.range started
  /-- What is run is what was submitted. -/
  running : ∀ package point, life.thread.worker = .running package point →
    life.thread.submitted[package.promise]? = some package.task
  /-- A future is ready after its task has been destroyed … -/
  destroyed : ∀ promise, (life.thread.fulfilled promise).isSome → promise ∈ life.destroyed
  destroyedAfter : ∀ promise ∈ life.destroyed, promise ∈ life.thread.finished
  /-- … and holds what this task has done. -/
  outcome : ∀ promise outcome, life.thread.fulfilled promise = some outcome →
    life.outcomes promise = some outcome
  outcomes : ∀ promise, (life.outcomes promise).isSome ↔ promise ∈ life.thread.finished
  /-- When the queue is empty, everything has been run. -/
  isEmpty : life.thread.isEmpty = true →
    ∀ promise < life.thread.submitted.length, promise ∈ life.thread.finished
  /-- After the join too, and all futures are ready. -/
  joined : life.destructor = .joined → ∀ promise < life.thread.submitted.length,
    promise ∈ life.thread.finished ∧ (life.thread.fulfilled promise).isSome
  /-- The worker gets through all tasks, whether they return or throw. -/
  drains : ∀ outcome : ℕ → Outcome, ∃ actions, (∀ action ∈ actions, ofWorker action = true) ∧
    ∃ last, run Lifetime.step life actions = some last ∧
      last.thread.submitted = life.thread.submitted ∧
      ∀ promise < life.thread.submitted.length, last.thread.fulfilled promise =
        some ((life.outcomes promise).getD (outcome promise))

end Lifetime

open Lifetime

/-- **Everything once, in order.** Whatever the interleaving. -/
theorem runs_everything {life : Lifetime Task} (reachable : Reachable Lifetime.step {} life) :
    life.Sound := by
  have valid := valid_reachable reachable
  refine ⟨?_, fun package point working => (valid.ordered.running working).1,
    fun promise ready => ?_, valid.recorded.destroyed,
    fun promise outcome ready => (valid.recorded.fulfilled promise outcome ready).1,
    valid.recorded.outcomes, fun empty promise submitted =>
      valid.ordered.finished_of_isEmpty (List.isEmpty_iff.mp empty) submitted,
    fun joined promise submitted => ?_, valid.drains⟩
  · obtain ⟨done, inOrder⟩ := valid.ordered
    have bound := inOrder.bound
    refine ⟨_, _, ?_, ?_, ?_, inOrder.finished, inOrder.started⟩ <;>
      cases working : life.thread.worker <;> rw [working] at bound <;>
        simp only [takenCount, startedCount, finishedCount] at bound ⊢ <;> omega
  · obtain ⟨outcome, known⟩ := Option.isSome_iff_exists.mp ready
    exact (valid.recorded.fulfilled promise outcome known).2
  · have ended := valid.controlled.joined joined
    cases working : life.thread.worker with
    | absent =>
        obtain ⟨done, inOrder⟩ := valid.ordered
        rw [inOrder.absent working] at submitted
        exact absurd submitted (Nat.not_lt_zero promise)
    | exited =>
        have empty := (valid.controlled.exited working).1
        exact ⟨valid.ordered.finished_of_isEmpty empty submitted,
          valid.ordered.fulfilled_of_isEmpty empty (by rw [working]; rfl) submitted⟩
    | _ =>
        rw [working] at ended
        cases ended

/-- A task submits a second one and throws while the destructor is already waiting. -/
private def submitAndThrow : List (LifetimeAction String) :=
  [.submit "first", .worker, .worker, .destruct, .submitInside "second", .finish .exception,
    .worker, .worker, .worker, .worker, .worker, .finish .value, .worker, .worker, .worker,
    .worker, .join]

private theorem submitAndThrow_runs :
    (run Lifetime.step {} submitAndThrow).map (fun life => (life.destructor, life.thread.started)) =
      some (.joined, [0, 1]) := by decide

theorem runs_everything_submitAndThrow : ∃ life : Lifetime String,
    life.destructor = .joined ∧ life.thread.started = [0, 1] ∧ life.Sound := by
  obtain ⟨life, reached, same⟩ := Option.map_eq_some_iff.mp submitAndThrow_runs
  obtain ⟨joined, started⟩ := Prod.mk.inj same
  exact ⟨life, joined, started, runs_everything ⟨submitAndThrow, reached⟩⟩

end Alpaka.CallbackThread
