import Alpaka.Host.CpuDevice

/-! # What the queues of a device account for

The references to a queue, the acquisitions of its mutex and the depth of its blocking
tasks are what the frames of the threads say (`Alpaka.CpuQueue.Accounted`). A queue is told
to stop only after its last reference has gone, and destroyed only after its callback
thread has done everything (`Alpaka.CpuQueue.Orderly`).
-/

namespace Alpaka

open Math Math.Stacks

/-! ## What a frame has -/

/-- The queue that a frame holds a reference to. -/
def Frame.user : Frame → Option ℕ
  | .makeQueueEmplace name | .submit name | .submitLock name _ | .submitEnter name _
  | .submitExecute name _ _ | .submitUnlock name _ | .deferredLock name | .deferredSubmit name
  | .deferredUnlock name | .waitCheck name _ | .waitSubmit name _ | .waitFuture name _ _
  | .release name _ => some name
  | _ => none

/-- The queue whose mutex a frame has acquired. -/
def Frame.locker : Frame → Option ℕ
  | .submitEnter name _ | .submitExecute name _ _ | .submitUnlock name _ | .deferredSubmit name
  | .deferredUnlock name => some name
  | _ => none

/-- The queue of the task that a frame executes. -/
def Frame.executor : Frame → Option ℕ
  | .submitExecute name _ _ => some name
  | _ => none

def Frame.uses (name : ℕ) (frame : Frame) : Bool := frame.user = some name

def Frame.locks (name : ℕ) (frame : Frame) : Bool := frame.locker = some name

def Frame.executes (name : ℕ) (frame : Frame) : Bool := frame.executor = some name

/-- Whoever executes a task has the mutex … -/
theorem Frame.locks_of_executes {name : ℕ} {frame : Frame} (executes : frame.executes name) :
    frame.locks name := by
  cases frame with
  | submitExecute => exact executes
  | _ => cases executes

/-- … and a reference. -/
theorem Frame.uses_of_locks {name : ℕ} {frame : Frame} (locks : frame.locks name) :
    frame.uses name := by
  cases frame with
  | submitEnter | submitExecute | submitUnlock | deferredSubmit | deferredUnlock => exact locks
  | _ => cases locks

/-- Frames that use no queue but one. -/
def Only (name : ℕ) (frames : List Frame) : Prop :=
  ∀ frame ∈ frames, frame.user = none ∨ frame.user = some name

/-- How many of the frames hold a reference to a queue, have acquired its mutex and execute
one of its tasks. -/
structure FrameCounts where
  uses : ℕ
  locks : ℕ
  executes : ℕ

def frameCounts (name : ℕ) (frames : List Frame) : FrameCounts :=
  ⟨frames.countP (Frame.uses name), frames.countP (Frame.locks name),
    frames.countP (Frame.executes name)⟩

theorem frameCounts_zero {name : ℕ} {frames : List Frame}
    (unused : ∀ frame ∈ frames, frame.uses name = false) : frameCounts name frames = ⟨0, 0, 0⟩ := by
  have uses : frames.countP (Frame.uses name) = 0 :=
    List.countP_eq_zero.mpr fun frame member => by
      rw [unused frame member]
      exact Bool.false_ne_true
  have locks : frames.countP (Frame.locks name) = 0 :=
    Nat.eq_zero_of_le_zero (uses ▸ List.countP_mono_left fun _ _ => Frame.uses_of_locks)
  have executes : frames.countP (Frame.executes name) = 0 :=
    Nat.eq_zero_of_le_zero (locks ▸ List.countP_mono_left fun _ _ => Frame.locks_of_executes)
  rw [frameCounts, uses, locks, executes]

theorem Only.frameCounts {name other : ℕ} {frames : List Frame} (only : Only name frames)
    (different : other ≠ name) : frameCounts other frames = ⟨0, 0, 0⟩ := by
  refine frameCounts_zero fun frame member => ?_
  refine decide_eq_false fun same => ?_
  obtain unused | used := only frame member
  · cases unused.symm.trans same
  · exact different (Option.some.inj (used.symm.trans same)).symm

namespace CpuQueue

variable {Thread : Type*} [DecidableEq Thread] {queue : CpuQueue Thread} {name : ℕ}
  {threads : Thread → List Frame} {thread : Thread} {old new below : List Frame}

/-- The depth of the tasks that a thread executes. -/
def depthOf (queue : CpuQueue Thread) (thread : Thread) : ℕ :=
  if queue.mutex.owner = some thread then queue.blockingTaskExecutionDepth else 0

/-- The references, the acquisitions and the depth are those of the frames. -/
structure Accounted (queue : CpuQueue Thread) (name : ℕ) (threads : Thread → List Frame) :
    Prop where
  holders : Accounts (Frame.uses name) threads queue.holders.count
  mutex : Accounts (Frame.locks name) threads queue.mutex.count
  depth : Accounts (Frame.executes name) threads queue.depthOf
  free : queue.mutex.owner = none → queue.blockingTaskExecutionDepth = 0

/-- What an action of a thread does to a queue, with what the topmost frames have of it
before and after. A fresh queue can only be created. -/
inductive Effect (thread : Thread) (fresh made : Prop) :
    FrameCounts → FrameCounts → CpuQueue Thread → CpuQueue Thread → Prop
  | keep (counts : FrameCounts) (queue : CpuQueue Thread) :
      Effect thread fresh made counts counts queue queue
  | setHandles (queue : CpuQueue Thread) (handles : ℕ) (live : ¬ queue.Expired) :
      Effect thread fresh made ⟨0, 0, 0⟩ ⟨0, 0, 0⟩ queue { queue with handles }
  | create (idx : ℕ) (isBlocking : Bool) (new : fresh) (now : made) :
      Effect thread fresh made ⟨0, 0, 0⟩ ⟨1, 0, 0⟩ {} { idx, isBlocking, holders := [thread] }
  | handOut (queue : CpuQueue Thread) :
      Effect thread fresh made ⟨1, 0, 0⟩ ⟨0, 0, 0⟩ queue (queue.handOut thread)
  | hold (queue : CpuQueue Thread) (live : ¬ queue.Expired) :
      Effect thread fresh made ⟨0, 0, 0⟩ ⟨1, 0, 0⟩ queue (queue.hold thread)
  | letGo (queue : CpuQueue Thread) :
      Effect thread fresh made ⟨1, 0, 0⟩ ⟨0, 0, 0⟩ queue (queue.letGo thread)
  | lock (queue : CpuQueue Thread) (mutex : RecursiveMutex Thread)
      (locked : queue.mutex.lock thread = some mutex) :
      Effect thread fresh made ⟨1, 0, 0⟩ ⟨1, 1, 0⟩ queue (queue.setMutex mutex)
  | unlock (queue : CpuQueue Thread) :
      Effect thread fresh made ⟨1, 1, 0⟩ ⟨1, 0, 0⟩ queue (queue.setMutex queue.mutex.unlock)
  | enter (queue : CpuQueue Thread) : Effect thread fresh made ⟨1, 1, 0⟩ ⟨1, 1, 1⟩ queue queue.enter
  | leave (queue : CpuQueue Thread) (ticket : ℕ) :
      Effect thread fresh made ⟨1, 1, 1⟩ ⟨1, 1, 0⟩ queue (queue.leave ticket)
  | submit (queue : CpuQueue Thread) (locks : ℕ) :
      Effect thread fresh made ⟨1, locks, 0⟩ ⟨1, locks, 0⟩ queue
        (queue.setCallbackThread (queue.callbackThread.submit ()).2)
  | requestStop (queue : CpuQueue Thread) (old : ¬ fresh) (expired : queue.Expired) :
      Effect thread fresh made ⟨0, 0, 0⟩ ⟨0, 0, 0⟩ queue
        (queue.setCallbackThread { queue.callbackThread with stopRequested := true })
  | destroy (queue : CpuQueue Thread) (stopped : queue.callbackThread.stopRequested = true)
      (ceased : queue.callbackThread.worker = .absent ∨ queue.callbackThread.worker = .exited) :
      Effect thread fresh made ⟨0, 0, 0⟩ ⟨0, 0, 0⟩ queue { queue with destroyed := true }

theorem Accounted.holder (accounted : queue.Accounted name threads) {frame : Frame}
    (member : frame ∈ threads thread) (uses : frame.uses name) : thread ∈ queue.holders :=
  List.count_pos_iff.mp (accounted.holders.pos member uses)

theorem Accounted.live (accounted : queue.Accounted name threads) {frame : Frame}
    (member : frame ∈ threads thread) (uses : frame.uses name) : ¬ queue.Expired := by
  intro expired
  have holder := accounted.holder member uses
  rw [expired.2] at holder
  cases holder

/-- Taking and giving up references. -/
private theorem Accounted.setHolders {next : CpuQueue Thread}
    (accounted : queue.Accounted name threads) (top : threads thread = old ++ below)
    {before after : ℕ} (beforeOld : frameCounts name old = ⟨before, 0, 0⟩)
    (afterNew : frameCounts name new = ⟨after, 0, 0⟩)
    (own : next.holders.count thread + before = queue.holders.count thread + after)
    (others : ∀ other ≠ thread, next.holders.count other = queue.holders.count other)
    (mutex : next.mutex = queue.mutex)
    (depth : next.blockingTaskExecutionDepth = queue.blockingTaskExecutionDepth) :
    next.Accounted name (Function.update threads thread (new ++ below)) := by
  simp only [frameCounts, FrameCounts.mk.injEq] at beforeOld afterNew
  obtain ⟨usesOld, locksOld, executesOld⟩ := beforeOld
  obtain ⟨usesNew, locksNew, executesNew⟩ := afterNew
  refine ⟨accounted.holders.replace top (by rw [usesOld, usesNew, own]) others,
    accounted.mutex.replace top (by rw [locksOld, locksNew, mutex]) fun _ _ => by rw [mutex],
    accounted.depth.replace top ?_ fun _ _ => ?_, ?_⟩
  · rw [executesOld, executesNew, depthOf, depthOf, mutex, depth]
  · rw [depthOf, depthOf, mutex, depth]
  · rw [mutex, depth]
    exact accounted.free

/-- An action that concerns neither the references nor the mutex nor the depth. -/
private theorem Accounted.keep {next : CpuQueue Thread}
    (accounted : queue.Accounted name threads) (top : threads thread = old ++ below)
    (same : frameCounts name old = frameCounts name new) (holders : next.holders = queue.holders)
    (mutex : next.mutex = queue.mutex)
    (depth : next.blockingTaskExecutionDepth = queue.blockingTaskExecutionDepth) :
    next.Accounted name (Function.update threads thread (new ++ below)) := by
  simp only [frameCounts, FrameCounts.mk.injEq] at same
  obtain ⟨uses, locks, executes⟩ := same
  refine ⟨accounted.holders.replace top (by rw [uses, holders]) fun _ _ => by rw [holders],
    accounted.mutex.replace top (by rw [locks, mutex]) fun _ _ => by rw [mutex],
    accounted.depth.replace top ?_ fun _ _ => ?_, ?_⟩
  · rw [executes, depthOf, depthOf, mutex, depth]
  · rw [depthOf, depthOf, mutex, depth]
  · rw [mutex, depth]
    exact accounted.free

/-- Acquiring and releasing the mutex. -/
private theorem Accounted.setMutex (accounted : queue.Accounted name threads)
    (top : threads thread = old ++ below) {before after : ℕ}
    (beforeOld : frameCounts name old = ⟨1, before, 0⟩)
    (afterNew : frameCounts name new = ⟨1, after, 0⟩) {mutex : RecursiveMutex Thread}
    (own : mutex.count thread + before = queue.mutex.count thread + after)
    (others : ∀ other ≠ thread, mutex.count other = queue.mutex.count other)
    (same : (queue.setMutex mutex).depthOf = queue.depthOf)
    (free : mutex.owner = none → queue.blockingTaskExecutionDepth = 0) :
    (queue.setMutex mutex).Accounted name (Function.update threads thread (new ++ below)) := by
  simp only [frameCounts, FrameCounts.mk.injEq] at beforeOld afterNew
  obtain ⟨usesOld, locksOld, executesOld⟩ := beforeOld
  obtain ⟨usesNew, locksNew, executesNew⟩ := afterNew
  refine ⟨accounted.holders.replace top (by rw [usesOld, usesNew]; rfl) fun _ _ => rfl,
    accounted.mutex.replace top (by rw [locksOld, locksNew]; exact own) others, ?_, free⟩
  rw [same]
  exact accounted.depth.replace top (by rw [executesOld, executesNew]) fun _ _ => rfl

private theorem depthOf_setMutex {mutex : RecursiveMutex Thread}
    (same : queue.mutex.owner = mutex.owner) :
    (queue.setMutex mutex).depthOf = queue.depthOf := by
  funext other
  unfold depthOf CpuQueue.setMutex
  rw [same]

/-- A free mutex and depth zero give no thread any depth. -/
theorem depthOf_free (queue : CpuQueue Thread) (depth : queue.blockingTaskExecutionDepth = 0)
    (other : Thread) : queue.depthOf other = 0 := by
  rw [depthOf, depth]
  exact ite_self 0

theorem Accounted.lock (accounted : queue.Accounted name threads)
    (top : threads thread = old ++ below) {mutex : RecursiveMutex Thread}
    (locked : queue.mutex.lock thread = some mutex)
    (before : frameCounts name old = ⟨1, 0, 0⟩) (after : frameCounts name new = ⟨1, 1, 0⟩) :
    (queue.setMutex mutex).Accounted name (Function.update threads thread (new ++ below)) := by
  have counted := RecursiveMutex.count_lock locked
  refine accounted.setMutex top before after ?_ (fun other different => ?_) ?_ fun free => ?_
  · rw [counted, if_pos rfl, Nat.add_zero]
  · rw [counted, if_neg different, Nat.add_zero]
  · obtain free | owned := RecursiveMutex.owner_of_lock locked
    · funext other
      have depth := accounted.free free
      rw [depthOf_free queue depth, depthOf_free (queue.setMutex mutex) depth]
    · exact depthOf_setMutex (owned.trans (RecursiveMutex.lock_owner locked).symm)
  · rw [RecursiveMutex.lock_owner locked] at free
    cases free

/-- The depth is zero when the last acquisition is released: a task that is executed
below would need another one. -/
theorem Accounted.unlock (accounted : queue.Accounted name threads)
    (top : threads thread = old ++ below) (before : frameCounts name old = ⟨1, 1, 0⟩)
    (after : frameCounts name new = ⟨1, 0, 0⟩) :
    (queue.setMutex queue.mutex.unlock).Accounted name
      (Function.update threads thread (new ++ below)) := by
  have counted := accounted.mutex thread
  have deep := accounted.depth thread
  rw [top, List.countP_append] at counted deep
  have beforeOld := before
  simp only [frameCounts, FrameCounts.mk.injEq] at beforeOld
  obtain ⟨-, locksOld, executesOld⟩ := beforeOld
  have owned : queue.mutex.owner = some thread := RecursiveMutex.owner_of_count (by omega)
  have last : queue.mutex.unlock.owner = none → queue.blockingTaskExecutionDepth = 0 := by
    intro free
    obtain ⟨-, once⟩ | still := RecursiveMutex.owner_unlock owned
    · have fewer : below.countP (Frame.executes name) ≤ below.countP (Frame.locks name) :=
        List.countP_mono_left fun _ _ => Frame.locks_of_executes
      rw [depthOf, if_pos owned] at deep
      omega
    · rw [still] at free
      cases free
  have released := RecursiveMutex.count_unlock owned
  refine accounted.setMutex top before after ?_ (fun other different => ?_) ?_ last
  · rw [Nat.add_zero, ← released thread, if_pos rfl]
  · rw [← released other, if_neg different, Nat.add_zero]
  · obtain ⟨free, -⟩ | still := RecursiveMutex.owner_unlock owned
    · funext other
      rw [depthOf_free queue (last free),
        depthOf_free (queue.setMutex queue.mutex.unlock) (last free)]
    · exact depthOf_setMutex (owned.trans still.symm)

/-- Beginning and ending a task. -/
private theorem Accounted.setDepth {next : CpuQueue Thread}
    (accounted : queue.Accounted name threads) (top : threads thread = old ++ below)
    {before after : ℕ} (beforeOld : frameCounts name old = ⟨1, 1, before⟩)
    (afterNew : frameCounts name new = ⟨1, 1, after⟩) (holders : next.holders = queue.holders)
    (mutex : next.mutex = queue.mutex)
    (depth : before ≤ queue.blockingTaskExecutionDepth →
      next.blockingTaskExecutionDepth + before = queue.blockingTaskExecutionDepth + after) :
    next.Accounted name (Function.update threads thread (new ++ below)) := by
  have counted := accounted.mutex thread
  have deep := accounted.depth thread
  rw [top, List.countP_append] at counted deep
  simp only [frameCounts, FrameCounts.mk.injEq] at beforeOld afterNew
  obtain ⟨usesOld, locksOld, executesOld⟩ := beforeOld
  obtain ⟨usesNew, locksNew, executesNew⟩ := afterNew
  have owned : queue.mutex.owner = some thread := RecursiveMutex.owner_of_count (by omega)
  rw [depthOf, if_pos owned] at deep
  refine ⟨accounted.holders.replace top (by rw [usesOld, usesNew, holders]) fun _ _ => ?_,
    accounted.mutex.replace top (by rw [locksOld, locksNew, mutex]) fun _ _ => ?_,
    accounted.depth.replace top ?_ fun other different => ?_, fun free => ?_⟩
  · rw [holders]
  · rw [mutex]
  · rw [depthOf, depthOf, mutex, if_pos owned, if_pos owned, executesOld, executesNew]
    exact depth (by omega)
  · have foreign : queue.mutex.owner ≠ some other := by
      rw [owned]
      exact fun same => different (Option.some.inj same).symm
    rw [depthOf, depthOf, mutex, if_neg foreign, if_neg foreign]
  · rw [mutex, owned] at free
    cases free

/-- **Accounting.** Every effect is one that the frames account for. -/
theorem Accounted.effect (accounted : queue.Accounted name threads)
    (top : threads thread = old ++ below) {next : CpuQueue Thread}
    {fresh made : Prop}
    (effect : Effect thread fresh made (frameCounts name old) (frameCounts name new) queue next) :
    next.Accounted name (Function.update threads thread (new ++ below)) := by
  generalize before : frameCounts name old = oldCounts at effect
  generalize after : frameCounts name new = newCounts at effect
  have holding (one : 1 ≤ (frameCounts name old).uses) : 1 ≤ queue.holders.count thread := by
    have counted : queue.holders.count thread = _ := accounted.holders thread
    rw [counted, top, List.countP_append]
    exact one.trans (Nat.le_add_right _ _)
  cases effect with
  | keep => exact accounted.keep top (before.trans after.symm) rfl rfl rfl
  | setHandles | submit | requestStop | destroy =>
      exact accounted.keep top (before.trans after.symm) rfl rfl rfl
  | create =>
      refine accounted.setHolders top before after ?_ (fun other different => ?_) rfl rfl
      · rw [List.count_cons_self]
      · exact List.count_cons_of_ne (Ne.symm different)
  | handOut | letGo =>
      have one := holding (by rw [before])
      refine accounted.setHolders top before after ?_ (fun other different => ?_) rfl rfl
      · change (queue.holders.erase thread).count thread + 1 = _
        rw [List.count_erase_self]
        omega
      · exact List.count_erase_of_ne different
  | hold =>
      refine accounted.setHolders top before after ?_ (fun other different => ?_) rfl rfl
      · change (thread :: queue.holders).count thread + 0 = _
        rw [List.count_cons_self]
      · exact List.count_cons_of_ne (Ne.symm different)
  | lock _ mutex locked => exact accounted.lock top locked before after
  | unlock => exact accounted.unlock top before after
  | enter => exact accounted.setDepth top before after rfl rfl fun _ => rfl
  | leave =>
      refine accounted.setDepth top before after rfl rfl fun deep => ?_
      exact Nat.sub_add_cancel deep

end CpuQueue

/-! ## The life of a queue -/

namespace CpuQueue

variable {Thread : Type*} {queue next : CpuQueue Thread}

/-- The callback thread keeps the order; it is told to stop when the last reference
has gone, and the queue is destroyed when it has stopped. -/
structure Orderly (queue : CpuQueue Thread) : Prop where
  ordered : queue.callbackThread.Ordered
  exited : queue.callbackThread.worker = .exited →
    queue.callbackThread.tasks = [] ∧ queue.callbackThread.stopRequested = true
  stopped : queue.callbackThread.stopRequested = true → queue.Expired
  destroyed : queue.destroyed = true → queue.callbackThread.stopRequested = true ∧
    (queue.callbackThread.worker = .absent ∨ queue.callbackThread.worker = .exited)

/-- History only grows, and what is over stays over. -/
structure Grows (queue next : CpuQueue Thread) : Prop where
  isBlocking : next.isBlocking = queue.isBlocking
  callbackThread : queue.callbackThread.Extends next.callbackThread
  begun : queue.begun ≤ next.begun
  ended : queue.ended ⊆ next.ended
  expired : queue.Expired → next.Expired
  stopped : queue.callbackThread.stopRequested = true →
    next.callbackThread.stopRequested = true

theorem Grows.refl (queue : CpuQueue Thread) : queue.Grows queue :=
  ⟨rfl, .refl _, le_rfl, List.Subset.refl _, id, id⟩

theorem orderly_initial : ({} : CpuQueue Thread).Orderly where
  ordered := CallbackThread.ordered_initial
  exited := nofun
  stopped := nofun
  destroyed := nofun

/-- The callback thread has nothing to do with the other parts of a queue. -/
theorem Orderly.keep (orderly : queue.Orderly)
    (thread : next.callbackThread = queue.callbackThread)
    (destroyed : next.destroyed = queue.destroyed)
    (expired : queue.Expired → next.Expired) : next.Orderly where
  ordered := by
    rw [thread]
    exact orderly.ordered
  exited := by
    rw [thread]
    exact orderly.exited
  stopped := by
    rw [thread]
    exact fun stop => expired (orderly.stopped stop)
  destroyed := by
    rw [thread, destroyed]
    exact orderly.destroyed

theorem Grows.keep (thread : next.callbackThread = queue.callbackThread)
    (isBlocking : next.isBlocking = queue.isBlocking) (begun : queue.begun ≤ next.begun)
    (ended : queue.ended ⊆ next.ended) (expired : queue.Expired → next.Expired) :
    queue.Grows next where
  isBlocking := isBlocking
  callbackThread := by
    rw [thread]
    exact .refl _
  begun := begun
  ended := ended
  expired := expired
  stopped := by
    rw [thread]
    exact id

/-- Nothing is submitted to a queue without a reference. -/
theorem Orderly.submit (orderly : queue.Orderly) (live : ¬ queue.Expired) :
    (queue.setCallbackThread (queue.callbackThread.submit ()).2).Orderly := by
  have going : queue.callbackThread.stopRequested ≠ true := fun stop => live (orderly.stopped stop)
  refine ⟨orderly.ordered.submit (), fun ended => ?_, fun stop => absurd stop going,
    fun destroyed => absurd (orderly.destroyed destroyed).1 going⟩
  obtain same | ⟨-, waiting⟩ := CallbackThread.worker_submit queue.callbackThread ()
  · exact absurd (orderly.exited (same ▸ ended)).2 going
  · cases waiting.symm.trans ended

theorem grows_submit (queue : CpuQueue Thread) :
    queue.Grows (queue.setCallbackThread (queue.callbackThread.submit ()).2) :=
  ⟨rfl, CallbackThread.submit_extends (), le_rfl, List.Subset.refl _, id, id⟩

theorem Orderly.requestStop (orderly : queue.Orderly) (expired : queue.Expired) :
    (queue.setCallbackThread { queue.callbackThread with stopRequested := true }).Orderly where
  ordered := orderly.ordered.requestStop
  exited := fun ended => ⟨(orderly.exited ended).1, rfl⟩
  stopped := fun _ => expired
  destroyed := fun destroyed => ⟨rfl, (orderly.destroyed destroyed).2⟩

private theorem grows_requestStop (queue : CpuQueue Thread) :
    queue.Grows
      (queue.setCallbackThread { queue.callbackThread with stopRequested := true }) :=
  ⟨rfl, .of_eq rfl rfl rfl rfl, le_rfl, List.Subset.refl _, id, fun _ => rfl⟩

theorem Orderly.destroy (orderly : queue.Orderly)
    (stopped : queue.callbackThread.stopRequested = true)
    (ceased : queue.callbackThread.worker = .absent ∨ queue.callbackThread.worker = .exited) :
    ({ queue with destroyed := true } : CpuQueue Thread).Orderly where
  ordered := orderly.ordered
  exited := orderly.exited
  stopped := orderly.stopped
  destroyed := fun _ => ⟨stopped, ceased⟩

/-- The worker goes on in order, and exits only when it is told to. -/
theorem Orderly.advance (orderly : queue.Orderly) {thread : CallbackThread Unit Unit}
    (advanced : queue.callbackThread.advance () = some thread) :
    (queue.setCallbackThread thread).Orderly ∧ queue.Grows (queue.setCallbackThread thread) := by
  obtain ⟨done, inOrder⟩ := orderly.ordered
  have ordered := inOrder.advance advanced
  have extends_ := (CallbackThread.advance_history advanced).1
  have alive : ¬ queue.destroyed = true := by
    intro destroyed
    unfold CallbackThread.advance at advanced
    obtain absent | exited := (orderly.destroyed destroyed).2
    · rw [absent] at advanced
      cases advanced
    · rw [exited] at advanced
      cases advanced
  obtain ⟨package, rest, -, -, rfl⟩ | ⟨-, empty, stop, rfl⟩ | ⟨package, -, rfl⟩ |
    ⟨package, outcome, -, rfl⟩ | ⟨package, outcome, -, rfl⟩ | ⟨promise, outcome, -, rfl⟩ :=
    CallbackThread.advance_cases advanced
  case inr.inl =>
    exact ⟨⟨ordered, fun _ => ⟨empty, stop⟩, orderly.stopped,
      fun destroyed => absurd destroyed alive⟩,
      ⟨rfl, extends_, le_rfl, List.Subset.refl _, id, id⟩⟩
  all_goals
    exact ⟨⟨ordered, nofun, orderly.stopped, fun destroyed => absurd destroyed alive⟩,
      ⟨rfl, extends_, le_rfl, List.Subset.refl _, id, id⟩⟩

/-- The running task returns or throws. -/
theorem Orderly.finish (orderly : queue.Orderly) {package : TaskPackage Unit} {point : Unit}
    (working : queue.callbackThread.worker = .running package point) (outcome : Outcome) :
    (queue.setCallbackThread (queue.callbackThread.finish package outcome)).Orderly ∧
      queue.Grows (queue.setCallbackThread (queue.callbackThread.finish package outcome)) := by
  obtain ⟨done, inOrder⟩ := orderly.ordered
  refine ⟨⟨inOrder.finish working outcome, nofun, orderly.stopped, fun destroyed => ?_⟩,
    ⟨rfl, CallbackThread.finish_extends package outcome, le_rfl, List.Subset.refl _, id, id⟩⟩
  obtain absent | exited := (orderly.destroyed destroyed).2
  · cases absent.symm.trans working
  · cases exited.symm.trans working

/-- **A destroyed queue has finished everything.** -/
theorem Orderly.finished_of_destroyed (orderly : queue.Orderly) (destroyed : queue.destroyed = true)
    {promise : ℕ} (submitted : promise < queue.callbackThread.submitted.length) :
    promise ∈ queue.callbackThread.finished := by
  refine orderly.ordered.finished_of_isEmpty ?_ submitted
  obtain absent | exited := (orderly.destroyed destroyed).2
  · exact orderly.ordered.tasks_of_absent absent
  · exact (orderly.exited exited).1

/-- Every effect is orderly if a frame has its reference. -/
theorem Orderly.effect [DecidableEq Thread] {thread : Thread} {fresh made : Prop}
    {before after : FrameCounts} (orderly : queue.Orderly)
    (effect : Effect thread fresh made before after queue next)
    (live : 0 < before.uses → ¬ queue.Expired) : next.Orderly := by
  cases effect with
  | keep => exact orderly
  | setHandles _ handles alive => exact orderly.keep rfl rfl fun expired => absurd expired alive
  | create => exact ⟨CallbackThread.ordered_initial, nofun, nofun, nofun⟩
  | handOut => exact orderly.keep rfl rfl fun expired => absurd expired (live Nat.one_pos)
  | hold _ alive => exact orderly.keep rfl rfl fun expired => absurd expired alive
  | letGo => exact orderly.keep rfl rfl fun expired => absurd expired (live Nat.one_pos)
  | lock | unlock | enter | leave => exact orderly.keep rfl rfl id
  | submit => exact orderly.submit (live Nat.one_pos)
  | requestStop _ _ expired => exact orderly.requestStop expired
  | destroy _ stopped ceased => exact orderly.destroy stopped ceased

theorem Effect.grows [DecidableEq Thread] {thread : Thread} {fresh made : Prop}
    {before after : FrameCounts} (effect : Effect thread fresh made before after queue next)
    (old : ¬ fresh) (live : 0 < before.uses → ¬ queue.Expired) : queue.Grows next := by
  have all : queue.ended ⊆ queue.ended := List.Subset.refl _
  cases effect with
  | keep => exact .refl _
  | setHandles _ handles alive =>
      exact .keep rfl rfl le_rfl all fun expired => absurd expired alive
  | create _ _ new _ => exact absurd new old
  | handOut | letGo =>
      exact .keep rfl rfl le_rfl all fun expired => absurd expired (live Nat.one_pos)
  | hold _ alive => exact .keep rfl rfl le_rfl all fun expired => absurd expired alive
  | lock | unlock | destroy => exact .keep rfl rfl le_rfl all id
  | enter => exact .keep rfl rfl (Nat.le_succ _) all id
  | leave => exact .keep rfl rfl le_rfl (List.subset_append_left _ _) id
  | submit => exact grows_submit queue
  | requestStop => exact grows_requestStop queue

/-- A fresh queue that is not created is left alone. -/
theorem Effect.untouched [DecidableEq Thread] {thread : Thread} {fresh made : Prop}
    {before after : FrameCounts} (effect : Effect thread fresh made before after queue next)
    (initial : queue = {}) (new : fresh) (later : ¬ made)
    (live : 0 < before.uses → ¬ queue.Expired) : next = {} := by
  have expired : queue.Expired := by
    rw [initial]
    exact ⟨rfl, rfl⟩
  cases effect with
  | keep => exact initial
  | setHandles _ _ alive | hold _ alive => exact absurd expired alive
  | create _ _ _ now => exact absurd now later
  | requestStop _ old => exact absurd new old
  | destroy _ stopped =>
      rw [initial] at stopped
      cases stopped
  | _ => exact absurd expired (live Nat.one_pos)

theorem Effect.idx_eq [DecidableEq Thread] {thread : Thread} {fresh made : Prop}
    {before after : FrameCounts} (effect : Effect thread fresh made before after queue next)
    (old : ¬ fresh) : next.idx = queue.idx := by
  cases effect with
  | create _ _ new => exact absurd new old
  | _ => rfl

end CpuQueue

end Alpaka
