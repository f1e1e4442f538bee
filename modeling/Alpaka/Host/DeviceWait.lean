import Alpaka.Host.CpuQueueSound

/-! # Waiting for a queue and for the device

When a wait for the device returns, every task that a queue with a handle had accepted
before the call is finished, apart from those that the waiting thread itself executes
(`Alpaka.CpuDevice.wait_sound`). The last reference to the device goes only after all
tasks have finished (`Alpaka.CpuDevice.finished_of_unreferenced`).
-/

namespace Alpaka

open Math Math.Stacks Math.Interleaving

/-! ## What an action does to the frames -/

/-- What frames have of a queue, if they use no other. -/
inductive Role (name : ℕ) : List Frame → FrameCounts → Prop
  | unused {frames : List Frame} (none_ : ∀ frame ∈ frames, frame.user = none) :
      Role name frames ⟨0, 0, 0⟩
  | user {frame : Frame} (uses : frame.user = some name) (unlocked : frame.locker = none) :
      Role name [frame] ⟨1, 0, 0⟩
  | locker {frame : Frame} (locks : frame.locker = some name) (quiet : frame.executor = none) :
      Role name [frame] ⟨1, 1, 0⟩
  | executor {frame : Frame} (executes : frame.executor = some name) : Role name [frame] ⟨1, 1, 1⟩

variable {name : ℕ} {frames : List Frame} {counts : FrameCounts}

private theorem frameCounts_one {frame : Frame} {uses locks executes : Bool}
    (used : frame.uses name = uses) (locked : frame.locks name = locks)
    (executed : frame.executes name = executes) :
    frameCounts name [frame] = ⟨uses.toNat, locks.toNat, executes.toNat⟩ := by
  subst used locked executed
  unfold frameCounts
  simp only [List.countP_singleton]
  cases frame.uses name <;> cases frame.locks name <;> cases frame.executes name <;> rfl

private theorem Role.frameCounts_eq (role : Role name frames counts) :
    frameCounts name frames = counts := by
  cases role with
  | unused none_ =>
      refine frameCounts_zero fun frame member => decide_eq_false ?_
      rw [none_ frame member]
      exact (Option.some_ne_none name).symm
  | @user frame uses unlocked =>
      have unlock : frame.locks name = false := by
        unfold Frame.locks
        rw [unlocked]
        exact decide_eq_false (Option.some_ne_none name).symm
      have quiet : frame.executes name = false := by
        cases executes : frame.executes name with
        | false => rfl
        | true => exact absurd (Frame.locks_of_executes executes) (by rw [unlock]; nofun)
      exact frameCounts_one (decide_eq_true uses) unlock quiet
  | @locker frame locks quiet =>
      have lock : frame.locks name = true := decide_eq_true locks
      have idle : frame.executes name = false := by
        unfold Frame.executes
        rw [quiet]
        exact decide_eq_false (Option.some_ne_none name).symm
      exact frameCounts_one (Frame.uses_of_locks lock) lock idle
  | executor executes =>
      have active := decide_eq_true executes
      have lock := Frame.locks_of_executes active
      exact frameCounts_one (Frame.uses_of_locks lock) lock active

theorem Role.only (role : Role name frames counts) : Only name frames := by
  intro frame member
  cases role with
  | unused none_ => exact .inl (none_ frame member)
  | user uses =>
      rw [List.mem_singleton.mp member]
      exact .inr uses
  | locker locks =>
      rw [List.mem_singleton.mp member]
      exact .inr (of_decide_eq_true (Frame.uses_of_locks (decide_eq_true locks)))
  | executor executes =>
      rw [List.mem_singleton.mp member]
      exact .inr (of_decide_eq_true
        (Frame.uses_of_locks (Frame.locks_of_executes (decide_eq_true executes))))

/-- A frame that has acquired the guard of the device. -/
def Frame.guards : Frame → Bool
  | .makeQueueNew _ | .makeQueueEmplace _ | .deviceWaitCopy _ => true
  | _ => false

/-- A frame at which the guard may change. -/
def Frame.atGuard : Frame → Bool
  | .makeQueueLock _ | .makeQueueNew _ | .makeQueueEmplace _ | .deviceWaitLock _
  | .deviceWaitCopy _ => true
  | _ => false

namespace CpuDevice

variable {Thread : Type*} [DecidableEq Thread] {device mid next : CpuDevice Thread}
  {thread : Thread} {old new below : List Frame}

/-- What a thread does to the device, the frames it takes from its stack and those
it puts there. -/
inductive Move (device : CpuDevice Thread) (thread : Thread) :
    List Frame → CpuDevice Thread → List Frame → Prop
  | call {call : DeviceCall} {mid : CpuDevice Thread} {new : List Frame}
      (taken : device.callStep thread call = some (mid, new)) : Move device thread [] mid new
  | frame {frame : Frame} {mid : CpuDevice Thread} {new : List Frame}
      (taken : device.frameStep thread frame = some (mid, new)) : Move device thread [frame] mid new

/-- An action is a move of a thread or a step of a callback thread. -/
theorem step_cases {action : DeviceAction Thread} (taken : step device action = some next) :
    (∃ thread old below mid new, device.threads thread = old ++ below ∧
      Move device thread old mid new ∧ next = mid.setThread thread (new ++ below)) ∨
    ∃ name outcome, device.workerStep name outcome = some next := by
  cases action with
  | call thread call =>
      unfold step at taken
      dsimp only at taken
      split at taken
      · obtain ⟨⟨mid, new⟩, called, rfl⟩ := Option.map_eq_some_iff.mp taken
        exact .inl ⟨thread, [], _, mid, new, rfl, .call called, rfl⟩
      · cases taken
  | thread thread =>
      unfold step at taken
      dsimp only at taken
      split at taken
      case h_1 => cases taken
      case h_2 frame below top =>
        obtain ⟨⟨mid, new⟩, stepped, rfl⟩ := Option.map_eq_some_iff.mp taken
        exact .inl ⟨thread, [frame], below, mid, new, top, .frame stepped, rfl⟩
  | worker name outcome => exact .inr ⟨name, outcome, taken⟩

omit [DecidableEq Thread] in
private theorem user_onRelease {queue : CpuQueue Thread} {after : Option Wait} :
    ∀ frame ∈ onRelease queue name after, frame.user = none := by
  intro frame member
  unfold onRelease at member
  split at member
  · rw [List.mem_singleton.mp member]
    rfl
  · cases after with
    | none => cases member
    | some wait =>
        rw [List.mem_singleton.mp member]
        rfl

private theorem unused_nil : ∀ frame ∈ ([] : List Frame), frame.user = none := nofun

private theorem unused_one {frame : Frame} (unused : frame.user = none) :
    ∀ other ∈ [frame], other.user = none :=
  fun _ member => List.mem_singleton.mp member ▸ unused

/-- One queue changes, and the frames use no other. -/
private theorem effect_setQueue {before after : FrameCounts} {queue : CpuQueue Thread}
    (oldRole : Role name old before) (newRole : Role name new after)
    {bound : ℕ}
    (effect : CpuQueue.Effect thread (device.created ≤ name) (name < bound) before after
      (device.queues name) queue) (other : ℕ) :
    CpuQueue.Effect thread (device.created ≤ other) (other < bound) (frameCounts other old)
      (frameCounts other new) (device.queues other)
      ((device.setQueue name queue).queues other) := by
  by_cases same : other = name
  · subst same
    rw [oldRole.frameCounts_eq, newRole.frameCounts_eq]
    rw [queues_setQueue_self]
    exact effect
  · rw [oldRole.only.frameCounts same, newRole.only.frameCounts same]
    rw [queues_setQueue_of_ne same]
    exact .keep _ _

/-- No queue changes. -/
private theorem effect_keep (same : ∀ other, frameCounts other old = frameCounts other new)
    {bound : ℕ} (other : ℕ) :
    CpuQueue.Effect thread (device.created ≤ other) (other < bound) (frameCounts other old)
      (frameCounts other new) (device.queues other) (device.queues other) := by
  rw [same]
  exact .keep _ _

private theorem same_unused (oldUnused : ∀ frame ∈ old, frame.user = none)
    (newUnused : ∀ frame ∈ new, frame.user = none) (other : ℕ) :
    frameCounts other old = frameCounts other new :=
  (Role.unused oldUnused).frameCounts_eq.trans (Role.unused newUnused).frameCounts_eq.symm

private theorem same_user {before after : Frame} (uses : before.user = some name)
    (unlocked : before.locker = none) (uses' : after.user = some name)
    (unlocked' : after.locker = none) (other : ℕ) :
    frameCounts other [before] = frameCounts other [after] := by
  by_cases same : other = name
  · subst same
    exact (Role.user uses unlocked).frameCounts_eq.trans
      (Role.user uses' unlocked').frameCounts_eq.symm
  · exact ((Role.user uses unlocked).only.frameCounts same).trans
      ((Role.user uses' unlocked').only.frameCounts same).symm

omit [DecidableEq Thread] in
/-- A handle keeps the queue alive. -/
private theorem live_of_handles {queue : CpuQueue Thread} (handles : 0 < queue.handles) :
    ¬ queue.Expired := fun expired => absurd expired.1 handles.ne'

/-- **Calls.** What a call does to the queues. -/
theorem effect_call {call : DeviceCall} (taken : device.callStep thread call = some (mid, new))
    (other : ℕ) :
    CpuQueue.Effect thread (device.created ≤ other) (other < mid.created) (frameCounts other [])
      (frameCounts other new)
      (device.queues other) (mid.queues other) := by
  have empty (name : ℕ) : Role name [] ⟨0, 0, 0⟩ := .unused unused_nil
  cases call with
  | copyDevice | dropDevice =>
      obtain ⟨-, same⟩ := Option.ite_none_right_eq_some.mp taken
      cases same
      exact .keep _ _
  | copyHandle name =>
      obtain ⟨handles, same⟩ := Option.ite_none_right_eq_some.mp taken
      cases same
      exact effect_setQueue (empty name) (empty name) (.setHandles _ _ (live_of_handles handles))
        other
  | dropHandle name =>
      obtain ⟨handles, same⟩ := Option.ite_none_right_eq_some.mp taken
      cases same
      exact effect_setQueue (empty name) (.unused user_onRelease)
        (.setHandles _ _ (live_of_handles handles)) other
  | makeQueue | deviceWait =>
      obtain ⟨-, same⟩ := Option.ite_none_right_eq_some.mp taken
      cases same
      exact effect_keep (same_unused unused_nil (unused_one rfl)) other
  | enqueueHostFn name | enqueueHostFnDeferred name =>
      obtain ⟨handles, same⟩ := Option.ite_none_right_eq_some.mp taken
      cases same
      refine effect_setQueue (empty name) ?_ (.hold _ (live_of_handles handles)) other
      split
      · exact .user rfl rfl
      · exact .user rfl rfl
  | wait name =>
      obtain ⟨handles, same⟩ := Option.ite_none_right_eq_some.mp taken
      cases same
      exact effect_setQueue (empty name) (.user rfl rfl) (.hold _ (live_of_handles handles)) other

/-! ## What the frames assert -/

/-- A thread executes a task of a queue. -/
def Underway (device : CpuDevice Thread) (thread : Thread) (name ticket : ℕ) : Prop :=
  ∃ job, .submitExecute name job ticket ∈ device.threads thread

/-- The tasks up to a number have ended, apart from those the thread itself executes. -/
def Executed (device : CpuDevice Thread) (thread : Thread) (name count : ℕ) : Prop :=
  ∀ ticket < count, ticket ∈ (device.queues name).ended ∨ device.Underway thread name ticket

/-- Nothing is left of what a queue had accepted. -/
inductive Settled (device : CpuDevice Thread) (thread : Thread) (counts : QueueCounts)
    (name : ℕ) : Prop
  | expired (gone : (device.queues name).Expired)
  | finished (nonBlocking : (device.queues name).isBlocking = false)
      (all : ∀ promise < counts.submitted, promise ∈ (device.queues name).callbackThread.finished)
  | executed (blocking : (device.queues name).isBlocking = true)
      (all : device.Executed thread name counts.begun)

/-- What a wait had counted is there. -/
structure Started (device : CpuDevice Thread) (wait : Wait) : Prop where
  created : wait.created ≤ device.created
  submitted : ∀ name < wait.created,
    (wait.before name).submitted ≤ (device.queues name).callbackThread.submitted.length
  begun : ∀ name < wait.created, (wait.before name).begun ≤ (device.queues name).begun
  target : ∀ name, wait.target = some name → name < wait.created

/-- The queues of a wait are settled or still to come. -/
structure Waits (device : CpuDevice Thread) (thread : Thread) (wait : Wait) (current : List ℕ) :
    Prop where
  started : device.Started wait
  waited : ∀ name ∈ wait.waited, name < wait.created →
    device.Settled thread (wait.before name) name
  all : wait.target = none →
    ∀ name < wait.created, name ∈ wait.waited ∨ name ∈ current ∨ name ∈ wait.rest
  one : ∀ name, wait.target = some name → name ∈ wait.waited ∨ name ∈ current

/-- What is known of a wait that submits its empty task to a blocking queue. -/
def JobWaits (device : CpuDevice Thread) (thread : Thread) (name : ℕ) : Job → Prop
  | .task => True
  | .marker wait => device.Waits thread wait [name] ∧ name < device.created ∧
      (device.queues name).isBlocking = true

/-- With the mutex, no other thread executes a task. -/
def JobAlone (device : CpuDevice Thread) (thread : Thread) (name : ℕ) : Job → Prop
  | .task => True
  | .marker wait => name < wait.created → device.Executed thread name (wait.before name).begun

def Asserts (device : CpuDevice Thread) (thread : Thread) : Frame → Prop
  | .submitLock name job => device.JobWaits thread name job
  | .submitEnter name job | .submitExecute name job _ | .submitUnlock name job =>
      device.JobWaits thread name job ∧ device.JobAlone thread name job
  | .waitCheck name wait => device.Waits thread wait [name] ∧ name < device.created
  | .waitSubmit name wait => device.Waits thread wait [name] ∧ name < device.created ∧
      (device.queues name).isBlocking = false
  | .waitFuture name promise wait => device.Waits thread wait [name] ∧ name < device.created ∧
      (device.queues name).isBlocking = false ∧
      (name < wait.created → (wait.before name).submitted ≤ promise)
  | .deviceWaitLock wait | .deviceWaitCopy wait =>
      device.Started wait ∧ wait.target = none ∧ wait.waited = []
  | .deviceWaitNext wait => device.Waits thread wait []
  | .release _ after => ∀ wait, after = some wait → device.Waits thread wait []
  | .destroyStop name after => name < device.created ∧ (device.queues name).Expired ∧
      ∀ wait, after = some wait → device.Waits thread wait []
  | .destroyJoin name after => name < device.created ∧
      (device.queues name).callbackThread.stopRequested = true ∧
      ∀ wait, after = some wait → device.Waits thread wait []
  | _ => True

/-- History only grows. -/
structure Grows (device next : CpuDevice Thread) : Prop where
  created : device.created ≤ next.created
  queue : ∀ name < device.created, (device.queues name).Grows (next.queues name)
  underway : ∀ thread name ticket, device.Underway thread name ticket →
    name < device.created ∧
      (next.Underway thread name ticket ∨ ticket ∈ (next.queues name).ended)

section Grows

variable {wait : Wait} {current : List ℕ} {job : Job} {frame : Frame}

omit [DecidableEq Thread]

theorem Grows.executed (grows : device.Grows next) {count : ℕ} (old : name < device.created)
    (executed : device.Executed thread name count) : next.Executed thread name count := by
  intro ticket before
  obtain ended | underway := executed ticket before
  · exact .inl ((grows.queue name old).ended ended)
  · exact (grows.underway thread name ticket underway).2.symm

theorem Grows.settled (grows : device.Grows next) {counts : QueueCounts}
    (old : name < device.created) (settled : device.Settled thread counts name) :
    next.Settled thread counts name := by
  have growth := grows.queue name old
  cases settled with
  | expired gone => exact .expired (growth.expired gone)
  | finished nonBlocking all =>
      exact .finished (growth.isBlocking.trans nonBlocking) fun promise before =>
        growth.callbackThread.finished (all promise before)
  | executed blocking all =>
      exact .executed (growth.isBlocking.trans blocking) (grows.executed old all)

theorem Grows.started (grows : device.Grows next) (started : device.Started wait) :
    next.Started wait where
  created := started.created.trans grows.created
  submitted := fun name before => (started.submitted name before).trans
    (grows.queue name (before.trans_le started.created)).callbackThread.submitted.length_le
  begun := fun name before => (started.begun name before).trans
    (grows.queue name (before.trans_le started.created)).begun
  target := started.target

theorem Grows.waits (grows : device.Grows next) (waits : device.Waits thread wait current) :
    next.Waits thread wait current where
  started := grows.started waits.started
  waited := fun name waited before =>
    grows.settled (before.trans_le waits.started.created) (waits.waited name waited before)
  all := waits.all
  one := waits.one

private theorem Grows.jobWaits (grows : device.Grows next)
    (waits : device.JobWaits thread name job) :
    next.JobWaits thread name job := by
  cases job with
  | task => trivial
  | marker wait =>
      exact ⟨grows.waits waits.1, waits.2.1.trans_le grows.created,
        (grows.queue name waits.2.1).isBlocking.trans waits.2.2⟩

private theorem Grows.jobAlone (grows : device.Grows next) (waits : device.JobWaits thread name job)
    (alone : device.JobAlone thread name job) : next.JobAlone thread name job := by
  cases job with
  | task => trivial
  | marker wait => exact fun before => grows.executed waits.2.1 (alone before)

/-- What a frame asserts is not disturbed. -/
theorem Grows.asserts (grows : device.Grows next) (frame : Frame)
    (asserts : device.Asserts thread frame) : next.Asserts thread frame := by
  cases frame with
  | submitLock => exact grows.jobWaits asserts
  | submitEnter | submitExecute | submitUnlock =>
      exact ⟨grows.jobWaits asserts.1, grows.jobAlone asserts.1 asserts.2⟩
  | waitCheck => exact ⟨grows.waits asserts.1, asserts.2.trans_le grows.created⟩
  | waitSubmit =>
      exact ⟨grows.waits asserts.1, asserts.2.1.trans_le grows.created,
        (grows.queue _ asserts.2.1).isBlocking.trans asserts.2.2⟩
  | waitFuture =>
      exact ⟨grows.waits asserts.1, asserts.2.1.trans_le grows.created,
        (grows.queue _ asserts.2.1).isBlocking.trans asserts.2.2.1, asserts.2.2.2⟩
  | deviceWaitLock | deviceWaitCopy => exact ⟨grows.started asserts.1, asserts.2⟩
  | deviceWaitNext => exact grows.waits asserts
  | release => exact fun wait same => grows.waits (asserts wait same)
  | destroyStop =>
      exact ⟨asserts.1.trans_le grows.created, (grows.queue _ asserts.1).expired asserts.2.1,
        fun wait same => grows.waits (asserts.2.2 wait same)⟩
  | destroyJoin =>
      exact ⟨asserts.1.trans_le grows.created, (grows.queue _ asserts.1).stopped asserts.2.1,
        fun wait same => grows.waits (asserts.2.2 wait same)⟩
  | _ => trivial

end Grows

/-! ## The invariant -/

/-- The queues are orderly and accounted for, the guard protects the list of the
queues, and what has returned had waited. -/
structure Sound (device : CpuDevice Thread) : Prop where
  orderly : ∀ name, (device.queues name).Orderly
  accounted : ∀ name, (device.queues name).Accounted name device.threads
  guard : Accounts Frame.guards device.threads
    fun thread => if device.queuesGuard = some thread then 1 else 0
  begun : ∀ name, ∀ ticket < (device.queues name).begun,
    ticket ∈ (device.queues name).ended ∨ ∃ thread, device.Underway thread name ticket
  fresh : ∀ name, device.created ≤ name → device.queues name = {}
  waitFns : device.queueWaitFns = List.range device.queueWaitFns.length
  emplacing : ∀ thread name, .makeQueueEmplace name ∈ device.threads thread →
    name = device.queueWaitFns.length ∧ device.created = name + 1
  emplaced : (∀ thread name, .makeQueueEmplace name ∉ device.threads thread) →
    device.created = device.queueWaitFns.length
  idx : ∀ name < device.created, (device.queues name).idx = name
  waits : ∀ thread wait, (thread, wait) ∈ device.waits →
    wait.rest = [] ∧ device.Waits thread wait []

/-- **Steps.** What the topmost frame does to the queues. -/
theorem effect_frame {frame : Frame}
    (fresh : ∀ name, device.created ≤ name → device.queues name = {})
    (asserts : device.Asserts thread frame)
    (taken : device.frameStep thread frame = some (mid, new)) (other : ℕ) :
    CpuQueue.Effect thread (device.created ≤ other) (other < mid.created)
      (frameCounts other [frame]) (frameCounts other new) (device.queues other)
      (mid.queues other) := by
  cases frame with
  | makeQueueLock | deviceWaitLock =>
      obtain ⟨-, same⟩ := Option.ite_none_right_eq_some.mp taken
      cases same
      exact effect_keep (same_unused (unused_one rfl) (unused_one rfl)) other
  | makeQueueNew isBlocking =>
      cases taken
      refine effect_setQueue (.unused (unused_one rfl)) (.user rfl rfl) ?_ other
      rw [fresh device.created le_rfl]
      exact .create _ _ le_rfl (Nat.lt_succ_self _)
  | makeQueueEmplace name =>
      cases taken
      exact effect_setQueue (.user rfl rfl) (.unused unused_nil) (.handOut _) other
  | submit name =>
      cases taken
      exact effect_setQueue (.user rfl rfl) (.user rfl rfl) (.submit _ 0) other
  | submitLock name job =>
      obtain ⟨mutex, locked, same⟩ := Option.map_eq_some_iff.mp taken
      cases same
      exact effect_setQueue (.user rfl rfl) (.locker rfl rfl) (.lock _ mutex locked) other
  | submitEnter name job =>
      cases taken
      exact effect_setQueue (.locker rfl rfl) (.executor rfl) (.enter _) other
  | submitExecute name job ticket =>
      cases taken
      exact effect_setQueue (.executor rfl) (.locker rfl rfl) (.leave _ ticket) other
  | submitUnlock name job =>
      cases taken
      exact effect_setQueue (.locker rfl rfl) (.user rfl rfl) (.unlock _) other
  | deferredLock name =>
      obtain ⟨mutex, locked, same⟩ := Option.map_eq_some_iff.mp taken
      cases same
      exact effect_setQueue (.user rfl rfl) (.locker rfl rfl) (.lock _ mutex locked) other
  | deferredSubmit name =>
      cases taken
      exact effect_setQueue (.locker rfl rfl) (.locker rfl rfl) (.submit _ 1) other
  | deferredUnlock name =>
      cases taken
      exact effect_setQueue (.locker rfl rfl) (.user rfl rfl) (.unlock _) other
  | waitCheck name wait =>
      cases taken
      refine effect_keep (fun other => ?_) other
      split
      · exact same_user rfl rfl rfl rfl other
      · split
        · exact same_user rfl rfl rfl rfl other
        · exact same_user rfl rfl rfl rfl other
  | waitSubmit name wait =>
      cases taken
      exact effect_setQueue (.user rfl rfl) (.user rfl rfl) (.submit _ 0) other
  | waitFuture name promise wait =>
      obtain ⟨-, same⟩ := Option.ite_none_right_eq_some.mp taken
      cases same
      exact effect_keep (same_user rfl rfl rfl rfl) other
  | deviceWaitCopy wait =>
      cases taken
      exact effect_keep (same_unused (unused_one rfl) (unused_one rfl)) other
  | deviceWaitNext wait =>
      unfold frameStep at taken
      dsimp only at taken
      split at taken
      case h_1 name rest _ =>
        split at taken
        case isTrue =>
          cases taken
          exact effect_keep (same_unused (unused_one rfl) (unused_one rfl)) other
        case isFalse live =>
          cases taken
          exact effect_setQueue (.unused (unused_one rfl)) (.user rfl rfl) (.hold _ live) other
      case h_2 =>
        cases taken
        exact effect_keep (same_unused (unused_one rfl) unused_nil) other
  | release name after =>
      cases taken
      exact effect_setQueue (.user rfl rfl) (.unused user_onRelease) (.letGo _) other
  | destroyStop name after =>
      cases taken
      exact effect_setQueue (.unused (unused_one rfl)) (.unused (unused_one rfl))
        (.requestStop _ (not_le.mpr asserts.1) asserts.2.1) other
  | destroyJoin name after =>
      obtain ⟨ceased, same⟩ := Option.ite_none_right_eq_some.mp taken
      cases same
      refine effect_setQueue (.unused (unused_one rfl)) (.unused ?_)
        (.destroy _ asserts.2.1 ceased) other
      cases after with
      | none => exact unused_nil
      | some wait => exact unused_one rfl

private theorem move_effect (sound : device.Sound)
    (asserts : ∀ frame ∈ old, device.Asserts thread frame)
    (move : device.Move thread old mid new) (other : ℕ) :
    CpuQueue.Effect thread (device.created ≤ other) (other < mid.created) (frameCounts other old)
      (frameCounts other new) (device.queues other) (mid.queues other) := by
  cases move with
  | call taken => exact effect_call taken other
  | frame taken => exact effect_frame sound.fresh (asserts _ (.head _)) taken other

/-! ## What an action does to the device -/

/-- What a move leaves alone. Only the entrance of a task begins its execution, the frames
at the guard alone concern the list of the queues, and a wait is recorded when it has nothing
left to wait for. -/
structure Moved (device : CpuDevice Thread) (thread : Thread) (old : List Frame)
    (mid : CpuDevice Thread) (new : List Frame) : Prop where
  threads : mid.threads = device.threads
  executes : ∀ frame ∈ new, ∀ name, frame.executor = some name → ∃ job,
    old = [.submitEnter name job] ∧ frame = .submitExecute name job (device.queues name).begun
  guard : (∀ frame ∈ old, frame.atGuard = false) → mid.created = device.created ∧
    mid.queueWaitFns = device.queueWaitFns ∧ mid.queuesGuard = device.queuesGuard ∧
    ∀ frame ∈ new, frame.guards = false
  waits : mid.waits = device.waits ∨ ∃ wait, old = [.deviceWaitNext wait] ∧ wait.rest = [] ∧
    mid.waits = device.waits ++ [(thread, wait)]

omit [DecidableEq Thread] in
private theorem Moved.of_quiet (threads : mid.threads = device.threads)
    (created : mid.created = device.created) (waitFns : mid.queueWaitFns = device.queueWaitFns)
    (guard : mid.queuesGuard = device.queuesGuard) (waits : mid.waits = device.waits)
    (quiet : ∀ frame ∈ new, frame.executor = none ∧ frame.guards = false) :
    device.Moved thread old mid new where
  threads := threads
  executes := fun frame member name same => by
    rw [(quiet frame member).1] at same
    cases same
  guard := fun _ => ⟨created, waitFns, guard, fun frame member => (quiet frame member).2⟩
  waits := .inl waits

omit [DecidableEq Thread] in
private theorem Moved.of_guard {frame : Frame} (at_ : frame.atGuard = true)
    (threads : mid.threads = device.threads) (waits : mid.waits = device.waits)
    (quiet : ∀ frame ∈ new, frame.executor = none) : device.Moved thread [frame] mid new where
  threads := threads
  executes := fun frame member name same => by
    rw [quiet frame member] at same
    cases same
  guard := fun away => nomatch at_.symm.trans (away frame (.head _))
  waits := .inl waits

private theorem unexecuted_one {frame : Frame} (executor : frame.executor = none) :
    ∀ other ∈ [frame], other.executor = none :=
  fun _ member => List.mem_singleton.mp member ▸ executor

private theorem quiet_one {frame : Frame} (executor : frame.executor = none)
    (guards : frame.guards = false) :
    ∀ other ∈ [frame], other.executor = none ∧ other.guards = false := by
  intro other member
  rw [List.mem_singleton.mp member]
  exact ⟨executor, guards⟩

private theorem quiet_nil :
    ∀ other ∈ ([] : List Frame), other.executor = none ∧ other.guards = false := nofun

omit [DecidableEq Thread] in
private theorem quiet_onRelease {queue : CpuQueue Thread} {after : Option Wait} :
    ∀ other ∈ onRelease queue name after, other.executor = none ∧ other.guards = false := by
  unfold onRelease
  split
  · exact quiet_one rfl rfl
  · cases after with
    | none => exact quiet_nil
    | some wait => exact quiet_one rfl rfl

omit [DecidableEq Thread] in
private theorem moved_call {call : DeviceCall}
    (taken : device.callStep thread call = some (mid, new)) :
    device.Moved thread [] mid new := by
  cases call <;> obtain ⟨-, same⟩ := Option.ite_none_right_eq_some.mp taken <;> cases same
  case copyDevice | dropDevice | copyHandle => exact .of_quiet rfl rfl rfl rfl rfl quiet_nil
  case dropHandle => exact .of_quiet rfl rfl rfl rfl rfl quiet_onRelease
  case makeQueue | wait | deviceWait => exact .of_quiet rfl rfl rfl rfl rfl (quiet_one rfl rfl)
  case enqueueHostFn | enqueueHostFnDeferred =>
    refine .of_quiet rfl rfl rfl rfl rfl ?_
    split
    · exact quiet_one rfl rfl
    · exact quiet_one rfl rfl

private theorem moved_frame {frame : Frame}
    (taken : device.frameStep thread frame = some (mid, new)) :
    device.Moved thread [frame] mid new := by
  cases frame with
  | makeQueueLock | deviceWaitLock =>
      obtain ⟨-, same⟩ := Option.ite_none_right_eq_some.mp taken
      cases same
      exact .of_guard rfl rfl rfl (unexecuted_one rfl)
  | makeQueueNew | deviceWaitCopy =>
      cases taken
      exact .of_guard rfl rfl rfl (unexecuted_one rfl)
  | makeQueueEmplace =>
      cases taken
      exact .of_guard rfl rfl rfl nofun
  | submitEnter name job =>
      cases taken
      refine ⟨rfl, fun frame member other same => ?_, fun _ => ⟨rfl, rfl, rfl, fun _ member => ?_⟩,
        .inl rfl⟩
      · cases List.mem_singleton.mp member
        cases same
        exact ⟨job, rfl, rfl⟩
      · rw [List.mem_singleton.mp member]
        rfl
  | submit | submitExecute | submitUnlock | deferredSubmit | deferredUnlock | waitSubmit |
      destroyStop =>
      cases taken
      exact .of_quiet rfl rfl rfl rfl rfl (quiet_one rfl rfl)
  | submitLock | deferredLock =>
      obtain ⟨mutex, locked, same⟩ := Option.map_eq_some_iff.mp taken
      cases same
      exact .of_quiet rfl rfl rfl rfl rfl (quiet_one rfl rfl)
  | waitCheck =>
      cases taken
      refine .of_quiet rfl rfl rfl rfl rfl ?_
      split
      · exact quiet_one rfl rfl
      · split
        · exact quiet_one rfl rfl
        · exact quiet_one rfl rfl
  | waitFuture =>
      obtain ⟨-, same⟩ := Option.ite_none_right_eq_some.mp taken
      cases same
      exact .of_quiet rfl rfl rfl rfl rfl (quiet_one rfl rfl)
  | deviceWaitNext wait =>
      unfold frameStep at taken
      dsimp only at taken
      split at taken
      case h_1 =>
        split at taken <;> cases taken <;>
          exact .of_quiet rfl rfl rfl rfl rfl (quiet_one rfl rfl)
      case h_2 nothing =>
        cases taken
        exact ⟨rfl, nofun, fun _ => ⟨rfl, rfl, rfl, nofun⟩, .inr ⟨wait, rfl, nothing, rfl⟩⟩
  | release =>
      cases taken
      exact .of_quiet rfl rfl rfl rfl rfl quiet_onRelease
  | destroyJoin name after =>
      obtain ⟨-, same⟩ := Option.ite_none_right_eq_some.mp taken
      cases same
      refine .of_quiet rfl rfl rfl rfl rfl ?_
      cases after with
      | none => exact quiet_nil
      | some wait => exact quiet_one rfl rfl

private theorem move_moved (move : device.Move thread old mid new) :
    device.Moved thread old mid new := by
  cases move with
  | call taken => exact moved_call taken
  | frame taken => exact moved_frame taken

/-- A frame that executes a task goes when the task has ended. -/
theorem move_ended (move : device.Move thread old mid new) {job : Job} {ticket : ℕ}
    (member : .submitExecute name job ticket ∈ old) : ticket ∈ (mid.queues name).ended := by
  cases move with
  | call => cases member
  | frame taken =>
      cases List.mem_singleton.mp member
      cases taken
      rw [queues_setQueue_self]
      exact List.mem_append_right _ (List.mem_singleton_self _)

/-! ## Moves keep the invariant -/

omit [DecidableEq Thread] in
private theorem mem_of_top {frame : Frame} (top : device.threads thread = frame :: below) :
    frame ∈ device.threads thread := by
  rw [top]
  exact .head _

private theorem Sound.guard_owner (sound : device.Sound) {frame : Frame}
    (member : frame ∈ device.threads thread) (guards : frame.guards = true) :
    device.queuesGuard = some thread := by
  by_contra free
  have counted := sound.guard.pos member guards
  rw [if_neg free] at counted
  exact absurd counted (Nat.lt_irrefl 0)

/-- **Exclusion.** One frame at most has acquired the guard. -/
theorem Sound.guard_alone (sound : device.Sound) {frame other : Frame}
    (top : device.threads thread = frame :: below) (guards : frame.guards = true)
    (member : other ∈ below) : other.guards = false := by
  have owned := sound.guard_owner (mem_of_top top) guards
  have counted := sound.guard thread
  dsimp only at counted
  rw [if_pos owned, top, List.countP_cons_of_pos guards] at counted
  have none_ : below.countP Frame.guards = 0 := by omega
  exact Bool.not_eq_true _ ▸ List.countP_eq_zero.mp none_ other member

/-- A frame that has acquired the guard excludes that a queue is being added elsewhere … -/
theorem Sound.emplaces_once (sound : device.Sound) {frame : Frame}
    (top : device.threads thread = frame :: below) (guards : frame.guards = true) {other : Thread}
    (member : .makeQueueEmplace name ∈ device.threads other)
    (kept : other = thread → .makeQueueEmplace name ∈ below) : False := by
  have owner := sound.guard_owner member rfl
  have mine := sound.guard_owner (mem_of_top top) guards
  cases sound.guard_alone top guards (kept (Option.some.inj (owner.symm.trans mine)))

/-- … or at all. -/
theorem Sound.not_emplacing (sound : device.Sound) {frame : Frame}
    (top : device.threads thread = frame :: below) (guards : frame.guards = true)
    (different : ∀ name, frame ≠ .makeQueueEmplace name) :
    ∀ other name, .makeQueueEmplace name ∉ device.threads other := by
  intro other name member
  refine sound.emplaces_once top guards member fun same => ?_
  rw [same, top] at member
  obtain here | kept := List.mem_cons.mp member
  · exact absurd here.symm (different name)
  · exact kept

/-- A queue that is not expired has been created. -/
theorem Sound.created_of_live (sound : device.Sound) (live : ¬ (device.queues name).Expired) :
    name < device.created := by
  by_contra late
  rw [sound.fresh name (not_lt.mp late)] at live
  exact live ⟨rfl, rfl⟩

section Waits

variable {wait : Wait}

omit [DecidableEq Thread] in
theorem Waits.done (waits : device.Waits thread wait [name])
    (settled : name < wait.created → device.Settled thread (wait.before name) name) :
    device.Waits thread (wait.done name) [] where
  started := ⟨waits.started.created, waits.started.submitted, waits.started.begun,
    waits.started.target⟩
  waited := by
    intro other member before
    obtain waited | last := List.mem_append.mp member
    · exact waits.waited other waited before
    · cases List.mem_singleton.mp last
      exact settled before
  all := by
    intro device_ other before
    obtain waited | current | rest := waits.all device_ other before
    · exact .inl (List.mem_append_left _ waited)
    · exact .inl (List.mem_append_right _ current)
    · exact .inr (.inr rest)
  one := by
    intro other same
    exact .inl (List.mem_append.mpr (waits.one other same))

/-- A thread that has acquired the mutex of a queue finds all tasks ended, apart from its own. -/
theorem Sound.executed_of_free (sound : device.Sound)
    (free : ∀ other ≠ thread, (device.queues name).depthOf other = 0) :
    device.Executed thread name (device.queues name).begun := by
  intro ticket before
  obtain ended | ⟨other, job, member⟩ := sound.begun name ticket before
  · exact .inl ended
  · by_cases mine : other = thread
    · exact .inr (mine ▸ ⟨job, member⟩)
    · have executing := (sound.accounted name).depth.pos member (decide_eq_true rfl)
      rw [free other mine] at executing
      exact absurd executing (Nat.lt_irrefl 0)

omit [DecidableEq Thread] in
theorem Executed.mono {count fewer : ℕ} (executed : device.Executed thread name count)
    (le : fewer ≤ count) : device.Executed thread name fewer :=
  fun ticket before => executed ticket (before.trans_le le)

/-- An empty queue has nothing left. -/
theorem Sound.settled_of_isQueueEmpty (sound : device.Sound) (started : device.Started wait)
    (before : name < wait.created) (empty : (device.queues name).isQueueEmpty = true) :
    device.Settled thread (wait.before name) name := by
  unfold CpuQueue.isQueueEmpty at empty
  split at empty
  case isTrue blocking =>
    have depth := of_decide_eq_true empty
    refine .executed blocking (Executed.mono (sound.executed_of_free fun other _ => ?_)
      (started.begun name before))
    exact CpuQueue.depthOf_free _ depth other
  case isFalse nonBlocking =>
    refine .finished (Bool.not_eq_true _ ▸ nonBlocking) fun promise counted => ?_
    exact (sound.orderly name).ordered.finished_of_isEmpty (List.isEmpty_iff.mp empty)
      (counted.trans_le (started.submitted name before))

/-- The task of a fulfilled promise has returned, and with it all earlier ones. -/
theorem Sound.settled_of_fulfilled (sound : device.Sound) {promise : ℕ}
    (nonBlocking : (device.queues name).isBlocking = false)
    (before : (wait.before name).submitted ≤ promise)
    (fulfilled : ((device.queues name).callbackThread.fulfilled promise).isSome) :
    device.Settled thread (wait.before name) name := by
  have ordered := (sound.orderly name).ordered
  refine .finished nonBlocking fun earlier counted => ?_
  exact ordered.finished_of_le (counted.le.trans before) (ordered.finished_of_fulfilled fulfilled)

omit [DecidableEq Thread] in
private theorem started_startWait {target : Option ℕ}
    (created : ∀ name, target = some name → name < device.created) :
    device.Started (device.startWait target) where
  created := le_rfl
  submitted := fun _ _ => le_rfl
  begun := fun _ _ => le_rfl
  target := created

end Waits

section Move

variable (sound : device.Sound) (top : device.threads thread = old ++ below)
  (asserts : ∀ frame ∈ old, device.Asserts thread frame)
  (move : device.Move thread old mid new)

/-- The frames of the stacks after a move. -/
theorem mem_threads_move {other : Thread} {frame : Frame}
    (top : device.threads thread = old ++ below) (threads : mid.threads = device.threads)
    (member : frame ∈ (mid.setThread thread (new ++ below)).threads other) :
    other = thread ∧ frame ∈ new ∨
      frame ∈ device.threads other ∧ (other = thread → frame ∈ below) := by
  by_cases mine : other = thread
  · subst mine
    rw [threads_setThread_self] at member
    obtain fresh | kept := List.mem_append.mp member
    · exact .inl ⟨rfl, fresh⟩
    · exact .inr ⟨top ▸ List.mem_append_right _ kept, fun _ => kept⟩
  · rw [threads_setThread_of_ne mine, threads] at member
    exact .inr ⟨member, fun same => absurd same mine⟩

/-- What is on a stack stays there unless the move takes it. -/
theorem threads_move_mem {other : Thread} {frame : Frame} (new : List Frame)
    (top : device.threads thread = old ++ below) (threads : mid.threads = device.threads)
    (member : frame ∈ device.threads other) :
    other = thread ∧ frame ∈ old ∨ frame ∈ (mid.setThread thread (new ++ below)).threads other := by
  by_cases mine : other = thread
  · subst mine
    rw [top] at member
    obtain taken | kept := List.mem_append.mp member
    · exact .inl ⟨rfl, taken⟩
    · rw [threads_setThread_self]
      exact .inr (List.mem_append_right _ kept)
  · rw [threads_setThread_of_ne mine, threads]
    exact .inr member

include sound top asserts move

omit asserts move in
/-- A queue that the topmost frames hold is alive. -/
private theorem move_live (name : ℕ) (uses : 0 < (frameCounts name old).uses) :
    ¬ (device.queues name).Expired := by
  obtain ⟨frame, member, used⟩ := List.countP_pos_iff.mp uses
  exact (sound.accounted name).live (top ▸ List.mem_append_left _ member) used

private theorem move_grows : device.Grows (mid.setThread thread (new ++ below)) where
  created := by
    cases move with
    | @call call _ _ taken =>
        cases call <;> obtain ⟨-, same⟩ := Option.ite_none_right_eq_some.mp taken <;> cases same <;>
          exact le_rfl
    | @frame frame _ _ taken =>
        cases at_ : frame.atGuard with
        | false =>
            have quiet := (moved_frame taken).guard fun other member =>
              List.mem_singleton.mp member ▸ at_
            exact quiet.1.ge
        | true =>
            cases frame with
            | makeQueueLock | deviceWaitLock =>
                obtain ⟨-, same⟩ := Option.ite_none_right_eq_some.mp taken
                cases same
                exact le_rfl
            | makeQueueNew =>
                cases taken
                exact Nat.le_succ _
            | makeQueueEmplace | deviceWaitCopy =>
                cases taken
                exact le_rfl
            | _ => cases at_
  queue := fun name before => (move_effect sound asserts move name).grows (not_le.mpr before)
    (move_live sound top name)
  underway := by
    intro other name ticket ⟨job, member⟩
    have live := (sound.accounted name).live member (decide_eq_true rfl)
    refine ⟨?_, ?_⟩
    · by_contra late
      rw [sound.fresh name (not_lt.mp late)] at live
      exact live ⟨rfl, rfl⟩
    · obtain ⟨-, taken⟩ | kept := threads_move_mem new top (move_moved move).threads member
      · exact .inr (move_ended move taken)
      · exact .inl ⟨job, kept⟩

private theorem move_orderly (name : ℕ) : (mid.queues name).Orderly :=
  (sound.orderly name).effect (move_effect sound asserts move name)
    (move_live sound top name)

private theorem move_accounted (name : ℕ) :
    (mid.queues name).Accounted name (mid.setThread thread (new ++ below)).threads := by
  unfold setThread
  rw [(move_moved move).threads]
  exact (sound.accounted name).effect top (move_effect sound asserts move name)

/-- A task is begun by a frame that then executes it. -/
theorem move_begun (name : ℕ) : ∀ ticket < (mid.queues name).begun,
    ticket ∈ (mid.queues name).ended ∨
      ∃ other, (mid.setThread thread (new ++ below)).Underway other name ticket := by
  intro ticket before
  have grows := move_grows sound top asserts move
  by_cases old_ : ticket < (device.queues name).begun
  · obtain ended | ⟨other, underway⟩ := sound.begun name ticket old_
    · by_cases created : name < device.created
      · exact .inl ((grows.queue name created).ended ended)
      · rw [sound.fresh name (not_lt.mp created)] at ended
        cases ended
    · exact (grows.underway other name ticket underway).2.symm.imp id fun there => ⟨other, there⟩
  · have effect := move_effect sound asserts move name
    have entered : 0 < (frameCounts name new).executes ∧ ticket = (device.queues name).begun := by
      generalize (device.queues name) = queue at effect old_
      generalize (mid.queues name) = changed at effect before
      generalize frameCounts name new = after at effect
      generalize frameCounts name old = first at effect
      cases effect with
      | enter =>
          refine ⟨Nat.one_pos, ?_⟩
          exact Nat.le_antisymm (Nat.lt_succ_iff.mp before) (not_lt.mp old_)
      | create => cases before
      | _ => exact absurd before old_
    obtain ⟨frame, member, executes⟩ := List.countP_pos_iff.mp entered.1
    obtain ⟨job, -, rfl⟩ :=
      (move_moved move).executes frame member name (of_decide_eq_true executes)
    refine .inr ⟨thread, job, ?_⟩
    rw [threads_setThread_self, entered.2]
    exact List.mem_append_left _ member

omit asserts in
/-- The guard is held by the frames that say so. -/
theorem move_guard : Accounts Frame.guards (mid.setThread thread (new ++ below)).threads
    fun other => if mid.queuesGuard = some other then 1 else 0 := by
  unfold setThread
  rw [(move_moved move).threads]
  by_cases quiet : ∀ frame ∈ old, frame.atGuard = false
  · obtain ⟨-, -, same, unguarded⟩ := (move_moved move).guard quiet
    have oldZero : old.countP Frame.guards = 0 := List.countP_eq_zero.mpr fun frame member => by
      have away := quiet frame member
      cases frame <;> first | exact Bool.false_ne_true | cases away
    have newZero : new.countP Frame.guards = 0 := List.countP_eq_zero.mpr fun frame member => by
      rw [unguarded frame member]
      exact Bool.false_ne_true
    rw [same]
    exact sound.guard.replace top (by rw [oldZero, newZero]) fun _ _ => rfl
  · cases move with
    | call => exact absurd nofun quiet
    | @frame frame _ _ taken =>
        cases frame with
        | makeQueueLock | deviceWaitLock =>
            obtain ⟨free, same⟩ := Option.ite_none_right_eq_some.mp taken
            cases same
            refine sound.guard.replace top ?_ fun other different => ?_
            · rw [if_pos rfl, free, if_neg (Option.some_ne_none thread).symm]
              rfl
            · rw [free, if_neg (Option.some_ne_none other).symm]
              exact if_neg fun same => different (Option.some.inj same).symm
        | makeQueueNew =>
            cases taken
            exact sound.guard.replace top rfl fun _ _ => rfl
        | makeQueueEmplace | deviceWaitCopy =>
            have owned := sound.guard_owner (mem_of_top top) rfl
            cases taken
            refine sound.guard.replace top ?_ fun other different => ?_
            · rw [owned, if_pos rfl, if_neg (Option.some_ne_none thread).symm]
              rfl
            · rw [owned, if_neg (Option.some_ne_none other).symm]
              exact (if_neg fun same => different (Option.some.inj same).symm).symm
        | _ => exact absurd (fun other member => List.mem_singleton.mp member ▸ rfl) quiet

omit asserts in
/-- The list of the queues is complete, apart from the queue that is being added. -/
theorem move_list :
    mid.queueWaitFns = List.range mid.queueWaitFns.length ∧
    (∀ other name, .makeQueueEmplace name ∈ (mid.setThread thread (new ++ below)).threads other →
      name = mid.queueWaitFns.length ∧ mid.created = name + 1) ∧
    ((∀ other name,
      .makeQueueEmplace name ∉ (mid.setThread thread (new ++ below)).threads other) →
      mid.created = mid.queueWaitFns.length) := by
  have threads := (move_moved move).threads
  by_cases quiet : ∀ frame ∈ old, frame.atGuard = false
  · obtain ⟨created, waitFns, -, unguarded⟩ := (move_moved move).guard quiet
    rw [created, waitFns]
    refine ⟨sound.waitFns, fun other name member => ?_, fun none_ => sound.emplaced ?_⟩
    · obtain ⟨-, fresh⟩ | kept := mem_threads_move top threads member
      · cases unguarded _ fresh
      · exact sound.emplacing other name kept.1
    · intro other name member
      obtain ⟨-, taken⟩ | kept := threads_move_mem new top threads member
      · cases quiet _ taken
      · exact none_ other name kept
  · cases move with
    | call => exact absurd nofun quiet
    | @frame frame _ _ taken =>
        cases frame with
        | makeQueueLock | deviceWaitLock =>
            obtain ⟨free, same⟩ := Option.ite_none_right_eq_some.mp taken
            cases same
            have none_ : ∀ other name, .makeQueueEmplace name ∉ device.threads other := by
              intro other name member
              cases free.symm.trans (sound.guard_owner member rfl)
            refine ⟨sound.waitFns, fun other name member => ?_, fun _ => sound.emplaced none_⟩
            obtain ⟨-, fresh⟩ | kept := mem_threads_move top threads member
            · cases List.mem_singleton.mp fresh
            · exact absurd kept.1 (none_ other name)
        | makeQueueNew isBlocking =>
            have none_ := sound.not_emplacing top rfl nofun
            have complete := sound.emplaced none_
            cases taken
            refine ⟨sound.waitFns, fun other name member => ?_, fun absent => ?_⟩
            · obtain ⟨-, fresh⟩ | kept := mem_threads_move top threads member
              · cases List.mem_singleton.mp fresh
                exact ⟨complete, rfl⟩
              · exact absurd kept.1 (none_ other name)
            · refine absurd ?_ (absent thread device.created)
              rw [threads_setThread_self]
              exact .head _
        | makeQueueEmplace name =>
            obtain ⟨number, created⟩ := sound.emplacing thread name (mem_of_top top)
            cases taken
            have list : device.queueWaitFns ++ [name] =
                List.range (device.queueWaitFns ++ [name]).length := by
              rw [List.length_append, List.length_singleton, List.range_succ, ← sound.waitFns,
                number]
            refine ⟨list, fun other later member => ?_, fun _ => ?_⟩
            · obtain ⟨-, fresh⟩ | kept := mem_threads_move top threads member
              · cases fresh
              · exact (sound.emplaces_once top rfl kept.1 kept.2).elim
            · change device.created = (device.queueWaitFns ++ [name]).length
              rw [created, number, List.length_append, List.length_singleton]
        | deviceWaitCopy wait =>
            have none_ := sound.not_emplacing top rfl nofun
            cases taken
            refine ⟨sound.waitFns, fun other name member => ?_, fun _ => sound.emplaced none_⟩
            obtain ⟨-, fresh⟩ | kept := mem_threads_move top threads member
            · cases List.mem_singleton.mp fresh
            · exact absurd kept.1 (none_ other name)
        | _ => exact absurd (fun other member => List.mem_singleton.mp member ▸ rfl) quiet

/-- A queue that has not been created is not touched. -/
theorem move_fresh : ∀ name, mid.created ≤ name → mid.queues name = {} := by
  intro name late
  have created : device.created ≤ name := (move_grows sound top asserts move).created.trans late
  exact (move_effect sound asserts move name).untouched (sound.fresh name created) created
    (not_lt.mpr late) (move_live sound top name)

/-- The queues are numbered in the order of their creation. -/
theorem move_idx : ∀ name < mid.created, (mid.queues name).idx = name := by
  intro name before
  by_cases created : name < device.created
  · exact ((move_effect sound asserts move name).idx_eq (not_le.mpr created)).trans
      (sound.idx name created)
  · have unmoved : mid.created ≠ device.created := by
      intro same
      exact created (same ▸ before)
    cases move with
    | call taken => exact absurd ((moved_call taken).guard nofun).1 unmoved
    | @frame frame _ _ taken =>
        cases at_ : frame.atGuard with
        | false =>
            have quiet := (moved_frame taken).guard fun other member =>
              List.mem_singleton.mp member ▸ at_
            exact absurd quiet.1 unmoved
        | true =>
            cases frame with
            | makeQueueLock | deviceWaitLock =>
                obtain ⟨-, same⟩ := Option.ite_none_right_eq_some.mp taken
                cases same
                exact absurd rfl unmoved
            | makeQueueNew =>
                have complete := sound.emplaced (sound.not_emplacing top rfl nofun)
                cases taken
                have last : name = device.created :=
                  Nat.le_antisymm (Nat.lt_succ_iff.mp before) (not_lt.mp created)
                rw [last]
                exact (congrArg CpuQueue.idx (queues_setQueue_self ..)).trans complete.symm
            | makeQueueEmplace | deviceWaitCopy =>
                cases taken
                exact absurd rfl unmoved
            | _ => cases at_

end Move

section Asserts

variable {after : Option Wait} {queue : CpuQueue Thread} {frame : Frame}

omit [DecidableEq Thread] in
private theorem asserts_nil : ∀ frame ∈ ([] : List Frame), device.Asserts thread frame := nofun

omit [DecidableEq Thread] in
private theorem asserts_one (asserts : device.Asserts thread frame) :
    ∀ other ∈ [frame], device.Asserts thread other :=
  fun _ member => List.mem_singleton.mp member ▸ asserts

omit [DecidableEq Thread] in
/-- After a reference has been given up, the queue is destroyed if it was the last. -/
private theorem asserts_onRelease (created : name < device.created)
    (same : device.queues name = queue)
    (waits : ∀ wait, after = some wait → device.Waits thread wait []) :
    ∀ frame ∈ onRelease queue name after, device.Asserts thread frame := by
  unfold onRelease
  split
  case isTrue expired => exact asserts_one ⟨created, same ▸ expired, waits⟩
  case isFalse =>
    cases after with
    | none => exact asserts_nil
    | some wait => exact asserts_one (waits wait rfl)

omit [DecidableEq Thread] in
private theorem waits_none : ∀ wait, none = some wait → device.Waits thread wait [] := nofun

omit [DecidableEq Thread] in
private theorem waits_some {wait : Wait} (waits : device.Waits thread wait []) :
    ∀ other, some wait = some other → device.Waits thread other [] :=
  fun _ same => Option.some.inj same ▸ waits

/-- What the frames of a new call assert. -/
theorem asserts_call {call : DeviceCall} (sound : device.Sound)
    (grows : device.Grows (mid.setThread thread (new ++ below)))
    (taken : device.callStep thread call = some (mid, new)) :
    ∀ frame ∈ new, (mid.setThread thread (new ++ below)).Asserts thread frame := by
  cases call with
  | copyDevice | dropDevice | copyHandle =>
      obtain ⟨-, same⟩ := Option.ite_none_right_eq_some.mp taken
      cases same
      exact asserts_nil
  | dropHandle name =>
      obtain ⟨handles, same⟩ := Option.ite_none_right_eq_some.mp taken
      cases same
      exact asserts_onRelease (sound.created_of_live (live_of_handles handles))
        (queues_setQueue_self ..) waits_none
  | makeQueue =>
      obtain ⟨-, same⟩ := Option.ite_none_right_eq_some.mp taken
      cases same
      exact asserts_one trivial
  | enqueueHostFn | enqueueHostFnDeferred =>
      obtain ⟨-, same⟩ := Option.ite_none_right_eq_some.mp taken
      cases same
      split
      · exact asserts_one trivial
      · exact asserts_one trivial
  | wait name =>
      obtain ⟨handles, same⟩ := Option.ite_none_right_eq_some.mp taken
      cases same
      have created := sound.created_of_live (live_of_handles handles)
      refine asserts_one (grows.asserts (.waitCheck name _) ⟨⟨?_, nofun, nofun, ?_⟩, created⟩)
      · exact started_startWait fun other target => Option.some.inj target ▸ created
      · exact fun other target => .inr (Option.some.inj target ▸ .head _)
  | deviceWait =>
      obtain ⟨-, same⟩ := Option.ite_none_right_eq_some.mp taken
      cases same
      exact asserts_one (grows.asserts (.deviceWaitLock _)
        ⟨started_startWait nofun, rfl, rfl⟩)

/-- What the frames that replace the topmost one assert. -/
theorem asserts_frame (sound : device.Sound) (top : device.threads thread = frame :: below)
    (asserts : device.Asserts thread frame)
    (grows : device.Grows (mid.setThread thread (new ++ below)))
    (taken : device.frameStep thread frame = some (mid, new)) :
    ∀ frame ∈ new, (mid.setThread thread (new ++ below)).Asserts thread frame := by
  cases frame with
  | makeQueueLock =>
      obtain ⟨-, same⟩ := Option.ite_none_right_eq_some.mp taken
      cases same
      exact asserts_one trivial
  | makeQueueNew =>
      cases taken
      exact asserts_one trivial
  | makeQueueEmplace =>
      cases taken
      exact asserts_nil
  | submit | deferredUnlock =>
      cases taken
      exact asserts_one waits_none
  | deferredSubmit =>
      cases taken
      exact asserts_one trivial
  | deferredLock =>
      obtain ⟨mutex, -, same⟩ := Option.map_eq_some_iff.mp taken
      cases same
      exact asserts_one trivial
  | submitLock name job =>
      obtain ⟨mutex, locked, same⟩ := Option.map_eq_some_iff.mp taken
      cases same
      refine asserts_one (grows.asserts (.submitEnter name job) ⟨asserts, ?_⟩)
      cases job with
      | task => trivial
      | marker wait =>
          refine fun before => (sound.executed_of_free fun other different => ?_).mono
            (asserts.1.started.begun name before)
          obtain free | owned := RecursiveMutex.owner_of_lock locked
          · exact CpuQueue.depthOf_free _ ((sound.accounted name).free free) other
          · unfold CpuQueue.depthOf
            rw [owned]
            exact if_neg fun same => different (Option.some.inj same).symm
  | submitEnter name job =>
      cases taken
      exact asserts_one (grows.asserts (.submitEnter name job) asserts)
  | submitExecute name job ticket =>
      cases taken
      exact asserts_one (grows.asserts (.submitEnter name job) asserts)
  | submitUnlock name job =>
      cases taken
      refine asserts_one (grows.asserts (.release name _) ?_)
      cases job with
      | task => exact waits_none
      | marker wait =>
          obtain ⟨⟨waits, -, blocking⟩, alone⟩ := asserts
          exact waits_some (waits.done fun before => .executed blocking (alone before))
  | waitCheck name wait =>
      obtain ⟨waits, created⟩ := asserts
      cases taken
      refine asserts_one (grows.asserts _ ?_)
      split
      case isTrue empty =>
        exact waits_some (waits.done fun before =>
          sound.settled_of_isQueueEmpty waits.started before empty)
      case isFalse =>
        split
        case isTrue blocking => exact ⟨waits, created, blocking⟩
        case isFalse nonBlocking => exact ⟨waits, created, Bool.not_eq_true _ ▸ nonBlocking⟩
  | waitSubmit name wait =>
      obtain ⟨waits, created, nonBlocking⟩ := asserts
      cases taken
      exact asserts_one (grows.asserts (.waitFuture name _ wait)
        ⟨waits, created, nonBlocking, waits.started.submitted name⟩)
  | waitFuture name promise wait =>
      obtain ⟨waits, created, nonBlocking, before⟩ := asserts
      obtain ⟨fulfilled, same⟩ := Option.ite_none_right_eq_some.mp taken
      cases same
      exact asserts_one (grows.asserts (.release name _)
        (waits_some (waits.done fun counted =>
          sound.settled_of_fulfilled nonBlocking (before counted) fulfilled)))
  | deviceWaitLock wait =>
      obtain ⟨-, same⟩ := Option.ite_none_right_eq_some.mp taken
      cases same
      exact asserts_one (grows.asserts (.deviceWaitLock wait) asserts)
  | deviceWaitCopy wait =>
      obtain ⟨started, target, waited⟩ := asserts
      have complete := sound.emplaced (sound.not_emplacing top rfl nofun)
      cases taken
      refine asserts_one (grows.asserts (.deviceWaitNext _)
        ⟨⟨started.created, started.submitted, started.begun, started.target⟩, ?_, ?_, ?_⟩)
      · intro name member
        rw [waited] at member
        cases member
      · intro _ name before
        refine .inr (.inr ?_)
        rw [sound.waitFns, List.mem_range, ← complete]
        exact before.trans_le started.created
      · intro name same
        cases target.symm.trans same
  | deviceWaitNext wait =>
      unfold frameStep at taken
      dsimp only at taken
      split at taken
      case h_1 name rest queues =>
        have waits : device.Waits thread { wait with rest } [name] := by
          refine ⟨⟨asserts.started.created, asserts.started.submitted, asserts.started.begun,
            asserts.started.target⟩, asserts.waited, fun target other before => ?_,
            fun other target => ?_⟩
          · obtain waited | current | later := asserts.all target other before
            · exact .inl waited
            · cases current
            · rw [queues] at later
              obtain here | later := List.mem_cons.mp later
              · exact .inr (.inl (here ▸ .head _))
              · exact .inr (.inr later)
          · obtain waited | current := asserts.one other target
            · exact .inl waited
            · cases current
        split at taken
        case isTrue expired =>
          cases taken
          exact asserts_one (grows.asserts (.deviceWaitNext _)
            (waits.done fun _ => .expired expired))
        case isFalse live =>
          cases taken
          exact asserts_one (grows.asserts (.waitCheck name _)
            ⟨waits, sound.created_of_live live⟩)
      case h_2 =>
        cases taken
        exact asserts_nil
  | release name after =>
      have created := sound.created_of_live
        ((sound.accounted name).live (mem_of_top top) (decide_eq_true rfl))
      cases taken
      exact asserts_onRelease created (queues_setQueue_self ..)
        fun wait same => grows.waits (asserts wait same)
  | destroyStop name after =>
      obtain ⟨created, -, waits⟩ := asserts
      cases taken
      refine asserts_one ⟨created, ?_, fun wait same => grows.waits (waits wait same)⟩
      change ((device.setQueue name _).queues name).callbackThread.stopRequested = true
      rw [queues_setQueue_self]
      rfl
  | destroyJoin name after =>
      obtain ⟨created, -, waits⟩ := asserts
      obtain ⟨-, same⟩ := Option.ite_none_right_eq_some.mp taken
      cases same
      cases after with
      | none => exact asserts_nil
      | some wait => exact asserts_one (grows.waits (waits wait rfl))

end Asserts

/-! ## Every step keeps the invariant -/

/-- What every step gives. -/
structure Kept (device next : CpuDevice Thread) : Prop where
  sound : next.Sound
  grows : device.Grows next
  pushed : ∀ thread, ∀ frame ∈ next.threads thread,
    frame ∈ device.threads thread ∨ next.Asserts thread frame

theorem Move.kept (sound : device.Sound) (top : device.threads thread = old ++ below)
    (asserts : ∀ frame ∈ old, device.Asserts thread frame)
    (move : device.Move thread old mid new) :
    device.Kept (mid.setThread thread (new ++ below)) := by
  have grows := move_grows sound top asserts move
  obtain ⟨list, emplacing, emplaced⟩ := move_list sound top move
  have orderly := move_orderly sound top asserts move
  have fresh := move_fresh sound top asserts move
  have idx := move_idx sound top asserts move
  refine ⟨⟨orderly, move_accounted sound top asserts move, move_guard sound top move,
    move_begun sound top asserts move, fresh, list, emplacing, emplaced, idx, ?_⟩, grows, ?_⟩
  · intro other wait member
    obtain same | ⟨last, rfl, nothing, same⟩ := (move_moved move).waits
    · have recorded := sound.waits other wait (same ▸ member)
      exact ⟨recorded.1, grows.waits recorded.2⟩
    · obtain recorded | fresh := List.mem_append.mp (same ▸ member)
      · have kept := sound.waits other wait recorded
        exact ⟨kept.1, grows.waits kept.2⟩
      · cases List.mem_singleton.mp fresh
        exact ⟨nothing, grows.waits (asserts _ (.head _))⟩
  · intro other frame member
    obtain ⟨rfl, fresh⟩ | kept := mem_threads_move top (move_moved move).threads member
    · refine .inr ?_
      cases move with
      | call taken => exact asserts_call sound grows taken frame fresh
      | frame taken => exact asserts_frame sound top (asserts _ (.head _)) grows taken frame fresh
    · exact .inl kept.1

omit [DecidableEq Thread] in
/-- A step of a callback thread. -/
theorem workerStep_cases {outcome : Outcome} (taken : device.workerStep name outcome = some next) :
    ∃ callbackThread, next = device.setQueue name
        ((device.queues name).setCallbackThread callbackThread) ∧
      (device.queues name).callbackThread.worker ≠ .absent ∧
      ((device.queues name).Orderly →
        ((device.queues name).setCallbackThread callbackThread).Orderly ∧
        (device.queues name).Grows
          ((device.queues name).setCallbackThread callbackThread)) := by
  unfold workerStep at taken
  obtain ⟨callbackThread, stepped, rfl⟩ := Option.map_eq_some_iff.mp taken
  refine ⟨callbackThread, rfl, fun absent => ?_, fun orderly => ?_⟩
  · rw [absent] at stepped
    unfold CallbackThread.advance at stepped
    dsimp only at stepped
    rw [absent] at stepped
    cases stepped
  · split at stepped
    case h_1 package point working =>
      cases stepped
      exact orderly.finish working outcome
    case h_2 => exact orderly.advance stepped

private theorem workerStep_kept (sound : device.Sound) {outcome : Outcome}
    (taken : device.workerStep name outcome = some next) : device.Kept next := by
  obtain ⟨callbackThread, rfl, present, keeps⟩ := workerStep_cases taken
  obtain ⟨orderly, growth⟩ := keeps (sound.orderly name)
  have created : name < device.created := by
    by_contra late
    rw [sound.fresh name (not_lt.mp late)] at present
    exact present rfl
  have cases_ (other : ℕ) : other = name ∧ (device.setQueue name
      ((device.queues name).setCallbackThread callbackThread)).queues other =
        (device.queues name).setCallbackThread callbackThread ∨
      (device.setQueue name
        ((device.queues name).setCallbackThread callbackThread)).queues other =
          device.queues other := by
    by_cases same : other = name
    · exact .inl ⟨same, by rw [same, queues_setQueue_self]⟩
    · exact .inr (queues_setQueue_of_ne same ..)
  have grows : device.Grows (device.setQueue name
      ((device.queues name).setCallbackThread callbackThread)) := by
    refine ⟨le_rfl, fun other before => ?_, fun thread other ticket underway => ?_⟩
    · obtain ⟨rfl, same⟩ | same := cases_ other
      · rw [same]
        exact growth
      · rw [same]
        exact .refl _
    · obtain ⟨job, member⟩ := underway
      exact ⟨sound.created_of_live ((sound.accounted other).live member (decide_eq_true rfl)),
        .inl ⟨job, member⟩⟩
  refine ⟨⟨fun other => ?_, fun other => ?_, sound.guard, fun other ticket before => ?_,
    fun other late => ?_, sound.waitFns, sound.emplacing, sound.emplaced, fun other before => ?_,
    fun thread wait member => ?_⟩, grows, fun thread frame member => .inl member⟩
  · obtain ⟨rfl, same⟩ | same := cases_ other
    · rw [same]
      exact orderly
    · rw [same]
      exact sound.orderly other
  · obtain ⟨rfl, same⟩ | same := cases_ other
    · rw [same]
      exact ⟨(sound.accounted other).holders, (sound.accounted other).mutex,
        (sound.accounted other).depth, (sound.accounted other).free⟩
    · rw [same]
      exact sound.accounted other
  · obtain ⟨rfl, same⟩ | same := cases_ other
    · rw [same] at before ⊢
      exact sound.begun other ticket before
    · rw [same] at before ⊢
      exact sound.begun other ticket before
  · obtain ⟨rfl, -⟩ | same := cases_ other
    · exact absurd created (not_lt.mpr late)
    · rw [same]
      exact sound.fresh other late
  · obtain ⟨rfl, same⟩ | same := cases_ other
    · rw [same]
      exact sound.idx other before
    · rw [same]
      exact sound.idx other before
  · have recorded := sound.waits thread wait member
    exact ⟨recorded.1, grows.waits recorded.2⟩

private theorem step_kept {action : DeviceAction Thread} (sound : device.Sound)
    (asserts : ∀ thread, ∀ frame ∈ device.threads thread, device.Asserts thread frame)
    (taken : step device action = some next) : device.Kept next := by
  obtain ⟨thread, old, below, mid, new, top, move, rfl⟩ | ⟨name, outcome, stepped⟩ :=
    step_cases taken
  · refine move.kept sound top fun frame member => asserts thread frame ?_
    rw [top]
    exact List.mem_append_left _ member
  · exact workerStep_kept sound stepped

private theorem sound_initial : ({} : CpuDevice Thread).Sound where
  orderly := fun _ => CpuQueue.orderly_initial
  accounted := fun _ => ⟨fun _ => rfl, fun _ => rfl, fun _ => ite_self 0, fun _ => rfl⟩
  guard := fun _ => rfl
  begun := nofun
  fresh := fun _ _ => rfl
  waitFns := rfl
  emplacing := nofun
  emplaced := fun _ => rfl
  idx := nofun
  waits := nofun

theorem framed : Framed (@step Thread _) CpuDevice.threads Sound Asserts where
  shared := fun _ _ _ sound asserts taken => (step_kept sound asserts taken).sound
  kept := fun _ _ _ sound asserts taken _ frame holds =>
    (step_kept sound asserts taken).grows.asserts frame holds
  pushed := fun _ _ _ sound asserts taken => (step_kept sound asserts taken).pushed

theorem sound_reachable (reachable : Reachable step {} device) : device.Sound :=
  (framed.reachable reachable sound_initial fun _ => rfl).1

/-! ## Main results -/

/-- **Waiting.** What a queue had accepted at the call of a wait for it or for the
device is finished at the return, unless the last reference to the queue has gone; a
blocking queue may still be executing tasks of the waiting thread itself. -/
theorem wait_sound (reachable : Reachable step {} device) {wait : Wait}
    (returned : (thread, wait) ∈ device.waits) (before : name < wait.created)
    (covers : wait.target = none ∨ wait.target = some name) :
    device.Settled thread (wait.before name) name := by
  obtain ⟨nothing, waits⟩ := (sound_reachable reachable).waits thread wait returned
  refine waits.waited name ?_ before
  obtain target | target := covers
  · obtain waited | current | rest := waits.all target name before
    · exact waited
    · cases current
    · rw [nothing] at rest
      cases rest
  · obtain waited | current := waits.one name target
    · exact waited
    · cases current

/-- A queue is made, a task is submitted to it, and another thread waits for the device. -/
private def waitForTask : List (DeviceAction Bool) :=
  [.call false (.makeQueue false), .thread false, .thread false, .thread false,
    .call false (.enqueueHostFn 0), .thread false, .thread false,
    .call true .deviceWait, .thread true, .thread true, .thread true, .thread true, .thread true] ++
  List.replicate 12 (.worker 0 .value) ++ [.thread true, .thread true, .thread true]

private theorem waitForTask_runs : (run step {} waitForTask).map (fun device =>
    (device.waits.map fun (thread, wait) =>
      (thread, wait.target, wait.created, (wait.before 0).submitted), (device.queues 0).handles)) =
    some ([(true, none, 1, 1)], 1) := by
  decide

theorem wait_sound_task : ∃ (device : CpuDevice Bool) (wait : Wait), Reachable step {} device ∧
    (true, wait) ∈ device.waits ∧ (wait.before 0).submitted = 1 ∧
    ¬ (device.queues 0).Expired ∧ device.Settled true (wait.before 0) 0 := by
  obtain ⟨device, reached, shape⟩ := Option.map_eq_some_iff.mp waitForTask_runs
  obtain ⟨recorded, handles⟩ := Prod.mk.inj shape
  have reachable : Reachable step {} device := ⟨_, reached⟩
  obtain ⟨⟨thread, wait⟩, rest, list, entry, -⟩ := List.map_eq_cons_iff.mp recorded
  obtain ⟨rfl, target, created, submitted⟩ : thread = true ∧ wait.target = none ∧
      wait.created = 1 ∧ (wait.before 0).submitted = 1 := by
    simpa using entry
  have member : (true, wait) ∈ device.waits := list ▸ .head _
  refine ⟨device, wait, reachable, member, submitted, fun expired => ?_,
    wait_sound reachable member (created ▸ Nat.one_pos) (.inl target)⟩
  cases expired.1.symm.trans handles

/-- **The end of the device.** When the last reference to the device goes, all tasks
of all queues have finished, deferred ones included. -/
theorem finished_of_unreferenced (reachable : Reachable step {} device)
    (unreferenced : device.references = 0) (created : name < device.created) :
    (∀ promise < (device.queues name).callbackThread.submitted.length,
      promise ∈ (device.queues name).callbackThread.finished) ∧
    ∀ ticket < (device.queues name).begun, ticket ∈ (device.queues name).ended := by
  have sound := sound_reachable reachable
  have orderly := sound.orderly name
  have destroyed : (device.queues name).destroyed = true := by
    have all := List.countP_eq_zero.mp (Nat.eq_zero_of_add_eq_zero_left unreferenced) name
      (List.mem_range.mpr created)
    simpa using all
  refine ⟨fun promise => orderly.finished_of_destroyed destroyed, fun ticket begun => ?_⟩
  obtain ended | ⟨other, job, member⟩ := sound.begun name ticket begun
  · exact ended
  · have live := (sound.accounted name).live member (decide_eq_true rfl)
    exact absurd (orderly.stopped (orderly.destroyed destroyed).1) live

/-- A queue gets a task, and all references are given up; the queue is destroyed after
its callback thread has run the task and has exited. -/
private def dropAll : List (DeviceAction Unit) :=
  [.call () (.makeQueue false), .thread (), .thread (), .thread (),
    .call () (.enqueueHostFn 0), .thread (), .thread (),
    .call () .dropDevice, .call () (.dropHandle 0), .thread ()] ++
  List.replicate 7 (.worker 0 .exception) ++ [.thread ()]

private theorem dropAll_runs : (run step {} dropAll).map (fun device =>
    (device.references, device.created, (device.queues 0).callbackThread.submitted.length)) =
    some (0, 1, 1) := by
  decide

theorem finished_of_unreferenced_dropAll : ∃ device : CpuDevice Unit, Reachable step {} device ∧
    device.references = 0 ∧ 0 ∈ (device.queues 0).callbackThread.finished := by
  obtain ⟨device, reached, shape⟩ := Option.map_eq_some_iff.mp dropAll_runs
  obtain ⟨references, created, submitted⟩ : device.references = 0 ∧ device.created = 1 ∧
      (device.queues 0).callbackThread.submitted.length = 1 := by
    simpa using shape
  have finished := finished_of_unreferenced ⟨_, reached⟩ references (created ▸ Nat.one_pos)
  exact ⟨device, ⟨_, reached⟩, references, finished.1 0 (submitted ▸ Nat.one_pos)⟩

/-- **Emptiness.** A blocking queue is reported empty exactly when no thread executes one
of its tasks. -/
theorem isQueueEmpty_iff (reachable : Reachable step {} device)
    (blocking : (device.queues name).isBlocking = true) :
    (device.queues name).isQueueEmpty = true ↔
      ∀ other ticket, ¬ device.Underway other name ticket := by
  have accounted := (sound_reachable reachable).accounted name
  unfold CpuQueue.isQueueEmpty
  rw [if_pos blocking, decide_eq_true_iff]
  constructor
  · intro depth other ticket ⟨job, member⟩
    have executing := accounted.depth.pos member (decide_eq_true rfl)
    rw [CpuQueue.depthOf_free _ depth other] at executing
    exact absurd executing (Nat.lt_irrefl 0)
  · intro idle
    by_contra deep
    cases owned : (device.queues name).mutex.owner with
    | none => exact deep (accounted.free owned)
    | some owner =>
        have executing := accounted.depth owner
        rw [CpuQueue.depthOf, if_pos owned] at executing
        obtain ⟨frame, member, executes⟩ :=
          List.countP_pos_iff.mp (executing ▸ Nat.pos_of_ne_zero deep)
        cases frame with
        | submitExecute other job ticket =>
            cases Option.some.inj (of_decide_eq_true executes)
            exact idle owner ticket ⟨job, member⟩
        | _ => cases executes

/-- A task of a blocking queue is being executed, and another one inside it. -/
private def executeTwice : List (DeviceAction Unit) :=
  [.call () (.makeQueue true), .thread (), .thread (), .thread (),
    .call () (.enqueueHostFn 0), .thread (), .thread (),
    .call () (.enqueueHostFn 0), .thread (), .thread ()]

private theorem executeTwice_runs : (run step {} executeTwice).map (fun device =>
    ((device.queues 0).isBlocking, (device.queues 0).isQueueEmpty,
      (device.queues 0).blockingTaskExecutionDepth)) = some (true, false, 2) := by
  decide

theorem isQueueEmpty_iff_executeTwice : ∃ device : CpuDevice Unit, Reachable step {} device ∧
    ¬ ∀ other ticket, ¬ device.Underway other 0 ticket := by
  obtain ⟨device, reached, shape⟩ := Option.map_eq_some_iff.mp executeTwice_runs
  obtain ⟨blocking, busy, -⟩ : (device.queues 0).isBlocking = true ∧
      (device.queues 0).isQueueEmpty = false ∧
      (device.queues 0).blockingTaskExecutionDepth = 2 := by
    simpa using shape
  refine ⟨device, ⟨_, reached⟩, fun idle => ?_⟩
  cases busy.symm.trans ((isQueueEmpty_iff ⟨_, reached⟩ blocking).mpr idle)

end CpuDevice

end Alpaka
