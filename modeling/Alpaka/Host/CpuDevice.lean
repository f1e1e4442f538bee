import Alpaka.Host.CallbackThread
import Alpaka.Math.RecursiveMutex
import Alpaka.Math.Stacks

/-! # The host device and its queues

A device that hands out blocking and non-blocking queues and knows them by functions
that wait for them and only hold weak references. Threads call the device and the
queues in any order; a call consists of several steps, and a task that a blocking queue
runs in the calling thread may call them again, so that a thread has a stack of calls.
Queues are destroyed by the thread that gives up the last reference.

A task that a callback thread runs may call the device and the queues too. It does so
as one of the threads, whose steps are free to fall anywhere. No task owns a
reference to its own queue.
-/

namespace Alpaka

open Math

/-- How many tasks a queue has accepted: those for its callback thread, and those
that a blocking queue runs in the calling thread. -/
structure QueueCounts where
  submitted : ℕ
  begun : ℕ

/-- A queue. Its references are the handles of the user and the calls in progress;
the tasks that were begun and ended in the calling threads are kept as history. -/
structure CpuQueue (Thread : Type*) where
  idx : ℕ := 0
  isBlocking : Bool := false
  callbackThread : CallbackThread Unit Unit := {}
  mutex : RecursiveMutex Thread := {}
  blockingTaskExecutionDepth : ℕ := 0
  handles : ℕ := 0
  holders : List Thread := []
  destroyed : Bool := false
  begun : ℕ := 0
  ended : List ℕ := []

namespace CpuQueue

variable {Thread : Type*} [DecidableEq Thread] {queue : CpuQueue Thread}

def counts (queue : CpuQueue Thread) : QueueCounts :=
  ⟨queue.callbackThread.submitted.length, queue.begun⟩

/-- The last reference is gone: a weak reference cannot be locked any more. -/
def Expired (queue : CpuQueue Thread) : Prop := queue.handles = 0 ∧ queue.holders = []

instance : Decidable queue.Expired :=
  decidable_of_iff (queue.handles = 0 ∧ queue.holders.isEmpty = true)
    (and_congr_right fun _ => List.isEmpty_iff)

/-- Checks if the queue is empty. -/
def isQueueEmpty (queue : CpuQueue Thread) : Bool :=
  if queue.isBlocking then queue.blockingTaskExecutionDepth = 0
  else queue.callbackThread.isEmpty

/-- A thread takes a reference. -/
def hold (thread : Thread) (queue : CpuQueue Thread) : CpuQueue Thread :=
  { queue with holders := thread :: queue.holders }

/-- A thread gives up a reference. -/
def letGo (thread : Thread) (queue : CpuQueue Thread) : CpuQueue Thread :=
  { queue with holders := queue.holders.erase thread }

/-- The reference that created the queue becomes a handle of the user. -/
def handOut (thread : Thread) (queue : CpuQueue Thread) : CpuQueue Thread :=
  { queue with handles := queue.handles + 1, holders := queue.holders.erase thread }

/-- A task is begun in the calling thread. -/
def enter (queue : CpuQueue Thread) : CpuQueue Thread :=
  { queue with
    blockingTaskExecutionDepth := queue.blockingTaskExecutionDepth + 1
    begun := queue.begun + 1 }

/-- A task that was begun in the calling thread returns or throws. -/
def leave (ticket : ℕ) (queue : CpuQueue Thread) : CpuQueue Thread :=
  { queue with
    blockingTaskExecutionDepth := queue.blockingTaskExecutionDepth - 1
    ended := queue.ended ++ [ticket] }

def setCallbackThread (callbackThread : CallbackThread Unit Unit) (queue : CpuQueue Thread) :
    CpuQueue Thread :=
  { queue with callbackThread }

def setMutex (mutex : RecursiveMutex Thread) (queue : CpuQueue Thread) : CpuQueue Thread :=
  { queue with mutex }

end CpuQueue

/-- A call that waits for a queue or for all queues of the device. What had been accepted
and created at the call, and the queues that have been dealt with, are kept as history. -/
structure Wait where
  target : Option ℕ
  before : ℕ → QueueCounts
  created : ℕ
  waited : List ℕ := []
  rest : List ℕ := []

/-- A queue is dealt with. -/
def Wait.done (queue : ℕ) (wait : Wait) : Wait := { wait with waited := wait.waited ++ [queue] }

/-- What a blocking queue runs in the calling thread: a task of the user, or the empty
task that a wait submits. -/
inductive Job
  | task
  | marker (wait : Wait)

/-- How far a thread is in a call. -/
inductive Frame
  | makeQueueLock (isBlocking : Bool)
  | makeQueueNew (isBlocking : Bool)
  | makeQueueEmplace (queue : ℕ)
  | submit (queue : ℕ)
  | submitLock (queue : ℕ) (job : Job)
  | submitEnter (queue : ℕ) (job : Job)
  | submitExecute (queue : ℕ) (job : Job) (ticket : ℕ)
  | submitUnlock (queue : ℕ) (job : Job)
  | deferredLock (queue : ℕ)
  | deferredSubmit (queue : ℕ)
  | deferredUnlock (queue : ℕ)
  | waitCheck (queue : ℕ) (wait : Wait)
  | waitSubmit (queue : ℕ) (wait : Wait)
  | waitFuture (queue : ℕ) (promise : ℕ) (wait : Wait)
  | deviceWaitLock (wait : Wait)
  | deviceWaitCopy (wait : Wait)
  | deviceWaitNext (wait : Wait)
  | release (queue : ℕ) (after : Option Wait)
  | destroyStop (queue : ℕ) (after : Option Wait)
  | destroyJoin (queue : ℕ) (after : Option Wait)

/-- The operations of the threads. -/
inductive DeviceCall
  | copyDevice
  | dropDevice
  | copyHandle (queue : ℕ)
  | dropHandle (queue : ℕ)
  | makeQueue (isBlocking : Bool)
  | enqueueHostFn (queue : ℕ)
  | enqueueHostFnDeferred (queue : ℕ)
  | wait (queue : ℕ)
  | deviceWait

/-- The device, its queues and the threads. The waits that have returned are kept as
history. -/
structure CpuDevice (Thread : Type*) where
  queues : ℕ → CpuQueue Thread := fun _ => {}
  created : ℕ := 0
  queueWaitFns : List ℕ := []
  queuesGuard : Option Thread := none
  handles : ℕ := 1
  holders : List Thread := []
  threads : Thread → List Frame := fun _ => []
  waits : List (Thread × Wait) := []

/-- A thread begins a call or takes its next step, or the callback thread of a queue
takes its next step; the task that is being run may return or throw. -/
inductive DeviceAction (Thread : Type*)
  | call (thread : Thread) (call : DeviceCall)
  | thread (thread : Thread)
  | worker (queue : ℕ) (outcome : Outcome)

namespace CpuDevice

variable {Thread : Type*} [DecidableEq Thread]

def setQueue (name : ℕ) (queue : CpuQueue Thread) (device : CpuDevice Thread) :
    CpuDevice Thread :=
  { device with queues := Function.update device.queues name queue }

def setThread (thread : Thread) (frames : List Frame) (device : CpuDevice Thread) :
    CpuDevice Thread :=
  { device with threads := Function.update device.threads thread frames }

omit [DecidableEq Thread] in
@[simp]
theorem queues_setQueue_self (name : ℕ) (queue : CpuQueue Thread) (device : CpuDevice Thread) :
    (device.setQueue name queue).queues name = queue := Function.update_self ..

omit [DecidableEq Thread] in
theorem queues_setQueue_of_ne {name other : ℕ} (different : other ≠ name)
    (queue : CpuQueue Thread) (device : CpuDevice Thread) :
    (device.setQueue name queue).queues other = device.queues other :=
  Function.update_of_ne different ..

@[simp]
theorem threads_setThread_self (thread : Thread) (frames : List Frame)
    (device : CpuDevice Thread) : (device.setThread thread frames).threads thread = frames :=
  Function.update_self ..

theorem threads_setThread_of_ne {thread other : Thread} (different : other ≠ thread)
    (frames : List Frame) (device : CpuDevice Thread) :
    (device.setThread thread frames).threads other = device.threads other :=
  Function.update_of_ne different ..

/-- The references to the device: the handles of the user, the calls in progress and
the queues. -/
def references (device : CpuDevice Thread) : ℕ :=
  device.handles + device.holders.length +
    (List.range device.created).countP fun queue => !(device.queues queue).destroyed

/-- What is to be done when a thread has given up a reference to a queue. -/
def onRelease (queue : CpuQueue Thread) (name : ℕ) (after : Option Wait) : List Frame :=
  if queue.Expired then [.destroyStop name after]
  else match after with
    | none => []
    | some wait => [.deviceWaitNext wait]

/-- What has been accepted and created up to now. -/
def startWait (target : Option ℕ) (device : CpuDevice Thread) : Wait where
  target
  before := fun queue => (device.queues queue).counts
  created := device.created

/-- A call is made through a handle; the call keeps a reference while it is in progress. -/
def callStep (thread : Thread) (device : CpuDevice Thread) :
    DeviceCall → Option (CpuDevice Thread × List Frame)
  | .copyDevice =>
      if 0 < device.handles then some ({ device with handles := device.handles + 1 }, [])
      else none
  | .dropDevice =>
      if 0 < device.handles then some ({ device with handles := device.handles - 1 }, [])
      else none
  | .copyHandle name =>
      let queue := device.queues name
      if 0 < queue.handles then
        some (device.setQueue name { queue with handles := queue.handles + 1 }, [])
      else none
  | .dropHandle name =>
      let queue := device.queues name
      if 0 < queue.handles then
        let dropped := { queue with handles := queue.handles - 1 }
        some (device.setQueue name dropped, onRelease dropped name none)
      else none
  | .makeQueue isBlocking =>
      if 0 < device.handles then
        some ({ device with holders := thread :: device.holders }, [.makeQueueLock isBlocking])
      else none
  | .enqueueHostFn name =>
      let queue := device.queues name
      if 0 < queue.handles then
        some (device.setQueue name (queue.hold thread),
          [if queue.isBlocking then .submitLock name .task else .submit name])
      else none
  | .enqueueHostFnDeferred name =>
      let queue := device.queues name
      if 0 < queue.handles then
        some (device.setQueue name (queue.hold thread),
          [if queue.isBlocking then .deferredLock name else .submit name])
      else none
  | .wait name =>
      let queue := device.queues name
      if 0 < queue.handles then
        some (device.setQueue name (queue.hold thread),
          [.waitCheck name (device.startWait (some name))])
      else none
  | .deviceWait =>
      if 0 < device.handles then
        some ({ device with holders := thread :: device.holders },
          [.deviceWaitLock (device.startWait none)])
      else none

/-- The next step of a thread at its topmost frame, and what the frame is replaced by. -/
def frameStep (thread : Thread) (device : CpuDevice Thread) :
    Frame → Option (CpuDevice Thread × List Frame)
  -- Device::makeQueue
  | .makeQueueLock isBlocking =>
      if device.queuesGuard = none then
        some ({ device with queuesGuard := some thread }, [.makeQueueNew isBlocking])
      else none
  | .makeQueueNew isBlocking =>
      let name := device.created
      let queue := { idx := device.queueWaitFns.length, isBlocking, holders := [thread] }
      some ({ device.setQueue name queue with created := name + 1 }, [.makeQueueEmplace name])
  | .makeQueueEmplace name =>
      some ({ device.setQueue name ((device.queues name).handOut thread) with
        queueWaitFns := device.queueWaitFns ++ [name]
        queuesGuard := none
        holders := device.holders.erase thread }, [])
  -- Queue::submit
  | .submit name =>
      let queue := device.queues name
      let (_, submitted) := queue.callbackThread.submit ()
      some (device.setQueue name (queue.setCallbackThread submitted), [.release name none])
  | .submitLock name job =>
      let queue := device.queues name
      (queue.mutex.lock thread).map fun locked =>
        (device.setQueue name (queue.setMutex locked), [.submitEnter name job])
  | .submitEnter name job =>
      let queue := device.queues name
      some (device.setQueue name queue.enter, [.submitExecute name job queue.begun])
  | .submitExecute name job ticket =>
      some (device.setQueue name ((device.queues name).leave ticket), [.submitUnlock name job])
  | .submitUnlock name job =>
      let queue := device.queues name
      let after := match job with
        | .task => none
        | .marker wait => some (wait.done name)
      some (device.setQueue name (queue.setMutex queue.mutex.unlock), [.release name after])
  -- Queue::enqueueHostFnDeferred
  | .deferredLock name =>
      let queue := device.queues name
      (queue.mutex.lock thread).map fun locked =>
        (device.setQueue name (queue.setMutex locked), [.deferredSubmit name])
  | .deferredSubmit name =>
      let queue := device.queues name
      let (_, submitted) := queue.callbackThread.submit ()
      some (device.setQueue name (queue.setCallbackThread submitted), [.deferredUnlock name])
  | .deferredUnlock name =>
      let queue := device.queues name
      some (device.setQueue name (queue.setMutex queue.mutex.unlock), [.release name none])
  -- Wait::Op
  | .waitCheck name wait =>
      let queue := device.queues name
      some (device,
        [if queue.isQueueEmpty then .release name (some (wait.done name))
          else if queue.isBlocking then .submitLock name (.marker wait)
          else .waitSubmit name wait])
  | .waitSubmit name wait =>
      let queue := device.queues name
      let (promise, submitted) := queue.callbackThread.submit ()
      some (device.setQueue name (queue.setCallbackThread submitted),
        [.waitFuture name promise wait])
  | .waitFuture name promise wait =>
      if ((device.queues name).callbackThread.fulfilled promise).isSome then
        some (device, [.release name (some (wait.done name))])
      else none
  -- Device::wait
  | .deviceWaitLock wait =>
      if device.queuesGuard = none then
        some ({ device with queuesGuard := some thread }, [.deviceWaitCopy wait])
      else none
  | .deviceWaitCopy wait =>
      some ({ device with queuesGuard := none },
        [.deviceWaitNext { wait with rest := device.queueWaitFns }])
  | .deviceWaitNext wait =>
      match wait.rest with
      | name :: rest =>
          let queue := device.queues name
          let wait := { wait with rest }
          if queue.Expired then some (device, [.deviceWaitNext (wait.done name)])
          else some (device.setQueue name (queue.hold thread), [.waitCheck name wait])
      | [] =>
          some ({ device with
            waits := device.waits ++ [(thread, wait)]
            holders := if wait.target = none then device.holders.erase thread
              else device.holders }, [])
  -- the end of a reference to a queue, and the destructor of the queue
  | .release name after =>
      let released := (device.queues name).letGo thread
      some (device.setQueue name released, onRelease released name after)
  | .destroyStop name after =>
      let queue := device.queues name
      some (device.setQueue name
        (queue.setCallbackThread { queue.callbackThread with stopRequested := true }),
        [.destroyJoin name after])
  | .destroyJoin name after =>
      let queue := device.queues name
      if queue.callbackThread.worker = .absent ∨ queue.callbackThread.worker = .exited then
        some (device.setQueue name { queue with destroyed := true }, match after with
          | none => []
          | some wait => [.deviceWaitNext wait])
      else none

/-- The next step of the callback thread of a queue. -/
def workerStep (name : ℕ) (outcome : Outcome) (device : CpuDevice Thread) :
    Option (CpuDevice Thread) :=
  let queue := device.queues name
  (match queue.callbackThread.worker with
    | .running package _ => some (queue.callbackThread.finish package outcome)
    | _ => queue.callbackThread.advance ()).map fun callbackThread =>
      device.setQueue name (queue.setCallbackThread callbackThread)

/-- A thread is free for a call if it is in none or executes a task of the user. -/
def canCall : List Frame → Bool
  | [] | .submitExecute _ .task _ :: _ => true
  | _ => false

def step (device : CpuDevice Thread) : DeviceAction Thread → Option (CpuDevice Thread)
  | .call thread call =>
      if canCall (device.threads thread) then
        (device.callStep thread call).map fun (next, frames) =>
          next.setThread thread (frames ++ device.threads thread)
      else none
  | .thread thread =>
      match device.threads thread with
      | [] => none
      | frame :: below =>
          (device.frameStep thread frame).map fun (next, frames) =>
            next.setThread thread (frames ++ below)
  | .worker name outcome => device.workerStep name outcome

end CpuDevice

end Alpaka
