import Alpaka.Host.Event
import Alpaka.Math.WaitFor

/-! # Blocking and non-blocking queues

A blocking queue has no worker. It carries out a task in the thread that submits it, under
the mutex of the queue; enqueueing an event into it and waiting for an event take this
mutex while they hold that of the event. The threads and the non-blocking queues are those
of `Alpaka.Host`; a thread is in one call at a time.

The tasks of the users do not touch queues or events, so that nobody takes the recursive
mutex of a queue twice.
-/

namespace Alpaka

/-- The operations of the host threads on a blocking queue, and the check of an event. -/
inductive BlockingCall (Blocking Ev : Type*)
  | enqueueHostFn (queue : Blocking)
  | enqueue (queue : Blocking) (event : Ev)
  | waitFor (queue : Blocking) (event : Ev)
  | isEventComplete (event : Ev)

/-- How far a thread is in such a call. -/
inductive BlockingPoint (Queue Blocking Ev : Type*)
  | idle
  | hostFnLock (queue : Blocking)
  | hostFnRun (queue : Blocking)
  | enqueueLock (queue : Blocking) (event : Ev)
  | enqueueCount (queue : Blocking) (event : Ev)
  | enqueueQueueLock (queue : Blocking) (event : Ev) (enqueueCount : ℕ)
  | enqueueComplete (queue : Blocking) (event : Ev) (enqueueCount : ℕ)
  | enqueueUnlock (event : Ev)
  | waitForLock (queue : Blocking) (event : Ev)
  | waitForCheck (queue : Blocking) (event : Ev)
  | waitForQueueLock (queue : Blocking) (event : Ev)
  | waitForUnlock (queue : Blocking) (event : Ev) (sFuture : SharedFuture Queue)
  | waitForGet (queue : Blocking) (sFuture : SharedFuture Queue)
  | completeLock (event : Ev)
  | completeRead (event : Ev)
  deriving DecidableEq

structure BlockingQueue (Thread : Type*) where
  mutex : Option Thread := none
  blockingTaskExecutionDepth : ℕ := 0

/-- Queues of both kinds. The order in which tasks were submitted is kept as history. -/
structure MixedHost (Queue Blocking Ev Thread : Type*) where
  host : Host Queue Ev Thread := {}
  blocking : Blocking → BlockingQueue Thread := fun _ => {}
  points : Thread → BlockingPoint Queue Blocking Ev := fun _ => .idle
  log : List (Future Queue) := []

/-- What happens on the non-blocking queues, and a thread begins a call on a blocking one
or takes its next step there. -/
inductive MixedAction (Queue Blocking Ev Thread : Type*)
  | host (action : HostAction Queue Ev Thread)
  | call (thread : Thread) (call : BlockingCall Blocking Ev)
  | thread (thread : Thread)

def MixedAction.agent {Queue Blocking Ev Thread : Type*} :
    MixedAction Queue Blocking Ev Thread → Agent Queue Thread
  | .host action => action.agent
  | .call caller _ => .thread caller
  | .thread caller => .thread caller

namespace MixedHost

variable {Queue Blocking Ev Thread : Type*} [DecidableEq Queue] [DecidableEq Blocking]
  [DecidableEq Ev] [DecidableEq Thread]

def setBlocking (queue : Blocking) (changed : BlockingQueue Thread)
    (mixed : MixedHost Queue Blocking Ev Thread) : MixedHost Queue Blocking Ev Thread :=
  { mixed with blocking := Function.update mixed.blocking queue changed }

def setPoint (thread : Thread) (point : BlockingPoint Queue Blocking Ev)
    (mixed : MixedHost Queue Blocking Ev Thread) : MixedHost Queue Blocking Ev Thread :=
  { mixed with points := Function.update mixed.points thread point }

def setHost (host : Host Queue Ev Thread) (mixed : MixedHost Queue Blocking Ev Thread) :
    MixedHost Queue Blocking Ev Thread :=
  { mixed with host := host }

/-- Acquire the mutex of a queue, if it is free. -/
def lockQueue (queue : Blocking) (thread : Thread) (mixed : MixedHost Queue Blocking Ev Thread) :
    Option (MixedHost Queue Blocking Ev Thread) :=
  if (mixed.blocking queue).mutex = none then
    some (mixed.setBlocking queue { mixed.blocking queue with mutex := some thread })
  else none

def unlockQueue (queue : Blocking) (mixed : MixedHost Queue Blocking Ev Thread) :
    MixedHost Queue Blocking Ev Thread :=
  mixed.setBlocking queue { mixed.blocking queue with mutex := none }

/-- The number of tasks that are being carried out changes. -/
def setDepth (queue : Blocking) (depth : ℕ) (mixed : MixedHost Queue Blocking Ev Thread) :
    MixedHost Queue Blocking Ev Thread :=
  mixed.setBlocking queue { mixed.blocking queue with blockingTaskExecutionDepth := depth }

def lockEvent (name : Ev) (thread : Thread) (mixed : MixedHost Queue Blocking Ev Thread) :
    Option (MixedHost Queue Blocking Ev Thread) :=
  (mixed.host.lock name (.thread thread)).map fun host => mixed.setHost host

def unlockEvent (name : Ev) (mixed : MixedHost Queue Blocking Ev Thread) :
    MixedHost Queue Blocking Ev Thread :=
  mixed.setHost (mixed.host.unlock name)

/-- The first point of a call. -/
def entry : BlockingCall Blocking Ev → BlockingPoint Queue Blocking Ev
  | .enqueueHostFn queue => .hostFnLock queue
  | .enqueue queue event => .enqueueLock queue event
  | .waitFor queue event => .waitForLock queue event
  | .isEventComplete event => .completeLock event

/-- The next step of a thread in a call on a blocking queue. -/
def blockingStep (thread : Thread) (mixed : MixedHost Queue Blocking Ev Thread) :
    Option (MixedHost Queue Blocking Ev Thread) :=
  match mixed.points thread with
  | .idle => none
  -- Queue::submit
  | .hostFnLock queue =>
      (mixed.lockQueue queue thread).map fun mixed =>
        (mixed.setDepth queue ((mixed.blocking queue).blockingTaskExecutionDepth + 1)).setPoint
          thread (.hostFnRun queue)
  | .hostFnRun queue =>
      some (((mixed.setDepth queue ((mixed.blocking queue).blockingTaskExecutionDepth - 1)
        ).unlockQueue queue).setPoint thread .idle)
  -- Enqueue::Event
  | .enqueueLock queue name =>
      (mixed.lockEvent name thread).map (setPoint thread (.enqueueCount queue name))
  | .enqueueCount queue name =>
      let event := mixed.host.events name
      let event := { event with enqueueCount := event.enqueueCount + 1 }
      some ((mixed.setHost (mixed.host.setEvent name event)).setPoint thread
        (.enqueueQueueLock queue name event.enqueueCount))
  | .enqueueQueueLock queue name enqueueCount =>
      (mixed.lockQueue queue thread).map
        (setPoint thread (.enqueueComplete queue name enqueueCount))
  | .enqueueComplete queue name enqueueCount =>
      let event := mixed.host.events name
      let event :=
        if enqueueCount = event.enqueueCount then
          { event with lastReadyEnqueueCount := max enqueueCount event.lastReadyEnqueueCount }
        else event
      let event := { event with future := .ready }
      some (((mixed.setHost (mixed.host.setEvent name event)).unlockQueue queue).setPoint thread
        (.enqueueUnlock name))
  | .enqueueUnlock name => some ((mixed.unlockEvent name).setPoint thread .idle)
  -- WaitFor::Op
  | .waitForLock queue name =>
      (mixed.lockEvent name thread).map (setPoint thread (.waitForCheck queue name))
  | .waitForCheck queue name =>
      if ¬ (mixed.host.events name).isReady then
        some (mixed.setPoint thread (.waitForQueueLock queue name))
      else some ((mixed.unlockEvent name).setPoint thread .idle)
  | .waitForQueueLock queue name =>
      (mixed.lockQueue queue thread).map
        (setPoint thread (.waitForUnlock queue name (mixed.host.events name).future))
  | .waitForUnlock queue name sFuture =>
      some ((mixed.unlockEvent name).setPoint thread (.waitForGet queue sFuture))
  | .waitForGet queue sFuture =>
      (mixed.host.isFulfilled sFuture).map fun _ =>
        (mixed.unlockQueue queue).setPoint thread .idle
  -- Event::isEventComplete
  | .completeLock name =>
      (mixed.lockEvent name thread).map (setPoint thread (.completeRead name))
  | .completeRead name => some ((mixed.unlockEvent name).setPoint thread .idle)

/-- The task that the next step of a thread submits. -/
def submissions (thread : Thread) (host : Host Queue Ev Thread) : List (Future Queue) :=
  match host.threads thread with
  | .submitHostFn queue | .enqueueSubmit queue _ _ | .waitForSubmit queue _ _ _ =>
      [⟨queue, (host.queues queue).submitted.length⟩]
  | _ => []

def step (mixed : MixedHost Queue Blocking Ev Thread) :
    MixedAction Queue Blocking Ev Thread → Option (MixedHost Queue Blocking Ev Thread)
  | .host (.call thread call) =>
      if mixed.points thread = .idle then
        (mixed.host.step (.call thread call)).map fun host => mixed.setHost host
      else none
  | .host (.thread thread) =>
      (mixed.host.threadStep thread).map fun host =>
        { mixed with host := host, log := mixed.log ++ submissions thread mixed.host }
  | .host (.worker queue outcome) =>
      (mixed.host.workerStep queue outcome).map fun host => mixed.setHost host
  | .call thread call =>
      if mixed.host.threads thread = .idle ∧ mixed.points thread = .idle then
        some (mixed.setPoint thread (entry call))
      else none
  | .thread thread => mixed.blockingStep thread

/-! ## Waiting -/

/-- An unfulfilled future is waited for at the worker of its queue. -/
def awaits (future : SharedFuture Queue) (host : Host Queue Ev Thread) :
    Option (Agent Queue Thread) :=
  match future with
  | .ofTask task => if (host.isFulfilled future).isSome then none else some (.worker task.queue)
  | _ => none

/-- The agent that a thread waits for, in a call on a non-blocking queue. -/
def threadWaits (host : Host Queue Ev Thread) : ThreadPoint Queue Ev → Option (Agent Queue Thread)
  | .enqueueLock _ name | .waitForLock _ name | .waitLock name | .waitRelock name _ =>
      (host.events name).mutex
  | .waitGet _ _ future => awaits future host
  | _ => none

/-- The agent that a thread waits for, in a call on a blocking queue. -/
def pointWaits (mixed : MixedHost Queue Blocking Ev Thread) :
    BlockingPoint Queue Blocking Ev → Option (Agent Queue Thread)
  | .enqueueLock _ name | .waitForLock _ name | .completeLock name =>
      (mixed.host.events name).mutex
  | .hostFnLock queue | .enqueueQueueLock queue _ _ | .waitForQueueLock queue _ =>
      (mixed.blocking queue).mutex.map .thread
  | .waitForGet _ sFuture => awaits sFuture mixed.host
  | _ => none

/-- The agent that a worker waits for. -/
def workerWaits (host : Host Queue Ev Thread) :
    Worker (QueueTask Queue Ev) TaskPoint → Option (Agent Queue Thread)
  | .running ⟨.completion name _, _⟩ .begin => (host.events name).mutex
  | .running ⟨.wait _ future, _⟩ _ => awaits future host
  | _ => none

/-- **Who waits for whom.** -/
def waits (mixed : MixedHost Queue Blocking Ev Thread) :
    Agent Queue Thread → Option (Agent Queue Thread)
  | .thread thread =>
      (threadWaits mixed.host (mixed.host.threads thread)).or
        (pointWaits mixed (mixed.points thread))
  | .worker queue => workerWaits mixed.host (mixed.host.queues queue).worker

/-- A thread has not returned from its call, or a worker has not fulfilled the futures of
all tasks. -/
def Unfinished (mixed : MixedHost Queue Blocking Ev Thread) : Agent Queue Thread → Prop
  | .thread thread => mixed.host.threads thread ≠ .idle ∨ mixed.points thread ≠ .idle
  | .worker queue => ∃ promise < (mixed.host.queues queue).submitted.length,
      (mixed.host.queues queue).fulfilled promise = none

/-- An agent can take a step by itself. -/
def CanStep (mixed : MixedHost Queue Blocking Ev Thread) : Agent Queue Thread → Prop
  | .thread thread => (mixed.step (.host (.thread thread))).isSome ∨
      (mixed.step (.thread thread)).isSome
  | .worker queue => ∀ outcome, (mixed.step (.host (.worker queue outcome))).isSome

end MixedHost

end Alpaka
