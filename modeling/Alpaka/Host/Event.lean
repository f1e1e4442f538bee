import Alpaka.Host.CallbackThread
import Alpaka.Math.Interleaving

/-! # Queues and events

Non-blocking host queues, events and the threads that use them. An event is
enqueued by submitting a completion task that remembers the number of the enqueue;
a queue waits for an event by submitting a task that waits for the future of the
event's latest enqueue. The threads hold the mutex of an event over several
steps, so that the calls of different threads and the tasks of the workers
interleave in any way the mutexes allow.

A running task may itself use queues and events. It does so as one of the
threads, whose steps are free to fall anywhere.
-/

namespace Alpaka

/-- The future of a task submitted to a queue. -/
structure Future (Queue : Type*) where
  queue : Queue
  promise : ℕ
  deriving DecidableEq

/-- A copy of the future that an event keeps: there is none before the first enqueue, and
a blocking queue fulfils its future at once. -/
inductive SharedFuture (Queue : Type*)
  | invalid
  | ready
  | ofTask (future : Future Queue)
  deriving DecidableEq

/-- What is submitted to the queues: a function of the user, the completion task
of an enqueue and the task that waits for a future. The latter two hold a reference to
their event. -/
inductive QueueTask (Queue Ev : Type*)
  | hostFn
  | completion (event : Ev) (enqueueCount : ℕ)
  | wait (event : Ev) (future : SharedFuture Queue)
  deriving DecidableEq

/-- How far a task is. Only completion tasks have more than one step. -/
inductive TaskPoint
  | begin
  | locked
  | signalled
  | unlocked
  deriving DecidableEq

/-- Who can hold a mutex. -/
inductive Agent (Queue Thread : Type*)
  | thread (thread : Thread)
  | worker (queue : Queue)
  deriving DecidableEq

/-- The state of an event. The enqueues whose completion task has been through its
critical section are kept as history. -/
structure Event (Queue Thread : Type*) where
  mutex : Option (Agent Queue Thread) := none
  future : SharedFuture Queue := .invalid
  enqueueCount : ℕ := 0
  lastReadyEnqueueCount : ℕ := 0
  signalled : List ℕ := []

/-- Check if the event is ready. -/
def Event.isReady {Queue Thread : Type*} (event : Event Queue Thread) : Bool :=
  event.lastReadyEnqueueCount = event.enqueueCount

/-- What a completion task does to its event. There is nothing to do if the event has
been enqueued again. -/
def Event.complete {Queue Thread : Type*} (enqueueCount : ℕ) (event : Event Queue Thread) :
    Event Queue Thread :=
  let event :=
    if enqueueCount = event.enqueueCount then
      { event with lastReadyEnqueueCount := max enqueueCount event.lastReadyEnqueueCount }
    else event
  { event with signalled := event.signalled ++ [enqueueCount] }

/-- The operations of the host threads. -/
inductive HostCall (Queue Ev : Type*)
  | enqueueHostFn (queue : Queue)
  | enqueue (queue : Queue) (event : Ev)
  | waitFor (queue : Queue) (event : Ev)
  | wait (event : Ev)

/-- How far a thread is in its call. The number of the enqueue a queue is going to
wait for is kept as history. -/
inductive ThreadPoint (Queue Ev : Type*)
  | idle
  | submitHostFn (queue : Queue)
  | enqueueLock (queue : Queue) (event : Ev)
  | enqueueCount (queue : Queue) (event : Ev)
  | enqueueSubmit (queue : Queue) (event : Ev) (enqueueCount : ℕ)
  | enqueueFuture (event : Ev) (future : Future Queue)
  | waitForLock (queue : Queue) (event : Ev)
  | waitForCheck (queue : Queue) (event : Ev)
  | waitForSubmit (queue : Queue) (event : Ev) (oldFuture : SharedFuture Queue) (latest : ℕ)
  | waitLock (event : Ev)
  | waitRead (event : Ev)
  | waitCheck (event : Ev) (enqueueCount : ℕ)
  | waitGet (event : Ev) (enqueueCount : ℕ) (future : SharedFuture Queue)
  | waitRelock (event : Ev) (enqueueCount : ℕ)
  deriving DecidableEq

/-- A call of `waitFor` that has returned: the latest enqueue of the event when the
event was checked, and how many tasks the queue had at the return. -/
structure Barrier (Queue Ev : Type*) where
  queue : Queue
  event : Ev
  latest : ℕ
  position : ℕ
  deriving DecidableEq

/-- All queues, events and threads. -/
structure Host (Queue Ev Thread : Type*) where
  queues : Queue → CallbackThread (QueueTask Queue Ev) TaskPoint := fun _ => {}
  events : Ev → Event Queue Thread := fun _ => {}
  threads : Thread → ThreadPoint Queue Ev := fun _ => .idle
  barriers : List (Barrier Queue Ev) := []

/-- A thread begins a call or takes its next step, or the worker of a queue takes
its next step; a function of the user that is being run may return or throw. -/
inductive HostAction (Queue Ev Thread : Type*)
  | call (thread : Thread) (call : HostCall Queue Ev)
  | thread (thread : Thread)
  | worker (queue : Queue) (outcome : Outcome)

def HostAction.agent {Queue Ev Thread : Type*} : HostAction Queue Ev Thread → Agent Queue Thread
  | .call caller _ => .thread caller
  | .thread caller => .thread caller
  | .worker queue _ => .worker queue

namespace Host

variable {Queue Ev Thread : Type*} [DecidableEq Queue] [DecidableEq Ev] [DecidableEq Thread]

def setQueue (queue : Queue) (thread : CallbackThread (QueueTask Queue Ev) TaskPoint)
    (host : Host Queue Ev Thread) : Host Queue Ev Thread :=
  { host with queues := Function.update host.queues queue thread }

def setEvent (name : Ev) (event : Event Queue Thread) (host : Host Queue Ev Thread) :
    Host Queue Ev Thread :=
  { host with events := Function.update host.events name event }

def setThread (thread : Thread) (point : ThreadPoint Queue Ev) (host : Host Queue Ev Thread) :
    Host Queue Ev Thread :=
  { host with threads := Function.update host.threads thread point }

/-- A call of `waitFor` returns. -/
def setBarrier (queue : Queue) (name : Ev) (latest : ℕ) (host : Host Queue Ev Thread) :
    Host Queue Ev Thread :=
  { host with
    barriers := host.barriers ++
      [⟨queue, name, latest, (host.queues queue).submitted.length⟩] }

/-- Acquire the mutex of an event, if it is free. -/
def lock (name : Ev) (agent : Agent Queue Thread) (host : Host Queue Ev Thread) :
    Option (Host Queue Ev Thread) :=
  if (host.events name).mutex = none then
    some (host.setEvent name { host.events name with mutex := some agent })
  else none

def unlock (name : Ev) (host : Host Queue Ev Thread) : Host Queue Ev Thread :=
  host.setEvent name { host.events name with mutex := none }

/-- The future can be got without blocking. -/
def isFulfilled (future : SharedFuture Queue) (host : Host Queue Ev Thread) : Option Outcome :=
  match future with
  | .invalid => none
  | .ready => some .value
  | .ofTask future => (host.queues future.queue).fulfilled future.promise

/-- The first point of a call. -/
def entry : HostCall Queue Ev → ThreadPoint Queue Ev
  | .enqueueHostFn queue => .submitHostFn queue
  | .enqueue queue event => .enqueueLock queue event
  | .waitFor queue event => .waitForLock queue event
  | .wait event => .waitLock event

/-- The next step of a thread. -/
def threadStep (thread : Thread) (host : Host Queue Ev Thread) : Option (Host Queue Ev Thread) :=
  match host.threads thread with
  | .idle => none
  | .submitHostFn queue =>
      let (_, submitted) := (host.queues queue).submit .hostFn
      some ((host.setQueue queue submitted).setThread thread .idle)
  -- Enqueue::Event
  | .enqueueLock queue name =>
      (host.lock name (.thread thread)).map (setThread thread (.enqueueCount queue name))
  | .enqueueCount queue name =>
      let event := host.events name
      let event := { event with enqueueCount := event.enqueueCount + 1 }
      some ((host.setEvent name event).setThread thread
        (.enqueueSubmit queue name event.enqueueCount))
  | .enqueueSubmit queue name enqueueCount =>
      let (promise, submitted) := (host.queues queue).submit (.completion name enqueueCount)
      some ((host.setQueue queue submitted).setThread thread
        (.enqueueFuture name ⟨queue, promise⟩))
  | .enqueueFuture name future =>
      let event := { host.events name with future := .ofTask future }
      some (((host.setEvent name event).unlock name).setThread thread .idle)
  -- WaitFor::Op
  | .waitForLock queue name =>
      (host.lock name (.thread thread)).map (setThread thread (.waitForCheck queue name))
  | .waitForCheck queue name =>
      let event := host.events name
      let released := host.unlock name
      if ¬ event.isReady then
        some (released.setThread thread
          (.waitForSubmit queue name event.future event.enqueueCount))
      else
        some ((released.setBarrier queue name event.enqueueCount).setThread thread .idle)
  | .waitForSubmit queue name oldFuture latest =>
      let (_, submitted) := (host.queues queue).submit (.wait name oldFuture)
      some (((host.setQueue queue submitted).setBarrier queue name latest).setThread thread .idle)
  -- Event::wait
  | .waitLock name =>
      (host.lock name (.thread thread)).map (setThread thread (.waitRead name))
  | .waitRead name =>
      some (host.setThread thread (.waitCheck name (host.events name).enqueueCount))
  | .waitCheck name enqueueCount =>
      let event := host.events name
      let released := host.unlock name
      if enqueueCount > event.lastReadyEnqueueCount then
        some (released.setThread thread (.waitGet name enqueueCount event.future))
      else some (released.setThread thread .idle)
  | .waitGet name enqueueCount future =>
      (host.isFulfilled future).map fun _ =>
        host.setThread thread (.waitRelock name enqueueCount)
  | .waitRelock name enqueueCount =>
      (host.lock name (.thread thread)).map (setThread thread (.waitCheck name enqueueCount))

/-- The next step of a task that is being run by the worker of a queue. -/
def taskStep (queue : Queue) (package : TaskPackage (QueueTask Queue Ev)) (point : TaskPoint)
    (outcome : Outcome) (host : Host Queue Ev Thread) : Option (Host Queue Ev Thread) :=
  let worker := host.queues queue
  match package.task, point with
  | .hostFn, _ => some (host.setQueue queue (worker.finish package outcome))
  | .wait _ future, _ =>
      (host.isFulfilled future).map fun outcome =>
        host.setQueue queue (worker.finish package outcome)
  | .completion name _, .begin =>
      (host.lock name (.worker queue)).map (setQueue queue (worker.moveTo package .locked))
  | .completion name enqueueCount, .locked =>
      some ((host.setEvent name ((host.events name).complete enqueueCount)).setQueue queue
        (worker.moveTo package .signalled))
  | .completion name _, .signalled =>
      some ((host.unlock name).setQueue queue (worker.moveTo package .unlocked))
  | .completion _ _, .unlocked => some (host.setQueue queue (worker.finish package .value))

/-- The next step of the worker of a queue. -/
def workerStep (queue : Queue) (outcome : Outcome) (host : Host Queue Ev Thread) :
    Option (Host Queue Ev Thread) :=
  match (host.queues queue).worker with
  | .running package point => taskStep queue package point outcome host
  | _ => ((host.queues queue).advance .begin).map fun worker => host.setQueue queue worker

def step (host : Host Queue Ev Thread) : HostAction Queue Ev Thread → Option (Host Queue Ev Thread)
  | .call thread call =>
      if host.threads thread = .idle then some (host.setThread thread (entry call)) else none
  | .thread thread => host.threadStep thread
  | .worker queue outcome => host.workerStep queue outcome

end Host

end Alpaka
