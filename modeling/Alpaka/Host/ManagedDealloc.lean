import Alpaka.Host.Event

/-! # The release of a buffer

All copies of a shared buffer share the deallocation of its memory. When the last copy of the
pointer to it is dropped, by a thread that drops a buffer or by a worker that destroys a
task, the registered actions are executed and the memory is freed; the memory of a deferred
allocation is freed by a task that is submitted to the queue of the allocation.

The tasks of the users return or throw, but do not touch the buffer themselves; a task may
carry a copy. The destructor actions of the users return, and those of `destructorWaitFor` wait
for a queue.
-/

namespace Alpaka

/-- Who has a copy of the pointer: a thread, in a buffer or in a call, or a task. -/
inductive Owner (Queue Thread : Type*)
  | thread (thread : Thread)
  | task (future : Future Queue)
  deriving DecidableEq

/-- What is submitted to the callback threads: a function of the user, which may carry a copy
of the pointer, and the free of a deferred allocation. -/
inductive BufferTask
  | hostFn (carries : Bool)
  | free
  deriving DecidableEq

/-- A destructor action: a function of the user, or the wait for a queue. -/
inductive DestructorAction (Queue Action : Type*)
  | user (action : Action)
  | waitFor (queue : Queue)
  deriving DecidableEq

/-- How far the destructor of the deallocation is: before an action, between the look at a queue
that is waited for and the submission of the marker, or waiting for the marker; or before the
free, or in it with the mutex of the queue. -/
inductive DestructorPoint (Queue : Type*)
  | action (next : ℕ)
  | waitSubmit (next : ℕ) (queue : Queue)
  | waits (next : ℕ) (marker : Future Queue)
  | freeOp
  | freeLocked
  deriving DecidableEq

inductive Destructor (Queue Thread : Type*)
  | pending
  | running (agent : Agent Queue Thread) (point : DestructorPoint Queue)
  | returned
  deriving DecidableEq

/-- A call of `keepAlive`: how many tasks the callback thread of the queue had been given, and
how many a blocking queue had started. -/
structure KeepAlive (Queue : Type*) where
  queue : Queue
  position : ℕ
  started : ℕ
  deriving DecidableEq

/-- The operations of the host threads. -/
inductive BufferCall (Queue Thread Action : Type*)
  | copy (receiver : Thread)
  | drop
  | addDestructorAction (action : DestructorAction Queue Action)
  | keepAlive (queue : Queue)
  | enqueueHostFn (queue : Queue) (carries : Bool)

/-- How far a thread is in its call. -/
inductive BufferPoint (Queue : Type*)
  | idle
  | submit (queue : Queue) (carries : Bool)
  | submitLock (queue : Queue)
  | submitRun (queue : Queue)
  | keepAliveLock (call : KeepAlive Queue)
  | keepAliveSubmit (call : KeepAlive Queue)
  | keepAliveReturn
  | destroy
  deriving DecidableEq

/-- The mutex of a blocking queue, and how many tasks it has started and finished. -/
structure BlockingTasks (Queue Thread : Type*) where
  mutex : Option (Agent Queue Thread) := none
  started : ℕ := 0
  finished : ℕ := 0

/-- The kinds of the queues, and the queue of a deferred allocation. -/
structure BufferConfig (Queue : Type*) where
  isBlocking : Queue → Bool
  deferred : Option Queue

/-- The deallocation of one buffer, the queues and the threads. The actions that were
executed, how often the memory was freed, the calls of `keepAlive` and how many tasks the
queues had been given at the last drop are kept as history. -/
structure ManagedDealloc (Queue Thread Action : Type*) where
  queues : Queue → CallbackThread BufferTask Unit := fun _ => {}
  blocking : Queue → BlockingTasks Queue Thread := fun _ => {}
  points : Thread → BufferPoint Queue := fun _ => .idle
  owners : List (Owner Queue Thread)
  actions : List (DestructorAction Queue Action) := []
  destructor : Destructor Queue Thread := .pending
  executed : List (DestructorAction Queue Action) := []
  freed : ℕ := 0
  kept : List (KeepAlive Queue) := []
  dropped : Queue → ℕ := fun _ => 0

inductive BufferAction (Queue Thread Action : Type*)
  | call (thread : Thread) (call : BufferCall Queue Thread Action)
  | thread (thread : Thread)
  | worker (queue : Queue) (outcome : Outcome)

namespace ManagedDealloc

variable {Queue Thread Action : Type*} [DecidableEq Queue] [DecidableEq Thread]

def setQueue (queue : Queue) (changed : CallbackThread BufferTask Unit)
    (memory : ManagedDealloc Queue Thread Action) : ManagedDealloc Queue Thread Action :=
  { memory with queues := Function.update memory.queues queue changed }

def setBlocking (queue : Queue) (changed : BlockingTasks Queue Thread)
    (memory : ManagedDealloc Queue Thread Action) : ManagedDealloc Queue Thread Action :=
  { memory with blocking := Function.update memory.blocking queue changed }

def setPoint (thread : Thread) (point : BufferPoint Queue)
    (memory : ManagedDealloc Queue Thread Action) : ManagedDealloc Queue Thread Action :=
  { memory with points := Function.update memory.points thread point }

/-- Acquire the mutex of a blocking queue, if it is free. -/
def lock (queue : Queue) (agent : Agent Queue Thread)
    (memory : ManagedDealloc Queue Thread Action) : Option (ManagedDealloc Queue Thread Action) :=
  if (memory.blocking queue).mutex = none then
    some (memory.setBlocking queue { memory.blocking queue with mutex := some agent })
  else none

def unlock (queue : Queue) (memory : ManagedDealloc Queue Thread Action) :
    ManagedDealloc Queue Thread Action :=
  memory.setBlocking queue { memory.blocking queue with mutex := none }

/-- A task is submitted to the callback thread of a queue, with its copy of the pointer. -/
def submit (queue : Queue) (task : BufferTask) (memory : ManagedDealloc Queue Thread Action) :
    ManagedDealloc Queue Thread Action :=
  let (promise, submitted) := (memory.queues queue).submit task
  { memory.setQueue queue submitted with
    owners :=
      if task = .hostFn true then memory.owners ++ [.task ⟨queue, promise⟩] else memory.owners }

/-- A copy is dropped. Who drops the last one executes the destructor. -/
def release (agent : Agent Queue Thread) (owner : Owner Queue Thread)
    (memory : ManagedDealloc Queue Thread Action) : ManagedDealloc Queue Thread Action :=
  let owners := memory.owners.erase owner
  { memory with
    owners := owners
    destructor := if owners = [] then .running agent (.action 0) else memory.destructor
    dropped :=
      if owners = [] then fun queue => (memory.queues queue).submitted.length
      else memory.dropped }

/-- A thread drops a copy, and is in the destructor if it was the last one. -/
def drop (thread : Thread) (memory : ManagedDealloc Queue Thread Action) :
    ManagedDealloc Queue Thread Action :=
  let released := memory.release (.thread thread) (.thread thread)
  released.setPoint thread (if released.owners = [] then .destroy else .idle)

/-- The destructor is left. -/
def leave (agent : Agent Queue Thread) (memory : ManagedDealloc Queue Thread Action) :
    ManagedDealloc Queue Thread Action :=
  { memory with
    destructor := .returned
    points := match agent with
      | .thread thread => Function.update memory.points thread .idle
      | .worker _ => memory.points }

/-- Nothing is being executed in a blocking queue, or the callback thread of another one has no
task that it has not popped. -/
def isQueueEmpty (config : BufferConfig Queue) (queue : Queue)
    (memory : ManagedDealloc Queue Thread Action) : Bool :=
  if config.isBlocking queue then
    (memory.blocking queue).started == (memory.blocking queue).finished
  else (memory.queues queue).isEmpty

/-- An action has returned. -/
def ran (agent : Agent Queue Thread) (index : ℕ) (memory : ManagedDealloc Queue Thread Action) :
    ManagedDealloc Queue Thread Action :=
  { memory with
    executed := memory.executed ++ memory.actions[index]?.toList
    destructor := .running agent (.action (index + 1)) }

/-- The next step of the destructor. -/
def destruct (config : BufferConfig Queue) (agent : Agent Queue Thread)
    (point : DestructorPoint Queue) (memory : ManagedDealloc Queue Thread Action) :
    Option (ManagedDealloc Queue Thread Action) :=
  match point, config.deferred with
  | .action next, _ =>
      match memory.actions[next]? with
      | some (.user _) => some (memory.ran agent next)
      -- onHost::wait
      | some (.waitFor queue) =>
          if memory.isQueueEmpty config queue then some (memory.ran agent next)
          else some { memory with destructor := .running agent (.waitSubmit next queue) }
      | none => some { memory with destructor := .running agent .freeOp }
  | .waitSubmit next queue, _ =>
      if config.isBlocking queue then
        -- the marker is executed by the caller, with the mutex
        (memory.lock queue agent).map fun locked => (locked.unlock queue).ran agent next
      else
        let marker : Future Queue := ⟨queue, (memory.queues queue).submitted.length⟩
        some { memory.submit queue (.hostFn false) with
          destructor := .running agent (.waits next marker) }
  | .waits next marker, _ =>
      if ((memory.queues marker.queue).fulfilled marker.promise).isSome then
        some (memory.ran agent next)
      else none
  | .freeOp, none => some ({ memory with freed := memory.freed + 1 }.leave agent)
  | .freeOp, some queue =>
      if config.isBlocking queue then
        (memory.lock queue agent).map fun memory =>
          { memory with destructor := .running agent .freeLocked }
      else some ((memory.submit queue .free).leave agent)
  | .freeLocked, none => none
  | .freeLocked, some queue =>
      some (({ memory with freed := memory.freed + 1 }.unlock queue).leave agent)

/-- Where an agent is that is executing the destructor. -/
def destructing (agent : Agent Queue Thread) (memory : ManagedDealloc Queue Thread Action) :
    Option (DestructorPoint Queue) :=
  match memory.destructor with
  | .running runner point => if runner = agent then some point else none
  | _ => none

/-- A thread begins a call, or does all of it at once. It calls the members of a buffer that
it has. -/
def call (config : BufferConfig Queue) (thread : Thread)
    (memory : ManagedDealloc Queue Thread Action) :
    BufferCall Queue Thread Action → Option (ManagedDealloc Queue Thread Action)
  | .copy receiver =>
      if Owner.thread thread ∈ memory.owners then
        some { memory with owners := memory.owners ++ [.thread receiver] }
      else none
  | .drop => if Owner.thread thread ∈ memory.owners then some (memory.drop thread) else none
  | .addDestructorAction action =>
      if Owner.thread thread ∈ memory.owners then
        some { memory with actions := memory.actions ++ [action] }
      else none
  | .keepAlive queue =>
      let call : KeepAlive Queue :=
        ⟨queue, (memory.queues queue).submitted.length, (memory.blocking queue).started⟩
      if Owner.thread thread ∈ memory.owners then
        some ({ memory with
          owners := memory.owners ++ [Owner.thread thread]
          kept := memory.kept ++ [call] }.setPoint thread
            (if config.isBlocking queue then .keepAliveLock call else .keepAliveSubmit call))
      else none
  | .enqueueHostFn queue carries =>
      if carries = true → Owner.thread thread ∈ memory.owners then
        some (memory.setPoint thread
          (if config.isBlocking queue then .submitLock queue else .submit queue carries))
      else none

/-- The next step of a thread. -/
def threadStep (config : BufferConfig Queue) (thread : Thread)
    (memory : ManagedDealloc Queue Thread Action) : Option (ManagedDealloc Queue Thread Action) :=
  match memory.points thread with
  | .idle => none
  -- Queue::submit
  | .submit queue carries => some ((memory.submit queue (.hostFn carries)).setPoint thread .idle)
  | .submitLock queue =>
      (memory.lock queue (.thread thread)).map fun memory =>
        let tasks := memory.blocking queue
        (memory.setBlocking queue { tasks with started := tasks.started + 1 }).setPoint thread
          (.submitRun queue)
  | .submitRun queue =>
      let tasks := memory.blocking queue
      some (((memory.setBlocking queue { tasks with finished := tasks.finished + 1 }).unlock
        queue).setPoint thread .idle)
  -- Queue::enqueueHostFnDeferred
  | .keepAliveLock call =>
      (memory.lock call.queue (.thread thread)).map (setPoint thread (.keepAliveSubmit call))
  | .keepAliveSubmit call =>
      let submitted := memory.submit call.queue (.hostFn true)
      some ((if config.isBlocking call.queue then submitted.unlock call.queue
        else submitted).setPoint thread .keepAliveReturn)
  | .keepAliveReturn => some (memory.drop thread)
  | .destroy =>
      (memory.destructing (.thread thread)).bind fun point =>
        memory.destruct config (.thread thread) point

/-- The next step of the worker of a queue. A task that carries a copy drops it when it is
destroyed. -/
def workerStep (config : BufferConfig Queue) (queue : Queue) (outcome : Outcome)
    (memory : ManagedDealloc Queue Thread Action) : Option (ManagedDealloc Queue Thread Action) :=
  let thread := memory.queues queue
  match thread.worker with
  | .running package _ =>
      let ran := memory.setQueue queue (thread.finish package outcome)
      some { ran with freed := if package.task = .free then memory.freed + 1 else memory.freed }
  | .popped package _ =>
      if Owner.task ⟨queue, package.promise⟩ ∈ memory.owners then
        some (memory.release (.worker queue) (.task ⟨queue, package.promise⟩))
      else
        match memory.destructing (.worker queue) with
        | some point => memory.destruct config (.worker queue) point
        | none => (thread.advance ()).map fun thread => memory.setQueue queue thread
  | _ => (thread.advance ()).map fun thread => memory.setQueue queue thread

def step (config : BufferConfig Queue) (memory : ManagedDealloc Queue Thread Action) :
    BufferAction Queue Thread Action → Option (ManagedDealloc Queue Thread Action)
  | .call thread call =>
      if memory.points thread = .idle then memory.call config thread call else none
  | .thread thread => memory.threadStep config thread
  | .worker queue outcome => memory.workerStep config queue outcome

/-- A thread has got a new buffer. -/
def allocated (thread : Thread) : ManagedDealloc Queue Thread Action :=
  { owners := [.thread thread] }

end ManagedDealloc

end Alpaka
