import OpenUH.Libopenmp.TaskObjects

/-!
# The default task pool

Every thread of a team has a queue of tied tasks and a queue of untied tasks.
A thread runs its tasks on one call stack: a task that waits in
`__ompc_task_wait`, in `__ompc_task_exit` or in a barrier takes tasks from the
pool and runs them on top of itself.

A step of a thread is one test of a loop or one operation on a queue; the
threads step in any order.  A task that `__ompc_task_cutoff` cuts off has no
task object and is part of the task that creates it.
-/

namespace OpenUH.Libopenmp.TaskPool

open Libopenmp.Tasks (TaskState)

/-- The size of the team, the slots of a queue, and `O64_OMP_TASK_QUEUE`. -/
structure PoolSettings where
  teamSize : Nat
  numSlots : Option Nat
  getFromTail : Bool
  stealFromTail : Bool
deriving DecidableEq, Repr

/-- A queue of some length takes one more task. -/
def PoolSettings.hasRoom (settings : PoolSettings) (length : Nat) : Bool :=
  match settings.numSlots with
  | none => true
  | some numSlots => decide (length < numSlots)

/-- The loops in which a task takes others from the pool. -/
inductive WaitLoop where
  | wait
  | exit
  | barrier
deriving DecidableEq, Repr

/-- The places in `__ompc_remove_task_from_pool_default`. -/
inductive Stage where
  | ownTied
  | ownUntied
  | otherUntied
  | otherTied
deriving DecidableEq, Repr

/-- Where the code of a task is. -/
inductive Activity where
  | running
  | test (loop : WaitLoop)
  | remove (loop : WaitLoop) (stage : Stage)
deriving DecidableEq, Repr

/--
A task on a call stack.  `counted` says that the task below it was added to
`num_suspended_tied_tasks` when this one began.  The ghost field `since` is
the number of puts before the task began or left a barrier.
-/
structure Frame where
  task : Nat
  state : TaskState
  activity : Activity
  counted : Bool
  since : Nat
deriving DecidableEq, Repr

/-- A task in a queue.  The ghost field `stamp` numbers the puts. -/
structure QueuedTask where
  task : Nat
  stamp : Nat
deriving DecidableEq, Repr

/-- A deferred tied task that began, and the tied tasks suspended below it. -/
structure Start where
  task : Nat
  suspended : List Nat
deriving DecidableEq, Repr

/--
The tasks, the stacks of the threads with the current task first, and the
queues with the head first.  The ghost field `starts` lists what has begun.
-/
structure PoolSystem where
  isCreated : Nat → Bool
  parent : Nat → Option Nat
  isTied : Nat → Bool
  isDeferred : Nat → Bool
  blocksParent : Nat → Bool
  numChildren : Nat → Int
  numBlockingChildren : Nat → Int
  stack : Nat → List Frame
  numSuspendedTied : Nat → Int
  tiedQueue : Nat → List QueuedTask
  untiedQueue : Nat → List Nat
  numPending : Int
  clock : Nat
  starts : List Start

namespace PoolSystem

/-! ## Starting and leaving a task -/

/-- A task is tied, and not in a barrier. -/
def holdsThread (s : PoolSystem) (frame : Frame) : Bool :=
  s.isTied frame.task && decide (frame.state ≠ .inBarrier)

/-- Put a new frame on a stack. -/
def pushTask (s : PoolSystem) (thread task : Nat) (current : Frame)
    (below : List Frame) (counted : Bool) : PoolSystem :=
  { s with
    stack := Function.update s.stack thread
      ({ task := task
         state := .running
         activity := .running
         counted := counted
         since := s.clock } :: current :: below)
    numSuspendedTied :=
      if counted then
        Function.update s.numSuspendedTied thread
          (s.numSuspendedTied thread + 1)
      else
        s.numSuspendedTied
    starts :=
      if s.isDeferred task && s.isTied task then
        s.starts ++
          [{ task := task
             suspended :=
               ((current :: below).filter s.holdsThread).map Frame.task }]
      else
        s.starts }

/-- `__ompc_task_switch`, up to the call of the function of the task. -/
def taskSwitch (s : PoolSystem) (thread task : Nat) (current : Frame)
    (below : List Frame) : PoolSystem :=
  s.pushTask thread task current below (s.holdsThread current)

/-- The function of the current task has returned to the task below. -/
def leave (s : PoolSystem) (thread : Nat) (current : Frame) (below : List Frame) : PoolSystem :=
  { s with
    stack := Function.update s.stack thread
      (match below with
        | [] => []
        | caller :: rest =>
            (if caller.activity = .running then
              { caller with state := .running }
            else
              caller) :: rest)
    numSuspendedTied :=
      if current.counted then
        Function.update s.numSuspendedTied thread
          (s.numSuspendedTied thread - 1)
      else
        s.numSuspendedTied }

/-- The current task goes on. -/
def goOn (s : PoolSystem) (thread : Nat) (current : Frame) (below : List Frame) : PoolSystem :=
  { s with stack := Function.update s.stack thread (current :: below) }

/-! ## `__ompc_task_create` -/

/-- The object of a new task. -/
def newTask (s : PoolSystem) (child parent : Nat)
    (isTied isDeferred blocksParent : Bool) : PoolSystem :=
  { s with
    isCreated := Function.update s.isCreated child true
    parent := Function.update s.parent child (some parent)
    isTied := Function.update s.isTied child isTied
    isDeferred := Function.update s.isDeferred child isDeferred
    blocksParent := Function.update s.blocksParent child blocksParent
    numChildren := Function.update s.numChildren child 0
    numBlockingChildren := Function.update s.numBlockingChildren child 0 }

/-- The counters a deferred child goes into. -/
def countChild (s : PoolSystem) (parent : Nat) (blocksParent : Bool) : PoolSystem :=
  { s with
    numChildren := Function.update s.numChildren parent (s.numChildren parent + 1)
    numBlockingChildren :=
      if blocksParent then
        Function.update s.numBlockingChildren parent
          (s.numBlockingChildren parent + 1)
      else
        s.numBlockingChildren
    numPending := s.numPending + 1 }

/--
`__ompc_task_create`.  A child that is not delayed, or that does not fit into
its queue, runs at once.
-/
def create (settings : PoolSettings) (s : PoolSystem) (thread child : Nat)
    (isTied mayDelay blocksParent : Bool) : Option PoolSystem :=
  match s.stack thread with
  | [] => none
  | current :: below =>
      if current.activity = .running ∧ s.isCreated child = false then
        let ready := { current with state := .ready }
        if mayDelay then
          let created :=
            (s.newTask child current.task isTied true blocksParent).countChild
              current.task blocksParent
          if isTied then
            if settings.hasRoom (s.tiedQueue thread).length then
              some
                { created with
                  tiedQueue := Function.update s.tiedQueue thread
                    (s.tiedQueue thread ++
                      [{ task := child, stamp := s.clock }])
                  clock := s.clock + 1 }
            else
              some (created.taskSwitch thread child ready below)
          else
            if settings.hasRoom (s.untiedQueue thread).length then
              some
                { created with
                  untiedQueue := Function.update s.untiedQueue thread
                    (s.untiedQueue thread ++ [child]) }
            else
              some (created.taskSwitch thread child ready below)
        else
          some
            ((s.newTask child current.task isTied false false).pushTask
              thread child ready below (s.isTied current.task))
      else
        none

/-! ## Waiting and leaving -/

/-- `__ompc_task_wait` begins. -/
def wait (s : PoolSystem) (thread : Nat) : Option PoolSystem :=
  match s.stack thread with
  | [] => none
  | current :: below =>
      if current.activity = .running then
        some (s.goOn thread
          { current with state := .waiting, activity := .test .wait } below)
      else
        none

/-- `__ompc_task_exit` begins. -/
def exit (s : PoolSystem) (thread : Nat) : Option PoolSystem :=
  match s.stack thread with
  | [] => none
  | current :: below =>
      match s.parent current.task with
      | none => none
      | some parent =>
          if current.activity = .running then
            let exiting := s.goOn thread
              { current with state := .exiting, activity := .test .exit } below
            some
              (if s.isDeferred current.task then
                { exiting with
                  numPending := s.numPending - 1
                  numChildren := Function.update s.numChildren parent
                    (s.numChildren parent - 1) }
              else
                exiting)
          else
            none

/-- An implicit task comes to a barrier. -/
def enterBarrier (s : PoolSystem) (thread : Nat) : Option PoolSystem :=
  match s.stack thread with
  | [] => none
  | current :: below =>
      if current.activity = .running ∧ s.parent current.task = none then
        some (s.goOn thread
          { current with state := .inBarrier, activity := .test .barrier }
          below)
      else
        none

/-- The task leaves `__ompc_task_exit`, and its function returns. -/
def finish (s : PoolSystem) (thread : Nat) (current : Frame) (below : List Frame) : PoolSystem :=
  match s.isDeferred current.task && s.blocksParent current.task,
      s.parent current.task with
  | true, some parent =>
      { s.leave thread current below with
        numBlockingChildren := Function.update s.numBlockingChildren parent
          (s.numBlockingChildren parent - 1) }
  | _, _ => s.leave thread current below

/-- The test of a loop: look for a task, or go on. -/
def testLoop (s : PoolSystem) (thread : Nat) (current : Frame)
    (below : List Frame) : WaitLoop → PoolSystem
  | .wait =>
      if s.numChildren current.task ≠ 0 then
        s.goOn thread { current with activity := .remove .wait .ownTied } below
      else
        s.goOn thread { current with state := .running, activity := .running }
          below
  | .exit =>
      if s.numBlockingChildren current.task ≠ 0 then
        s.goOn thread { current with activity := .remove .exit .ownTied } below
      else
        s.finish thread current below
  | .barrier =>
      if s.numPending ≠ 0 then
        s.goOn thread { current with activity := .remove .barrier .ownTied }
          below
      else
        s.goOn thread
          { current with
            state := .running
            activity := .running
            since := s.clock } below

/-! ## `__ompc_remove_task_from_pool_default` -/

/-- A task taken from a queue, at the tail or at the head. -/
def takeUntied (fromTail : Bool) (queue : List Nat) : Option (Nat × List Nat) :=
  if fromTail then
    queue.getLast?.map fun task => (task, queue.dropLast)
  else
    queue.head?.map fun task => (task, queue.tail)

/-- The own queue of tied tasks, from the tail. -/
def getOwnTied (s : PoolSystem) (thread : Nat) (current : Frame)
    (below : List Frame) (loop : WaitLoop) : PoolSystem :=
  match (s.tiedQueue thread).getLast? with
  | some queued =>
      { s with
        tiedQueue := Function.update s.tiedQueue thread
          (s.tiedQueue thread).dropLast }.taskSwitch thread queued.task
            { current with activity := .test loop } below
  | none =>
      s.goOn thread { current with activity := .remove loop .ownUntied } below

/-- The own queue of untied tasks. -/
def getOwnUntied (settings : PoolSettings) (s : PoolSystem) (thread : Nat)
    (current : Frame) (below : List Frame) (loop : WaitLoop) : PoolSystem :=
  match takeUntied settings.getFromTail (s.untiedQueue thread) with
  | some (task, rest) =>
      { s with
        untiedQueue := Function.update s.untiedQueue thread rest }.taskSwitch
          thread task { current with activity := .test loop } below
  | none =>
      if settings.teamSize < 2 then
        s.goOn thread { current with activity := .test loop } below
      else
        s.goOn thread { current with activity := .remove loop .otherUntied }
          below

/--
The queue of untied tasks of a victim.  A thread that finds it empty may try
another one in a later step, or go on to the tied tasks.
-/
def stealUntied (settings : PoolSettings) (s : PoolSystem)
    (thread victim : Nat) (current : Frame) (below : List Frame) (loop : WaitLoop) : PoolSystem :=
  match takeUntied settings.stealFromTail (s.untiedQueue victim) with
  | some (task, rest) =>
      { s with
        untiedQueue := Function.update s.untiedQueue victim rest }.taskSwitch
          thread task { current with activity := .test loop } below
  | none =>
      s.goOn thread { current with activity := .remove loop .otherTied } below

/--
The queue of tied tasks of a victim, from the head, if no suspended task is
tied to the thread and the current task is in a barrier or not tied.
-/
def stealTied (s : PoolSystem) (thread victim : Nat) (current : Frame)
    (below : List Frame) (loop : WaitLoop) : PoolSystem :=
  if s.numSuspendedTied thread = 0 ∧
      (current.state = .inBarrier ∨ s.isTied current.task = false) then
    match s.tiedQueue victim with
    | queued :: rest =>
        { s with
          tiedQueue := Function.update s.tiedQueue victim rest }.taskSwitch
            thread queued.task { current with activity := .test loop } below
    | [] => s.goOn thread { current with activity := .test loop } below
  else
    s.goOn thread { current with activity := .test loop } below

/-- The next step of a thread in a loop, with the victim it has chosen. -/
def step (settings : PoolSettings) (s : PoolSystem) (thread victim : Nat) : Option PoolSystem :=
  match s.stack thread with
  | [] => none
  | current :: below =>
      match current.activity with
      | .running => none
      | .test loop => some (s.testLoop thread current below loop)
      | .remove loop .ownTied => some (s.getOwnTied thread current below loop)
      | .remove loop .ownUntied =>
          some (s.getOwnUntied settings thread current below loop)
      | .remove loop .otherUntied =>
          if victim ≠ thread ∧ victim < settings.teamSize then
            some (s.stealUntied settings thread victim current below loop)
          else
            none
      | .remove loop .otherTied =>
          if victim ≠ thread ∧ victim < settings.teamSize then
            some (s.stealTied thread victim current below loop)
          else
            none

end PoolSystem

/-! ## Runs -/

/-- What a thread does next. -/
inductive PoolMove where
  | create (thread child : Nat) (isTied mayDelay blocksParent : Bool)
  | wait (thread : Nat)
  | exit (thread : Nat)
  | enterBarrier (thread : Nat)
  | step (thread victim : Nat)
deriving DecidableEq, Repr

/-- One step of one thread. -/
def PoolSystem.move (settings : PoolSettings) (s : PoolSystem) :
    PoolMove → Option PoolSystem
  | .create thread child isTied mayDelay blocksParent =>
      s.create settings thread child isTied mayDelay blocksParent
  | .wait thread => s.wait thread
  | .exit thread => s.exit thread
  | .enterBarrier thread => s.enterBarrier thread
  | .step thread victim => s.step settings thread victim

/-- Every thread runs its implicit task, and there is no other task. -/
structure PoolInitial (settings : PoolSettings) (s : PoolSystem) : Prop where
  isCreated : ∀ task, s.isCreated task = decide (task < settings.teamSize)
  parent : ∀ task, s.parent task = none
  isTied : ∀ task < settings.teamSize, s.isTied task = true
  isDeferred : ∀ task < settings.teamSize, s.isDeferred task = false
  stack : ∀ thread, s.stack thread =
    if thread < settings.teamSize then
      [{ task := thread
         state := .running
         activity := .running
         counted := false
         since := 0 }]
    else
      []
  numSuspendedTied : ∀ thread, s.numSuspendedTied thread = 0
  numChildren : ∀ task < settings.teamSize, s.numChildren task = 0
  numBlockingChildren : ∀ task < settings.teamSize, s.numBlockingChildren task = 0
  tiedQueue : ∀ thread, s.tiedQueue thread = []
  untiedQueue : ∀ thread, s.untiedQueue thread = []
  numPending : s.numPending = 0
  starts : s.starts = []

/-! ## The constraint -/

/-- A task was created by another one, or by one that descends from it. -/
def Descends (s : PoolSystem) (task ancestor : Nat) : Prop :=
  Relation.TransGen (fun child parent => s.parent child = some parent) task
    ancestor

/--
Every deferred tied task that began descends from the tied tasks that were
suspended on its thread outside of a barrier.
-/
def Constrained (s : PoolSystem) : Prop :=
  ∀ start ∈ s.starts, ∀ suspended ∈ start.suspended,
    Descends s start.task suspended

/-! ## Where the discipline of the queues is enough -/

/--
A task that creates a deferred tied task is one of, or descends from, the tied
tasks on its stack that are not in a barrier; and a tied task that is taken
from the own queue was put there after each of them began.
-/
def Orderly (s : PoolSystem) : PoolMove → Prop
  | .create thread _ isTied mayDelay _ =>
      isTied = true → mayDelay = true → ∀ current ∈ (s.stack thread).head?,
        ∀ frame ∈ s.stack thread, s.holdsThread frame = true →
          current.task = frame.task ∨ Descends s current.task frame.task
  | .step thread _ =>
      ∀ current ∈ (s.stack thread).head?,
        (∃ loop, current.activity = .remove loop .ownTied) →
          ∀ queued ∈ (s.tiedQueue thread).getLast?,
            ∀ frame ∈ s.stack thread, s.holdsThread frame = true → frame.since ≤ queued.stamp
  | _ => True

end OpenUH.Libopenmp.TaskPool
