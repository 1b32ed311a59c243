import OpenUH.Foundation.Transition

/-!
# The life of a task object

Every deferred task has an object on the heap.  While the task runs, its
children count themselves in `num_children` of that object, and
`__ompc_task_exit` of a child takes the child out again and then looks whether
it has to delete its parent.  When the function of a task has returned,
`__ompc_task_switch` looks at `num_children` and either deletes the object or
leaves it to the last child, by the state FINISHED.

A task goes through its code step by step, where a step is one read, write or
atomic update of a task object; any task may make the next step.  Which thread
runs a task does not matter here, so that every interleaving of the threads is
one of the tasks.  An immediate task runs inside its parent, which waits for
it.
-/

namespace OpenUH.Libopenmp.Tasks

open Foundation.Transition

/-- `omp_task_state_t`. -/
inductive TaskState where
  | unscheduled
  | ready
  | running
  | waiting
  | inBarrier
  | exiting
  | finished
deriving DecidableEq, Repr

/-- How far a task is. -/
inductive Phase where
  /-- There is no such task. -/
  | absent
  /-- Counted by its parent, and not yet in the task pool. -/
  | unpublished
  /-- In the task pool, or on its way to `__ompc_task_switch`. -/
  | queued
  /-- In its function. -/
  | running
  /-- In `__ompc_task_create` of a deferred child. -/
  | publishing (child : Nat)
  /-- In `__ompc_task_create` of an immediate child, which runs. -/
  | calling (child : Nat)
  /-- `__ompc_task_exit` has set the state EXITING. -/
  | exitEntered
  /-- It has found the task to be deferred. -/
  | exitDeferred
  /-- It has taken the task out of `num_children` of the parent. -/
  | exitTest (numSiblings : Int)
  /-- It has found the parent deferred, and no sibling left. -/
  | exitTestState
  /-- It has found the parent FINISHED. -/
  | exitDelete
  /-- It waits for `num_blocking_children`. -/
  | exitWait
  /-- It has no more blocking children. -/
  | exitFlags
  /-- It has found that the task blocks its parent. -/
  | exitUnblock
  /-- The function has returned. -/
  | returned
  /-- `__ompc_task_switch` has found no children. -/
  | deleting
  /-- `__ompc_task_switch` has found children. -/
  | finishing
  /-- Nothing is left to do. -/
  | done
deriving DecidableEq, Repr

/--
The task objects and how far each task is.  `deletions` counts how often an
object was deleted, and `touched` says that a deleted object was read or
written; no step looks at either.
-/
structure TaskSystem where
  state : Nat → TaskState
  numChildren : Nat → Int
  numBlockingChildren : Nat → Int
  parent : Nat → Option Nat
  isDeferred : Nat → Bool
  blocksParent : Nat → Bool
  phase : Nat → Phase
  deletions : Nat → Nat
  touched : Bool

namespace TaskSystem

/-! ## Reads, writes and deletions -/

/-- A read or write of an object. -/
def touch (s : TaskSystem) (task : Nat) : TaskSystem :=
  { s with touched := s.touched || decide (0 < s.deletions task) }

/-- `__ompc_task_delete`. -/
def delete (s : TaskSystem) (task : Nat) : TaskSystem :=
  { s with
    deletions := Function.update s.deletions task (s.deletions task + 1) }

/-- `__ompc_task_set_state`. -/
def setState (s : TaskSystem) (task : Nat) (state : TaskState) : TaskSystem :=
  { s.touch task with state := Function.update s.state task state }

/-- `__ompc_atomic_inc` and `__ompc_atomic_dec` of `num_children`. -/
def addChildren (s : TaskSystem) (task : Nat) (amount : Int) : TaskSystem :=
  { s.touch task with
    numChildren :=
      Function.update s.numChildren task (s.numChildren task + amount) }

/-- The same of `num_blocking_children`. -/
def addBlocking (s : TaskSystem) (task : Nat) (amount : Int) : TaskSystem :=
  { s.touch task with
    numBlockingChildren :=
      Function.update s.numBlockingChildren task
        (s.numBlockingChildren task + amount) }

/-- A task goes on to another phase. -/
def setPhase (s : TaskSystem) (task : Nat) (phase : Phase) : TaskSystem :=
  { s with phase := Function.update s.phase task phase }

/-- The object of a new task. -/
def newTask (s : TaskSystem) (task parent : Nat) (isDeferred blocksParent : Bool) : TaskSystem :=
  { s with
    state := Function.update s.state task .unscheduled
    numChildren := Function.update s.numChildren task 0
    numBlockingChildren := Function.update s.numBlockingChildren task 0
    parent := Function.update s.parent task (some parent)
    isDeferred := Function.update s.isDeferred task isDeferred
    blocksParent := Function.update s.blocksParent task blocksParent }

/-! ## The steps of a task in its function -/

/-- `__ompc_task_create` of a deferred task, up to the count of the children. -/
def create (s : TaskSystem) (task child : Nat) (blocksParent : Bool) : Option TaskSystem :=
  if s.phase task = .running ∧ s.phase child = .absent then
    let created := (s.newTask child task true blocksParent).addChildren task 1
    some ((created.setPhase child .unpublished).setPhase task
      (.publishing child))
  else
    none

/-- `__ompc_task_create` of an immediate task, which starts at once. -/
def createImmediate (s : TaskSystem) (task child : Nat) : Option TaskSystem :=
  if s.phase task = .running ∧ s.phase child = .absent then
    let created := (s.newTask child task false false).setState task .ready
    some ((created.setPhase child .running).setPhase task (.calling child))
  else
    none

/-- `__ompc_task_switch` starts a task. -/
def start (s : TaskSystem) (task : Nat) : Option TaskSystem :=
  if s.phase task = .queued then
    some ((s.setState task .running).setPhase task .running)
  else
    none

/-- A running task looks at its own object. -/
def look (s : TaskSystem) (task : Nat) : Option TaskSystem :=
  if s.phase task = .running then some (s.touch task) else none

/--
A running task writes its own state, as `__ompc_task_create`,
`__ompc_task_wait` and a barrier do.
-/
def enter (s : TaskSystem) (task : Nat) (state : TaskState) : Option TaskSystem :=
  if s.phase task = .running ∧ state ≠ .exiting ∧ state ≠ .finished then
    some (s.setState task state)
  else
    none

/-- `__ompc_task_exit` of a task that has a parent begins. -/
def exit (s : TaskSystem) (task : Nat) : Option TaskSystem :=
  if s.phase task = .running ∧ s.parent task ≠ none then
    some ((s.setState task .exiting).setPhase task .exitEntered)
  else
    none

/-! ## The steps that follow -/

/-- The next step of `__ompc_task_create`, `_exit` or `_switch`. -/
def step (s : TaskSystem) (task : Nat) : Option TaskSystem :=
  match s.phase task, s.parent task with
  | .publishing child, _ =>
      if s.blocksParent child then
        some (((s.addBlocking task 1).setPhase child .queued).setPhase task
          .running)
      else
        some ((s.setPhase child .queued).setPhase task .running)
  | .exitEntered, _ =>
      some ((s.touch task).setPhase task
        (if s.isDeferred task then .exitDeferred else .exitTest 0))
  | .exitDeferred, some parent =>
      some ((s.addChildren parent (-1)).setPhase task
        (.exitTest (s.numChildren parent - 1)))
  | .exitTest numSiblings, some parent =>
      some ((s.touch parent).setPhase task
        (if s.isDeferred parent = true ∧ numSiblings = 0 then .exitTestState
          else .exitWait))
  | .exitTestState, some parent =>
      some ((s.touch parent).setPhase task
        (if s.state parent = .finished then .exitDelete else .exitWait))
  | .exitDelete, some parent =>
      some ((s.delete parent).setPhase task .exitWait)
  | .exitWait, _ =>
      some ((s.touch task).setPhase task
        (if s.numBlockingChildren task = 0 then .exitFlags else .exitWait))
  | .exitFlags, _ =>
      some ((s.touch task).setPhase task
        (if s.isDeferred task = true ∧ s.blocksParent task = true then
          .exitUnblock
        else .returned))
  | .exitUnblock, some parent =>
      some ((s.addBlocking parent (-1)).setPhase task .returned)
  | .returned, some parent =>
      if s.isDeferred task then
        some ((s.touch task).setPhase task
          (if s.numChildren task = 0 then .deleting else .finishing))
      else
        some (((s.setState parent .running).setPhase task .done).setPhase
          parent .running)
  | .deleting, _ => some ((s.delete task).setPhase task .done)
  | .finishing, _ => some ((s.setState task .finished).setPhase task .done)
  | _, _ => none

end TaskSystem

/-! ## Runs -/

/-- What a task does next. -/
inductive Move where
  | create (task child : Nat) (blocksParent : Bool)
  | createImmediate (task child : Nat)
  | start (task : Nat)
  | look (task : Nat)
  | enter (task : Nat) (state : TaskState)
  | exit (task : Nat)
  | step (task : Nat)
deriving DecidableEq

/-- One step of one task. -/
def TaskSystem.move (s : TaskSystem) : Move → Option TaskSystem
  | .create task child blocksParent => s.create task child blocksParent
  | .createImmediate task child => s.createImmediate task child
  | .start task => s.start task
  | .look task => s.look task
  | .enter task state => s.enter task state
  | .exit task => s.exit task
  | .step task => s.step task

/-- Some implicit tasks that run, and no other task. -/
structure Initial (s : TaskSystem) : Prop where
  phase : ∀ task, s.phase task = .running ∨ s.phase task = .absent
  parent : ∀ task, s.parent task = none
  isDeferred : ∀ task, s.isDeferred task = false
  state : ∀ task, s.state task ≠ .finished
  numChildren : ∀ task, s.numChildren task = 0
  numBlockingChildren : ∀ task, s.numBlockingChildren task = 0
  deletions : ∀ task, s.deletions task = 0
  touched : s.touched = false

/-! ## What the objects should go through -/

/-- The phases in which a task still has to access the object of its parent. -/
def NeedsParent (s : TaskSystem) (task : Nat) : Prop :=
  match s.phase task with
  | .absent | .returned | .deleting | .finishing | .done => False
  | .exitWait | .exitFlags => s.blocksParent task = true
  | _ => True

/-- Every task has come to its end, but for the implicit ones. -/
def Settled (s : TaskSystem) : Prop :=
  ∀ task, s.parent task ≠ none → s.phase task = .done

/-- The claim on the life of the task objects, in one state. -/
structure Sound (s : TaskSystem) : Prop where
  once : ∀ task, s.deletions task ≤ 1
  deferred : ∀ task, 0 < s.deletions task → s.isDeferred task = true
  afterReturn : ∀ task, 0 < s.deletions task → s.phase task = .done
  afterChildren : ∀ task child, 0 < s.deletions task →
    s.parent child = some task → ¬ NeedsParent s child
  untouched : s.touched = false
  noneLeft : Settled s → ∀ task, s.isDeferred task = true → s.deletions task = 1

/-! ## The overlaps that go wrong -/

/-- The phases between the decrement of a child and its last test. -/
def Phase.Testing : Phase → Prop
  | .exitTest _ | .exitTestState | .exitDelete => True
  | _ => False

/-- Those of them in which no sibling was left at the decrement. -/
def Phase.Responsible : Phase → Prop
  | .exitTest numSiblings => numSiblings = 0
  | .exitTestState | .exitDelete => True
  | _ => False

/-- No other child of a task is between its decrement and its last test. -/
def NoneTesting (s : TaskSystem) (parent task : Nat) : Prop :=
  ∀ other, other ≠ task → s.parent other = some parent → ¬ (s.phase other).Testing

/--
The tests that decide on a deletion do not overlap with other tasks: where
`__ompc_task_switch` finds no children, no child is within its tests; where a
child finds its parent FINISHED, no sibling is left or within its tests; and
where a child does not find its parent FINISHED, another one will, unless the
parent is still to count its children.
-/
def Apart (s : TaskSystem) : Move → Prop
  | .step task =>
      match s.phase task, s.parent task with
      | .returned, _ =>
          s.isDeferred task = true → s.numChildren task = 0 → NoneTesting s task task
      | .exitTestState, some parent =>
          if s.state parent = .finished then
            s.numChildren parent = 0 ∧ NoneTesting s parent task
          else
            s.phase parent = .finishing →
              s.numChildren parent ≠ 0 ∨
                ∃ other, other ≠ task ∧ s.parent other = some parent ∧ (s.phase other).Responsible
      | _, _ => True
  | _ => True

end OpenUH.Libopenmp.Tasks
