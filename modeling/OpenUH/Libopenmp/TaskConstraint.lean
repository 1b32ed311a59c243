import OpenUH.Libopenmp.TaskPool

/-!
# When the task scheduling constraint holds

The tail of the own queue and the count of the suspended tied tasks keep the
constraint as long as the tasks of a queue were put there by descendants of
the tied tasks below, after these began.
-/

namespace OpenUH.Libopenmp.TaskPool

open Foundation.Transition
open Libopenmp.Tasks (TaskState)
open Function (update_apply update_idem update_of_ne update_self)

/-- The activities of a task in a barrier. -/
def Activity.InBarrier : Activity → Prop
  | .test .barrier | .remove .barrier _ => True
  | _ => False

/-- What every step keeps. -/
structure PoolKept (s : PoolSystem) : Prop where
  counted : ∀ thread, s.numSuspendedTied thread = ((s.stack thread).countP Frame.counted : Nat)
  flagged : ∀ thread, (s.stack thread).IsChain fun upper lower =>
    upper.counted = s.holdsThread lower
  barrier : ∀ thread, ∀ frame ∈ s.stack thread,
    frame.state = .inBarrier → frame.activity.InBarrier
  created : ∀ thread, ∀ frame ∈ s.stack thread, s.isCreated frame.task = true
  orphan : ∀ task, s.isCreated task = false → s.parent task = none
  queuedTied : ∀ thread, ∀ queued ∈ s.tiedQueue thread,
    s.isCreated queued.task = true ∧ queued.stamp < s.clock
  queuedUntied : ∀ thread, ∀ task ∈ s.untiedQueue thread,
    s.isCreated task = true ∧ s.isTied task = false
  descends : ∀ thread, ∀ queued ∈ s.tiedQueue thread,
    ∀ frame ∈ s.stack thread, s.holdsThread frame = true →
      frame.since ≤ queued.stamp → Descends s queued.task frame.task
  constrained : Constrained s

variable {settings : PoolSettings} {s s' : PoolSystem}
  {thread task child parent : Nat} {current next : Frame}
  {below : List Frame}

/-- Nothing that the constraint looks at has changed. -/
theorem PoolKept.congr (kept : PoolKept s) (isCreated : s'.isCreated = s.isCreated)
    (parent : s'.parent = s.parent) (isTied : s'.isTied = s.isTied) (stack : s'.stack = s.stack)
    (numSuspendedTied : s'.numSuspendedTied = s.numSuspendedTied)
    (tiedQueue : s'.tiedQueue = s.tiedQueue) (untiedQueue : s'.untiedQueue = s.untiedQueue)
    (clock : s'.clock = s.clock) (starts : s'.starts = s.starts) : PoolKept s' := by
  obtain ⟨h1, h2, h3, h4, h5, h6, h7, h8, h9⟩ := kept
  constructor <;>
    simp only [PoolSystem.holdsThread, Constrained, Descends, isCreated,
      parent, isTied, stack, numSuspendedTied, tiedQueue, untiedQueue, clock,
      starts] <;>
    assumption

/-- The queues only get shorter. -/
theorem PoolKept.ofFewer {tiedQueue : Nat → List QueuedTask}
    {untiedQueue : Nat → List Nat} (kept : PoolKept s)
    (tied : ∀ thread, ∀ queued ∈ tiedQueue thread, queued ∈ s.tiedQueue thread)
    (untied : ∀ thread, ∀ task ∈ untiedQueue thread, task ∈ s.untiedQueue thread) :
    PoolKept
      { s with
        tiedQueue := tiedQueue
        untiedQueue := untiedQueue } where
  counted := kept.counted
  flagged := kept.flagged
  barrier := kept.barrier
  created := kept.created
  orphan := kept.orphan
  queuedTied := fun thread queued member =>
    kept.queuedTied thread queued (tied thread queued member)
  queuedUntied := fun thread task member =>
    kept.queuedUntied thread task (untied thread task member)
  descends := fun thread queued member =>
    kept.descends thread queued (tied thread queued member)
  constrained := kept.constrained

/-! ## The stacks -/

/--
A frame that takes the place of another one: it is of the same task, and where
it holds its thread it did so before, or from now on.
-/
structure Replaces (s : PoolSystem) (current next : Frame) : Prop where
  task : next.task = current.task
  counted : next.counted = current.counted
  barrier : next.state = .inBarrier → next.activity.InBarrier
  since : s.holdsThread next = true →
    s.holdsThread current = true ∧ next.since = current.since ∨ next.since = s.clock

section

variable (kept : PoolKept s) (stack : s.stack thread = current :: below)

include kept stack

/-- The current task goes on. -/
theorem PoolKept.goOn (replaces : Replaces s current next) :
    PoolKept (s.goOn thread next below) := by
  have onStack : ∀ {other frame},
      frame ∈ (s.goOn thread next below).stack other →
        other = thread ∧ frame = next ∨ frame ∈ s.stack other := by
    intro other frame member
    simp only [PoolSystem.goOn, update_apply] at member
    split at member
    case isTrue same =>
      rw [same, stack]
      rcases List.mem_cons.1 member with rfl | inBelow
      · exact Or.inl ⟨rfl, rfl⟩
      · exact Or.inr (List.mem_cons_of_mem _ inBelow)
    case isFalse => exact Or.inr member
  have inStack : current ∈ s.stack thread := by
    rw [stack]
    exact List.mem_cons_self
  constructor
  case counted =>
    intro other
    have before := kept.counted other
    simp only [PoolSystem.goOn, update_apply]
    split
    case isTrue same =>
      rw [before, same, stack, List.countP_cons, List.countP_cons, replaces.counted]
    case isFalse => exact before
  case flagged =>
    intro other
    have before := kept.flagged other
    simp only [PoolSystem.goOn, update_apply]
    split
    case isTrue same =>
      rw [same, stack] at before
      cases below with
      | nil => exact List.isChain_singleton _
      | cons lower rest =>
          rw [List.isChain_cons_cons] at before ⊢
          rw [replaces.counted]
          exact before
    case isFalse => exact before
  case barrier =>
    intro other frame member inBarrier
    rcases onStack member with ⟨-, rfl⟩ | old
    · exact replaces.barrier inBarrier
    · exact kept.barrier other frame old inBarrier
  case created =>
    intro other frame member
    rcases onStack member with ⟨-, rfl⟩ | old
    · rw [replaces.task]
      exact kept.created thread current inStack
    · exact kept.created other frame old
  case descends =>
    intro other queued inQueue frame member holds since
    rcases onStack member with ⟨rfl, rfl⟩ | old
    · rw [replaces.task]
      rcases replaces.since holds with ⟨held, same⟩ | now
      · exact kept.descends other queued inQueue current inStack held (same ▸ since)
      · have stamp := (kept.queuedTied other queued inQueue).2
        rw [now] at since
        omega
    · exact kept.descends other queued inQueue frame old holds since
  case orphan => exact kept.orphan
  case queuedTied => exact kept.queuedTied
  case queuedUntied => exact kept.queuedUntied
  case constrained => exact kept.constrained

/-- A new task begins on top of the stack. -/
theorem PoolKept.push {counted : Bool} (isCounted : counted = s.holdsThread current)
    (created : s.isCreated task = true)
    (descends : s.isDeferred task = true → s.isTied task = true →
      ∀ frame ∈ current :: below, s.holdsThread frame = true → Descends s task frame.task) :
    PoolKept (s.pushTask thread task current below counted) := by
  have onStack : ∀ {other frame},
      frame ∈ (s.pushTask thread task current below counted).stack other →
        other = thread ∧ frame.task = task ∧ frame.state = .running ∧
          frame.since = s.clock ∨ frame ∈ s.stack other := by
    intro other frame member
    simp only [PoolSystem.pushTask, update_apply] at member
    split at member
    case isTrue same =>
      rw [same, stack]
      rcases List.mem_cons.1 member with rfl | inBelow
      · exact Or.inl ⟨rfl, rfl, rfl, rfl⟩
      · exact Or.inr inBelow
    case isFalse => exact Or.inr member
  constructor
  case counted =>
    intro other
    have before := kept.counted other
    simp only [PoolSystem.pushTask, update_apply]
    by_cases same : other = thread
    · subst same
      rw [if_pos rfl, List.countP_cons, ← stack]
      cases counted
      · simpa using before
      · simp only [if_true, update_self, before]
        push_cast
        rfl
    · rw [if_neg same]
      cases counted
      · simpa using before
      · simpa [update_of_ne same] using before
  case flagged =>
    intro other
    have before := kept.flagged other
    change List.IsChain
      (fun upper lower : Frame => upper.counted = s.holdsThread lower)
      (Function.update s.stack thread _ other)
    by_cases same : other = thread
    · subst same
      rw [update_self, List.isChain_cons_cons, ← stack]
      exact ⟨isCounted, before⟩
    · rwa [update_of_ne same]
  case barrier =>
    intro other frame member inBarrier
    rcases onStack member with ⟨-, -, running, -⟩ | old
    · rw [running] at inBarrier
      cases inBarrier
    · exact kept.barrier other frame old inBarrier
  case created =>
    intro other frame member
    rcases onStack member with ⟨-, same, -, -⟩ | old
    · rw [same]
      exact created
    · exact kept.created other frame old
  case descends =>
    intro other queued inQueue frame member holds since
    rcases onStack member with ⟨-, -, -, now⟩ | old
    · have stamp := (kept.queuedTied other queued inQueue).2
      rw [now] at since
      omega
    · exact kept.descends other queued inQueue frame old holds since
  case constrained =>
    intro start member suspended isSuspended
    simp only [PoolSystem.pushTask] at member
    split at member
    case isTrue both =>
      rw [Bool.and_eq_true] at both
      rw [List.mem_append, List.mem_singleton] at member
      rcases member with old | rfl
      · exact kept.constrained start old suspended isSuspended
      · obtain ⟨frame, inFilter, rfl⟩ := List.mem_map.1 isSuspended
        obtain ⟨inBelow, holds⟩ := List.mem_filter.1 inFilter
        exact descends both.1 both.2 frame inBelow holds
    case isFalse => exact kept.constrained start member suspended isSuspended
  case orphan => exact kept.orphan
  case queuedTied => exact kept.queuedTied
  case queuedUntied => exact kept.queuedUntied

/-- The current task goes on to where it starts another one. -/
theorem PoolKept.pushTask {counted : Bool} (replaces : Replaces s current next)
    (isCounted : counted = s.holdsThread next) (created : s.isCreated task = true)
    (descends : s.isDeferred task = true → s.isTied task = true →
      ∀ frame ∈ next :: below, s.holdsThread frame = true → Descends s task frame.task) :
    PoolKept (s.pushTask thread task next below counted) := by
  have moved := kept.goOn stack replaces
  have top : (s.goOn thread next below).stack thread = next :: below := update_self _ _ _
  have pushed := moved.push top isCounted created descends
  have same : (s.goOn thread next below).pushTask thread task next below
      counted = s.pushTask thread task next below counted := by
    unfold PoolSystem.goOn PoolSystem.pushTask
    dsimp only
    rw [update_idem]
    rfl
  rwa [same] at pushed

end

/-- What the frame below becomes when a function returns. -/
def Frame.resumed (caller : Frame) : Frame :=
  if caller.activity = .running then
    { caller with state := .running }
  else
    caller

theorem Replaces.resumed {caller : Frame}
    (barrier : caller.state = .inBarrier → caller.activity.InBarrier) :
    Replaces s caller caller.resumed := by
  unfold Frame.resumed
  split
  case isTrue running =>
    refine ⟨rfl, rfl, by simp, fun holds => Or.inl ⟨?_, rfl⟩⟩
    have outside : caller.state ≠ .inBarrier := by
      intro inBarrier
      have := barrier inBarrier
      rw [running] at this
      exact this
    simp only [PoolSystem.holdsThread, Bool.and_eq_true] at holds ⊢
    exact ⟨holds.1, by simpa using outside⟩
  case isFalse => exact ⟨rfl, rfl, barrier, fun holds => Or.inl ⟨holds, rfl⟩⟩

/-- The function of the current task has returned. -/
theorem PoolKept.pop (kept : PoolKept s) (stack : s.stack thread = current :: below) :
    PoolKept
      { s with
        stack := Function.update s.stack thread below
        numSuspendedTied :=
          if current.counted then
            Function.update s.numSuspendedTied thread (s.numSuspendedTied thread - 1)
          else
            s.numSuspendedTied } := by
  have onStack : ∀ {other frame},
      frame ∈ Function.update s.stack thread below other → frame ∈ s.stack other := by
    intro other frame member
    rw [update_apply] at member
    split at member
    case isTrue same =>
      rw [same, stack]
      exact List.mem_cons_of_mem _ member
    case isFalse => exact member
  constructor
  case counted =>
    intro other
    have before := kept.counted other
    dsimp only
    by_cases same : other = thread
    · subst same
      rw [stack, List.countP_cons] at before
      rw [update_self]
      cases flag : current.counted
      · simpa [flag] using before
      · simp only [if_true, update_self, before, flag]
        push_cast
        omega
    · rw [update_of_ne same]
      cases current.counted
      · simpa using before
      · simpa [update_of_ne same] using before
  case flagged =>
    intro other
    have before := kept.flagged other
    change List.IsChain
      (fun upper lower : Frame => upper.counted = s.holdsThread lower)
      (Function.update s.stack thread below other)
    by_cases same : other = thread
    · subst same
      rw [stack] at before
      rw [update_self]
      exact before.tail
    · rwa [update_of_ne same]
  case barrier => exact fun other frame member =>
      kept.barrier other frame (onStack member)
  case created => exact fun other frame member =>
      kept.created other frame (onStack member)
  case descends => exact fun other queued inQueue frame member =>
      kept.descends other queued inQueue frame (onStack member)
  case orphan => exact kept.orphan
  case queuedTied => exact kept.queuedTied
  case queuedUntied => exact kept.queuedUntied
  case constrained => exact kept.constrained

theorem PoolKept.leave (kept : PoolKept s) (stack : s.stack thread = current :: below) :
    PoolKept (s.leave thread current below) := by
  have popped := kept.pop stack
  cases below with
  | nil => exact popped
  | cons caller rest =>
      have top := update_self thread (caller :: rest) s.stack
      have barrier := kept.barrier thread caller (by
        rw [stack]
        exact List.mem_cons_of_mem _ List.mem_cons_self)
      have resumed := popped.goOn top (Replaces.resumed barrier)
      unfold PoolSystem.goOn at resumed
      dsimp only at resumed
      rw [update_idem] at resumed
      exact resumed

/-! ## New tasks -/

section NewTask

variable {isTied isDeferred blocksParent : Bool}

/-- The parents of the other tasks stay. -/
theorem Descends.newTask {descendant ancestor : Nat} (orphan : s.parent child = none)
    (descends : Descends s descendant ancestor) :
    Descends (s.newTask child parent isTied isDeferred blocksParent)
      descendant ancestor := by
  refine Relation.TransGen.mono ?_ _ _ descends
  intro lower upper edge
  have other : lower ≠ child := by
    rintro rfl
    rw [orphan] at edge
    cases edge
  simpa [PoolSystem.newTask, update_of_ne other] using edge

/-- A new task descends from its parent and the ancestors of the parent. -/
theorem Descends.ofNewTask {ancestor : Nat} (orphan : s.parent child = none)
    (above : parent = ancestor ∨ Descends s parent ancestor) :
    Descends (s.newTask child parent isTied isDeferred blocksParent) child
      ancestor := by
  have edge : (s.newTask child parent isTied isDeferred blocksParent).parent
      child = some parent := update_self _ _ _
  rcases above with rfl | above
  · exact Relation.TransGen.single edge
  · exact Relation.TransGen.head edge (above.newTask orphan)

theorem holdsThread_newTask {frame : Frame} (other : frame.task ≠ child) :
    (s.newTask child parent isTied isDeferred blocksParent).holdsThread frame =
      s.holdsThread frame := by
  simp [PoolSystem.holdsThread, PoolSystem.newTask, update_of_ne other]

theorem PoolKept.newTask (kept : PoolKept s) (fresh : s.isCreated child = false) :
    PoolKept (s.newTask child parent isTied isDeferred blocksParent) := by
  have orphan := kept.orphan child fresh
  have other : ∀ {task}, s.isCreated task = true → task ≠ child := by
    rintro task created rfl
    rw [fresh] at created
    cases created
  have stays : ∀ {task}, s.isCreated task = true →
      (s.newTask child parent isTied isDeferred blocksParent).isCreated task = true := by
    intro task created
    simpa [PoolSystem.newTask, update_of_ne (other created)] using created
  constructor
  case counted => exact kept.counted
  case flagged =>
    intro thread
    refine List.IsChain.imp_of_mem_imp ?_ (kept.flagged thread)
    intro upper lower _ isLower flag
    rw [flag, holdsThread_newTask (other (kept.created thread lower isLower))]
  case barrier => exact kept.barrier
  case created =>
    intro thread frame member
    exact stays (kept.created thread frame member)
  case orphan =>
    intro task notCreated
    by_cases same : task = child
    · simp [PoolSystem.newTask, same] at notCreated
    · simp only [PoolSystem.newTask, update_of_ne same]
        at notCreated ⊢
      exact kept.orphan task notCreated
  case queuedTied =>
    intro thread queued member
    obtain ⟨created, stamp⟩ := kept.queuedTied thread queued member
    exact ⟨stays created, stamp⟩
  case queuedUntied =>
    intro thread task member
    obtain ⟨created, untied⟩ := kept.queuedUntied thread task member
    refine ⟨stays created, ?_⟩
    simpa [PoolSystem.newTask, update_of_ne (other created)] using untied
  case descends =>
    intro thread queued inQueue frame member holds since
    rw [holdsThread_newTask (other (kept.created thread frame member))]
      at holds
    exact (kept.descends thread queued inQueue frame member holds since).newTask orphan
  case constrained =>
    intro start member suspended isSuspended
    exact (kept.constrained start member suspended isSuspended).newTask orphan

theorem PoolKept.countChild (kept : PoolKept s) : PoolKept (s.countChild parent blocksParent) :=
  kept.congr rfl rfl rfl rfl rfl rfl rfl rfl rfl

end NewTask

/-! ## The queues -/

/-- A tied task is put at the tail of the queue of its thread. -/
theorem PoolKept.putTied (kept : PoolKept s) (created : s.isCreated task = true)
    (descends : ∀ frame ∈ s.stack thread, s.holdsThread frame = true → Descends s task frame.task) :
    PoolKept
      { s with
        tiedQueue := Function.update s.tiedQueue thread
          (s.tiedQueue thread ++ [{ task := task, stamp := s.clock }])
        clock := s.clock + 1 } := by
  have inQueue : ∀ {other : Nat} {queued : QueuedTask},
      queued ∈ Function.update s.tiedQueue thread
          (s.tiedQueue thread ++ [{ task := task, stamp := s.clock }]) other →
        queued ∈ s.tiedQueue other ∨
          other = thread ∧ queued = { task := task, stamp := s.clock } := by
    intro other queued member
    rw [update_apply] at member
    split at member
    case isTrue same =>
      rw [List.mem_append, List.mem_singleton] at member
      rcases member with old | new
      · exact Or.inl (same ▸ old)
      · exact Or.inr ⟨same, new⟩
    case isFalse => exact Or.inl member
  constructor
  case queuedTied =>
    intro other queued member
    rcases inQueue member with old | ⟨-, rfl⟩
    · obtain ⟨isCreated, stamp⟩ := kept.queuedTied other queued old
      exact ⟨isCreated, Nat.lt_succ_of_lt stamp⟩
    · exact ⟨created, Nat.lt_succ_self _⟩
  case descends =>
    intro other queued member frame onStack holds since
    rcases inQueue member with old | ⟨rfl, rfl⟩
    · exact kept.descends other queued old frame onStack holds since
    · exact descends frame onStack holds
  case counted => exact kept.counted
  case flagged => exact kept.flagged
  case barrier => exact kept.barrier
  case created => exact kept.created
  case orphan => exact kept.orphan
  case queuedUntied => exact kept.queuedUntied
  case constrained => exact kept.constrained

/-- An untied task is put at the tail of the queue of its thread. -/
theorem PoolKept.putUntied (kept : PoolKept s)
    (created : s.isCreated task = true) (untied : s.isTied task = false) :
    PoolKept
      { s with
        untiedQueue := Function.update s.untiedQueue thread (s.untiedQueue thread ++ [task]) } := by
  constructor
  case queuedUntied =>
    intro other queued member
    dsimp only at member
    rw [update_apply] at member
    split at member
    case isTrue same =>
      rw [List.mem_append, List.mem_singleton] at member
      rcases member with old | rfl
      · exact kept.queuedUntied thread queued old
      · exact ⟨created, untied⟩
    case isFalse => exact kept.queuedUntied other queued member
  case counted => exact kept.counted
  case flagged => exact kept.flagged
  case barrier => exact kept.barrier
  case created => exact kept.created
  case orphan => exact kept.orphan
  case queuedTied => exact kept.queuedTied
  case descends => exact kept.descends
  case constrained => exact kept.constrained

/-! ## `__ompc_task_create` -/

theorem isTied_of_holdsThread (holds : s.holdsThread current = true) :
    s.isTied current.task = true := by
  simp only [PoolSystem.holdsThread, Bool.and_eq_true] at holds
  exact holds.1

/-- A tied task outside of the barriers holds its thread. -/
theorem PoolKept.holdsThread_outside (kept : PoolKept s) (stack : s.stack thread = current :: below)
    (outside : ¬ current.activity.InBarrier)
    (tied : s.isTied current.task = true) : s.holdsThread current = true := by
  have state : current.state ≠ .inBarrier := fun inBarrier =>
    outside (kept.barrier thread current (by simp [stack]) inBarrier)
  simp [PoolSystem.holdsThread, tied, state]

theorem Activity.outside_of_running (running : current.activity = .running) :
    ¬ current.activity.InBarrier := by
  rw [running]
  exact id

/-- A task outside of the barriers stops or goes on. -/
theorem Replaces.outside {state : TaskState} {activity : Activity}
    (kept : PoolKept s) (stack : s.stack thread = current :: below)
    (outside : ¬ current.activity.InBarrier) (barrier : state = .inBarrier → activity.InBarrier) :
    Replaces s current
      { current with
        state := state
        activity := activity } where
  task := rfl
  counted := rfl
  barrier := barrier
  since := fun holds =>
    Or.inl ⟨kept.holdsThread_outside stack outside (isTied_of_holdsThread holds :), rfl⟩

/-- A task goes on in its loop. -/
theorem Replaces.inLoop {activity : Activity} (kept : PoolKept s)
    (stack : s.stack thread = current :: below)
    (barrier : current.activity.InBarrier → activity.InBarrier) :
    Replaces s current { current with activity := activity } where
  task := rfl
  counted := rfl
  barrier := fun inBarrier =>
    barrier (kept.barrier thread current (by simp [stack]) inBarrier)
  since := fun holds => Or.inl ⟨holds, rfl⟩

/-- What a thread starts or puts when it creates a task. -/
theorem create_eq_some {isTied mayDelay blocksParent : Bool}
    (created : s.create settings thread child isTied mayDelay blocksParent = some s') :
    ∃ current below, s.stack thread = current :: below ∧
      current.activity = .running ∧ s.isCreated child = false ∧
      ((mayDelay = false ∧
          s' = (s.newTask child current.task isTied false false).pushTask
            thread child { current with state := .ready } below
            (s.isTied current.task)) ∨
        (mayDelay = true ∧
          ∃ deferred, deferred =
              (s.newTask child current.task isTied true
                blocksParent).countChild current.task blocksParent ∧
            (s' = deferred.taskSwitch thread child
                { current with state := .ready } below ∨
              isTied = true ∧ s' =
                { deferred with
                  tiedQueue := Function.update deferred.tiedQueue thread
                    (deferred.tiedQueue thread ++ [{ task := child, stamp := deferred.clock }])
                  clock := deferred.clock + 1 } ∨
              isTied = false ∧ s' =
                { deferred with
                  untiedQueue := Function.update deferred.untiedQueue thread
                    (deferred.untiedQueue thread ++ [child]) }))) := by
  unfold PoolSystem.create at created
  split at created
  case h_1 => cases created
  case h_2 current below stack =>
    split at created
    case isFalse => cases created
    case isTrue guard =>
      refine ⟨current, below, stack, guard.1, guard.2, ?_⟩
      dsimp only at created
      cases mayDelay
      case false =>
        rw [if_neg (by simp)] at created
        exact Or.inl ⟨rfl, (Option.some.inj created).symm⟩
      case true =>
        rw [if_pos rfl] at created
        refine Or.inr ⟨rfl, _, rfl, ?_⟩
        split at created
        case isTrue tied =>
          split at created
          · exact Or.inr (Or.inl ⟨tied, (Option.some.inj created).symm⟩)
          · exact Or.inl (Option.some.inj created).symm
        case isFalse untied =>
          split at created
          · exact Or.inr (Or.inr ⟨by simpa using untied, (Option.some.inj created).symm⟩)
          · exact Or.inl (Option.some.inj created).symm

theorem PoolKept.create {isTied mayDelay blocksParent : Bool} (kept : PoolKept s)
    (orderly : Orderly s (.create thread child isTied mayDelay blocksParent))
    (created : s.create settings thread child isTied mayDelay blocksParent = some s') :
    PoolKept s' := by
  obtain ⟨current, below, stack, running, fresh, outcome⟩ := create_eq_some created
  have orphan := kept.orphan child fresh
  have onStack : ∀ frame ∈ current :: below, frame.task ≠ child := by
    rintro frame member rfl
    have isCreated := kept.created thread frame (stack ▸ member)
    rw [fresh] at isCreated
    cases isCreated
  rcases outcome with ⟨-, rfl⟩ | ⟨delayed, deferred, rfl, outcome⟩
  · have born : PoolKept (s.newTask child current.task isTied false false) :=
      kept.newTask fresh
    refine born.pushTask stack
      (Replaces.outside born stack (Activity.outside_of_running running) (by simp)) ?_ ?_ ?_
    · simp [PoolSystem.holdsThread, PoolSystem.newTask,
        update_of_ne (onStack current List.mem_cons_self)]
    · exact update_self _ _ _
    · intro isDeferred
      have notDeferred : (s.newTask child current.task isTied false
          false).isDeferred child = false := update_self _ _ _
      rw [notDeferred] at isDeferred
      cases isDeferred
  · have born : PoolKept ((s.newTask child current.task isTied true
        blocksParent).countChild current.task blocksParent) :=
      (kept.newTask fresh).countChild
    have childTied : ((s.newTask child current.task isTied true
        blocksParent).countChild current.task blocksParent).isTied child =
          isTied := update_self _ _ _
    have descends : isTied = true → ∀ frame ∈ current :: below,
        ((s.newTask child current.task isTied true blocksParent).countChild
          current.task blocksParent).holdsThread frame = true →
          Descends ((s.newTask child current.task isTied true
            blocksParent).countChild current.task blocksParent) child
              frame.task := by
      intro tied frame member holds
      have held : (s.newTask child current.task isTied true
          blocksParent).holdsThread frame = true := holds
      rw [holdsThread_newTask (onStack frame member)] at held
      have above := orderly tied delayed current (by simp [stack]) frame (stack ▸ member) held
      have edge : Descends (s.newTask child current.task isTied true
          blocksParent) child frame.task := Descends.ofNewTask orphan above
      exact edge
    rcases outcome with rfl | ⟨tied, rfl⟩ | ⟨untied, rfl⟩
    · refine born.pushTask stack
        (Replaces.outside born stack (Activity.outside_of_running running) (by simp)) rfl
        (update_self _ _ _) ?_
      intro _ tied frame member holds
      rw [childTied] at tied
      rcases List.mem_cons.1 member with rfl | inBelow
      · exact descends tied current List.mem_cons_self
          (born.holdsThread_outside stack
            (Activity.outside_of_running running)
            (isTied_of_holdsThread holds :))
      · exact descends tied frame (List.mem_cons_of_mem _ inBelow) holds
    · refine born.putTied (update_self _ _ _) ?_
      intro frame member holds
      exact descends tied frame (stack ▸ member) holds
    · exact born.putUntied (update_self _ _ _) (childTied.trans untied)

/-! ## Waiting and leaving -/

theorem PoolKept.wait (kept : PoolKept s) (waits : s.wait thread = some s') : PoolKept s' := by
  unfold PoolSystem.wait at waits
  split at waits
  case h_1 => cases waits
  case h_2 current below stack =>
    split at waits
    case isFalse => cases waits
    case isTrue running =>
      cases waits
      exact kept.goOn stack (Replaces.outside kept stack
        (Activity.outside_of_running running) (by simp))

theorem PoolKept.exit (kept : PoolKept s) (exits : s.exit thread = some s') : PoolKept s' := by
  unfold PoolSystem.exit at exits
  split at exits
  case h_1 => cases exits
  case h_2 current below stack =>
    split at exits
    case h_1 => cases exits
    case h_2 parent isParent =>
      split at exits
      case isFalse => cases exits
      case isTrue running =>
        have exiting : PoolKept (s.goOn thread
            { current with state := .exiting, activity := .test .exit }
            below) :=
          kept.goOn stack (Replaces.outside kept stack
            (Activity.outside_of_running running) (by simp))
        dsimp only at exits
        split at exits
        case isTrue =>
          cases exits
          exact exiting.congr rfl rfl rfl rfl rfl rfl rfl rfl rfl
        case isFalse =>
          cases exits
          exact exiting

theorem PoolKept.enterBarrier (kept : PoolKept s)
    (enters : s.enterBarrier thread = some s') : PoolKept s' := by
  unfold PoolSystem.enterBarrier at enters
  split at enters
  case h_1 => cases enters
  case h_2 current below stack =>
    split at enters
    case isFalse => cases enters
    case isTrue guard =>
      cases enters
      exact kept.goOn stack (Replaces.outside kept stack
        (Activity.outside_of_running guard.1) (fun _ => trivial))

theorem PoolKept.finish (kept : PoolKept s) (stack : s.stack thread = current :: below) :
    PoolKept (s.finish thread current below) := by
  have left := kept.leave stack
  unfold PoolSystem.finish
  split
  · exact left.congr rfl rfl rfl rfl rfl rfl rfl rfl rfl
  · exact left

theorem PoolKept.testLoop {loop : WaitLoop} (kept : PoolKept s)
    (stack : s.stack thread = current :: below) (tests : current.activity = .test loop) :
    PoolKept (s.testLoop thread current below loop) := by
  cases loop
  case wait =>
    have outside : ¬ current.activity.InBarrier := by
      rw [tests]
      exact id
    simp only [PoolSystem.testLoop]
    split
    · exact kept.goOn stack (Replaces.inLoop kept stack (absurd · outside))
    · exact kept.goOn stack (Replaces.outside kept stack outside (by simp))
  case exit =>
    have outside : ¬ current.activity.InBarrier := by
      rw [tests]
      exact id
    simp only [PoolSystem.testLoop]
    split
    · exact kept.goOn stack (Replaces.inLoop kept stack (absurd · outside))
    · exact kept.finish stack
  case barrier =>
    simp only [PoolSystem.testLoop]
    split
    · exact kept.goOn stack (Replaces.inLoop kept stack fun _ => trivial)
    · exact kept.goOn stack ⟨rfl, rfl, by simp, fun _ => Or.inr rfl⟩

/-! ## `__ompc_remove_task_from_pool_default` -/

theorem Activity.inBarrier_of_remove {loop : WaitLoop} {stage : Stage}
    (removes : current.activity = .remove loop stage) {activity : Activity}
    (sameLoop : activity = .test loop ∨ ∃ next, activity = .remove loop next)
    (inBarrier : current.activity.InBarrier) : activity.InBarrier := by
  rw [removes] at inBarrier
  cases loop
  case barrier => rcases sameLoop with rfl | ⟨next, rfl⟩ <;> trivial
  case wait => exact inBarrier.elim
  case exit => exact inBarrier.elim

section Remove

variable {loop : WaitLoop} {stage : Stage} {victim : Nat}

section

variable (kept : PoolKept s) (stack : s.stack thread = current :: below)

include kept stack

/-- The task finds no other one at a place. -/
theorem PoolKept.goOnInLoop {activity : Activity} (removes : current.activity = .remove loop stage)
    (sameLoop : activity = .test loop ∨ ∃ next, activity = .remove loop next) :
    PoolKept (s.goOn thread { current with activity := activity } below) :=
  kept.goOn stack (Replaces.inLoop kept stack (Activity.inBarrier_of_remove removes sameLoop))

/-- A task that was taken from a queue runs on top of the task in the loop. -/
theorem PoolKept.switchInLoop {tiedQueue : Nat → List QueuedTask}
    {untiedQueue : Nat → List Nat}     (removes : current.activity = .remove loop stage)
    (tied : ∀ thread, ∀ queued ∈ tiedQueue thread, queued ∈ s.tiedQueue thread)
    (untied : ∀ thread, ∀ task ∈ untiedQueue thread, task ∈ s.untiedQueue thread)
    (created : s.isCreated task = true)
    (descends : s.isTied task = true → ∀ frame ∈ current :: below,
      s.holdsThread frame = true → Descends s task frame.task) :
    PoolKept
      ({ s with
        tiedQueue := tiedQueue
        untiedQueue := untiedQueue }.taskSwitch thread task
          { current with activity := .test loop } below) := by
  have fewer := kept.ofFewer tied untied
  refine fewer.pushTask stack (Replaces.inLoop fewer stack
    (Activity.inBarrier_of_remove removes (Or.inl rfl))) rfl created ?_
  intro _ isTied frame member holds
  rcases List.mem_cons.1 member with rfl | inBelow
  · exact descends isTied current List.mem_cons_self holds
  · exact descends isTied frame (List.mem_cons_of_mem _ inBelow) holds

theorem PoolKept.getOwnTied (removes : current.activity = .remove loop .ownTied)
    (orderly : Orderly s (.step thread victim)) :
    PoolKept (s.getOwnTied thread current below loop) := by
  unfold PoolSystem.getOwnTied
  split
  case h_1 queued tail =>
    have inQueue : queued ∈ s.tiedQueue thread := List.mem_of_getLast? tail
    refine kept.switchInLoop stack removes ?_ (fun _ _ => id)
      (kept.queuedTied thread queued inQueue).1 ?_
    · intro other task member
      rw [update_apply] at member
      split at member
      case isTrue same => exact same ▸ List.mem_of_mem_dropLast member
      case isFalse => exact member
    · intro _ frame member holds
      have onStack : frame ∈ s.stack thread := stack ▸ member
      exact kept.descends thread queued inQueue frame onStack holds
        (orderly current (by simp [stack]) ⟨loop, removes⟩ queued tail frame onStack holds)
  case h_2 =>
    exact kept.goOnInLoop stack removes (Or.inr ⟨.ownUntied, rfl⟩)

end

theorem takeUntied_mem {fromTail : Bool} {queue rest : List Nat}
    (takes : PoolSystem.takeUntied fromTail queue = some (task, rest)) :
    task ∈ queue ∧ ∀ other ∈ rest, other ∈ queue := by
  cases fromTail
  case false =>
    simp only [PoolSystem.takeUntied, Bool.false_eq_true, if_false,
      Option.map_eq_some_iff, Prod.mk.injEq] at takes
    obtain ⟨first, head, rfl, rfl⟩ := takes
    exact ⟨List.mem_of_head? head, fun _ => List.mem_of_mem_tail⟩
  case true =>
    simp only [PoolSystem.takeUntied, if_true, Option.map_eq_some_iff, Prod.mk.injEq] at takes
    obtain ⟨last, tail, rfl, rfl⟩ := takes
    exact ⟨List.mem_of_getLast? tail, fun _ => List.mem_of_mem_dropLast⟩

section

variable (kept : PoolKept s) (stack : s.stack thread = current :: below)

include kept stack

/-- An untied task that was taken from a queue runs. -/
theorem PoolKept.switchUntied {fromTail : Bool} {owner : Nat} {rest : List Nat}
        (removes : current.activity = .remove loop stage)
    (takes : PoolSystem.takeUntied fromTail (s.untiedQueue owner) = some (task, rest)) :
    PoolKept
      ({ s with
        untiedQueue := Function.update s.untiedQueue owner rest }.taskSwitch
          thread task { current with activity := .test loop } below) := by
  obtain ⟨taken, fewer⟩ := takeUntied_mem takes
  obtain ⟨created, untied⟩ := kept.queuedUntied owner task taken
  refine kept.switchInLoop stack removes (fun _ _ => id) ?_ created ?_
  · intro other task member
    rw [update_apply] at member
    split at member
    case isTrue same => exact same ▸ fewer task member
    case isFalse => exact member
  · intro tied
    rw [untied] at tied
    cases tied

theorem PoolKept.getOwnUntied (removes : current.activity = .remove loop .ownUntied) :
    PoolKept (s.getOwnUntied settings thread current below loop) := by
  unfold PoolSystem.getOwnUntied
  split
  case h_1 task rest takes => exact kept.switchUntied stack removes takes
  case h_2 =>
    split
    · exact kept.goOnInLoop stack removes (Or.inl rfl)
    · exact kept.goOnInLoop stack removes (Or.inr ⟨.otherUntied, rfl⟩)

theorem PoolKept.stealUntied (removes : current.activity = .remove loop .otherUntied) :
    PoolKept (s.stealUntied settings thread victim current below loop) := by
  unfold PoolSystem.stealUntied
  split
  case h_1 task rest takes => exact kept.switchUntied stack removes takes
  case h_2 => exact kept.goOnInLoop stack removes (Or.inr ⟨.otherTied, rfl⟩)

end

/-- No flag on a stack is set, so no task below the first one is held. -/
theorem not_holdsThread_of_isChain {frames : List Frame}
    (flagged : frames.IsChain fun upper lower =>
      upper.counted = s.holdsThread lower)
    (none : ∀ frame ∈ frames, frame.counted = false) :
    ∀ frame ∈ frames.tail, s.holdsThread frame = false := by
  induction frames with
  | nil => simp
  | cons upper rest ih =>
      intro frame member
      cases rest with
      | nil => cases member
      | cons lower rest =>
          rw [List.isChain_cons_cons] at flagged
          rcases List.mem_cons.1 member with rfl | inRest
          · exact flagged.1.symm.trans (none upper List.mem_cons_self)
          · exact ih flagged.2
              (fun other inLower => none other (List.mem_cons_of_mem _ inLower))
              frame inRest

/-- A thread that may steal a tied task has no task tied to it. -/
theorem PoolKept.not_holdsThread (kept : PoolKept s) (stack : s.stack thread = current :: below)
    (noneSuspended : s.numSuspendedTied thread = 0)
    (free : current.state = .inBarrier ∨ s.isTied current.task = false) :
    ∀ frame ∈ current :: below, s.holdsThread frame = false := by
  have noFlag : ∀ frame ∈ s.stack thread, frame.counted = false := by
    have count := kept.counted thread
    rw [noneSuspended] at count
    have noCounted : (s.stack thread).countP Frame.counted = 0 := by omega
    simpa using List.countP_eq_zero.1 noCounted
  have lower := not_holdsThread_of_isChain (kept.flagged thread) noFlag
  rw [stack] at lower
  intro frame member
  rcases List.mem_cons.1 member with rfl | inBelow
  · rcases free with inBarrier | untied
    · simp [PoolSystem.holdsThread, inBarrier]
    · simp [PoolSystem.holdsThread, untied]
  · exact lower frame inBelow

theorem PoolKept.stealTied (kept : PoolKept s) (stack : s.stack thread = current :: below)
    (removes : current.activity = .remove loop .otherTied) :
    PoolKept (s.stealTied thread victim current below loop) := by
  unfold PoolSystem.stealTied
  split
  case isFalse => exact kept.goOnInLoop stack removes (Or.inl rfl)
  case isTrue free =>
    split
    case h_2 => exact kept.goOnInLoop stack removes (Or.inl rfl)
    case h_1 queued rest queue =>
      have inQueue : queued ∈ s.tiedQueue victim := by simp [queue]
      refine kept.switchInLoop stack removes ?_ (fun _ _ => id)
        (kept.queuedTied victim queued inQueue).1 ?_
      · intro other task member
        rw [update_apply] at member
        split at member
        case isTrue same =>
          rw [same, queue]
          exact List.mem_cons_of_mem _ member
        case isFalse => exact member
      · intro _ frame member holds
        have free := kept.not_holdsThread stack free.1 free.2 frame member
        rw [holds] at free
        cases free

theorem PoolKept.step (kept : PoolKept s) (orderly : Orderly s (.step thread victim))
    (steps : s.step settings thread victim = some s') : PoolKept s' := by
  unfold PoolSystem.step at steps
  split at steps
  case h_1 => cases steps
  case h_2 current below stack =>
    split at steps
    case h_1 => cases steps
    case h_2 loop tests =>
      cases steps
      exact kept.testLoop stack tests
    case h_3 loop removes =>
      cases steps
      exact kept.getOwnTied stack removes orderly
    case h_4 loop removes =>
      cases steps
      exact kept.getOwnUntied stack removes
    case h_5 loop removes =>
      split at steps
      case isFalse => cases steps
      case isTrue =>
        cases steps
        exact kept.stealUntied stack removes
    case h_6 loop removes =>
      split at steps
      case isFalse => cases steps
      case isTrue =>
        cases steps
        exact kept.stealTied stack removes

end Remove

/-! ## Runs -/

theorem PoolKept.move {move : PoolMove} (kept : PoolKept s)
    (orderly : Orderly s move) (moves : s.move settings move = some s') :
    PoolKept s' := by
  cases move with
  | create => exact kept.create orderly moves
  | wait => exact kept.wait moves
  | exit => exact kept.exit moves
  | enterBarrier => exact kept.enterBarrier moves
  | step => exact kept.step orderly moves

theorem PoolInitial.kept (initial : PoolInitial settings s) : PoolKept s := by
  constructor
  case counted =>
    intro thread
    rw [initial.numSuspendedTied, initial.stack]
    split <;> simp
  case flagged =>
    intro thread
    rw [initial.stack]
    split
    · exact List.isChain_singleton _
    · exact List.isChain_nil
  case barrier =>
    intro thread frame member
    rw [initial.stack] at member
    split at member
    · rw [List.mem_singleton] at member
      simp [member]
    · cases member
  case created =>
    intro thread frame member
    rw [initial.stack] at member
    split at member
    case isTrue inTeam =>
      rw [List.mem_singleton] at member
      simpa [member, initial.isCreated] using inTeam
    case isFalse => cases member
  case orphan => exact fun task _ => initial.parent task
  case queuedTied => simp [initial.tiedQueue]
  case queuedUntied => simp [initial.untiedQueue]
  case descends => simp [initial.tiedQueue]
  case constrained => simp [Constrained, initial.starts]

/-- A step of one thread. -/
def AnyStep (settings : PoolSettings) (before after : PoolSystem) : Prop :=
  ∃ move, before.move settings move = some after

/-- A step that keeps the queues in the order of the stacks. -/
def OrderlyStep (settings : PoolSettings) (before after : PoolSystem) : Prop :=
  ∃ move, Orderly before move ∧ before.move settings move = some after

/--
Where the tied tasks of a queue come from descendants of the tasks below, a
deferred tied task that begins descends from every tied task that is suspended
on its thread outside of a barrier.
-/
theorem constrained_of_orderly
    (reached : Reachable (PoolInitial settings) (OrderlyStep settings) s) :
    Constrained s := by
  have kept : PoolKept s := by
    refine reached.invariant (fun _ initial => initial.kept) ?_
    rintro before after kept ⟨move, orderly, moved⟩
    exact kept.move orderly moved
  exact kept.constrained

/-- A team of two threads, and queues without a bound. -/
def twoThreads : PoolSettings where
  teamSize := 2
  numSlots := none
  getFromTail := true
  stealFromTail := false

/-- The implicit tasks of a team. -/
def implicitTasks (settings : PoolSettings) : PoolSystem where
  isCreated := fun task => decide (task < settings.teamSize)
  parent := fun _ => none
  isTied := fun _ => true
  isDeferred := fun _ => false
  blocksParent := fun _ => false
  numChildren := fun _ => 0
  numBlockingChildren := fun _ => 0
  stack := fun thread =>
    if thread < settings.teamSize then
      [{ task := thread
         state := .running
         activity := .running
         counted := false
         since := 0 }]
    else
      []
  numSuspendedTied := fun _ => 0
  tiedQueue := fun _ => []
  untiedQueue := fun _ => []
  numPending := 0
  clock := 0
  starts := []

theorem implicitTasks_initial :
    PoolInitial settings (implicitTasks settings) where
  isCreated := fun _ => rfl
  parent := fun _ => rfl
  isTied := fun _ _ => rfl
  isDeferred := fun _ _ => rfl
  stack := fun _ => rfl
  numSuspendedTied := fun _ => rfl
  numChildren := fun _ _ => rfl
  numBlockingChildren := fun _ _ => rfl
  tiedQueue := fun _ => rfl
  untiedQueue := fun _ => rfl
  numPending := rfl
  starts := rfl

/-- A task waits for its child and takes it from its own queue. -/
theorem constrained_of_orderly_child :
    ∃ s, s.starts = [{ task := 2, suspended := [0] }] ∧ Constrained s := by
  have start : Reachable (PoolInitial twoThreads) (OrderlyStep twoThreads)
      (implicitTasks twoThreads) := .start implicitTasks_initial
  have created := start.tail ⟨.create 0 2 true true false, ?_, rfl⟩
  · have waiting := (created.tail ⟨.wait 0, trivial, rfl⟩).tail
      ⟨.step 0 0, ?_, rfl⟩
    · have taken := waiting.tail ⟨.step 0 0, ?_, rfl⟩
      · exact ⟨_, rfl, constrained_of_orderly taken⟩
      · intro current _ _ queued isTail frame member _
        have onStack : frame ∈ [({
            task := 0
            state := .waiting
            activity := .remove .wait .ownTied
            counted := false
            since := 0 } : Frame)] := member
        rw [List.mem_singleton] at onStack
        rw [onStack]
        exact Nat.zero_le _
    · rintro current isTop ⟨loop, removes⟩
      have onTop : some ({
          task := 0
          state := .waiting
          activity := .test .wait
          counted := false
          since := 0 } : Frame) = some current := isTop
      rw [← Option.some.inj onTop] at removes
      cases removes
  · intro _ _ current isTop frame member _
    have onTop : some ({
        task := 0
        state := .running
        activity := .running
        counted := false
        since := 0 } : Frame) = some current := isTop
    have onStack : frame ∈ [({
        task := 0
        state := .running
        activity := .running
        counted := false
        since := 0 } : Frame)] := member
    rw [List.mem_singleton] at onStack
    rw [onStack, ← Option.some.inj onTop]
    exact Or.inl rfl

/--
Two siblings, the second of which runs and waits for an untied child that
another thread has stolen.
-/
def siblingBehind : List PoolMove :=
  [.create 0 2 true true false, .create 0 3 true true false, .wait 0,
    .step 0 0, .step 0 0, .create 0 4 false true false, .enterBarrier 1,
    .step 1 0, .step 1 0, .step 1 0, .step 1 0, .wait 0, .step 0 0,
    .step 0 0]

/-- A sibling begins on top of a suspended tied task. -/
theorem not_constrained :
    ∃ s, Reachable (PoolInitial twoThreads) (AnyStep twoThreads) s ∧
      s.starts.getLast? = some { task := 2, suspended := [3, 0] } ∧
      ¬ Constrained s := by
  have start : Reachable (PoolInitial twoThreads) (AnyStep twoThreads)
      (implicitTasks twoThreads) := .start implicitTasks_initial
  obtain ⟨s, ran, last, second, root⟩ :
      ∃ s, runAll (PoolSystem.move twoThreads) (implicitTasks twoThreads)
          siblingBehind = some s ∧
        s.starts.getLast? = some { task := 2, suspended := [3, 0] } ∧
        s.parent 2 = some 0 ∧ s.parent 0 = none :=
    ⟨_, rfl, rfl, rfl, rfl⟩
  have reached := start.runAll (fun _ move _ moved => ⟨move, moved⟩) ran
  refine ⟨s, reached, last, fun constrained => ?_⟩
  have descends := constrained _ (List.mem_of_getLast? last) 3 (by simp)
  obtain ⟨parent, edge, above⟩ := Relation.TransGen.head'_iff.1 descends
  have isRoot : 0 = parent := Option.some.inj (second.symm.trans edge)
  subst isRoot
  rcases Relation.ReflTransGen.cases_head above with same | ⟨_, edge, -⟩
  · cases same
  · rw [root] at edge
    cases edge

end OpenUH.Libopenmp.TaskPool
