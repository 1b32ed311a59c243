import OpenUH.Foundation.Tally
import OpenUH.Libopenmp.TaskObjects

/-!
# When task objects live as they should
-/

namespace OpenUH.Libopenmp.Tasks

open Foundation
open Foundation.Transition
open Function (update_apply update_of_ne update_self)

/-! ## Kinds of phases -/

/-- The phases in which a deferred task is one of `num_children`. -/
def Phase.Counted : Phase → Prop
  | .unpublished | .queued | .running | .publishing _ | .calling _
  | .exitEntered | .exitDeferred => True
  | _ => False

/-- The phases in which it is one of `num_blocking_children`. -/
def Phase.Blocking : Phase → Prop
  | .absent | .unpublished | .returned | .deleting | .finishing | .done =>
      False
  | _ => True

/-- The phases after the wait for the blocking children. -/
def Phase.Waited : Phase → Prop
  | .exitFlags | .exitUnblock | .returned | .deleting | .finishing | .done =>
      True
  | _ => False

/-- The phases of a task whose function is not over, or that is not there. -/
def Phase.Open : Phase → Prop
  | .absent | .running | .publishing _ | .calling _ => True
  | _ => False

/-- The phases that only a deferred task goes through. -/
def Phase.OfDeferred : Phase → Prop
  | .unpublished | .queued | .exitDeferred | .exitUnblock | .deleting
  | .finishing => True
  | _ => False

/-- The phases of a child that has a deferred parent. -/
def Phase.OfDeferredParent : Phase → Prop
  | .exitTestState | .exitDelete => True
  | _ => False

/-- The phases from `__ompc_task_exit` on, but for the last one. -/
def Phase.Exiting : Phase → Prop
  | .exitEntered | .exitDeferred | .exitTest _ | .exitTestState
  | .exitDelete | .exitWait | .exitFlags | .exitUnblock | .returned
  | .deleting | .finishing => True
  | _ => False

/-- A task that is leaving or gone is in no phase before. -/
theorem Phase.Exiting.later {phase : Phase} (exiting : phase.Exiting ∨ phase = .done) :
    ¬ phase.Open ∧ phase ≠ .absent ∧ phase ≠ .unpublished ∧
      (∀ child, phase ≠ .publishing child) ∧ ∀ child, phase ≠ .calling child := by
  cases phase <;> simp_all [Phase.Exiting, Phase.Open]

/-! ## The invariant -/

/-- How the phases of parents and children fit together. -/
structure Shape (s : TaskSystem) : Prop where
  absent : ∀ task, s.phase task = .absent → s.parent task = none ∧ s.isDeferred task = false
  present : ∀ task parent, s.parent task = some parent → s.phase parent ≠ .absent
  explicit : ∀ task, ¬ (s.phase task).Open → s.parent task ≠ none
  explicitDeferred : ∀ task, s.isDeferred task = true → s.parent task ≠ none
  ofDeferred : ∀ task, (s.phase task).OfDeferred → s.isDeferred task = true
  ofDeferredParent : ∀ task parent, (s.phase task).OfDeferredParent →
    s.parent task = some parent → s.isDeferred parent = true
  publishing : ∀ task child, s.phase task = .publishing child →
    s.phase child = .unpublished ∧ s.parent child = some task
  unpublished : ∀ task child, s.phase child = .unpublished →
    s.parent child = some task → s.phase task = .publishing child
  calling : ∀ task child, s.phase task = .calling child →
    s.parent child = some task ∧ s.isDeferred child = false ∧ s.phase child ≠ .done
  called : ∀ task child, s.parent child = some task →
    s.isDeferred child = false → s.phase child ≠ .done → s.phase task = .calling child
  unblocking : ∀ task, s.phase task = .exitUnblock → s.blocksParent task = true
  finished : ∀ task, s.isDeferred task = true → s.state task = .finished → s.phase task = .done

variable {s s' : TaskSystem} {task child parent : Nat}

/-! ## What a step can do -/

/-- The steps of a task, by what it finds. -/
inductive StepCase (s : TaskSystem) (task : Nat) : TaskSystem → Prop where
  | publishBlocking {child : Nat} (point : s.phase task = .publishing child)
      (blocks : s.blocksParent child = true) :
      StepCase s task
        (((s.addBlocking task 1).setPhase child .queued).setPhase task
          .running)
  | publish {child : Nat} (point : s.phase task = .publishing child)
      (free : s.blocksParent child = false) :
      StepCase s task ((s.setPhase child .queued).setPhase task .running)
  | enterDeferred (point : s.phase task = .exitEntered)
      (deferred : s.isDeferred task = true) :
      StepCase s task ((s.touch task).setPhase task .exitDeferred)
  | enterImmediate (point : s.phase task = .exitEntered)
      (immediate : s.isDeferred task = false) :
      StepCase s task ((s.touch task).setPhase task (.exitTest 0))
  | leave {parent : Nat} (point : s.phase task = .exitDeferred)
      (parentIs : s.parent task = some parent) :
      StepCase s task ((s.addChildren parent (-1)).setPhase task
        (.exitTest (s.numChildren parent - 1)))
  | lastSibling {parent : Nat} (point : s.phase task = .exitTest 0)
      (parentIs : s.parent task = some parent)
      (deferred : s.isDeferred parent = true) :
      StepCase s task ((s.touch parent).setPhase task .exitTestState)
  | otherSiblings {parent : Nat} {numSiblings : Int}
      (point : s.phase task = .exitTest numSiblings)
      (parentIs : s.parent task = some parent)
      (others : ¬ (s.isDeferred parent = true ∧ numSiblings = 0)) :
      StepCase s task ((s.touch parent).setPhase task .exitWait)
  | parentFinished {parent : Nat} (point : s.phase task = .exitTestState)
      (parentIs : s.parent task = some parent)
      (finished : s.state parent = .finished) :
      StepCase s task ((s.touch parent).setPhase task .exitDelete)
  | parentUnfinished {parent : Nat} (point : s.phase task = .exitTestState)
      (parentIs : s.parent task = some parent)
      (unfinished : s.state parent ≠ .finished) :
      StepCase s task ((s.touch parent).setPhase task .exitWait)
  | deleteParent {parent : Nat} (point : s.phase task = .exitDelete)
      (parentIs : s.parent task = some parent) :
      StepCase s task ((s.delete parent).setPhase task .exitWait)
  | waitOver (point : s.phase task = .exitWait)
      (none : s.numBlockingChildren task = 0) :
      StepCase s task ((s.touch task).setPhase task .exitFlags)
  | waitOn (point : s.phase task = .exitWait)
      (some : s.numBlockingChildren task ≠ 0) :
      StepCase s task ((s.touch task).setPhase task .exitWait)
  | blocking (point : s.phase task = .exitFlags)
      (deferred : s.isDeferred task = true)
      (blocks : s.blocksParent task = true) :
      StepCase s task ((s.touch task).setPhase task .exitUnblock)
  | free (point : s.phase task = .exitFlags)
      (free : ¬ (s.isDeferred task = true ∧ s.blocksParent task = true)) :
      StepCase s task ((s.touch task).setPhase task .returned)
  | unblock {parent : Nat} (point : s.phase task = .exitUnblock)
      (parentIs : s.parent task = some parent) :
      StepCase s task ((s.addBlocking parent (-1)).setPhase task .returned)
  | childless (point : s.phase task = .returned)
      (deferred : s.isDeferred task = true)
      (none : s.numChildren task = 0) :
      StepCase s task ((s.touch task).setPhase task .deleting)
  | childrenLeft (point : s.phase task = .returned)
      (deferred : s.isDeferred task = true)
      (some : s.numChildren task ≠ 0) :
      StepCase s task ((s.touch task).setPhase task .finishing)
  | resume {parent : Nat} (point : s.phase task = .returned)
      (parentIs : s.parent task = some parent)
      (immediate : s.isDeferred task = false) :
      StepCase s task
        (((s.setState parent .running).setPhase task .done).setPhase parent
          .running)
  | delete (point : s.phase task = .deleting) :
      StepCase s task ((s.delete task).setPhase task .done)
  | finish (point : s.phase task = .finishing) :
      StepCase s task ((s.setState task .finished).setPhase task .done)

theorem step_cases (moved : s.step task = some s') : StepCase s task s' := by
  unfold TaskSystem.step at moved
  split at moved
  case h_1 child _ point =>
    split at moved
    case isTrue blocks =>
      cases moved
      exact .publishBlocking point blocks
    case isFalse free =>
      cases moved
      exact .publish point (by simpa using free)
  case h_2 point =>
    cases moved
    split
    case isTrue deferred => exact .enterDeferred point deferred
    case isFalse immediate =>
      exact .enterImmediate point (by simpa using immediate)
  case h_3 parent point parentIs =>
    cases moved
    exact .leave point parentIs
  case h_4 numSiblings parent point parentIs =>
    cases moved
    split
    case isTrue last =>
      rw [last.2] at point
      exact .lastSibling point parentIs last.1
    case isFalse others => exact .otherSiblings point parentIs others
  case h_5 parent point parentIs =>
    cases moved
    split
    case isTrue finished => exact .parentFinished point parentIs finished
    case isFalse unfinished =>
      exact .parentUnfinished point parentIs unfinished
  case h_6 parent point parentIs =>
    cases moved
    exact .deleteParent point parentIs
  case h_7 point =>
    cases moved
    split
    case isTrue none => exact .waitOver point none
    case isFalse some => exact .waitOn point some
  case h_8 point =>
    cases moved
    split
    case isTrue both => exact .blocking point both.1 both.2
    case isFalse free => exact .free point free
  case h_9 parent point parentIs =>
    cases moved
    exact .unblock point parentIs
  case h_10 parent point parentIs =>
    split at moved
    case isTrue deferred =>
      cases moved
      split
      case isTrue none => exact .childless point deferred none
      case isFalse some => exact .childrenLeft point deferred some
    case isFalse immediate =>
      cases moved
      exact .resume point parentIs (by simpa using immediate)
  case h_11 point =>
    cases moved
    exact .delete point
  case h_12 point =>
    cases moved
    exact .finish point
  case h_13 => cases moved

namespace Shape

section

variable (shape : Shape s)

include shape

theorem create {blocksParent : Bool}
    (moved : s.create task child blocksParent = some s') : Shape s' := by
  unfold TaskSystem.create at moved
  split at moved
  case isFalse => cases moved
  case isTrue fresh =>
    cases moved
    cases shape
    constructor
    all_goals
      simp only [TaskSystem.setPhase, TaskSystem.newTask,
        TaskSystem.addChildren, TaskSystem.touch, update_apply]
      grind [Phase.Open, Phase.OfDeferred, Phase.OfDeferredParent]

theorem createImmediate (moved : s.createImmediate task child = some s') : Shape s' := by
  unfold TaskSystem.createImmediate at moved
  split at moved
  case isFalse => cases moved
  case isTrue fresh =>
    cases moved
    cases shape
    constructor
    all_goals
      simp only [TaskSystem.setPhase, TaskSystem.newTask,
        TaskSystem.setState, TaskSystem.touch, update_apply]
      grind [Phase.Open, Phase.OfDeferred, Phase.OfDeferredParent]

theorem start (moved : s.start task = some s') : Shape s' := by
  unfold TaskSystem.start at moved
  split at moved
  case isFalse => cases moved
  case isTrue queued =>
    cases moved
    cases shape
    constructor
    all_goals
      simp only [TaskSystem.setPhase, TaskSystem.setState, TaskSystem.touch, update_apply]
      grind [Phase.Open, Phase.OfDeferred, Phase.OfDeferredParent]

/-- A task that is leaving goes on to another phase. -/
theorem ofExiting {next : Phase} (parent : s'.parent = s.parent)
    (isDeferred : s'.isDeferred = s.isDeferred) (blocksParent : s'.blocksParent = s.blocksParent)
    (phase : s'.phase = Function.update s.phase task next)
    (state : ∀ other, s'.state other = .finished →
      s.state other = .finished ∨ other = task ∧ next = .done)
    (exiting : (s.phase task).Exiting)
    (goesOn : next.Exiting ∨ next = .done ∧ s.isDeferred task = true)
    (ofDeferred : next.OfDeferred → s.isDeferred task = true)
    (ofDeferredParent : ∀ parent, next.OfDeferredParent →
      s.parent task = some parent → s.isDeferred parent = true)
    (unblocking : next = .exitUnblock → s.blocksParent task = true) :
    Shape s' := by
  have before := Phase.Exiting.later (Or.inl exiting)
  have after := Phase.Exiting.later (goesOn.imp_right And.left)
  have notDone : s.phase task ≠ .done := by
    intro done
    rw [done] at exiting
    exact exiting
  have doneDeferred : next = .done → s.isDeferred task = true := by
    rintro rfl
    exact goesOn.elim False.elim And.right
  have explicit := shape.explicit task before.1
  cases shape
  constructor
  all_goals
    simp only [parent, isDeferred, blocksParent, phase, update_apply]
    grind

/-- An immediate task gives the thread back to its parent. -/
theorem resume {parent : Nat} (returned : s.phase task = .returned)
    (parentIs : s.parent task = some parent) (immediate : s.isDeferred task = false) :
    Shape (((s.setState parent .running).setPhase task .done).setPhase parent .running) := by
  have calling := shape.called parent task parentIs immediate (by simp [returned])
  cases shape
  constructor
  all_goals
    simp only [TaskSystem.setPhase, TaskSystem.setState, TaskSystem.touch, update_apply]
    grind [Phase.Open, Phase.OfDeferred, Phase.OfDeferredParent]

/-- A deferred child goes into the task pool. -/
theorem publish (publishing : s.phase task = .publishing child)
    (parent : s'.parent = s.parent) (isDeferred : s'.isDeferred = s.isDeferred)
    (blocksParent : s'.blocksParent = s.blocksParent) (state : s'.state = s.state)
    (phase : s'.phase = Function.update (Function.update s.phase child .queued) task .running) :
    Shape s' := by
  have unpublished := shape.publishing task child publishing
  have deferred := shape.ofDeferred child (by rw [unpublished.1]; trivial)
  cases shape
  constructor
  all_goals
    simp only [parent, isDeferred, blocksParent, state, phase, update_apply]
    grind [Phase.Open, Phase.OfDeferred, Phase.OfDeferredParent]

/-- It goes on to a phase that asks for nothing. -/
theorem ofPlain {next : Phase} (parent : s'.parent = s.parent)
    (isDeferred : s'.isDeferred = s.isDeferred) (blocksParent : s'.blocksParent = s.blocksParent)
    (phase : s'.phase = Function.update s.phase task next) (state : s'.state = s.state)
    (exiting : (s.phase task).Exiting) (goesOn : next.Exiting)
    (plain : ¬ next.OfDeferred ∧ ¬ next.OfDeferredParent) :
    Shape s' := by
  refine shape.ofExiting parent isDeferred blocksParent phase
    (fun other finished => Or.inl (state ▸ finished)) exiting (Or.inl goesOn)
    (fun of => absurd of plain.1) (fun _ of => absurd of plain.2) ?_
  rintro rfl
  exact absurd trivial plain.1

theorem step (moved : s.step task = some s') : Shape s' := by
  have later : ∀ {phase : Phase}, s.phase task = phase → phase.Exiting →
      (s.phase task).Exiting := by
    rintro phase rfl exiting
    exact exiting
  cases step_cases moved with
  | publishBlocking point blocks | publish point free =>
      exact shape.publish point rfl rfl rfl rfl rfl
  | enterDeferred point deferred | childless point deferred none
  | childrenLeft point deferred some =>
      exact shape.ofExiting rfl rfl rfl rfl (fun _ => Or.inl)
        (later point trivial) (Or.inl trivial) (fun _ => deferred)
        (fun _ none => none.elim) (by simp)
  | enterImmediate point immediate | leave point parentIs | otherSiblings point parentIs others
  | parentUnfinished point parentIs unfinished | deleteParent point parentIs
  | waitOver point none | waitOn point some | free point free | unblock point parentIs =>
      exact shape.ofPlain rfl rfl rfl rfl rfl (later point trivial) trivial ⟨id, id⟩
  | lastSibling point parentIs deferred =>
      refine shape.ofExiting rfl rfl rfl rfl (fun _ => Or.inl)
        (later point trivial) (Or.inl trivial) (fun none => none.elim)
        (fun other _ otherIs => ?_) (by simp)
      rw [parentIs, Option.some.injEq] at otherIs
      rw [← otherIs]
      exact deferred
  | parentFinished point parentIs finished =>
      exact shape.ofExiting rfl rfl rfl rfl (fun _ => Or.inl)
        (later point trivial) (Or.inl trivial) (fun none => none.elim)
        (fun other _ otherIs => shape.ofDeferredParent task other
          (by rw [point]; trivial) otherIs) (by simp)
  | blocking point deferred blocks =>
      exact shape.ofExiting rfl rfl rfl rfl (fun _ => Or.inl)
        (later point trivial) (Or.inl trivial) (fun _ => deferred)
        (fun _ none => none.elim) (fun _ => blocks)
  | resume point parentIs immediate =>
      exact shape.resume point parentIs immediate
  | delete point =>
      exact shape.ofExiting rfl rfl rfl rfl (fun _ => Or.inl)
        (later point trivial)
        (Or.inr ⟨rfl, shape.ofDeferred task (by rw [point]; trivial)⟩)
        (fun none => none.elim) (fun _ none => none.elim) (by simp)
  | finish point =>
      refine shape.ofExiting rfl rfl rfl rfl (fun other finished => ?_)
        (later point trivial)
        (Or.inr ⟨rfl, shape.ofDeferred task (by rw [point]; trivial)⟩)
        (fun none => none.elim) (fun _ none => none.elim) (by simp)
      by_cases same : other = task
      · exact Or.inr ⟨same, rfl⟩
      · dsimp only [TaskSystem.setPhase, TaskSystem.setState] at finished
        rw [update_of_ne same] at finished
        exact Or.inl finished

/-- A task that only looks at objects, or writes a state, changes no shape. -/
theorem ofState (parent : s'.parent = s.parent)
    (isDeferred : s'.isDeferred = s.isDeferred) (blocksParent : s'.blocksParent = s.blocksParent)
    (phase : s'.phase = s.phase)
    (state : ∀ other, s'.state other = .finished → s.state other = .finished) :
    Shape s' := by
  have finished : ∀ other, s.isDeferred other = true → s'.state other = .finished →
      s.phase other = .done :=
    fun other deferred isFinished => shape.finished other deferred (state other isFinished)
  cases shape
  constructor
  all_goals
    simp only [parent, isDeferred, blocksParent, phase]
    assumption

theorem look (moved : s.look task = some s') : Shape s' := by
  unfold TaskSystem.look at moved
  split at moved
  case isFalse => cases moved
  case isTrue =>
    cases moved
    exact shape.ofState rfl rfl rfl rfl (fun _ => id)

theorem enter {state : TaskState} (moved : s.enter task state = some s') : Shape s' := by
  unfold TaskSystem.enter at moved
  split at moved
  case isFalse => cases moved
  case isTrue entered =>
    cases moved
    refine shape.ofState rfl rfl rfl rfl (fun other finished => ?_)
    dsimp only [TaskSystem.setState] at finished
    by_cases same : other = task
    · rw [same, update_self] at finished
      exact absurd finished entered.2.2
    · rwa [update_of_ne same] at finished

theorem exit (moved : s.exit task = some s') : Shape s' := by
  unfold TaskSystem.exit at moved
  split at moved
  case isFalse => cases moved
  case isTrue running =>
    cases moved
    cases shape
    constructor
    all_goals
      simp only [TaskSystem.setPhase, TaskSystem.setState, TaskSystem.touch, update_apply]
      grind [Phase.Open, Phase.OfDeferred, Phase.OfDeferredParent]

theorem move {move : Move} (moved : s.move move = some s') : Shape s' := by
  cases move with
  | create task child blocksParent => exact shape.create moved
  | createImmediate task child => exact shape.createImmediate moved
  | start task => exact shape.start moved
  | look task => exact shape.look moved
  | enter task state => exact shape.enter moved
  | exit task => exact shape.exit moved
  | step task => exact shape.step moved

end

end Shape

/-! ## The counters of a task -/

/-- A child that is one of `num_children` of a task. -/
def CountedChild (s : TaskSystem) (task child : Nat) : Prop :=
  s.parent child = some task ∧ s.isDeferred child = true ∧ (s.phase child).Counted

/-- A child that is one of its `num_blocking_children`. -/
def BlockingChild (s : TaskSystem) (task child : Nat) : Prop :=
  s.parent child = some task ∧ s.isDeferred child = true ∧
    s.blocksParent child = true ∧ (s.phase child).Blocking

/-- The counters of every task say how many such children it has. -/
structure Counts (s : TaskSystem) : Prop where
  children : ∀ task, s.phase task ≠ .absent → Tally (CountedChild s task) (s.numChildren task)
  blocking : ∀ task, s.phase task ≠ .absent →
    Tally (BlockingChild s task) (s.numBlockingChildren task)

namespace Counts

section

variable (counts : Counts s)

include counts

/-- A step that moves no child in or out of a counter. -/
theorem ofSame (numChildren : s'.numChildren = s.numChildren)
    (numBlockingChildren : s'.numBlockingChildren = s.numBlockingChildren)
    (absent : ∀ task, s.phase task = .absent → s'.phase task = .absent)
    (counted : ∀ task child, CountedChild s' task child ↔ CountedChild s task child)
    (blocking : ∀ task child, BlockingChild s' task child ↔ BlockingChild s task child) :
    Counts s' where
  children := by
    intro task present
    rw [numChildren]
    exact (counts.children task (mt (absent task) present)).congr (counted task)
  blocking := by
    intro task present
    rw [numBlockingChildren]
    exact (counts.blocking task (mt (absent task) present)).congr (blocking task)

/-- A task goes on to a phase that counts as much as the one before. -/
theorem ofPhase {next : Phase} (numChildren : s'.numChildren = s.numChildren)
    (numBlockingChildren : s'.numBlockingChildren = s.numBlockingChildren)
    (parent : s'.parent = s.parent) (isDeferred : s'.isDeferred = s.isDeferred)
    (blocksParent : s'.blocksParent = s.blocksParent)
    (phase : s'.phase = Function.update s.phase task next) (present : s.phase task ≠ .absent)
    (counted : s.isDeferred task = true → (next.Counted ↔ (s.phase task).Counted))
    (blocking : s.isDeferred task = true → s.blocksParent task = true →
      (next.Blocking ↔ (s.phase task).Blocking)) :
    Counts s' := by
  refine counts.ofSame numChildren numBlockingChildren ?_ ?_ ?_
  · intro other absent
    rw [phase, update_of_ne, absent]
    rintro rfl
    exact present absent
  · intro other child
    unfold CountedChild
    rw [parent, isDeferred, phase]
    by_cases same : child = task
    · subst same
      rw [update_self]
      exact and_congr_right fun _ => and_congr_right counted
    · rw [update_of_ne same]
  · intro other child
    unfold BlockingChild
    rw [parent, isDeferred, blocksParent, phase]
    by_cases same : child = task
    · subst same
      rw [update_self]
      exact and_congr_right fun _ => and_congr_right fun deferred =>
        and_congr_right fun blocks => blocking deferred blocks
    · rw [update_of_ne same]

omit counts in
/-- A counter of every task, where a new task has no children. -/
theorem ofNew {chosen chosen' : Nat → Nat → Prop} {count : Nat → Int} {first next : Phase}
    (tallies : ∀ other, s.phase other ≠ .absent → Tally (chosen other) (count other))
    (present : s.phase task ≠ .absent) (none : ∀ third, ¬chosen' child third)
    (same : ∀ third other, other ≠ child → (chosen' other third ↔ chosen other third)) (other : Nat)
    (here : Function.update (Function.update s.phase child first) task next other ≠ .absent) :
    Tally (chosen' other) (Function.update count child 0 other) := by
  by_cases isChild : other = child
  · subst isChild
    rw [update_self]
    exact Tally.none none
  · rw [update_of_ne isChild]
    have old : s.phase other ≠ .absent := by
      simp only [update_apply] at here
      grind
    exact (tallies other old).congr fun third => same third other isChild

section

variable (shape : Shape s)

include shape

/-- A child of a running task is counted. -/
theorem create {blocksParent : Bool}
    (moved : s.create task child blocksParent = some s') : Counts s' := by
  unfold TaskSystem.create at moved
  split at moved
  case isFalse => cases moved
  case isTrue fresh =>
    cases moved
    obtain ⟨running, absent⟩ := fresh
    have present : s.phase task ≠ .absent := by simp [running]
    have apart : child ≠ task := by
      rintro rfl
      rw [running] at absent
      cases absent
    have orphan := (shape.absent child absent).1
    have childless : ∀ other, s.parent other ≠ some child := fun other is =>
      shape.present other child is absent
    constructor
    · intro other present
      simp only [TaskSystem.setPhase, TaskSystem.newTask,
        TaskSystem.addChildren, TaskSystem.touch] at present ⊢
      by_cases isChild : other = child
      · subst isChild
        rw [update_of_ne apart, update_self]
        refine Tally.none fun third counted => ?_
        simp only [CountedChild, update_apply] at counted
        grind
      · by_cases isTask : other = task
        · subst isTask
          rw [update_self, update_of_ne isChild]
          have uncounted : ¬ CountedChild s other child := by
            simp [CountedChild, orphan]
          refine (counts.children other (by simp [running])).add uncounted
            fun third => ?_
          simp only [CountedChild, update_apply]
          grind [Phase.Counted]
        · rw [update_of_ne isTask, update_of_ne isChild]
          rw [update_of_ne isTask, update_of_ne isChild]
            at present
          refine (counts.children other present).congr fun third => ?_
          simp only [CountedChild, update_apply]
          grind [Phase.Counted]
    · refine ofNew counts.blocking present (fun third => ?_) fun third other => ?_
      all_goals
        simp only [BlockingChild, TaskSystem.setPhase, TaskSystem.newTask, TaskSystem.addChildren,
          TaskSystem.touch, update_apply]
        grind [Phase.Blocking]

/-- An immediate child is not counted. -/
theorem createImmediate (moved : s.createImmediate task child = some s') : Counts s' := by
  unfold TaskSystem.createImmediate at moved
  split at moved
  case isFalse => cases moved
  case isTrue fresh =>
    cases moved
    obtain ⟨running, absent⟩ := fresh
    have present : s.phase task ≠ .absent := by simp [running]
    have orphan := (shape.absent child absent).1
    have childless : ∀ other, s.parent other ≠ some child := fun other is =>
      shape.present other child is absent
    constructor
    · refine ofNew counts.children present (fun third => ?_) fun third other => ?_
      all_goals
        simp only [CountedChild, TaskSystem.setPhase, TaskSystem.newTask, TaskSystem.setState,
          TaskSystem.touch, update_apply]
        grind [Phase.Counted]
    · refine ofNew counts.blocking present (fun third => ?_) fun third other => ?_
      all_goals
        simp only [BlockingChild, TaskSystem.setPhase, TaskSystem.newTask, TaskSystem.setState,
          TaskSystem.touch, update_apply]
        grind [Phase.Blocking]

/-- A child that goes into the task pool stays counted. -/
theorem publish (point : s.phase task = .publishing child) (free : s.blocksParent child = false) :
    Counts ((s.setPhase child .queued).setPhase task .running) := by
  have unpublished := (shape.publishing task child point).1
  refine counts.ofSame rfl rfl ?_ ?_ ?_
  all_goals
    simp only [CountedChild, BlockingChild, TaskSystem.setPhase, update_apply]
    grind [Phase.Counted, Phase.Blocking]

/-- A child that blocks its parent starts to do so. -/
theorem publishBlocking
    (point : s.phase task = .publishing child) (blocks : s.blocksParent child = true) :
    Counts (((s.addBlocking task 1).setPhase child .queued).setPhase task .running) := by
  have unpublished := shape.publishing task child point
  have deferred := shape.ofDeferred child (by rw [unpublished.1]; trivial)
  have old : ∀ other, Function.update
      (Function.update s.phase child .queued) task .running other ≠ .absent →
      s.phase other ≠ .absent := by
    intro other
    simp only [update_apply]
    grind
  constructor
  · intro other present
    refine (counts.children other (old other present)).congr fun third => ?_
    simp only [CountedChild, TaskSystem.setPhase, TaskSystem.addBlocking,
      TaskSystem.touch, update_apply]
    grind [Phase.Counted]
  · intro other present
    have before := counts.blocking other (old other present)
    simp only [TaskSystem.setPhase, TaskSystem.addBlocking, TaskSystem.touch]
    by_cases isTask : other = task
    · subst isTask
      rw [update_self]
      have unblocking : ¬ BlockingChild s other child := by
        simp [BlockingChild, Phase.Blocking, unpublished.1]
      refine before.add unblocking fun third => ?_
      simp only [BlockingChild, update_apply]
      grind [Phase.Blocking]
    · rw [update_of_ne isTask]
      refine before.congr fun third => ?_
      simp only [BlockingChild, update_apply]
      grind [Phase.Blocking]

/-- A deferred child takes itself out of the count. -/
theorem leave (point : s.phase task = .exitDeferred) (parentIs : s.parent task = some parent) :
    Counts ((s.addChildren parent (-1)).setPhase task (.exitTest (s.numChildren parent - 1))) := by
  have deferred := shape.ofDeferred task (by rw [point]; trivial)
  have old : ∀ other, Function.update s.phase task
      (.exitTest (s.numChildren parent - 1)) other ≠ .absent →
      s.phase other ≠ .absent := by
    intro other
    simp only [update_apply]
    grind
  constructor
  · intro other present
    have before := counts.children other (old other present)
    simp only [TaskSystem.setPhase, TaskSystem.addChildren, TaskSystem.touch]
    by_cases isParent : other = parent
    · subst isParent
      rw [update_self]
      have counted : CountedChild s other task := ⟨parentIs, deferred, by rw [point]; trivial⟩
      refine before.remove counted fun third => ?_
      simp only [CountedChild, update_apply]
      by_cases same : third = task
      · simp [same, Phase.Counted]
      · simp [same]
    · rw [update_of_ne isParent]
      refine before.congr fun third => ?_
      simp only [CountedChild, update_apply]
      by_cases same : third = task
      · simp [same, parentIs, Ne.symm isParent]
      · simp [same]
  · intro other present
    refine (counts.blocking other (old other present)).congr fun third => ?_
    simp only [BlockingChild, TaskSystem.setPhase, TaskSystem.addChildren,
      TaskSystem.touch, update_apply]
    by_cases same : third = task
    · simp [same, point, Phase.Blocking]
    · simp [same]

/-- A child no longer blocks its parent. -/
theorem unblock (point : s.phase task = .exitUnblock) (parentIs : s.parent task = some parent) :
    Counts ((s.addBlocking parent (-1)).setPhase task .returned) := by
  have deferred := shape.ofDeferred task (by rw [point]; trivial)
  have blocks := shape.unblocking task point
  have old : ∀ other, Function.update s.phase task .returned other ≠
      .absent → s.phase other ≠ .absent := by
    intro other
    simp only [update_apply]
    grind
  constructor
  · intro other present
    refine (counts.children other (old other present)).congr fun third => ?_
    simp only [CountedChild, TaskSystem.setPhase, TaskSystem.addBlocking,
      TaskSystem.touch, update_apply]
    grind [Phase.Counted]
  · intro other present
    have before := counts.blocking other (old other present)
    simp only [TaskSystem.setPhase, TaskSystem.addBlocking, TaskSystem.touch]
    by_cases isParent : other = parent
    · subst isParent
      rw [update_self]
      have blocking : BlockingChild s other task :=
        ⟨parentIs, deferred, blocks, by rw [point]; trivial⟩
      refine before.remove blocking fun third => ?_
      simp only [BlockingChild, update_apply]
      grind [Phase.Blocking]
    · rw [update_of_ne isParent]
      refine before.congr fun third => ?_
      simp only [BlockingChild, update_apply]
      grind [Phase.Blocking]

/-- An immediate task gives the thread back to its parent. -/
theorem resume (point : s.phase task = .returned)
    (parentIs : s.parent task = some parent) (immediate : s.isDeferred task = false) :
    Counts (((s.setState parent .running).setPhase task .done).setPhase parent .running) := by
  have calling := shape.called parent task parentIs immediate (by simp [point])
  refine counts.ofSame rfl rfl ?_ ?_ ?_
  all_goals
    simp only [CountedChild, BlockingChild, TaskSystem.setPhase,
      TaskSystem.setState, TaskSystem.touch, update_apply]
    grind [Phase.Counted, Phase.Blocking]

end

theorem step (shape : Shape s) (moved : s.step task = some s') : Counts s' := by
  have goesOn : ∀ {phase next : Phase} {s' : TaskSystem},
      s.phase task = phase → phase ≠ .absent →
      s'.numChildren = s.numChildren →
      s'.numBlockingChildren = s.numBlockingChildren →
      s'.parent = s.parent → s'.isDeferred = s.isDeferred →
      s'.blocksParent = s.blocksParent →
      s'.phase = Function.update s.phase task next →
      (s.isDeferred task = true → (next.Counted ↔ phase.Counted)) →
      (s.isDeferred task = true → s.blocksParent task = true →
        (next.Blocking ↔ phase.Blocking)) → Counts s' := by
    rintro phase next s' rfl present h1 h2 h3 h4 h5 h6 counted blocking
    exact counts.ofPhase h1 h2 h3 h4 h5 h6 present counted blocking
  cases step_cases moved with
  | publishBlocking point blocks =>
      exact counts.publishBlocking shape point blocks
  | publish point free => exact counts.publish shape point free
  | leave point parentIs => exact counts.leave shape point parentIs
  | unblock point parentIs => exact counts.unblock shape point parentIs
  | resume point parentIs immediate =>
      exact counts.resume shape point parentIs immediate
  | enterDeferred point deferred | lastSibling point parentIs deferred
  | otherSiblings point parentIs others | parentFinished point parentIs finished
  | parentUnfinished point parentIs unfinished | deleteParent point parentIs
  | waitOver point none | waitOn point some | blocking point deferred blocks
  | childless point deferred none | childrenLeft point deferred some | delete point
  | finish point =>
      exact goesOn point (by simp) rfl rfl rfl rfl rfl rfl (fun _ => Iff.rfl) (fun _ _ => Iff.rfl)
  | enterImmediate point immediate =>
      exact goesOn point (by simp) rfl rfl rfl rfl rfl rfl
        (by simp [immediate]) (by simp [immediate])
  | free point free =>
      exact goesOn point (by simp) rfl rfl rfl rfl rfl rfl
        (fun _ => Iff.rfl) (fun deferred blocks => absurd ⟨deferred, blocks⟩ free)

theorem move {move : Move} (shape : Shape s) (moved : s.move move = some s') : Counts s' := by
  cases move with
  | create task child blocksParent => exact counts.create shape moved
  | createImmediate task child => exact counts.createImmediate shape moved
  | start task =>
      simp only [TaskSystem.move, TaskSystem.start] at moved
      split at moved
      case isFalse => cases moved
      case isTrue queued =>
        cases moved
        exact counts.ofPhase rfl rfl rfl rfl rfl rfl (by simp [queued])
          (fun _ => by simp [queued, Phase.Counted])
          (fun _ _ => by simp [queued, Phase.Blocking])
  | look task =>
      simp only [TaskSystem.move, TaskSystem.look] at moved
      split at moved
      case isFalse => cases moved
      case isTrue =>
        cases moved
        exact counts.ofSame rfl rfl (fun _ => id) (fun _ _ => Iff.rfl) (fun _ _ => Iff.rfl)
  | enter task state =>
      simp only [TaskSystem.move, TaskSystem.enter] at moved
      split at moved
      case isFalse => cases moved
      case isTrue =>
        cases moved
        exact counts.ofSame rfl rfl (fun _ => id) (fun _ _ => Iff.rfl) (fun _ _ => Iff.rfl)
  | exit task =>
      simp only [TaskSystem.move, TaskSystem.exit] at moved
      split at moved
      case isFalse => cases moved
      case isTrue running =>
        cases moved
        exact counts.ofPhase rfl rfl rfl rfl rfl rfl (by simp [running.1])
          (fun _ => by simp [running.1, Phase.Counted])
          (fun _ _ => by simp [running.1, Phase.Blocking])
  | step task => exact counts.step shape moved

end

end Counts

end OpenUH.Libopenmp.Tasks
