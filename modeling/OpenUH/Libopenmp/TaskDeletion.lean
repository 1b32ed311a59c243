import OpenUH.Libopenmp.TaskLifetime

/-!
# Every task object is deleted once

Where the tests that decide on a deletion do not overlap, a deferred task
whose function has returned is either about to be deleted by
`__ompc_task_switch`, or has a child that still counts or that is responsible
for it.
-/

namespace OpenUH.Libopenmp.Tasks

open Foundation
open Foundation.Transition
open Function (update_apply update_of_ne update_self)

variable {s s' : TaskSystem} {task child parent : Nat}

/-! ## The invariant -/

/-- The phases in which a task still accesses its parent. -/
def Phase.Needs (phase : Phase) (blocksParent : Bool) : Prop :=
  match phase with
  | .absent | .returned | .deleting | .finishing | .done => False
  | .exitWait | .exitFlags => blocksParent = true
  | _ => True

theorem needsParent_iff : NeedsParent s task ↔ (s.phase task).Needs (s.blocksParent task) := by
  unfold NeedsParent Phase.Needs
  cases s.phase task <;> rfl

/-- A task whose object the last child has to delete. -/
def AwaitsChildren (s : TaskSystem) (task : Nat) : Prop :=
  s.phase task = .finishing ∨ s.phase task = .done ∧ s.isDeferred task = true ∧ s.deletions task = 0

/-- A child that may still delete the object of its parent. -/
def Phase.Watches (phase : Phase) (isDeferred : Bool) : Prop :=
  isDeferred = true ∧ phase.Counted ∨ phase.Responsible

/-- What the objects go through, as every step keeps it. -/
structure Life (s : TaskSystem) : Prop where
  deleted : ∀ task, 0 < s.deletions task →
    s.phase task = .done ∧ s.isDeferred task = true ∧ s.deletions task = 1
  alone : ∀ task child, 0 < s.deletions task ∨ s.phase task = .deleting →
    s.parent child = some task → ¬ (s.phase child).Needs (s.blocksParent child)
  deletingParent : ∀ task parent, s.phase task = .exitDelete →
    s.parent task = some parent →
      s.phase parent = .done ∧ s.deletions parent = 0 ∧ s.blocksParent task = false
  deletingAlone : ∀ task parent other, s.phase task = .exitDelete →
    s.parent task = some parent → other ≠ task →
      s.parent other = some parent → ¬ (s.phase other).Needs (s.blocksParent other)
  waited : ∀ task child, (s.phase task).Waited →
    s.parent child = some task → s.isDeferred child = true →
      s.blocksParent child = true → ¬ (s.phase child).Blocking
  finished : ∀ task, s.phase task = .done → s.isDeferred task = true →
    s.deletions task = 0 → s.state task = .finished
  watched : ∀ task, AwaitsChildren s task → ∃ child,
    s.parent child = some task ∧ (s.phase child).Watches (s.isDeferred child)
  untouched : s.touched = false

namespace Life

section

variable (life : Life s)

include life

/-- The object of a task that still has something to do is there. -/
theorem notDeleted (busy : s.phase task ≠ .done) : s.deletions task = 0 := by
  by_contra deleted
  exact busy (life.deleted task (Nat.pos_of_ne_zero deleted)).1

/-- The object of a parent that a child needs is there. -/
theorem parentNotDeleted (parentIs : s.parent task = some parent)
    (needs : (s.phase task).Needs (s.blocksParent task)) :
    s.deletions parent = 0 := by
  by_contra deleted
  exact life.alone parent task (Or.inl (Nat.pos_of_ne_zero deleted)) parentIs needs

/-- A task goes on to another phase, and deletes no object. -/
theorem ofPhase {next : Phase} (parent : s'.parent = s.parent)
    (isDeferred : s'.isDeferred = s.isDeferred) (blocksParent : s'.blocksParent = s.blocksParent)
    (deletions : s'.deletions = s.deletions) (phase : s'.phase = Function.update s.phase task next)
    (state : ∀ other, other ≠ task → s.phase other = .done → s'.state other = s.state other)
    (touched : s'.touched = false) (busy : s.phase task ≠ .done)
    (needs : next.Needs (s.blocksParent task) → (s.phase task).Needs (s.blocksParent task))
    (alone : next = .deleting → ∀ child, s.parent child = some task →
      ¬ (s.phase child).Needs (s.blocksParent child))
    (deletingParent : next = .exitDelete → ∀ parent,
      s.parent task = some parent →
      (s.phase parent = .done ∧ s.deletions parent = 0 ∧ s.blocksParent task = false) ∧
      ∀ other, other ≠ task → s.parent other = some parent →
        ¬ (s.phase other).Needs (s.blocksParent other))
    (waited : next.Waited → ¬ (s.phase task).Waited → ∀ child,
      s.parent child = some task → s.isDeferred child = true →
      s.blocksParent child = true → ¬ (s.phase child).Blocking)
    (blocking : s.isDeferred task = true → s.blocksParent task = true →
      next.Blocking → (s.phase task).Blocking)
    (finished : next = .done → s.isDeferred task = true → s'.state task = .finished)
    (watched : next = .finishing ∨ next = .done ∧ s.isDeferred task = true →
      ∃ child, child ≠ task ∧ s.parent child = some task ∧
        (s.phase child).Watches (s.isDeferred child))
    (watches : (s.phase task).Watches (s.isDeferred task) →
      next.Watches (s.isDeferred task) ∨
      ∀ parent, s.parent task = some parent → AwaitsChildren s parent →
        ∃ other, other ≠ task ∧ s.parent other = some parent ∧
          (s.phase other).Watches (s.isDeferred other)) :
    Life s' := by
  have present := life.notDeleted busy
  obtain ⟨b1, b2, b3, b4, b5, b6, b7, b8⟩ := life
  constructor
  case untouched => exact touched
  all_goals
    simp only [AwaitsChildren, parent, isDeferred, blocksParent, deletions,
      phase, update_apply]
  case deleted => grind
  case alone => grind
  case deletingParent => grind
  case deletingAlone => grind
  case waited => grind
  case finished => grind
  case watched =>
    intro other awaits
    have unmoved : ∀ child, child ≠ task →
        s.parent child = some other ∧ (s.phase child).Watches (s.isDeferred child) →
        ∃ child, s.parent child = some other ∧
          (if child = task then next else s.phase child).Watches (s.isDeferred child) := by
      intro child unlike watching
      exact ⟨child, by rwa [if_neg unlike]⟩
    by_cases same : other = task
    · subst same
      rw [if_pos rfl] at awaits
      obtain ⟨child, unlike, watching⟩ := watched (awaits.imp_right fun done => ⟨done.1, done.2.1⟩)
      exact unmoved child unlike watching
    · rw [if_neg same] at awaits
      obtain ⟨child, parentIs, watching⟩ := b7 other awaits
      by_cases mover : child = task
      · subst mover
        cases watches watching with
        | inl still => exact ⟨child, parentIs, by rwa [if_pos rfl]⟩
        | inr others =>
            obtain ⟨third, unlike, watching⟩ := others other parentIs awaits
            exact unmoved third unlike watching
      · exact unmoved child mover ⟨parentIs, watching⟩

/-! ## Steps of a task in its function -/

/-- A step that starts no wait for children leaves the children watching. -/
theorem watchedOf (awaits : ∀ task, AwaitsChildren s' task → AwaitsChildren s task)
    (watches : ∀ child parent, s.parent child = some parent →
      (s.phase child).Watches (s.isDeferred child) →
        s'.parent child = some parent ∧ (s'.phase child).Watches (s'.isDeferred child)) :
    ∀ task, AwaitsChildren s' task → ∃ child, s'.parent child = some task ∧
      (s'.phase child).Watches (s'.isDeferred child) := by
  intro task awaiting
  obtain ⟨child, parentIs, watching⟩ := life.watched task (awaits task awaiting)
  exact ⟨child, watches child task parentIs watching⟩

theorem create {blocksParent : Bool} (shape : Shape s)
    (moved : s.create task child blocksParent = some s') : Life s' := by
  unfold TaskSystem.create at moved
  split at moved
  case isFalse => cases moved
  case isTrue fresh =>
    cases moved
    have present := life.notDeleted (by simp [fresh.1] : s.phase task ≠ .done)
    obtain ⟨orphan, immediate⟩ := shape.absent child fresh.2
    have childless := shape.present
    have ⟨b1, b2, b3, b4, b5, b6, b7, b8⟩ := life
    constructor
    case untouched =>
      simp [TaskSystem.setPhase, TaskSystem.newTask, TaskSystem.addChildren,
        TaskSystem.touch, b8, present]
    case watched =>
      apply life.watchedOf
      all_goals
        simp only [AwaitsChildren, TaskSystem.setPhase, TaskSystem.newTask,
          TaskSystem.addChildren, TaskSystem.touch, update_apply]
        grind [Phase.Watches, Phase.Counted, Phase.Responsible]
    all_goals
      simp only [TaskSystem.setPhase, TaskSystem.newTask,
        TaskSystem.addChildren, TaskSystem.touch, update_apply]
      grind [Phase.Needs, Phase.Waited, Phase.Blocking]

theorem createImmediate (shape : Shape s)
    (moved : s.createImmediate task child = some s') : Life s' := by
  unfold TaskSystem.createImmediate at moved
  split at moved
  case isFalse => cases moved
  case isTrue fresh =>
    cases moved
    have present := life.notDeleted (by simp [fresh.1] : s.phase task ≠ .done)
    obtain ⟨orphan, immediate⟩ := shape.absent child fresh.2
    have childless := shape.present
    have ⟨b1, b2, b3, b4, b5, b6, b7, b8⟩ := life
    constructor
    case untouched =>
      simp [TaskSystem.setPhase, TaskSystem.newTask, TaskSystem.setState,
        TaskSystem.touch, b8, present]
    case watched =>
      apply life.watchedOf
      all_goals
        simp only [AwaitsChildren, TaskSystem.setPhase, TaskSystem.newTask,
          TaskSystem.setState, TaskSystem.touch, update_apply]
        grind [Phase.Watches, Phase.Counted, Phase.Responsible]
    all_goals
      simp only [TaskSystem.setPhase, TaskSystem.newTask,
        TaskSystem.setState, TaskSystem.touch, update_apply]
      grind [Phase.Needs, Phase.Waited, Phase.Blocking]

/-- A deferred child goes into the task pool. -/
theorem publish (shape : Shape s) (point : s.phase task = .publishing child)
    (parent : s'.parent = s.parent) (isDeferred : s'.isDeferred = s.isDeferred)
    (blocksParent : s'.blocksParent = s.blocksParent) (state : s'.state = s.state)
    (deletions : s'.deletions = s.deletions) (touched : s'.touched = false)
    (phase : s'.phase = Function.update (Function.update s.phase child .queued) task .running) :
    Life s' := by
  have unpublished := shape.publishing task child point
  have ⟨b1, b2, b3, b4, b5, b6, b7, b8⟩ := life
  constructor
  case untouched => exact touched
  case watched =>
    apply life.watchedOf
    all_goals
      simp only [AwaitsChildren, parent, isDeferred, deletions, phase, update_apply]
      grind [Phase.Watches, Phase.Counted, Phase.Responsible]
  all_goals
    simp only [parent, isDeferred, blocksParent, deletions, state, phase, update_apply]
    grind [Phase.Needs, Phase.Waited, Phase.Blocking]

/-- A step that moves no task. -/
theorem ofState (parent : s'.parent = s.parent)
    (isDeferred : s'.isDeferred = s.isDeferred) (blocksParent : s'.blocksParent = s.blocksParent)
    (phase : s'.phase = s.phase) (deletions : s'.deletions = s.deletions)
    (state : ∀ other, s.phase other = .done → s'.state other = s.state other)
    (touched : s'.touched = false) : Life s' := by
  have ⟨b1, b2, b3, b4, b5, b6, b7, b8⟩ := life
  constructor
  case untouched => exact touched
  case finished =>
    intro other done deferred present
    rw [phase] at done
    rw [isDeferred] at deferred
    rw [deletions] at present
    rw [state other done]
    exact b6 other done deferred present
  all_goals
    simp only [AwaitsChildren, parent, isDeferred, blocksParent, deletions, phase]
    assumption

/-- An immediate task gives the thread back to its parent. -/
theorem resume (shape : Shape s) (point : s.phase task = .returned)
    (parentIs : s.parent task = some parent) (immediate : s.isDeferred task = false) :
    Life (((s.setState parent .running).setPhase task .done).setPhase parent .running) := by
  have calling := shape.called parent task parentIs immediate (by simp [point])
  have present := life.notDeleted (by simp [calling] : s.phase parent ≠ .done)
  have ⟨b1, b2, b3, b4, b5, b6, b7, b8⟩ := life
  constructor
  case untouched =>
    simp [TaskSystem.setPhase, TaskSystem.setState, TaskSystem.touch, b8, present]
  case watched =>
    apply life.watchedOf
    all_goals
      simp only [AwaitsChildren, TaskSystem.setPhase, TaskSystem.setState,
        TaskSystem.touch, update_apply]
      grind [Phase.Watches, Phase.Counted, Phase.Responsible]
  all_goals
    simp only [TaskSystem.setPhase, TaskSystem.setState, TaskSystem.touch, update_apply]
    grind [Phase.Needs, Phase.Waited, Phase.Blocking]

/-! ## Steps of a task that leaves -/

/-- A task that has no child within its tests, and none left, is alone. -/
theorem noneNeeds (shape : Shape s) (counts : Counts s)
    (waited : (s.phase parent).Waited) (none : s.numChildren parent = 0)
    (apart : NoneTesting s parent task) :
    ∀ other, other ≠ task → s.parent other = some parent →
      ¬ (s.phase other).Needs (s.blocksParent other) := by
  intro other unlike parentIs needs
  have there : s.phase parent ≠ .absent := shape.present other parent parentIs
  have deferred : s.isDeferred other = true := by
    by_contra immediate
    have calling := shape.called parent other parentIs (by simpa using immediate)
      (by intro done; rw [done] at needs; exact needs)
    rw [calling] at waited
    exact waited
  have uncounted : ¬ (s.phase other).Counted := fun counted =>
    (counts.children parent there).eq_zero_iff.1 none other ⟨parentIs, deferred, counted⟩
  have untesting := apart other unlike parentIs
  have unblocking := life.waited parent other waited parentIs deferred
  have unblocks := shape.unblocking other
  cases point : s.phase other <;>
    simp_all [Phase.Needs, Phase.Counted, Phase.Testing, Phase.Blocking]

/-- `__ompc_task_switch` deletes a task that has no children. -/
theorem delete (shape : Shape s) (point : s.phase task = .deleting) :
    Life ((s.delete task).setPhase task .done) := by
  have deferred := shape.ofDeferred task (by rw [point]; trivial)
  have present := life.notDeleted (by simp [point] : s.phase task ≠ .done)
  have ⟨b1, b2, b3, b4, b5, b6, b7, b8⟩ := life
  constructor
  case untouched => exact b8
  case watched =>
    apply life.watchedOf
    all_goals
      simp only [AwaitsChildren, TaskSystem.setPhase, TaskSystem.delete, update_apply]
      grind [Phase.Watches, Phase.Counted, Phase.Responsible]
  all_goals
    simp only [TaskSystem.setPhase, TaskSystem.delete, update_apply]
    grind [Phase.Needs, Phase.Waited, Phase.Blocking]

/-- The last child deletes its parent. -/
theorem deleteParent (shape : Shape s) (point : s.phase task = .exitDelete)
    (parentIs : s.parent task = some parent) :
    Life ((s.delete parent).setPhase task .exitWait) := by
  have deferred := shape.ofDeferredParent task parent (by rw [point]; trivial) parentIs
  have parentGone := life.deletingParent task parent point parentIs
  have siblings := life.deletingAlone task parent
  have ⟨b1, b2, b3, b4, b5, b6, b7, b8⟩ := life
  constructor
  case untouched => exact b8
  case watched =>
    intro other awaits
    simp only [AwaitsChildren, TaskSystem.setPhase, TaskSystem.delete,
      update_apply] at awaits ⊢
    have unlike : other ≠ parent := by grind
    obtain ⟨child, childIs, watching⟩ := b7 other (by simp only [AwaitsChildren]; grind)
    have mover : child ≠ task := by grind
    exact ⟨child, childIs, by rwa [if_neg mover]⟩
  all_goals
    simp only [TaskSystem.setPhase, TaskSystem.delete, update_apply]
    grind [Phase.Needs, Phase.Waited, Phase.Blocking]

/-- A task goes on to a phase that does not wait for children. -/
theorem ofPlain {old next : Phase} (point : s.phase task = old)
    (parent : s'.parent = s.parent) (isDeferred : s'.isDeferred = s.isDeferred)
    (blocksParent : s'.blocksParent = s.blocksParent) (deletions : s'.deletions = s.deletions)
    (phase : s'.phase = Function.update s.phase task next) (state : s'.state = s.state)
    (touched : s'.touched = false) (busy : old ≠ .done) (plain : ¬ next.Waited ∧ next ≠ .exitDelete)
    (needs : next.Needs (s.blocksParent task) → old.Needs (s.blocksParent task))
    (blocking : next.Blocking → old.Blocking)
    (watches : old.Watches (s.isDeferred task) →
      next.Watches (s.isDeferred task) ∨
      ∀ parent, s.parent task = some parent → AwaitsChildren s parent →
        ∃ other, other ≠ task ∧ s.parent other = some parent ∧
          (s.phase other).Watches (s.isDeferred other)) :
    Life s' := by
  subst point
  refine life.ofPhase parent isDeferred blocksParent deletions phase
    (fun _ _ _ => by rw [state]) touched busy needs ?_ ?_ ?_
    (fun _ _ => blocking) ?_ ?_ watches
  all_goals
    intros
    grind [Phase.Waited]

/-- A read of an object that is there. -/
theorem touchedOf (present : s.deletions task = 0) :
    (s.touch task).touched = false := by
  simp [TaskSystem.touch, life.untouched, present]

/-- The object of a parent that a child needs can be read. -/
theorem touchedParent {phase : Phase}
    (point : s.phase task = phase) (parentIs : s.parent task = some parent)
    (needs : phase.Needs (s.blocksParent task)) :
    (s.touch parent).touched = false :=
  life.touchedOf (life.parentNotDeleted parentIs (by rw [point]; exact needs))

/-- So can the own object of a task that is not done. -/
theorem touchedOwn {phase : Phase} (point : s.phase task = phase) (busy : phase ≠ .done) :
    (s.touch task).touched = false :=
  life.touchedOf (life.notDeleted (by rw [point]; exact busy))

/-- A child takes itself out of the count. -/
theorem leave (shape : Shape s) (counts : Counts s)
    (point : s.phase task = .exitDeferred) (parentIs : s.parent task = some parent) :
    Life ((s.addChildren parent (-1)).setPhase task (.exitTest (s.numChildren parent - 1))) := by
  refine life.ofPlain point rfl rfl rfl rfl rfl rfl
    (life.touchedParent point parentIs trivial) (by simp) ⟨id, by simp⟩
    (fun _ => trivial) (fun _ => trivial) (fun _ => ?_)
  by_cases last : s.numChildren parent - 1 = 0
  · exact Or.inl (Or.inr last)
  · right
    intro other otherIs awaits
    rw [parentIs, Option.some.injEq] at otherIs
    subst otherIs
    have counted : CountedChild s parent task :=
      ⟨parentIs, shape.ofDeferred task (by rw [point]; trivial),
        by rw [point]; trivial⟩
    have left : Tally
        (fun other => other ≠ task ∧ CountedChild s parent other)
        (s.numChildren parent - 1) :=
      (counts.children parent (shape.present task parent parentIs)).remove counted fun _ => Iff.rfl
    obtain ⟨third, unlike, thirdIs, watching⟩ := left.exists_of_ne_zero last
    exact ⟨third, unlike, thirdIs, Or.inl watching⟩

/-- A child that was not the last one, or has no deferred parent. -/
theorem otherSiblings {numSiblings : Int} (shape : Shape s)
    (point : s.phase task = .exitTest numSiblings) (parentIs : s.parent task = some parent)
    (others : ¬ (s.isDeferred parent = true ∧ numSiblings = 0)) :
    Life ((s.touch parent).setPhase task .exitWait) := by
  refine life.ofPlain point rfl rfl rfl rfl rfl rfl
    (life.touchedParent point parentIs trivial) (by simp) ⟨id, by simp⟩
    (fun _ => trivial) (fun _ => trivial) (fun watching => Or.inr ?_)
  intro other otherIs awaits
  rw [parentIs, Option.some.injEq] at otherIs
  subst otherIs
  have last : numSiblings = 0 := by
    simpa [Phase.Watches, Phase.Counted, Phase.Responsible] using watching
  refine absurd ⟨?_, last⟩ others
  cases awaits with
  | inl finishing => exact shape.ofDeferred parent (by rw [finishing]; trivial)
  | inr done => exact done.2.1

/-- The last child finds its parent FINISHED. -/
theorem parentFinished (shape : Shape s) (counts : Counts s)
    (point : s.phase task = .exitTestState) (parentIs : s.parent task = some parent)
    (finished : s.state parent = .finished) (none : s.numChildren parent = 0)
    (apart : NoneTesting s parent task) :
    Life ((s.touch parent).setPhase task .exitDelete) := by
  have deferred := shape.ofDeferredParent task parent (by rw [point]; trivial) parentIs
  have done := shape.finished parent deferred finished
  have waited : (s.phase parent).Waited := by
    rw [done]
    trivial
  have present := life.parentNotDeleted parentIs (by rw [point]; trivial)
  have ownDeferred : s.isDeferred task = true := by
    by_contra immediate
    have calling := shape.called parent task parentIs (by simpa using immediate) (by simp [point])
    rw [calling] at done
    cases done
  have free : s.blocksParent task = false := by
    by_contra blocks
    exact life.waited parent task waited parentIs ownDeferred
      (by simpa using blocks) (by rw [point]; trivial)
  refine life.ofPhase rfl rfl rfl rfl rfl (fun _ _ _ => rfl)
    (life.touchedParent point parentIs trivial) (by simp [point])
    (fun _ => by rw [point]; trivial) (by simp) ?_ (fun of => of.elim)
    (fun _ _ _ => by rw [point]; trivial) (by simp) (by simp)
    (fun _ => Or.inl (Or.inr trivial))
  intro _ other otherIs
  rw [parentIs, Option.some.injEq] at otherIs
  subst otherIs
  exact ⟨⟨done, present, free⟩, life.noneNeeds shape counts waited none apart⟩

/-- The last child does not find its parent FINISHED. -/
theorem parentUnfinished (point : s.phase task = .exitTestState)
    (parentIs : s.parent task = some parent) (unfinished : s.state parent ≠ .finished)
    (watching : s.phase parent = .finishing → ∃ other, other ≠ task ∧
      s.parent other = some parent ∧ (s.phase other).Watches (s.isDeferred other)) :
    Life ((s.touch parent).setPhase task .exitWait) := by
  refine life.ofPlain point rfl rfl rfl rfl rfl rfl
    (life.touchedParent point parentIs trivial) (by simp) ⟨id, by simp⟩
    (fun _ => trivial) (fun _ => trivial) (fun _ => Or.inr ?_)
  intro other otherIs awaits
  rw [parentIs, Option.some.injEq] at otherIs
  subst otherIs
  cases awaits with
  | inl finishing => exact watching finishing
  | inr done =>
      exact absurd (life.finished parent done.1 done.2.1 done.2.2) unfinished

/-- A task has no more blocking children. -/
theorem waitOver (counts : Counts s) (point : s.phase task = .exitWait)
    (none : s.numBlockingChildren task = 0) :
    Life ((s.touch task).setPhase task .exitFlags) := by
  refine life.ofPhase rfl rfl rfl rfl rfl (fun _ _ _ => rfl)
    (life.touchedOwn point (by simp)) (by simp [point])
    (fun needs => by rw [point]; exact needs) (by simp) (by simp) ?_
    (fun _ _ _ => by rw [point]; trivial) (by simp) (by simp)
    (by simp [point, Phase.Watches, Phase.Counted, Phase.Responsible])
  intro _ _ child childIs deferred blocks blocking
  exact (counts.blocking task (by simp [point])).eq_zero_iff.1 none child
    ⟨childIs, deferred, blocks, blocking⟩

/-- A task goes on after its wait, and is not yet back in its switch. -/
theorem ofWaited {old next : Phase} (point : s.phase task = old)
    (parent : s'.parent = s.parent) (isDeferred : s'.isDeferred = s.isDeferred)
    (blocksParent : s'.blocksParent = s.blocksParent) (deletions : s'.deletions = s.deletions)
    (phase : s'.phase = Function.update s.phase task next) (state : s'.state = s.state)
    (touched : s'.touched = false) (waited : old = .exitFlags ∨ old = .exitUnblock)
    (plain : next = .exitUnblock ∧ s.blocksParent task = true ∨ next = .returned) :
    Life s' := by
  subst point
  refine life.ofPhase parent isDeferred blocksParent deletions phase
    (fun _ _ _ => by rw [state]) touched ?_ ?_ ?_ ?_ ?_ ?_ ?_ ?_ ?_
  all_goals
    intros
    grind [Phase.Waited, Phase.Needs, Phase.Blocking, Phase.Watches,
      Phase.Counted, Phase.Responsible]

/-- `__ompc_task_switch` finds no children. -/
theorem childless (shape : Shape s) (counts : Counts s)
    (point : s.phase task = .returned) (none : s.numChildren task = 0)
    (apart : NoneTesting s task task) :
    Life ((s.touch task).setPhase task .deleting) := by
  refine life.ofPhase rfl rfl rfl rfl rfl (fun _ _ _ => rfl)
    (life.touchedOwn point (by simp)) (by simp [point])
    (fun needs => needs.elim) ?_ (by simp)
    (fun _ unwaited => absurd trivial (by rw [point] at unwaited; exact unwaited))
    (fun _ _ none => none.elim) (by simp) (by simp)
    (by simp [point, Phase.Watches, Phase.Counted, Phase.Responsible])
  intro _ child childIs
  by_cases same : child = task
  · rw [same, point]
    exact id
  · exact life.noneNeeds shape counts (by rw [point]; trivial) none apart child same childIs

/-- It finds children. -/
theorem childrenLeft (counts : Counts s) (point : s.phase task = .returned)
    (some : s.numChildren task ≠ 0) :
    Life ((s.touch task).setPhase task .finishing) := by
  refine life.ofPhase rfl rfl rfl rfl rfl (fun _ _ _ => rfl)
    (life.touchedOwn point (by simp)) (by simp [point])
    (fun needs => needs.elim) (by simp) (by simp)
    (fun _ unwaited => absurd trivial (by rw [point] at unwaited; exact unwaited))
    (fun _ _ none => none.elim) (by simp) ?_
    (by simp [point, Phase.Watches, Phase.Counted, Phase.Responsible])
  intro _
  obtain ⟨child, childIs, deferred, counted⟩ :=
    (counts.children task (by simp [point])).exists_of_ne_zero some
  refine ⟨child, ?_, childIs, Or.inl ⟨deferred, counted⟩⟩
  rintro rfl
  rw [point] at counted
  exact counted

/-- It leaves the object to the last child. -/
theorem finish (point : s.phase task = .finishing) :
    Life ((s.setState task .finished).setPhase task .done) := by
  refine life.ofPhase rfl rfl rfl rfl rfl ?_
    (life.touchedOwn point (by simp)) (by simp [point])
    (fun needs => needs.elim) (by simp) (by simp)
    (fun _ unwaited => absurd trivial (by rw [point] at unwaited; exact unwaited))
    (fun _ _ none => none.elim) ?_ ?_
    (by simp [point, Phase.Watches, Phase.Counted, Phase.Responsible])
  · intro other unlike _
    exact update_of_ne unlike _ _
  · intro _ _
    exact update_self _ _ _
  · intro _
    obtain ⟨child, childIs, watching⟩ := life.watched task (Or.inl point)
    refine ⟨child, ?_, childIs, watching⟩
    rintro rfl
    rw [point] at watching
    simp [Phase.Watches, Phase.Counted, Phase.Responsible] at watching

theorem step (shape : Shape s) (counts : Counts s)
    (apart : Apart s (.step task)) (moved : s.step task = some s') :
    Life s' := by
  simp only [Apart] at apart
  cases step_cases moved with
  | publishBlocking point blocks =>
      exact life.publish shape point rfl rfl rfl rfl rfl (life.touchedOwn point (by simp)) rfl
  | publish point free =>
      exact life.publish shape point rfl rfl rfl rfl rfl life.untouched rfl
  | enterDeferred point deferred =>
      exact life.ofPlain point rfl rfl rfl rfl rfl rfl
        (life.touchedOwn point (by simp)) (by simp) ⟨id, by simp⟩
        (fun _ => trivial) (fun _ => trivial)
        (fun _ => Or.inl (Or.inl ⟨deferred, trivial⟩))
  | enterImmediate point immediate =>
      exact life.ofPlain point rfl rfl rfl rfl rfl rfl
        (life.touchedOwn point (by simp)) (by simp) ⟨id, by simp⟩
        (fun _ => trivial) (fun _ => trivial)
        (fun _ => Or.inl (Or.inr rfl))
  | leave point parentIs => exact life.leave shape counts point parentIs
  | lastSibling point parentIs deferred =>
      exact life.ofPlain point rfl rfl rfl rfl rfl rfl
        (life.touchedParent point parentIs trivial) (by simp) ⟨id, by simp⟩
        (fun _ => trivial) (fun _ => trivial)
        (fun _ => Or.inl (Or.inr trivial))
  | otherSiblings point parentIs others =>
      exact life.otherSiblings shape point parentIs others
  | parentFinished point parentIs finished =>
      rw [point, parentIs] at apart
      simp only [finished, if_true] at apart
      exact life.parentFinished shape counts point parentIs finished apart.1 apart.2
  | parentUnfinished point parentIs unfinished =>
      rename_i parent
      rw [point, parentIs] at apart
      simp only [if_neg unfinished] at apart
      refine life.parentUnfinished point parentIs unfinished fun finishing => ?_
      cases apart finishing with
      | inl some =>
          obtain ⟨child, childIs, deferred, counted⟩ :=
            (counts.children parent (by simp [finishing])).exists_of_ne_zero some
          refine ⟨child, ?_, childIs, Or.inl ⟨deferred, counted⟩⟩
          rintro rfl
          rw [point] at counted
          exact counted
      | inr responsible =>
          obtain ⟨child, unlike, childIs, responsible⟩ := responsible
          exact ⟨child, unlike, childIs, Or.inr responsible⟩
  | deleteParent point parentIs =>
      exact life.deleteParent shape point parentIs
  | waitOver point none => exact life.waitOver counts point none
  | waitOn point some =>
      exact life.ofPlain point rfl rfl rfl rfl rfl rfl
        (life.touchedOwn point (by simp)) (by simp) ⟨id, by simp⟩ id id Or.inl
  | blocking point deferred blocks =>
      exact life.ofWaited point rfl rfl rfl rfl rfl rfl
        (life.touchedOwn point (by simp)) (Or.inl rfl)
        (Or.inl ⟨rfl, blocks⟩)
  | free point free =>
      exact life.ofWaited point rfl rfl rfl rfl rfl rfl
        (life.touchedOwn point (by simp)) (Or.inl rfl) (Or.inr rfl)
  | unblock point parentIs =>
      exact life.ofWaited point rfl rfl rfl rfl rfl rfl
        (life.touchedParent point parentIs trivial) (Or.inr rfl) (Or.inr rfl)
  | childless point deferred none =>
      rw [point] at apart
      exact life.childless shape counts point none (apart deferred none)
  | childrenLeft point deferred some =>
      exact life.childrenLeft counts point some
  | resume point parentIs immediate =>
      exact life.resume shape point parentIs immediate
  | delete point => exact life.delete shape point
  | finish point => exact life.finish point

theorem move {move : Move} (shape : Shape s)
    (counts : Counts s) (apart : Apart s move) (moved : s.move move = some s') : Life s' := by
  cases move with
  | create task child blocksParent => exact life.create shape moved
  | createImmediate task child => exact life.createImmediate shape moved
  | start task =>
      simp only [TaskSystem.move, TaskSystem.start] at moved
      split at moved
      case isFalse => cases moved
      case isTrue queued =>
        cases moved
        refine life.ofPhase rfl rfl rfl rfl rfl ?_
          (life.touchedOwn queued (by simp)) (by simp [queued])
          (fun _ => by rw [queued]; trivial) (by simp) (by simp)
          (fun of => of.elim) (fun _ _ _ => by rw [queued]; trivial) (by simp)
          (by simp) fun watching => Or.inl (by rwa [queued] at watching)
        intro other unlike _
        exact update_of_ne unlike _ _
  | look task =>
      simp only [TaskSystem.move, TaskSystem.look] at moved
      split at moved
      case isFalse => cases moved
      case isTrue running =>
        cases moved
        exact life.ofState rfl rfl rfl rfl rfl (fun _ _ => rfl) (life.touchedOwn running (by simp))
  | enter task state =>
      simp only [TaskSystem.move, TaskSystem.enter] at moved
      split at moved
      case isFalse => cases moved
      case isTrue entered =>
        cases moved
        refine life.ofState rfl rfl rfl rfl rfl ?_ (life.touchedOwn entered.1 (by simp))
        intro other done
        refine update_of_ne ?_ _ _
        rintro rfl
        rw [entered.1] at done
        cases done
  | exit task =>
      simp only [TaskSystem.move, TaskSystem.exit] at moved
      split at moved
      case isFalse => cases moved
      case isTrue running =>
        cases moved
        have point := running.1
        refine life.ofPhase rfl rfl rfl rfl rfl ?_
          (life.touchedOwn point (by simp)) (by simp [point])
          (fun _ => by rw [point]; trivial) (by simp) (by simp)
          (fun of => of.elim) (fun _ _ _ => by rw [point]; trivial) (by simp)
          (by simp) fun watching => Or.inl (by rwa [point] at watching)
        intro other unlike _
        exact update_of_ne unlike _ _
  | step task => exact life.step shape counts apart moved

/-- The objects go through what they should. -/
theorem sound (shape : Shape s) : Sound s where
  once := by
    intro task
    by_cases deleted : 0 < s.deletions task
    · exact (life.deleted task deleted).2.2.le
    · omega
  deferred := fun task deleted => (life.deleted task deleted).2.1
  afterReturn := fun task deleted => (life.deleted task deleted).1
  afterChildren := by
    intro task child deleted parentIs
    rw [needsParent_iff]
    exact life.alone task child (Or.inl deleted) parentIs
  untouched := life.untouched
  noneLeft := by
    intro settled task deferred
    have done := settled task (shape.explicitDeferred task deferred)
    by_contra deletions
    have none : s.deletions task = 0 := by
      by_contra deleted
      exact deletions (life.deleted task (Nat.pos_of_ne_zero deleted)).2.2
    obtain ⟨child, childIs, watching⟩ := life.watched task (Or.inr ⟨done, deferred, none⟩)
    rw [settled child (by rw [childIs]; simp)] at watching
    simp [Phase.Watches, Phase.Counted, Phase.Responsible] at watching

end

end Life

/-! ## Runs -/

namespace Initial

theorem shape (initial : Initial s) : Shape s := by
  obtain ⟨phase, parent, isDeferred, state, -, -, -, -⟩ := initial
  constructor
  case explicit =>
    intro task shut
    cases phase task with
    | inl running => exact absurd (by rw [running]; trivial) shut
    | inr absent => exact absurd (by rw [absent]; trivial) shut
  all_goals
    intros
    grind [Phase.OfDeferred, Phase.OfDeferredParent]

theorem counts (initial : Initial s) : Counts s where
  children := by
    intro task _
    rw [initial.numChildren]
    exact Tally.none fun child counted => by
      simp [CountedChild, initial.parent] at counted
  blocking := by
    intro task _
    rw [initial.numBlockingChildren]
    exact Tally.none fun child blocking => by
      simp [BlockingChild, initial.parent] at blocking

theorem life (initial : Initial s) : Life s := by
  obtain ⟨phase, parent, isDeferred, -, -, -, deletions, touched⟩ := initial
  constructor
  case untouched => exact touched
  all_goals
    intros
    grind [AwaitsChildren]

end Initial

/-- A step of one task. -/
def AnyStep (before after : TaskSystem) : Prop :=
  ∃ move, before.move move = some after

/-- A step that keeps the tests that decide on a deletion apart. -/
def ApartStep (before after : TaskSystem) : Prop :=
  ∃ move, Apart before move ∧ before.move move = some after

/-- One implicit task, and nothing else. -/
def oneTask : TaskSystem where
  state := fun _ => .running
  numChildren := fun _ => 0
  numBlockingChildren := fun _ => 0
  parent := fun _ => none
  isDeferred := fun _ => false
  blocksParent := fun _ => false
  phase := fun task => if task = 0 then .running else .absent
  deletions := fun _ => 0
  touched := false

theorem oneTask_initial : Initial oneTask where
  phase := by
    intro task
    by_cases first : task = 0
    · exact Or.inl (if_pos first)
    · exact Or.inr (if_neg first)
  parent := fun _ => rfl
  isDeferred := fun _ => rfl
  state := fun _ => by simp [oneTask]
  numChildren := fun _ => rfl
  numBlockingChildren := fun _ => rfl
  deletions := fun _ => rfl
  touched := rfl

/-- A task of the implicit task that creates a task of its own. -/
def twoGenerations : List Move :=
  [.create 0 1 false, .step 0, .start 1, .create 1 2 false, .step 1, .start 2]

/--
The child takes itself out of the count and is then held up, so that
`__ompc_task_switch` deletes its parent before it looks at the parent.
-/
def parentDeletes : List Move :=
  [.exit 2, .step 2, .step 2, .exit 1, .step 1, .step 1, .step 1, .step 1,
    .step 1, .step 1, .step 1, .step 2]

/--
The child finds its parent not yet FINISHED after the parent has found it
counted, so that neither deletes the parent.
-/
def nobodyDeletes : List Move :=
  [.exit 1, .step 1, .step 1, .step 1, .step 1, .step 1, .step 1,
    .exit 2, .step 2, .step 2, .step 2, .step 2, .step 1,
    .step 2, .step 2, .step 2, .step 2]

/-- Both tasks come to their end, and the object of the first one is left. -/
theorem never_deleted :
    ∃ s, Reachable Initial AnyStep s ∧ Settled s ∧ s.isDeferred 1 = true ∧ s.deletions 1 = 0 := by
  have start : Reachable Initial AnyStep oneTask := .start oneTask_initial
  obtain ⟨s, ran, deferred, left, parents, first, second⟩ :
      ∃ s, runAll TaskSystem.move oneTask (twoGenerations ++ nobodyDeletes) =
        some s ∧ s.isDeferred 1 = true ∧ s.deletions 1 = 0 ∧
        s.parent = Function.update (Function.update (fun _ => none) 1 (some 0))
          2 (some 1) ∧ s.phase 1 = .done ∧ s.phase 2 = .done :=
    ⟨_, rfl, rfl, rfl, rfl, rfl, rfl⟩
  have reached := start.runAll (fun _ move _ moved => ⟨move, moved⟩) ran
  refine ⟨s, reached, fun task explicit => ?_, deferred, left⟩
  rw [parents] at explicit
  simp only [update_apply] at explicit
  grind

end OpenUH.Libopenmp.Tasks
