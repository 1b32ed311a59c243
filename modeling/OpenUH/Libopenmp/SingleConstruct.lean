import OpenUH.Foundation.Transition
import OpenUH.Libopenmp.Scheduler

/-!
# Single constructs

`__ompc_single` and `__ompc_workshare` choose the thread of a team that
executes a construct.  Each thread counts the constructs that it has met, and
the team those that have been executed, through all parallel regions.  A thread
that was no member of an earlier region counts less than the team does.

Outside of the parallel regions the calls return 1, as in a team of one.
-/

namespace OpenUH.Libopenmp.SingleConstruct

open Foundation.Transition
open Libopenmp.Scheduler
open Function (update_eq_self update_of_ne update_self)

/-! ## The calls -/

/-- The increment of an `int`. -/
def increment (count : Int) : Int :=
  OmpWidth.four.wrap (count + 1)

/--
`__ompc_single`: from the two values of `single_count`, of the team and of the
thread, their next values and `is_first`.
-/
def ompcSingle (teamSize : Nat) (teamCount threadCount : Int) : Int × Int × Bool :=
  if teamSize = 1 then
    (teamCount, threadCount, true)
  else
    let threadCount := increment threadCount
    if teamCount < threadCount then
      (increment teamCount, threadCount, true)
    else
      (teamCount, threadCount, false)

/-- `__ompc_workshare`, which counts with `single_count` too. -/
def ompcWorkshare (teamSize : Nat) (teamCount threadCount : Int) : Int × Int × Bool :=
  ompcSingle teamSize teamCount threadCount

/-- A construct of a parallel region. -/
structure Construct where
  isWorkshare : Bool
  nowait : Bool
deriving DecidableEq, Repr

/-- The call at a construct. -/
def Construct.call (construct : Construct) : Nat → Int → Int → Int × Int × Bool :=
  if construct.isWorkshare then ompcWorkshare else ompcSingle

@[simp]
theorem Construct.call_eq (construct : Construct) : construct.call = ompcSingle := by
  unfold call
  split <;> rfl

/-! ## The team -/

/--
The team of level one in a parallel region: its counters, the constructs of the
region, how many of them each thread has met, and the threads that got 1.
-/
structure TeamState where
  allocSize : Nat
  teamSize : Nat
  teamCount : Int
  threadCount : Nat → Int
  constructs : Nat → Construct
  arrived : Nat → Nat
  isFirst : Nat → Nat → Bool
  baseCount : Int

/-- The members of the team have met the same constructs. -/
def TeamState.Complete (s : TeamState) : Prop :=
  ∃ count, ∀ thread < s.teamSize, s.arrived thread = count

/-- The barriers that a thread has met let it pass. -/
def TeamState.MayArrive (s : TeamState) (thread : Nat) : Prop :=
  ∀ construct < s.arrived thread, (s.constructs construct).nowait = false →
    ∀ other < s.teamSize, construct < s.arrived other

/--
`__ompc_fork`: a team of another size, with `__ompc_expand_level_1_team` where
there are not enough threads.  `baseCount` remembers the count of the team.
-/
def TeamState.fork (s : TeamState) (numThreads : Nat)
    (constructs : Nat → Construct) : TeamState where
  allocSize := max s.allocSize numThreads
  teamSize := numThreads
  teamCount := s.teamCount
  threadCount thread :=
    if s.allocSize ≤ thread ∧ thread < numThreads then 0
    else s.threadCount thread
  constructs := constructs
  arrived _ := 0
  isFirst _ _ := false
  baseCount := s.teamCount

/-- A thread meets its next construct. -/
def TeamState.arrive (s : TeamState) (thread : Nat) : TeamState :=
  let construct := s.arrived thread
  let result := (s.constructs construct).call s.teamSize s.teamCount
    (s.threadCount thread)
  { s with
    teamCount := result.1
    threadCount := Function.update s.threadCount thread result.2.1
    arrived := Function.update s.arrived thread (construct + 1)
    isFirst := Function.update s.isFirst construct
      (Function.update (s.isFirst construct) thread result.2.2) }

/-- What happens next. -/
inductive TeamEvent where
  | fork (numThreads : Nat) (constructs : Nat → Construct)
  | arrive (thread : Nat)

/-- The events that can happen in a state, and where they lead. -/
inductive TeamStep : TeamState → TeamEvent → TeamState → Prop where
  | fork {s : TeamState} (numThreads : Nat) (constructs : Nat → Construct)
      (complete : s.Complete) (positive : 1 ≤ numThreads) :
      TeamStep s (.fork numThreads constructs) (s.fork numThreads constructs)
  | arrive {s : TeamState} (thread : Nat) (member : thread < s.teamSize)
      (passes : s.MayArrive thread) :
      TeamStep s (.arrive thread) (s.arrive thread)

/-- The runtime has been initialised, and no region is open. -/
structure TeamState.Initial (s : TeamState) : Prop where
  alloc : 1 ≤ s.allocSize
  size : s.teamSize = 1
  teamCount : s.teamCount = 0
  threadCount : ∀ thread, s.threadCount thread = 0
  arrived : ∀ thread, s.arrived thread = 0
  isFirst : ∀ construct thread, s.isFirst construct thread = false
  baseCount : s.baseCount = 0

/-- Of the threads that meet a construct one gets 1. -/
structure TeamState.FirstOnce (s : TeamState) : Prop where
  atMost : ∀ construct first second, s.isFirst construct first = true →
    s.isFirst construct second = true → first = second
  exactly : ∀ construct,
    (∀ thread < s.teamSize, construct < s.arrived thread) →
      ∃ thread < s.teamSize, s.isFirst construct thread = true

/--
A thread that meets a construct has counted all the constructs before it, or
the team has counted as many as the thread has with this one; and the count of
the thread is not the largest `int`.
-/
def TeamState.Clear (s : TeamState) : TeamEvent → Prop
  | .fork _ _ => True
  | .arrive thread => s.teamSize = 1 ∨
      s.threadCount thread < 2 ^ 31 - 1 ∧
        (s.threadCount thread = s.baseCount + s.arrived thread ∨ s.threadCount thread < s.teamCount)

/-- The steps that are clear. -/
def ClearStep (s s' : TeamState) : Prop :=
  ∃ event, s.Clear event ∧ TeamStep s event s'

/-! ## The invariant -/

/-- What holds in a team of one. -/
structure TeamState.Alone (s : TeamState) : Prop where
  teamCount : s.teamCount = s.baseCount
  master : s.threadCount 0 = s.teamCount
  isFirst : ∀ construct thread,
    s.isFirst construct thread = true ↔ thread = 0 ∧ construct < s.arrived 0

/-- What holds in a larger team: the constructs that have a first thread are
those up to the count of the team, and thread 0 has counted all it has met. -/
structure TeamState.Several (s : TeamState) : Prop where
  base : s.baseCount ≤ s.teamCount
  master : s.threadCount 0 = s.baseCount + s.arrived 0
  member : ∀ thread < s.teamSize,
    s.threadCount thread ≤ s.baseCount + s.arrived thread
  attained : s.teamCount = s.baseCount ∨
    ∃ thread < s.teamSize, s.teamCount ≤ s.baseCount + s.arrived thread
  unique : ∀ construct first second, s.isFirst construct first = true →
    s.isFirst construct second = true → first = second
  winner : ∀ construct : Nat, s.baseCount + construct < s.teamCount →
    ∃ thread < s.teamSize, s.isFirst construct thread = true
  counted : ∀ construct thread, s.isFirst construct thread = true →
    s.baseCount + construct < s.teamCount
  met : ∀ construct thread, s.isFirst construct thread = true → construct < s.arrived thread

/-- The invariant of the runs whose steps are clear. -/
structure TeamState.Counts (s : TeamState) : Prop where
  size : 1 ≤ s.teamSize
  alloc : s.teamSize ≤ s.allocSize
  nonneg : ∀ thread, 0 ≤ s.threadCount thread
  lagging : ∀ thread, s.threadCount thread ≤ s.teamCount
  small : s.teamCount < 2 ^ 31
  alone : s.teamSize = 1 → s.Alone
  several : s.teamSize ≠ 1 → s.Several

theorem TeamState.Counts.firstOnce {s : TeamState} (counts : s.Counts) : s.FirstOnce := by
  by_cases one : s.teamSize = 1
  · have alone := counts.alone one
    refine ⟨fun construct first second isFirst isSecond => ?_,
      fun construct met => ⟨0, counts.size, ?_⟩⟩
    · rw [((alone.isFirst _ _).mp isFirst).1, ((alone.isFirst _ _).mp isSecond).1]
    · exact (alone.isFirst _ _).mpr ⟨rfl, met 0 counts.size⟩
  · have several := counts.several one
    refine ⟨several.unique, fun construct met => several.winner construct ?_⟩
    have own := met 0 counts.size
    have master := several.master
    have lagging := counts.lagging 0
    omega

theorem TeamState.Initial.counts {s : TeamState} (isInitial : s.Initial) : s.Counts := by
  refine
    { size := isInitial.size.ge
      alloc := isInitial.size.le.trans isInitial.alloc
      nonneg := fun thread => (isInitial.threadCount thread).ge
      lagging := fun thread => ?_
      small := ?_
      alone := fun _ => ⟨?_, ?_, fun construct thread => ?_⟩
      several := fun severals => absurd isInitial.size severals }
  · rw [isInitial.threadCount, isInitial.teamCount]
  · rw [isInitial.teamCount]
    decide
  · rw [isInitial.teamCount, isInitial.baseCount]
  · rw [isInitial.teamCount, isInitial.threadCount]
  · rw [isInitial.isFirst, isInitial.arrived]
    simp

/-- At the end of a region thread 0 has counted as much as the team. -/
theorem TeamState.Counts.master_eq {s : TeamState} (counts : s.Counts)
    (complete : s.Complete) : s.threadCount 0 = s.teamCount := by
  by_cases one : s.teamSize = 1
  · exact (counts.alone one).master
  · have several := counts.several one
    obtain ⟨count, same⟩ := complete
    have own := same 0 counts.size
    have master := several.master
    have lagging := counts.lagging 0
    have base := several.base
    obtain equal | ⟨thread, member, attained⟩ := several.attained
    · omega
    · have others := same thread member
      omega

theorem TeamState.Counts.fork {s : TeamState} (counts : s.Counts)
    (complete : s.Complete) {numThreads : Nat} (positive : 1 ≤ numThreads)
    (constructs : Nat → Construct) : (s.fork numThreads constructs).Counts := by
  have master := counts.master_eq complete
  have kept : (s.fork numThreads constructs).threadCount 0 = s.threadCount 0 := by
    refine if_neg fun created => ?_
    have size := counts.size
    have alloc := counts.alloc
    omega
  have team : (s.fork numThreads constructs).teamCount = s.teamCount := rfl
  have base : (s.fork numThreads constructs).baseCount = s.teamCount := rfl
  have none (thread : Nat) : (s.fork numThreads constructs).arrived thread = 0 := rfl
  have lagging (thread : Nat) :
      (s.fork numThreads constructs).threadCount thread ≤ s.teamCount := by
    change (if _ then 0 else s.threadCount thread) ≤ s.teamCount
    split
    · exact (counts.nonneg 0).trans (counts.lagging 0)
    · exact counts.lagging thread
  refine
    { size := positive
      alloc := Nat.le_max_right _ _
      nonneg := fun thread => ?_
      lagging := lagging
      small := counts.small
      alone := fun _ => ⟨rfl, by rw [kept, team, master], fun construct thread => ?_⟩
      several := fun _ =>
        { base := le_refl _
          master := by rw [kept, base, none, master]; omega
          member := fun thread _ => ?_
          attained := .inl rfl
          unique := fun _ _ _ isFirst => nomatch isFirst
          winner := fun construct below => ?_
          counted := fun _ _ isFirst => nomatch isFirst
          met := fun _ _ isFirst => nomatch isFirst } }
  · change 0 ≤ if _ then 0 else s.threadCount thread
    split
    · exact le_refl _
    · exact counts.nonneg thread
  · rw [none]
    exact iff_of_false Bool.false_ne_true fun below => Nat.not_lt_zero _ below.2
  · rw [base, none]
    have := lagging thread
    omega
  · rw [base, team] at below
    omega

/-! ## A thread meets a construct -/

theorem increment_eq {count : Int} (nonneg : 0 ≤ count)
    (small : count < 2 ^ 31 - 1) : increment count = count + 1 :=
  OmpWidth.wrap_eq_of_fits (by
    simp only [OmpWidth.Fits, OmpWidth.four]
    omega)

section Arrive

variable {s : TeamState} {thread : Nat}

/-- In a team of one the thread is the first. -/
theorem arrive_alone (one : s.teamSize = 1) :
    s.arrive thread =
      { s with
        arrived := Function.update s.arrived thread (s.arrived thread + 1)
        isFirst := Function.update s.isFirst (s.arrived thread)
          (Function.update (s.isFirst (s.arrived thread)) thread true) } := by
  unfold TeamState.arrive
  dsimp only
  rw [Construct.call_eq, ompcSingle, if_pos one, update_eq_self]

/-- In a larger team the thread counts the construct, and is the first where it
then counts more than the team does. -/
theorem arrive_several (several : s.teamSize ≠ 1) (nonneg : 0 ≤ s.threadCount thread)
    (lagging : s.threadCount thread ≤ s.teamCount) (small : s.threadCount thread < 2 ^ 31 - 1) :
    s.arrive thread =
      { s with
        teamCount :=
          if s.threadCount thread = s.teamCount then s.teamCount + 1
          else s.teamCount
        threadCount := Function.update s.threadCount thread (s.threadCount thread + 1)
        arrived := Function.update s.arrived thread (s.arrived thread + 1)
        isFirst := Function.update s.isFirst (s.arrived thread)
          (Function.update (s.isFirst (s.arrived thread)) thread
            (decide (s.threadCount thread = s.teamCount))) } := by
  unfold TeamState.arrive
  dsimp only
  rw [Construct.call_eq, ompcSingle, if_neg several, increment_eq nonneg small]
  dsimp only
  by_cases equal : s.threadCount thread = s.teamCount
  · rw [if_pos (by omega), if_pos equal, increment_eq (by omega) (by omega), decide_eq_true equal]
  · rw [if_neg (by omega), if_neg equal, decide_eq_false equal]

/-- Who is the first at a construct after a thread has met one. -/
theorem isFirst_update {isFirst : Nat → Nat → Bool} {met construct other : Nat} {result : Bool} :
    Function.update isFirst met (Function.update (isFirst met) thread result)
        construct other = true ↔
      if construct = met ∧ other = thread then result = true
      else isFirst construct other = true := by
  by_cases here : construct = met
  · subst here
    rw [update_self]
    by_cases own : other = thread
    · rw [own, update_self, if_pos ⟨rfl, rfl⟩]
    · rw [update_of_ne own, if_neg (fun both => own both.2)]
  · rw [update_of_ne here, if_neg (fun both => here both.1)]

theorem TeamState.Counts.arrive_of_alone (counts : s.Counts)
    (member : thread < s.teamSize) (one : s.teamSize = 1) :
    (s.arrive thread).Counts := by
  have first : thread = 0 := by omega
  subst first
  have alone := counts.alone one
  rw [arrive_alone one]
  refine
    { counts with
      alone := fun _ =>
        { teamCount := alone.teamCount
          master := alone.master
          isFirst := fun construct other => ?_ }
      several := fun severals => absurd one severals }
  dsimp only
  rw [isFirst_update, update_self, alone.isFirst]
  split
  · rename_i both
    exact iff_of_true rfl ⟨both.2, by omega⟩
  · rename_i differ
    refine and_congr_right fun zero => ?_
    have : construct ≠ s.arrived 0 := fun same => differ ⟨same, zero⟩
    omega

/-- Meeting a construct keeps what a thread has counted elsewhere. -/
theorem difference_update (count : Nat → Int) (arrived : Nat → Nat) (thread other : Nat) :
    Function.update count thread (count thread + 1) other -
        (Function.update arrived thread (arrived thread + 1) other : Nat) =
      count other - arrived other := by
  by_cases own : other = thread
  · subst own
    rw [update_self, update_self]
    omega
  · rw [update_of_ne own, update_of_ne own]

theorem arrived_le_update (arrived : Nat → Nat) (thread other : Nat) :
    arrived other ≤ Function.update arrived thread (arrived thread + 1) other := by
  by_cases own : other = thread
  · subst own
    rw [update_self]
    exact Nat.le_succ _
  · rw [update_of_ne own]

/-- A thread that counts as much as the team is the first. -/
theorem TeamState.Several.first (several : s.Several) (member : thread < s.teamSize)
    (equal : s.threadCount thread = s.teamCount)
    (current : s.threadCount thread = s.baseCount + s.arrived thread) :
    TeamState.Several
      { s with
        teamCount := s.teamCount + 1
        threadCount := Function.update s.threadCount thread (s.threadCount thread + 1)
        arrived := Function.update s.arrived thread (s.arrived thread + 1)
        isFirst := Function.update s.isFirst (s.arrived thread)
          (Function.update (s.isFirst (s.arrived thread)) thread true) } := by
  have fresh (other : Nat) : s.isFirst (s.arrived thread) other ≠ true := by
    intro isFirst
    have counted := several.counted _ other isFirst
    omega
  refine
    { base := by have := several.base; dsimp only; omega
      master := ?_
      member := fun other inside => ?_
      attained := .inr ⟨thread, member, ?_⟩
      unique := fun construct first second isFirst isSecond => ?_
      winner := fun construct below => ?_
      counted := fun construct other isFirst => ?_
      met := fun construct other isFirst => ?_ }
  · have master := several.master
    have kept := difference_update s.threadCount s.arrived thread 0
    dsimp only
    omega
  · have bound := several.member other inside
    have kept := difference_update s.threadCount s.arrived thread other
    dsimp only
    omega
  · dsimp only
    rw [update_self]
    omega
  · dsimp only at isFirst isSecond
    rw [isFirst_update] at isFirst isSecond
    by_cases here : construct = s.arrived thread
    · subst here
      have isThread {other : Nat}
          (chosen : if s.arrived thread = s.arrived thread ∧ other = thread then true = true
            else s.isFirst (s.arrived thread) other = true) : other = thread := by
        by_contra differ
        rw [if_neg (fun both => differ both.2)] at chosen
        exact fresh other chosen
      rw [isThread isFirst, isThread isSecond]
    · rw [if_neg (fun both => here both.1)] at isFirst isSecond
      exact several.unique construct first second isFirst isSecond
  · dsimp only at below ⊢
    by_cases here : construct = s.arrived thread
    · exact ⟨thread, member, isFirst_update.mpr (by rw [if_pos ⟨here, rfl⟩])⟩
    · obtain ⟨other, inside, isFirst⟩ := several.winner construct (by omega)
      exact ⟨other, inside, isFirst_update.mpr (by rwa [if_neg (fun both => here both.1)])⟩
  · dsimp only at isFirst ⊢
    rw [isFirst_update] at isFirst
    split at isFirst
    · rename_i both
      rw [both.1]
      omega
    · have counted := several.counted construct other isFirst
      omega
  · dsimp only at isFirst ⊢
    rw [isFirst_update] at isFirst
    split at isFirst
    · rename_i both
      rw [both.1, both.2, update_self]
      exact Nat.lt_succ_self _
    · exact (several.met construct other isFirst).trans_le
        (arrived_le_update s.arrived thread other)

/-- A thread that counts less than the team is not the first. -/
theorem TeamState.Several.notFirst (several : s.Several) :
    TeamState.Several
      { s with
        threadCount := Function.update s.threadCount thread (s.threadCount thread + 1)
        arrived := Function.update s.arrived thread (s.arrived thread + 1)
        isFirst := Function.update s.isFirst (s.arrived thread)
          (Function.update (s.isFirst (s.arrived thread)) thread false) } := by
  have same : Function.update s.isFirst (s.arrived thread)
      (Function.update (s.isFirst (s.arrived thread)) thread false) = s.isFirst := by
    have notFirst : s.isFirst (s.arrived thread) thread = false := by
      by_contra isFirst
      exact lt_irrefl _ (several.met _ _ (Bool.not_eq_false _ ▸ isFirst))
    rw [← notFirst, update_eq_self, update_eq_self]
  rw [same]
  refine
    { base := several.base
      master := ?_
      member := fun other inside => ?_
      attained := several.attained.imp_right fun ⟨other, inside, attained⟩ =>
        ⟨other, inside, ?_⟩
      unique := several.unique
      winner := several.winner
      counted := several.counted
      met := fun construct other isFirst => (several.met construct other isFirst).trans_le
        (arrived_le_update s.arrived thread other) }
  · have master := several.master
    have kept := difference_update s.threadCount s.arrived thread 0
    dsimp only
    omega
  · have bound := several.member other inside
    have kept := difference_update s.threadCount s.arrived thread other
    dsimp only
    omega
  · have more := arrived_le_update s.arrived thread other
    dsimp only
    omega

theorem TeamState.Counts.arrive_of_several (counts : s.Counts)
    (member : thread < s.teamSize) (severals : s.teamSize ≠ 1)
    (small : s.threadCount thread < 2 ^ 31 - 1)
    (clear : s.threadCount thread = s.baseCount + s.arrived thread ∨
      s.threadCount thread < s.teamCount) :
    (s.arrive thread).Counts := by
  have nonneg := counts.nonneg
  have lagging := counts.lagging
  have several := counts.several severals
  rw [arrive_several severals (nonneg thread) (lagging thread) small]
  have counted (other : Nat) : Function.update s.threadCount thread
      (s.threadCount thread + 1) other = s.threadCount other + if other = thread then 1 else 0 := by
    by_cases own : other = thread
    · rw [own, update_self, if_pos rfl]
    · rw [update_of_ne own, if_neg own, Int.add_zero]
  by_cases equal : s.threadCount thread = s.teamCount
  · rw [if_pos equal, decide_eq_true equal]
    refine
      { size := counts.size
        alloc := counts.alloc
        nonneg := fun other => ?_
        lagging := fun other => ?_
        small := ?_
        alone := fun one => absurd one severals
        several := fun _ => several.first member equal (clear.resolve_right (by omega)) }
    · have := nonneg other
      dsimp only
      rw [counted]
      split <;> omega
    · have := lagging other
      dsimp only
      rw [counted]
      split <;> omega
    · dsimp only
      omega
  · rw [if_neg equal, decide_eq_false equal]
    refine
      { size := counts.size
        alloc := counts.alloc
        nonneg := fun other => ?_
        lagging := fun other => ?_
        small := counts.small
        alone := fun one => absurd one severals
        several := fun _ => several.notFirst }
    · have := nonneg other
      dsimp only
      rw [counted]
      split <;> omega
    · have := lagging other
      have own := lagging thread
      dsimp only
      rw [counted]
      split
      · rename_i same
        rw [same]
        omega
      · omega

end Arrive

/-! ## Runs -/

theorem TeamState.Counts.step {s s' : TeamState} (counts : s.Counts)
    (moved : ClearStep s s') : s'.Counts := by
  obtain ⟨event, clear, step⟩ := moved
  cases step with
  | fork numThreads constructs complete positive =>
      exact counts.fork complete positive constructs
  | arrive thread member passes =>
      by_cases one : s.teamSize = 1
      · exact counts.arrive_of_alone member one
      · obtain ⟨small, counted⟩ := clear.resolve_left one
        exact counts.arrive_of_several member one small counted

theorem counts_of_reachable {s : TeamState}
    (reached : Reachable TeamState.Initial ClearStep s) : s.Counts :=
  reached.invariant (fun _ => TeamState.Initial.counts)
    fun _ _ counts moved => counts.step moved

/-- Constructs with barriers are met clearly, up to the largest `int`. -/
theorem clear_of_barriers {s : TeamState} {thread : Nat}
    (reached : Reachable TeamState.Initial ClearStep s) (passes : s.MayArrive thread)
    (member : thread < s.teamSize) (barriers : ∀ construct, (s.constructs construct).nowait = false)
    (small : s.threadCount thread < 2 ^ 31 - 1) :
    s.Clear (.arrive thread) := by
  have counts := counts_of_reachable reached
  by_cases one : s.teamSize = 1
  · exact .inl one
  · refine .inr ⟨small, ?_⟩
    have several := counts.several one
    have master := several.master
    have lagging := counts.lagging 0
    have bound := several.member thread member
    have met : s.arrived thread ≤ s.arrived 0 := by
      by_contra less
      exact lt_irrefl _ (passes _ (by omega) (barriers _) 0 counts.size)
    omega

/--
Where every step is clear, each construct that all members have met has been
executed by one of them, and none by two.
-/
theorem firstOnce_of_reachable {s : TeamState}
    (reached : Reachable TeamState.Initial ClearStep s) : s.FirstOnce :=
  (counts_of_reachable reached).firstOnce

/-- The runtime of three threads before the first region. -/
def threeThreads : TeamState where
  allocSize := 3
  teamSize := 1
  teamCount := 0
  threadCount _ := 0
  constructs _ := ⟨false, true⟩
  arrived _ := 0
  isFirst _ _ := false
  baseCount := 0

theorem threeThreads_initial : threeThreads.Initial :=
  ⟨by decide, rfl, rfl, fun _ => rfl, fun _ => rfl, fun _ _ => rfl, rfl⟩

/-- A region of two threads that meet one `single nowait`. -/
def onceMet : TeamState :=
  ((threeThreads.fork 2 threeThreads.constructs).arrive 0).arrive 1

theorem firstOnce_onceMet : onceMet.FirstOnce := by
  have forked : ClearStep threeThreads (threeThreads.fork 2 threeThreads.constructs) :=
    ⟨.fork 2 _, trivial, .fork 2 _ ⟨0, fun _ _ => rfl⟩ (by decide)⟩
  have master : ClearStep _ ((threeThreads.fork 2 threeThreads.constructs).arrive 0) :=
    ⟨.arrive 0, Or.inr ⟨by decide, .inl (by decide)⟩,
      .arrive 0 (by decide) fun _ _ waits => nomatch waits⟩
  have other : ClearStep _ onceMet :=
    ⟨.arrive 1, Or.inr ⟨by decide, .inl (by decide)⟩,
      .arrive 1 (by decide) fun _ _ waits => nomatch waits⟩
  exact firstOnce_of_reachable
    (((Reachable.start threeThreads_initial).tail forked |>.tail master).tail other)

/-- A thread meets a construct only where all constructs of the region have their
barriers, and where it has counted less than the largest `int`. -/
def BarrierStep (s s' : TeamState) : Prop :=
  ∃ event, TeamStep s event s' ∧ ∀ thread, event = .arrive thread →
    (∀ construct, (s.constructs construct).nowait = false) ∧ s.threadCount thread < 2 ^ 31 - 1

/-- With its barrier each construct is executed once, whatever threads the teams have. -/
theorem firstOnce_of_barriers {s : TeamState}
    (reached : Reachable TeamState.Initial BarrierStep s) : s.FirstOnce := by
  suffices clear : Reachable TeamState.Initial ClearStep s by
    exact (counts_of_reachable clear).firstOnce
  induction reached with
  | start isInitial => exact .start isInitial
  | tail _ moved ih =>
      obtain ⟨event, step, waits⟩ := moved
      refine ih.tail ⟨event, ?_, step⟩
      cases step with
      | fork => trivial
      | arrive thread member passes =>
          obtain ⟨barriers, small⟩ := waits thread rfl
          exact clear_of_barriers ih passes member barriers small

theorem firstOnce_of_barriers_two :
    (((threeThreads.fork 2 fun _ => ⟨false, false⟩).arrive 1).arrive 0).FirstOnce :=
  firstOnce_of_barriers ((((Reachable.start threeThreads_initial).tail
    ⟨_, .fork 2 _ ⟨0, fun _ _ => rfl⟩ (by decide), nofun⟩).tail
    ⟨.arrive 1, .arrive 1 (by decide) nofun,
      fun _ same => TeamEvent.arrive.inj same ▸ ⟨fun _ => rfl, by decide⟩⟩).tail
    ⟨.arrive 0, .arrive 0 (by decide) nofun,
      fun _ same => TeamEvent.arrive.inj same ▸ ⟨fun _ => rfl, by decide⟩⟩)

/-- Thread 2 joins, and meets two constructs before the others meet any. -/
def overtaken : TeamState :=
  ((((onceMet.fork 3 threeThreads.constructs).arrive 2).arrive 2).arrive 0).arrive 1

/-- Nobody executes the first of the two constructs. -/
theorem not_firstOnce :
    ¬∀ s : TeamState, Reachable TeamState.Initial
      (fun s s' => ∃ event, TeamStep s event s') s → s.FirstOnce := by
  intro all
  have run : Reachable TeamState.Initial (fun s s' => ∃ event, TeamStep s event s')
      threeThreads := .start threeThreads_initial
  have forked := run.tail ⟨_, .fork 2 threeThreads.constructs ⟨0, fun _ _ => rfl⟩ (by decide)⟩
  have first := forked.tail ⟨_, .arrive 0 (by decide) fun _ _ waits => nomatch waits⟩
  have second := first.tail ⟨_, .arrive 1 (by decide) fun _ _ waits => nomatch waits⟩
  have joined := second.tail
    ⟨_, .fork 3 threeThreads.constructs ⟨1, by decide⟩ (by decide)⟩
  have early := joined.tail ⟨_, .arrive 2 (by decide) fun _ _ waits => nomatch waits⟩
  have again := early.tail ⟨_, .arrive 2 (by decide) fun _ _ waits => nomatch waits⟩
  have late := again.tail ⟨_, .arrive 0 (by decide) fun _ _ waits => nomatch waits⟩
  have last := late.tail ⟨_, .arrive 1 (by decide) fun _ _ waits => nomatch waits⟩
  obtain ⟨thread, member, isFirst⟩ := (all overtaken last).exactly 0 (by decide)
  have none : ∀ thread < 3, overtaken.isFirst 0 thread = false := by decide
  exact Bool.false_ne_true ((none thread member).symm.trans isFirst)

end OpenUH.Libopenmp.SingleConstruct
