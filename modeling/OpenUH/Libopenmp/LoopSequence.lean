import OpenUH.Foundation.Transition
import OpenUH.Libopenmp.ScheduleOverflow

/-!
# Sequences of worksharing loops

A level-1 team runs the loops of its parallel regions one after the other, all
from the one descriptor in `omp_team`.  No barrier stands between two loops of a
region.  Each thread counts the loops it comes to in `loop_count`, and the first
that counts more than the team describes the loop anew.

The numbers of the loops run through all regions.
-/

namespace OpenUH.Libopenmp.Scheduler

open Foundation.Fallible
open Foundation.Transition
open Function (update_of_ne update_self)

/-- The schedule type without the order, for the types that share out blocks. -/
def OmpSched.unordered : OmpSched → OmpSched
  | orderedStatic => static
  | orderedStaticEven => staticEven
  | schedtype => schedtype

theorem OmpSched.eq_unordered (schedtype : OmpSched) :
    schedtype = schedtype.unordered ∨ schedtype = schedtype.unordered.addOrderedGap := by
  cases schedtype <;> decide

theorem OmpSched.Claimed.eq_unordered {schedtype : OmpSched}
    (claimed : schedtype.unordered.Claimed) : schedtype = schedtype.unordered := by
  unfold Claimed at claimed
  cases schedtype <;> first | rfl | exact absurd claimed (by decide)

/-- A loop of a parallel region, and the size of the team of the region. -/
structure TeamLoop where
  width : OmpWidth
  teamSize : Nat
  arguments : LoopArguments

/--
The team of level one: its records, the loops of the regions so far and how
many of them belong to earlier regions; the loops that each thread has come to,
whether it is in the last of them, and the calls that were made in each loop.
-/
structure LoopTeam where
  records : TeamRecords
  allocSize : Nat
  loops : List TeamLoop
  earlier : Nat
  entered : Nat → Nat
  inside : Nat → Bool
  calls : Nat → List CallRecord

/-- `OMP_MAX_NUM_THREADS`. -/
def ompMaxNumThreads : Nat := 256

namespace LoopTeam

/-- The members of the team. -/
def teamSize (s : LoopTeam) : Nat :=
  s.records.team.teamSize

/-- All members have left the last loop of the region. -/
def Complete (s : LoopTeam) : Prop :=
  ∀ tid < s.teamSize, s.entered tid = s.loops.length ∧ s.inside tid = false

/-- `__ompc_fork`, with `__ompc_expand_level_1_team` where threads are missing. -/
def fork (s : LoopTeam) (numThreads : Nat) (loops : List (OmpWidth × LoopArguments)) :
    LoopTeam where
  records :=
    { team := { s.records.team with teamSize := numThreads }
      threads := fun tid =>
        if s.allocSize ≤ tid ∧ tid < numThreads then {} else s.records.threads tid }
  allocSize := max s.allocSize numThreads
  loops := s.loops ++ loops.map fun loop => ⟨loop.1, numThreads, loop.2⟩
  earlier := s.loops.length
  entered _ := s.loops.length
  inside _ := false
  calls := s.calls

/-- A thread comes to its next loop and calls `__ompc_scheduler_init`. -/
def enter (runtime : RuntimeSchedule) (s : LoopTeam) (tid : Nat) (loop : TeamLoop) :
    LoopTeam :=
  { s with
    records := schedulerInitTeam tid (resolveSchedule runtime loop.arguments) s.records
    entered := Function.update s.entered tid (s.entered tid + 1)
    inside := Function.update s.inside tid true }

/-- A thread calls `__ompc_schedule_next`, and leaves its loop when it gets 0. -/
def ask (s : LoopTeam) (tid : Nat) (after : TeamRecords) (result : NextResult) : LoopTeam :=
  let number := s.entered tid - 1
  { s with
    records := after
    inside := Function.update s.inside tid result.again
    calls := Function.update s.calls number
      (s.calls number ++ [⟨tid, s.records.team, result, (after.threads tid).orderedCount⟩]) }

end LoopTeam

/-- What happens next. -/
inductive LoopEvent where
  | fork (numThreads : Nat) (loops : List (OmpWidth × LoopArguments))
  | enter (tid : Nat)
  | ask (tid : Nat)

/-- The events that can happen in a state, and where they lead. -/
inductive LoopStep (runtime : RuntimeSchedule) : LoopTeam → LoopEvent → LoopTeam → Prop where
  | fork {s : LoopTeam} {numThreads : Nat} (loops : List (OmpWidth × LoopArguments))
      (complete : s.Complete) (positive : 1 ≤ numThreads) (few : numThreads ≤ ompMaxNumThreads) :
      LoopStep runtime s (.fork numThreads loops) (s.fork numThreads loops)
  | enter {s : LoopTeam} {tid : Nat} {loop : TeamLoop} (member : tid < s.teamSize)
      (outside : s.inside tid = false) (next : s.loops[s.entered tid]? = some loop) :
      LoopStep runtime s (.enter tid) (s.enter runtime tid loop)
  | ask {s : LoopTeam} {tid : Nat} {loop : TeamLoop} {after : TeamRecords}
      {result : NextResult} (member : tid < s.teamSize) (inside : s.inside tid = true)
      (current : s.loops[s.entered tid - 1]? = some loop)
      (called : scheduleNextTeam loop.width tid s.records = .ok (after, result)) :
      LoopStep runtime s (.ask tid) (s.ask tid after result)

/-- The runtime has been initialised, and no region is open. -/
structure LoopTeam.Initial (s : LoopTeam) : Prop where
  size : 1 ≤ s.teamSize ∧ s.teamSize ≤ ompMaxNumThreads
  teamCount : s.records.team.loopCount = 0
  threadCount : ∀ tid, (s.records.threads tid).loopCount = 0
  loops : s.loops = []
  earlier : s.earlier = 0
  entered : ∀ tid, s.entered tid = 0
  inside : ∀ tid, s.inside tid = false
  calls : ∀ number, s.calls number = []

/-! ## What the team owes to its loops -/

namespace TeamLoop

/-- The loop with the default schedule where it asks for it. -/
def resolved (runtime : RuntimeSchedule) (loop : TeamLoop) : LoopArguments :=
  resolveSchedule runtime loop.arguments

/-- The loop as a team shares it, its schedule type without the order. -/
def shared (runtime : RuntimeSchedule) (loop : TeamLoop) : SharedLoop where
  schedtype := (loop.resolved runtime).schedtype.unordered
  teamSize := loop.teamSize
  lower := loop.arguments.lower
  upper := loop.arguments.upper
  incr := loop.arguments.stride
  chunk := (loop.resolved runtime).chunk

/-- The descriptor is of this loop; a team of one uses no type and no chunk. -/
structure Describes (runtime : RuntimeSchedule) (loop : TeamLoop) (team : OmpTeam) : Prop where
  teamSize : team.teamSize = loop.teamSize
  upper : team.loopUpperBound = loop.arguments.upper
  incr : team.loopIncreament = loop.arguments.stride
  schedule : loop.teamSize ≠ 1 → team.scheduleType = (loop.resolved runtime).schedtype
  chunk : loop.teamSize ≠ 1 → team.chunkSize = (loop.resolved runtime).chunk

/-- The records before the first call in a loop. -/
structure Fresh (runtime : RuntimeSchedule) (loop : TeamLoop) (start : TeamRecords) : Prop
    extends loop.Describes runtime start.team where
  lower : start.team.loopLowerBound = loop.arguments.lower
  numbers : start.team.scheduleCount = 0
  counts : ∀ tid, (start.threads tid).scheduleCount = 0

/--
Every call in the loop is served from the descriptor of the loop; the calls are
those of a team that runs this loop alone; and they hand out each iteration of
the loop once, where no value that decides about it overflows.
-/
structure Served (runtime : RuntimeSchedule) (loop : TeamLoop) (records : List CallRecord) :
    Prop where
  described : ∀ record ∈ records, loop.Describes runtime record.before
  alone : ∀ root, ∃ start, loop.Fresh runtime start ∧
    records = runCalls loop.width .normal root start (records.map (·.thread))
  static : (loop.shared runtime).Given loop.width → (loop.shared runtime).InRange loop.width →
    (loop.shared runtime).IsStatic →
      ∃ values, (loop.shared runtime).PartitionsLoop values ∧ ∀ tid < loop.teamSize,
        HandsOut loop.arguments.upper tid ((loop.shared runtime).total + 2) (values tid)
          (records.map (·.thread)) records
  claimed : (loop.shared runtime).Given loop.width → (loop.shared runtime).InRange loop.width →
    (loop.shared runtime).schedtype.Claimed → (loop.shared runtime).ServesOnce records

end TeamLoop

/-- Each loop is served as its own. -/
def LoopTeam.Isolated (runtime : RuntimeSchedule) (s : LoopTeam) : Prop :=
  ∀ (number : Nat) (loop : TeamLoop), s.loops[number]? = some loop →
    loop.Served runtime (s.calls number)

/--
A thread comes to a loop in a team of one, or behind another member that is in
it or has left it, or as the first, when all have left the loop before it and
the thread has counted as many loops as the team has.
-/
def LoopTeam.Clear (s : LoopTeam) : LoopEvent → Prop
  | .enter tid => s.teamSize = 1 ∨ (s.records.threads tid).loopCount < 2 ^ 31 - 1 ∧
      ((∃ other < s.teamSize, s.entered tid < s.entered other) ∨
        (s.records.threads tid).loopCount = s.records.team.loopCount ∧
          ∀ other < s.teamSize, s.entered other = s.entered tid ∧ s.inside other = false)
  | _ => True

/-- The steps that are clear. -/
def ClearLoopStep (runtime : RuntimeSchedule) (s s' : LoopTeam) : Prop :=
  ∃ event, s.Clear event ∧ LoopStep runtime s event s'

/-! ## One call -/

/-- What a call makes of the team and of the record of its thread. -/
def memberNext (width : OmpWidth) (tid : Nat) (team : OmpTeam) (thread : OmpVThread) :
    Except String (OmpTeam × OmpVThread × NextResult) :=
  if team.teamSize = 1 then
    .ok (nextAlone width true team thread)
  else
    nextBySchedule width tid team thread

theorem scheduleNextTeam_eq (width : OmpWidth) (tid : Nat) (records : TeamRecords) :
    scheduleNextTeam width tid records =
      (memberNext width tid records.team (records.threads tid)).map (records.store tid) := by
  unfold scheduleNextTeam memberNext
  split <;> rfl

section Calls

variable {width : OmpWidth} {tid : Nat} {team : OmpTeam} {thread : OmpVThread}
  {runtime : RuntimeSchedule} {loop : TeamLoop}

theorem nextStaticEven_loopCount (ordered : Bool) :
    (nextStaticEven width ordered tid team thread).1.loopCount = thread.loopCount := by
  unfold nextStaticEven
  split
  · rfl
  · cases ordered <;> rfl

theorem nextStatic_loopCount (ordered : Bool) :
    (nextStatic width ordered tid team thread).1.loopCount = thread.loopCount := by
  unfold nextStatic
  dsimp only
  split
  · rfl
  · cases ordered <;> rfl

theorem nextClaimed_keeps :
    (∃ lower number, (nextClaimed width team thread).1 =
        { team with loopLowerBound := lower, scheduleCount := number }) ∧
      (nextClaimed width team thread).2.1.loopCount = thread.loopCount := by
  unfold nextClaimed
  dsimp only
  split
  · exact ⟨⟨_, _, rfl⟩, rfl⟩
  · split <;> exact ⟨⟨_, _, rfl⟩, rfl⟩

/-- A call changes the lower bound and the number of chunks of the descriptor. -/
theorem memberNext_keeps {after : OmpTeam × OmpVThread × NextResult}
    (called : memberNext width tid team thread = .ok after) :
    (∃ lower number,
        after.1 = { team with loopLowerBound := lower, scheduleCount := number }) ∧
      after.2.1.loopCount = thread.loopCount := by
  unfold memberNext at called
  split at called
  · cases called
    unfold nextAlone
    split <;> exact ⟨⟨_, _, rfl⟩, rfl⟩
  · unfold nextBySchedule at called
    split at called <;> cases called
    · exact ⟨⟨_, _, rfl⟩, nextStaticEven_loopCount _⟩
    · exact ⟨⟨_, _, rfl⟩, nextStatic_loopCount _⟩
    · exact ⟨⟨_, _, rfl⟩, nextStaticEven_loopCount _⟩
    · exact ⟨⟨_, _, rfl⟩, nextStatic_loopCount _⟩
    all_goals exact nextClaimed_keeps

theorem TeamLoop.Describes.keeps (describes : loop.Describes runtime team) (lower number : Int) :
    loop.Describes runtime { team with loopLowerBound := lower, scheduleCount := number } :=
  ⟨describes.teamSize, describes.upper, describes.incr, describes.schedule, describes.chunk⟩

/-! ## The calls of a team that runs one loop -/

/-- Calls one after the other lead from records to records. -/
inductive Ran (width : OmpWidth) (start : TeamRecords) : List CallRecord → TeamRecords → Prop where
  | nil : Ran width start [] start
  | snoc {records : List CallRecord} {own : TeamRecords} {tid : Nat}
      {after : OmpTeam × OmpVThread × NextResult} (ran : Ran width start records own)
      (called : memberNext width tid own.team (own.threads tid) = .ok after) :
      Ran width start (records ++ [⟨tid, own.team, after.2.2, after.2.1.orderedCount⟩])
        (own.store tid after).1

variable {start own : TeamRecords} {records : List CallRecord}

theorem Ran.runCalls_append (ran : Ran width start records own) (root : TeamRecords) :
    ∀ calls, runCalls width .normal root start (records.map (·.thread) ++ calls) =
      records ++ runCalls width .normal root own calls := by
  induction ran with
  | nil => exact fun _ => rfl
  | snoc ran called ih =>
      intro calls
      rw [List.map_append, List.append_assoc, ih, List.append_assoc]
      congr 1
      simp [runCalls, scheduleNext, scheduleNextTeam_eq, called, Except.map, TeamRecords.store]

theorem TeamRecords.setThread_store {other : Nat} (distinct : other ≠ tid)
    (after : OmpTeam × OmpVThread × NextResult) :
    ((own.setThread tid thread).store other after).1 =
      (own.store other after).1.setThread tid thread := by
  simp only [store, setThread, mk.injEq, true_and]
  funext some
  by_cases same : some = other
  · subst same
    simp [distinct]
  · simp [same]

theorem TeamRecords.setThread_congr {records : TeamRecords} {other : Nat}
    (same : own.threads other = records.threads other) :
    (own.setThread tid thread).threads other = (records.setThread tid thread).threads other := by
  simp only [setThread, same]

/-- The calls do not depend on the record of a thread that makes none of them. -/
theorem Ran.setThread (ran : Ran width start records own)
    (absent : ∀ record ∈ records, record.thread ≠ tid) :
    Ran width (start.setThread tid thread) records (own.setThread tid thread) := by
  induction ran with
  | nil => exact .nil
  | snoc ran called ih =>
      have distinct := absent _ (List.mem_append_right _ List.mem_cons_self)
      have before := ih fun record member =>
        absent record (List.mem_append_left _ member)
      rw [← TeamRecords.setThread_other _ distinct thread] at called
      have next := before.snoc called
      rwa [TeamRecords.setThread_store distinct] at next

theorem Ran.described (ran : Ran width start records own)
    (describes : loop.Describes runtime start.team) :
    loop.Describes runtime own.team ∧ ∀ record ∈ records, loop.Describes runtime record.before := by
  induction ran with
  | nil => exact ⟨describes, by simp⟩
  | snoc ran called ih =>
      obtain ⟨here, before⟩ := ih
      obtain ⟨⟨lower, number, team⟩, -⟩ := memberNext_keeps called
      refine ⟨?_, fun record member => ?_⟩
      · rw [TeamRecords.store, team]
        exact here.keeps lower number
      · rcases List.mem_append.mp member with earlier | last
        · exact before record earlier
        · rw [List.mem_singleton.mp last]
          exact here

theorem TeamLoop.Fresh.ready (fresh : loop.Fresh runtime start) :
    (loop.shared runtime).Ready start.team := by
  refine ⟨fresh.teamSize, fresh.lower, fresh.upper, fresh.incr, fresh.numbers, fun several => ?_,
    fresh.chunk⟩
  rw [fresh.schedule several]
  exact OmpSched.eq_unordered _

/-- The calls of a team that runs the loop alone. -/
structure TeamLoop.Alone (runtime : RuntimeSchedule) (loop : TeamLoop)
    (records : List CallRecord) : Prop where
  members : ∀ record ∈ records, record.thread < loop.teamSize
  ran : ∃ start own, loop.Fresh runtime start ∧ Ran loop.width start records own

theorem TeamLoop.alone_nil (runtime : RuntimeSchedule) (loop : TeamLoop) :
    loop.Alone runtime [] := by
  let team : OmpTeam := { teamSize := loop.teamSize }
  let start : TeamRecords :=
    { team := { team.describe (loop.resolved runtime) with
        loopLowerBound := loop.arguments.lower
        loopUpperBound := loop.arguments.upper
        loopIncreament := loop.arguments.stride }
      threads := fun _ => {} }
  exact ⟨by simp, start, start,
    { teamSize := rfl, upper := rfl, incr := rfl, schedule := fun _ => rfl, chunk := fun _ => rfl
      lower := rfl, numbers := rfl, counts := fun _ => rfl }, .nil⟩

theorem TeamLoop.Alone.served (alone : loop.Alone runtime records) :
    loop.Served runtime records := by
  obtain ⟨start, own, fresh, ran⟩ := alone.ran
  have calls (root : TeamRecords) :
      records = runCalls loop.width .normal root start (records.map (·.thread)) := by
    simpa [runCalls] using (ran.runCalls_append root []).symm
  have members : ∀ caller ∈ records.map (·.thread), caller < loop.teamSize := by
    simpa using alone.members
  have once (given : (loop.shared runtime).Given loop.width)
      (inRange : (loop.shared runtime).InRange loop.width) :
      (loop.shared runtime).RunsOnce loop.width .normal :=
    given.runsOnce inRange (by decide)
  refine
    { described := (ran.described fresh.toDescribes).2
      alone := fun root => ⟨start, fresh, calls root⟩
      static := fun given inRange isStatic => ?_
      claimed := fun given inRange claimed => ?_ }
  · obtain ⟨values, partition, hands⟩ := (once given inRange).static isStatic
    refine ⟨values, partition, fun tid member => ?_⟩
    have handed := (hands tid member).2 start start (records.map (·.thread)) members fresh.ready
      (fresh.counts tid)
    rwa [← calls start] at handed
  · have serves := (once given inRange).claimed claimed start start
      (records.map (·.thread)) fresh.ready fun several => ?_
    · rwa [← calls start] at serves
    · rw [fresh.schedule several]
      exact claimed.eq_unordered

end Calls

/-! ## The invariant -/

namespace LoopTeam

/-- The calls of a loop have led to the present records of those who came to it. -/
def Serving (runtime : RuntimeSchedule) (s : LoopTeam) (number : Nat) : Prop :=
  ∃ loop start threads, s.loops[number]? = some loop ∧ loop.Fresh runtime start ∧
    Ran loop.width start (s.calls number) ⟨s.records.team, threads⟩ ∧
    (∀ tid < s.teamSize, s.entered tid = number + 1 → threads tid = s.records.threads tid) ∧
    ∀ record ∈ s.calls number, record.thread < s.teamSize ∧ s.entered record.thread = number + 1

/-- A member has come to the last loop that somebody has come to, or it is
before that loop and counts less than the team. -/
def Placed (s : LoopTeam) (current tid : Nat) : Prop :=
  s.entered tid = current ∨
    s.entered tid + 1 = current ∧ s.earlier ≤ s.entered tid ∧ s.inside tid = false ∧
      (s.records.threads tid).loopCount < s.records.team.loopCount

/-- The invariant of the clear runs; `current` loops have been come to. -/
structure Orderly (runtime : RuntimeSchedule) (s : LoopTeam) (current : Nat) : Prop where
  size : 1 ≤ s.teamSize
  nonneg : ∀ tid, 0 ≤ (s.records.threads tid).loopCount
  lagging : ∀ tid, (s.records.threads tid).loopCount ≤ s.records.team.loopCount
  sizes : ∀ (number : Nat) (loop : TeamLoop), s.earlier ≤ number → s.loops[number]? = some loop →
    loop.teamSize = s.teamSize
  earlier : s.earlier ≤ current
  placed : ∀ tid < s.teamSize, s.Placed current tid
  attained : ∃ tid < s.teamSize, s.entered tid = current
  outside : s.earlier = current → ∀ tid < s.teamSize, s.inside tid = false
  serving : s.earlier < current → s.Serving runtime (current - 1)
  alone : ∀ (number : Nat) (loop : TeamLoop), s.loops[number]? = some loop →
    loop.Alone runtime (s.calls number)
  ahead : ∀ number, current ≤ number → s.calls number = []

variable {runtime : RuntimeSchedule} {s : LoopTeam} {current tid : Nat} {loop : TeamLoop}

theorem Initial.orderly (isInitial : s.Initial) : s.Orderly runtime 0 where
  size := isInitial.size.1
  nonneg tid := (isInitial.threadCount tid).ge
  lagging tid := by rw [isInitial.threadCount, isInitial.teamCount]
  sizes number loop _ listed := by simp [isInitial.loops] at listed
  earlier := isInitial.earlier.le
  placed tid _ := .inl (isInitial.entered tid)
  attained := ⟨0, isInitial.size.1, isInitial.entered 0⟩
  outside _ tid _ := isInitial.inside tid
  serving less := absurd less (Nat.not_lt_zero _)
  alone number loop listed := by simp [isInitial.loops] at listed
  ahead number _ := isInitial.calls number

theorem Orderly.fork (orderly : s.Orderly runtime current) (complete : s.Complete)
    {numThreads : Nat} (positive : 1 ≤ numThreads) (loops : List (OmpWidth × LoopArguments)) :
    (s.fork numThreads loops).Orderly runtime s.loops.length := by
  obtain ⟨member, isMember, here⟩ := orderly.attained
  have all : current = s.loops.length := here.symm.trans (complete member isMember).1
  have teamCount : 0 ≤ s.records.team.loopCount := (orderly.nonneg 0).trans (orderly.lagging 0)
  refine
    { size := positive
      nonneg := fun tid => ?_
      lagging := fun tid => ?_
      sizes := fun number loop later listed => ?_
      earlier := le_refl _
      placed := fun _ _ => .inl rfl
      attained := ⟨0, positive, rfl⟩
      outside := fun _ _ _ => rfl
      serving := fun less => absurd less (lt_irrefl _)
      alone := fun number loop listed => ?_
      ahead := fun number later => orderly.ahead number (all ▸ later) }
  · dsimp only [LoopTeam.fork]
    split
    · exact le_refl _
    · exact orderly.nonneg tid
  · dsimp only [LoopTeam.fork]
    split
    · exact teamCount
    · exact orderly.lagging tid
  · change s.loops.length ≤ number at later
    change (s.loops ++ _)[number]? = some loop at listed
    rw [List.getElem?_append_right later, List.getElem?_map, Option.map_eq_some_iff] at listed
    obtain ⟨_, -, rfl⟩ := listed
    rfl
  · change (s.loops ++ _)[number]? = some loop at listed
    change loop.Alone runtime (s.calls number)
    by_cases old : number < s.loops.length
    · rw [List.getElem?_append_left old] at listed
      exact orderly.alone number loop listed
    · rw [orderly.ahead number (by omega)]
      exact loop.alone_nil runtime

/-! ## A thread comes to a loop -/

/-- A thread that has come to its next loop counts it, but not in a team of one. -/
def counted (records : TeamRecords) (tid : Nat) : OmpVThread :=
  { records.threads tid with
    scheduleCount := 0
    loopCount := (records.threads tid).loopCount + if records.team.teamSize = 1 then 0 else 1 }

/-- The thread describes the loop, alone or as the first. -/
theorem init_describes {records : TeamRecords}
    (first : records.team.teamSize = 1 ∨ (records.threads tid).loopCount = records.team.loopCount)
    (size : records.team.teamSize = loop.teamSize) :
    ∃ team, schedulerInitTeam tid (loop.resolved runtime) records =
        ⟨team, (records.setThread tid (counted records tid)).threads⟩ ∧
      team.loopCount = records.team.loopCount + (if records.team.teamSize = 1 then 0 else 1) ∧
      ∀ threads : Nat → OmpVThread, (∀ other, (threads other).scheduleCount = 0) →
        loop.Fresh runtime ⟨team, threads⟩ := by
  obtain ⟨lower, upper, stride⟩ := resolveSchedule_bounds runtime loop.arguments
  unfold schedulerInitTeam counted
  by_cases one : records.team.teamSize = 1
  · have alone : loop.teamSize = 1 := size ▸ one
    simp only [if_pos one, Int.add_zero]
    exact ⟨_, rfl, rfl, fun threads zeros =>
      { teamSize := size, upper := upper, incr := stride
        schedule := fun several => absurd alone several
        chunk := fun several => absurd alone several
        lower := lower, numbers := rfl, counts := zeros }⟩
  · have ahead : ¬records.team.loopCount ≥ (records.threads tid).loopCount + 1 := by
      have := first.resolve_left one
      omega
    simp only [if_neg one, if_neg ahead]
    exact ⟨_, rfl, rfl, fun threads zeros =>
      { teamSize := size, upper := upper, incr := stride, schedule := fun _ => rfl
        chunk := fun _ => rfl, lower := lower, numbers := rfl, counts := zeros }⟩

/-- The thread finds the loop described. -/
theorem init_behind {records : TeamRecords} (arguments : LoopArguments)
    (several : records.team.teamSize ≠ 1)
    (less : (records.threads tid).loopCount < records.team.loopCount) :
    schedulerInitTeam tid arguments records = records.setThread tid (counted records tid) := by
  have ready : records.team.loopCount ≥ (records.threads tid).loopCount + 1 := by omega
  simp only [schedulerInitTeam, counted, if_neg several, if_pos ready]

theorem le_counted (records : TeamRecords) (tid other : Nat) :
    (records.threads other).loopCount ≤
        ((records.setThread tid (counted records tid)).threads other).loopCount ∧
      ((records.setThread tid (counted records tid)).threads other).loopCount ≤
        (records.threads other).loopCount + if records.team.teamSize = 1 then 0 else 1 := by
  by_cases own : other = tid
  · subst own
    rw [TeamRecords.setThread_self]
    dsimp only [counted]
    split <;> omega
  · rw [TeamRecords.setThread_other _ own]
    split <;> omega

section

variable (orderly : s.Orderly runtime current) (member : tid < s.teamSize)

include orderly member

theorem Orderly.first (next : s.loops[s.entered tid]? = some loop)
    (first : s.teamSize = 1 ∨
      (s.records.threads tid).loopCount = s.records.team.loopCount ∧
        ∀ other < s.teamSize, s.entered other = s.entered tid ∧ s.inside other = false) :
    (s.enter runtime tid loop).Orderly runtime (current + 1) := by
  have together : ∀ other < s.teamSize, s.entered other = current ∧
      (other ≠ tid → s.inside other = false) := by
    obtain ⟨last, isMember, here⟩ := orderly.attained
    intro other isOther
    rcases first with one | ⟨-, all⟩
    · have same : other = last := by omega
      exact ⟨same ▸ here, fun differs => absurd (by omega) differs⟩
    · exact ⟨((all other isOther).1.trans (all last isMember).1.symm).trans here,
        fun _ => (all other isOther).2⟩
  have now := (together tid member).1
  have size : s.teamSize = loop.teamSize := (orderly.sizes _ loop (now ▸ orderly.earlier) next).symm
  obtain ⟨team, described, teamCount, fresh⟩ := @init_describes runtime tid loop s.records
    (first.imp_right And.left) size
  have sameSize : team.teamSize = s.teamSize :=
    (fresh (fun _ => {}) fun _ => rfl).teamSize.trans size.symm
  have entered : s.enter runtime tid loop =
      { s with
        records := ⟨team, (s.records.setThread tid (counted s.records tid)).threads⟩
        entered := Function.update s.entered tid (current + 1)
        inside := Function.update s.inside tid true } := by
    rw [← described, ← now]
    rfl
  rw [entered]
  refine
    { size := orderly.size.trans_eq sameSize.symm
      nonneg := fun other => (orderly.nonneg other).trans (le_counted s.records tid other).1
      lagging := fun other => (le_counted s.records tid other).2.trans (by
        rw [teamCount]
        exact Int.add_le_add_right (orderly.lagging other) _)
      sizes := fun number loop later listed =>
        (orderly.sizes number loop later listed).trans sameSize.symm
      earlier := orderly.earlier.trans (Nat.le_succ _)
      placed := fun other isOther => ?_
      attained := ⟨tid, member.trans_eq sameSize.symm, update_self ..⟩
      outside := fun same => absurd same (by have := orderly.earlier; dsimp only; omega)
      serving := fun _ => ?_
      alone := orderly.alone
      ahead := fun number later => orderly.ahead number (by omega) }
  · by_cases own : other = tid
    · subst own
      exact .inl (update_self ..)
    · have isMember : other < s.teamSize := isOther.trans_eq sameSize
      have several : s.records.team.teamSize ≠ 1 := fun one => own (by
        change s.teamSize = 1 at one
        omega)
      obtain ⟨here, outside⟩ := together other isMember
      refine .inr ?_
      dsimp only
      rw [update_of_ne own, update_of_ne own, here,
        TeamRecords.setThread_other _ own, teamCount, if_neg several]
      exact ⟨rfl, orderly.earlier, outside own, Int.lt_add_one_of_le (orderly.lagging other)⟩
  · have none := orderly.ahead current (le_refl _)
    let reset (other : Nat) : OmpVThread :=
      { (s.records.setThread tid (counted s.records tid)).threads other with scheduleCount := 0 }
    refine ⟨loop, ⟨team, reset⟩, reset, now ▸ next, fresh reset fun _ => rfl, ?_,
      fun other isOther here => ?_, ?_⟩
    · rw [Nat.add_sub_cancel, none]
      exact .nil
    · by_cases own : other = tid
      · subst own
        dsimp only [reset]
        rw [TeamRecords.setThread_self]
        rfl
      · dsimp only at here
        rw [update_of_ne own, (together other (isOther.trans_eq sameSize)).1] at here
        omega
    · intro record listed
      rw [Nat.add_sub_cancel, none] at listed
      cases listed

theorem Orderly.behind {other : Nat} (isMember : other < s.teamSize)
    (ahead : s.entered tid < s.entered other) :
    (s.enter runtime tid loop).Orderly runtime current := by
  have several : s.teamSize ≠ 1 := by
    intro one
    obtain rfl : tid = other := by omega
    exact lt_irrefl _ ahead
  obtain ⟨before, later, outside, less⟩ : s.entered tid + 1 = current ∧
      s.earlier ≤ s.entered tid ∧ s.inside tid = false ∧
        (s.records.threads tid).loopCount < s.records.team.loopCount := by
    refine (orderly.placed tid member).resolve_left fun here => ?_
    rcases orderly.placed other isMember with there | there
    · omega
    · omega
  have entered : s.enter runtime tid loop =
      { s with
        records := s.records.setThread tid (counted s.records tid)
        entered := Function.update s.entered tid current
        inside := Function.update s.inside tid true } := by
    rw [← init_behind _ several less, ← before]
    rfl
  rw [entered]
  obtain ⟨last, start, threads, listed, fresh, ran, same, callers⟩ := orderly.serving (by omega)
  have notCaller : ∀ record ∈ s.calls (current - 1), record.thread ≠ tid := by
    intro record isRecord own
    have := (callers record isRecord).2
    rw [own] at this
    omega
  refine
    { size := orderly.size
      nonneg := fun other => (orderly.nonneg other).trans (le_counted s.records tid other).1
      lagging := fun other => ?_
      sizes := orderly.sizes
      earlier := orderly.earlier
      placed := fun other isOther => ?_
      attained := ⟨tid, member, update_self ..⟩
      outside := fun same => absurd same (by dsimp only; omega)
      serving := fun _ => ?_
      alone := orderly.alone
      ahead := orderly.ahead }
  · by_cases own : other = tid
    · subst own
      have count := (le_counted s.records other other).2
      rw [if_neg (show s.records.team.teamSize ≠ 1 from several)] at count
      exact count.trans (Int.add_one_le_of_lt less)
    · rw [TeamRecords.setThread_other _ own]
      exact orderly.lagging other
  · by_cases own : other = tid
    · subst own
      exact .inl (update_self ..)
    · unfold Placed
      dsimp only
      rw [update_of_ne own, update_of_ne own, TeamRecords.setThread_other _ own]
      exact orderly.placed other isOther
  · refine ⟨last, start.setThread tid (counted s.records tid),
      (TeamRecords.setThread ⟨s.records.team, threads⟩ tid (counted s.records tid)).threads,
      listed, ?_, ran.setThread notCaller, fun other isOther here => ?_,
      fun record isRecord => ?_⟩
    · exact { fresh with
        counts := fun other => by
          by_cases own : other = tid
          · subst own
            rw [TeamRecords.setThread_self]
            rfl
          · rw [TeamRecords.setThread_other _ own]
            exact fresh.counts other }
    · by_cases own : other = tid
      · subst own
        rw [TeamRecords.setThread_self, TeamRecords.setThread_self]
      · dsimp only at here
        rw [update_of_ne own] at here
        exact TeamRecords.setThread_congr (same other isOther here)
    · obtain ⟨isMember, here⟩ := callers record isRecord
      refine ⟨isMember, ?_⟩
      dsimp only
      rw [update_of_ne (notCaller record isRecord), here]

/-! ## A thread asks for iterations -/

theorem Orderly.ask (inside : s.inside tid = true)
    (listed : s.loops[s.entered tid - 1]? = some loop)
    {after : TeamRecords} {result : NextResult}
    (called : scheduleNextTeam loop.width tid s.records = .ok (after, result)) :
    (s.ask tid after result).Orderly runtime current := by
  have here : s.entered tid = current := (orderly.placed tid member).resolve_right fun before =>
    Bool.false_ne_true (before.2.2.1.symm.trans inside)
  have opened : s.earlier < current := by
    refine lt_of_le_of_ne orderly.earlier fun same => ?_
    exact Bool.false_ne_true ((orderly.outside same tid member).symm.trans inside)
  obtain ⟨last, start, threads, isLast, fresh, ran, same, callers⟩ := orderly.serving opened
  rw [here] at listed
  obtain rfl : loop = last := Option.some.inj (listed.symm.trans isLast)
  rw [scheduleNextTeam_eq, ← same tid member (by omega)] at called
  obtain ⟨stored, next, isAfter⟩ := map_eq_ok.mp called
  obtain ⟨⟨lower, number, team⟩, count⟩ := memberNext_keeps next
  rw [same tid member (by omega)] at count
  obtain ⟨isAfter, isResult⟩ : (s.records.store tid stored).1 = after ∧ stored.2.2 = result :=
    Prod.mk.inj isAfter
  subst isAfter isResult
  have asked : s.ask tid (s.records.store tid stored).1 stored.2.2 =
      { s with
        records := ⟨stored.1, (s.records.setThread tid stored.2.1).threads⟩
        inside := Function.update s.inside tid stored.2.2.again
        calls := Function.update s.calls (current - 1) (s.calls (current - 1) ++
          [⟨tid, s.records.team, stored.2.2, stored.2.1.orderedCount⟩]) } := by
    rw [← here]
    unfold LoopTeam.ask TeamRecords.store
    dsimp only
    rw [TeamRecords.setThread_self]
  have sameSize : stored.1.teamSize = s.teamSize := by
    rw [team]
    rfl
  have sameCount : stored.1.loopCount = s.records.team.loopCount := by rw [team]
  have counts (other : Nat) : ((s.records.setThread tid stored.2.1).threads other).loopCount =
      (s.records.threads other).loopCount := by
    by_cases own : other = tid
    · rw [own, TeamRecords.setThread_self, count]
    · rw [TeamRecords.setThread_other _ own]
  have further := ran.snoc next
  have members := orderly.sizes _ _ (by omega) isLast
  rw [asked]
  refine
    { size := orderly.size.trans_eq sameSize.symm
      nonneg := fun other => (orderly.nonneg other).trans_eq (counts other).symm
      lagging := fun other => ?_
      sizes := fun number loop later listed =>
        (orderly.sizes number loop later listed).trans sameSize.symm
      earlier := orderly.earlier
      placed := fun other isOther => ?_
      attained := ⟨tid, member.trans_eq sameSize.symm, here⟩
      outside := fun same => absurd same opened.ne
      serving := fun _ => ?_
      alone := fun number some isSome => ?_
      ahead := fun number later => ?_ }
  · rw [counts, sameCount]
    exact orderly.lagging other
  · unfold Placed
    dsimp only
    rw [counts, sameCount]
    refine (orderly.placed other (isOther.trans_eq sameSize)).imp_right fun before => ?_
    have own : other ≠ tid := by
      rintro rfl
      omega
    rwa [update_of_ne own]
  · refine ⟨loop, start,
      (TeamRecords.setThread ⟨s.records.team, threads⟩ tid stored.2.1).threads, isLast, fresh,
      ?_, fun other isOther there => TeamRecords.setThread_congr
        (same other (isOther.trans_eq sameSize) there), fun record isRecord => ?_⟩
    · dsimp only
      rw [update_self]
      exact further
    · dsimp only at isRecord
      rw [update_self] at isRecord
      rcases List.mem_append.mp isRecord with old | new
      · exact ⟨(callers record old).1.trans_eq sameSize.symm, (callers record old).2⟩
      · rw [List.mem_singleton.mp new]
        exact ⟨member.trans_eq sameSize.symm, by dsimp only; omega⟩
  · dsimp only at isSome ⊢
    by_cases current' : number = current - 1
    · subst current'
      obtain rfl : loop = some := Option.some.inj (isLast.symm.trans isSome)
      rw [update_self]
      refine ⟨fun record isRecord => ?_, start, _, fresh, further⟩
      rw [members]
      rcases List.mem_append.mp isRecord with old | new
      · exact (callers record old).1
      · rw [List.mem_singleton.mp new]
        exact member
    · rw [update_of_ne current']
      exact orderly.alone number some isSome
  · dsimp only
    rw [update_of_ne (by omega)]
    exact orderly.ahead number later

end

/-! ## Runs -/

theorem orderly_of_reachable (reached : Reachable Initial (ClearLoopStep runtime) s) :
    ∃ current, s.Orderly runtime current := by
  induction reached with
  | start isInitial => exact ⟨0, isInitial.orderly⟩
  | tail _ moved ih =>
      obtain ⟨current, orderly⟩ := ih
      obtain ⟨event, clear, step⟩ := moved
      cases step with
      | fork loops complete positive few => exact ⟨_, orderly.fork complete positive loops⟩
      | enter member outside next =>
          rcases clear with one | ⟨-, ⟨other, isMember, ahead⟩ | first⟩
          · exact ⟨_, orderly.first member next (.inl one)⟩
          · exact ⟨_, orderly.behind member isMember ahead⟩
          · exact ⟨_, orderly.first member next (.inr first)⟩
      | ask member inside current called => exact ⟨_, orderly.ask member inside current called⟩

/-- A team of two before its first region. -/
def beforeLoops : LoopTeam where
  records := twoThreads
  allocSize := 2
  loops := []
  earlier := 0
  entered _ := 0
  inside _ := false
  calls _ := []

theorem beforeLoops_initial : beforeLoops.Initial :=
  ⟨by decide, rfl, fun _ => rfl, rfl, rfl, fun _ => rfl, fun _ => rfl, fun _ => rfl⟩

/-- `for (i = 0; i <= upper; i++) nowait`, in even parts. -/
def upTo (upper : Int) : OmpWidth × LoopArguments :=
  ⟨.four, { schedtype := .staticEven, lower := 0, upper := upper, stride := 1, chunk := 1 }⟩

def opened : LoopTeam :=
  beforeLoops.fork 2 [upTo 3, upTo 9]

def begun : LoopTeam :=
  opened.enter {} 0 ⟨.four, 2, (upTo 3).2⟩

/-- The team after a call of `__ompc_schedule_next_4`. -/
def askNext (s : LoopTeam) (tid : Nat) : LoopTeam :=
  match scheduleNextTeam .four tid s.records with
  | .ok (after, result) => s.ask tid after result
  | .error _ => s

theorem askNext_step (tid : Nat) (member : tid < s.teamSize) (inside : s.inside tid = true)
    (current : s.loops[s.entered tid - 1]? = some loop) (width : loop.width = .four)
    (served : (scheduleNextTeam .four tid s.records).isOk = true) :
    ∃ event, LoopStep runtime s event (s.askNext tid) := by
  unfold askNext
  rw [← width] at served ⊢
  cases called : scheduleNextTeam loop.width tid s.records with
  | ok pair => exact ⟨_, .ask member inside current called⟩
  | error fault => simp [called, Except.isOk, Except.toBool] at served

/-- Both come to the first loop, and one of them comes to its end. -/
def halfDone : LoopTeam :=
  ((begun.enter {} 1 ⟨.four, 2, (upTo 3).2⟩).askNext 0).askNext 0

/-- It comes to the second loop before the other asks in the first. -/
def overlapped : LoopTeam :=
  (halfDone.enter {} 0 ⟨.four, 2, (upTo 9).2⟩).askNext 1

/-- The other is then served from the second loop. -/
theorem not_isolated :
    ¬∀ s, Reachable Initial (fun s s' => ∃ event, LoopStep {} s event s') s → s.Isolated {} := by
  intro all
  have forked : Reachable Initial (fun s s' => ∃ event, LoopStep {} s event s') opened :=
    (Reachable.start beforeLoops_initial).tail
      ⟨_, .fork _ (fun _ _ => ⟨rfl, rfl⟩) (by decide) (by decide)⟩
  have both := (forked.tail ⟨.enter 0, .enter (by decide) rfl rfl⟩).tail
    ⟨.enter 1, .enter (by decide) rfl rfl⟩
  have first := both.tail (askNext_step 0 (by decide) rfl rfl rfl (by decide +kernel))
  have second := first.tail
    (askNext_step 0 (by decide +kernel) (by decide +kernel) rfl rfl (by decide +kernel))
  have next := second.tail ⟨.enter 0, .enter (by decide +kernel) (by decide +kernel) rfl⟩
  have last : Reachable Initial _ overlapped := next.tail
    (askNext_step 1 (by decide +kernel) (by decide +kernel) rfl rfl (by decide +kernel))
  have served := (all overlapped last 0 ⟨.four, 2, (upTo 3).2⟩ rfl).described
  have bounds : (overlapped.calls 0).all (fun record => record.before.loopUpperBound = 3) = true :=
    List.all_eq_true.mpr fun record isRecord =>
      decide_eq_true (served record isRecord).upper
  exact absurd bounds (by decide +kernel)

end LoopTeam

end OpenUH.Libopenmp.Scheduler
