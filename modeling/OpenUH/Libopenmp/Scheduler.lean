import Mathlib.Data.Rat.Defs
import Mathlib.Algebra.Order.Ring.Int

/-!
# The worksharing scheduler of the OpenMP runtime

The loop descriptor kept in `omp_team`, the per-thread counters kept in
`omp_v_thread`, and the functions `__ompc_scheduler_init_4/_8` and
`__ompc_schedule_next_4/_8` of `omp_runtime.c`.

The two widths share one definition over `OmpWidth`.  A value assigned to a
local of the function is wrapped to its width; sums and products commute with
the wrapping, so an expression built from them is wrapped once.  A section
under `schedule_lock` is one atomic step, and so is the whole call: what
stands outside the lock touches only the calling thread's own record.
-/

namespace OpenUH.Libopenmp.Scheduler

/-- `omp_sched_t`. -/
inductive OmpSched where
  | unknown
  | static
  | staticEven
  | dynamic
  | guided
  | runtime
  | orderedUnknown
  | orderedStatic
  | orderedStaticEven
  | orderedDynamic
  | orderedGuided
  | orderedRuntime
deriving DecidableEq, Repr

/-- Addition of `OMP_SCHED_ORDERED_GAP` to a schedule type below the gap. -/
def OmpSched.addOrderedGap : OmpSched → OmpSched
  | unknown => orderedUnknown
  | static => orderedStatic
  | staticEven => orderedStaticEven
  | dynamic => orderedDynamic
  | guided => orderedGuided
  | runtime => orderedRuntime
  | ordered => ordered

/-- `__ompc_is_ordered`. -/
def isOrdered : OmpSched → Bool
  | .orderedStaticEven => true
  | .orderedStatic => true
  | .orderedDynamic => true
  | .orderedGuided => true
  | .orderedRuntime => true
  | _ => false

/-- The fields of `omp_team` the scheduler uses. -/
structure OmpTeam where
  teamSize : Nat
  loopLowerBound : Int := 0
  loopUpperBound : Int := 0
  loopIncreament : Int := 0
  scheduleType : OmpSched := .unknown
  chunkSize : Int := 0
  scheduleCount : Int := 0
  orderedCount : Int := 0
  loopCount : Int := 0
deriving DecidableEq, Repr

/-- The fields of `omp_v_thread` the scheduler uses. -/
structure OmpVThread where
  scheduleCount : Int := 0
  orderedCount : Int := 0
  restIterCount : Int := 0
  loopCount : Int := 0
deriving DecidableEq, Repr

/-- A team and the records of its threads, by `global_tid`. -/
structure TeamRecords where
  team : OmpTeam
  threads : Nat → OmpVThread

/-- Replace the record of one thread. -/
def TeamRecords.setThread (records : TeamRecords) (tid : Nat) (thread : OmpVThread) : TeamRecords :=
  { records with
    threads := fun other =>
      if other = tid then thread else records.threads other }

@[simp]
theorem TeamRecords.setThread_self (records : TeamRecords) (tid : Nat) (thread : OmpVThread) :
    (records.setThread tid thread).threads tid = thread := by
  simp [setThread]

theorem TeamRecords.setThread_other (records : TeamRecords) {tid other : Nat}
    (distinct : other ≠ tid) (thread : OmpVThread) :
    (records.setThread tid thread).threads other = records.threads other := by
  simp [setThread, distinct]

/-- What tells the `_4` from the `_8` functions. -/
structure OmpWidth where
  bits : Nat
  sequentialResult : Bool
deriving DecidableEq, Repr

/-- The `_4` functions: `omp_int32` locals. -/
def OmpWidth.four : OmpWidth where
  bits := 32
  sequentialResult := true

/-- The `_8` functions: `omp_int64` locals; the sequential branch returns 0. -/
def OmpWidth.eight : OmpWidth where
  bits := 64
  sequentialResult := false

/-- Conversion of a value to a local of the function. -/
def OmpWidth.wrap (width : OmpWidth) (value : Int) : Int :=
  value.bmod (2 ^ width.bits)

/-- The values a local of the function can hold. -/
def OmpWidth.Fits (width : OmpWidth) (value : Int) : Prop :=
  -(2 ^ width.bits : Int) ≤ value * 2 ∧ value * 2 < 2 ^ width.bits

instance (width : OmpWidth) (value : Int) : Decidable (width.Fits value) :=
  inferInstanceAs (Decidable (_ ∧ _))

theorem OmpWidth.wrap_eq_of_fits {width : OmpWidth} {value : Int}
    (fits : width.Fits value) : width.wrap value = value := by
  unfold wrap
  apply Int.bmod_eq_of_le_mul_two
  · simpa using fits.1
  · simpa using fits.2

/-- `omp_exe_mode_t`: outside a parallel region, in a team, or nested. -/
inductive ExeMode where
  | sequential
  | normal
  | nested
deriving DecidableEq, Repr

/-! ## `__ompc_scheduler_init` -/

/-- The arguments of a worksharing loop. -/
structure LoopArguments where
  schedtype : OmpSched
  lower : Int
  upper : Int
  stride : Int
  chunk : Int
deriving DecidableEq, Repr

/-- The runtime defaults `__omp_rt_sched_type` and `__omp_rt_sched_size`. -/
structure RuntimeSchedule where
  schedType : OmpSched := .staticEven
  schedSize : Int := 1
deriving DecidableEq, Repr

/-- A `RUNTIME` schedule is replaced by the default one. -/
def resolveSchedule (runtime : RuntimeSchedule) (loop : LoopArguments) : LoopArguments :=
  match loop.schedtype with
  | .runtime =>
      { loop with
        schedtype := runtime.schedType
        chunk := runtime.schedSize }
  | .orderedRuntime =>
      { loop with
        schedtype := runtime.schedType.addOrderedGap
        chunk := runtime.schedSize }
  | _ => loop

/-- The initialization under the lock, by the first thread to arrive. -/
def OmpTeam.describe (team : OmpTeam) (loop : LoopArguments) : OmpTeam :=
  { team with
    loopLowerBound := loop.lower
    loopUpperBound := loop.upper
    loopIncreament := loop.stride
    scheduleType := loop.schedtype
    chunkSize := loop.chunk
    scheduleCount := 0
    orderedCount :=
      if isOrdered loop.schedtype then 0 else team.orderedCount
    loopCount := team.loopCount + 1 }

/-- The initialization of the root team, and of a team of one thread. -/
def OmpTeam.describeAlone (team : OmpTeam) (loop : LoopArguments) : OmpTeam :=
  { team with
    loopLowerBound := loop.lower
    loopUpperBound := loop.upper
    loopIncreament := loop.stride
    scheduleCount := 0 }

/-- `__ompc_scheduler_init` on the team of the calling thread. -/
def schedulerInitTeam (tid : Nat) (loop : LoopArguments) (records : TeamRecords) : TeamRecords :=
  let thread := { records.threads tid with scheduleCount := 0 }
  if records.team.teamSize = 1 then
    { records.setThread tid thread with
      team :=
        { records.team.describeAlone loop with
          orderedCount :=
            if isOrdered loop.schedtype then
              0
            else
              records.team.orderedCount } }
  else
    let counted := { thread with loopCount := thread.loopCount + 1 }
    if records.team.loopCount ≥ counted.loopCount then
      records.setThread tid counted
    else
      { records.setThread tid counted with
        team := records.team.describe loop }

/-- `__ompc_scheduler_init_4/_8`: the root team and the thread's own team. -/
def schedulerInit (runtime : RuntimeSchedule) (mode : ExeMode) (tid : Nat)
    (arguments : LoopArguments) (root own : TeamRecords) :
    TeamRecords × TeamRecords :=
  let loop := resolveSchedule runtime arguments
  match mode with
  | .sequential =>
      ({ root with team := root.team.describeAlone loop }, own)
  | _ => (root, schedulerInitTeam tid loop own)

/-! ## `__ompc_schedule_next` -/

/-- What a call stores through `plower`, `pupper` and `pstride`. -/
structure Chunk where
  lower : Int
  upper : Int
  stride : Int
deriving DecidableEq, Repr

/-- The value returned, and the stores, if the call makes them. -/
structure NextResult where
  again : Bool
  chunk : Option Chunk
deriving DecidableEq, Repr

/-- The call returns 0 and stores nothing. -/
def NextResult.noMore : NextResult where
  again := false
  chunk := none

/-- The locals `global_lower`, `global_upper`, `incr` and `chunk`. -/
structure LoopLocals where
  globalLower : Int
  globalUpper : Int
  incr : Int
  chunk : Int
deriving DecidableEq, Repr

/-- The descriptor as the function reads it into its locals. -/
def readLocals (width : OmpWidth) (team : OmpTeam) : LoopLocals where
  globalLower := width.wrap team.loopLowerBound
  globalUpper := width.wrap team.loopUpperBound
  incr := width.wrap team.loopIncreament
  chunk := width.wrap team.chunkSize

/-- `(global_upper - global_lower) / incr`, as the integer division does it. -/
def quotient (width : OmpWidth) (locals : LoopLocals) : Int :=
  width.wrap
    ((width.wrap (locals.globalUpper - locals.globalLower)).tdiv locals.incr)

/--
`trip_flag < 0`.  The floating quotient is nonzero for a nonzero difference
and keeps its sign, so the test is the one on the exact quotient.
-/
def tripFlagNegative (width : OmpWidth) (locals : LoopLocals) : Bool :=
  decide
    ((width.wrap (locals.globalUpper - locals.globalLower) : ℚ) /
      locals.incr < 0)

/-- The STATIC_EVEN branch, with or without the ordered fields. -/
def nextStaticEven (width : OmpWidth) (ordered : Bool) (tid : Nat)
    (team : OmpTeam) (thread : OmpVThread) : OmpVThread × NextResult :=
  if thread.scheduleCount ≠ 0 then
    (thread, .noMore)
  else
    let locals := readLocals width team
    let tripCount := width.wrap (quotient width locals + 1)
    let adjustment : Int := if tripCount.tmod team.teamSize = 0 then -1 else 0
    let blockSize := width.wrap ((tripCount.tdiv team.teamSize + adjustment) * locals.incr)
    let stride :=
      width.wrap
        ((tripCount.tdiv team.teamSize + adjustment + 1) * locals.incr)
    let myLower := width.wrap (locals.globalLower + tid * stride)
    let myUpper := width.wrap (myLower + blockSize)
    let served := { thread with scheduleCount := 1 }
    (if ordered then
        { served with
          orderedCount := tid
          restIterCount :=
            width.wrap
              ((width.wrap (myUpper - myLower)).tdiv locals.incr + 1) }
      else
        served,
      { again :=
          if tripCount ≥ team.teamSize then
            true
          else
            decide ((tid : Int) ≤ width.wrap (tripCount - 1))
        chunk :=
          some { lower := myLower, upper := myUpper, stride := locals.incr } })

/-- The STATIC branch, with or without the ordered fields. -/
def nextStatic (width : OmpWidth) (ordered : Bool) (tid : Nat)
    (team : OmpTeam) (thread : OmpVThread) : OmpVThread × NextResult :=
  let locals := readLocals width team
  let tripCount := width.wrap (quotient width locals + 1)
  let blockSize := width.wrap ((locals.chunk - 1) * locals.incr)
  let stride := width.wrap (locals.chunk * locals.incr)
  let myTrip :=
    width.wrap
      (thread.scheduleCount * locals.chunk * team.teamSize + tid * locals.chunk + 1)
  if myTrip > tripCount then
    (thread, .noMore)
  else
    let adjustment := width.wrap (thread.scheduleCount * stride * team.teamSize)
    let served := { thread with scheduleCount := thread.scheduleCount + 1 }
    let myLower := width.wrap (locals.globalLower + tid * stride + adjustment)
    let myUpper := width.wrap (myLower + blockSize)
    (if ordered then
        { served with
          orderedCount := thread.scheduleCount * team.teamSize + tid
          restIterCount := locals.chunk }
      else
        served,
      { again := true
        chunk :=
          some { lower := myLower, upper := myUpper, stride := locals.incr } })

/-- The chunk of the GUIDED branches, at least the requested one. -/
def guidedChunk (width : OmpWidth) (divisor : Int) (locals : LoopLocals) : Int :=
  let tripCount := width.wrap (quotient width locals + 1)
  let blockSize := tripCount.tdiv divisor
  if blockSize > locals.chunk then blockSize else locals.chunk

/-- The iterations the four DYNAMIC and GUIDED branches hand out at a call. -/
def claimedChunk (width : OmpWidth) (team : OmpTeam) : Int :=
  let locals := readLocals width team
  match team.scheduleType with
  | .guided => guidedChunk width ((2 * team.teamSize : Int).bmod (2 ^ 32)) locals
  | .orderedGuided => guidedChunk width team.teamSize locals
  | _ => locals.chunk

/--
The DYNAMIC and GUIDED branches: claim the next iterations under the lock.
The ordered ones also take a number from `schedule_count`.
-/
def nextClaimed (width : OmpWidth) (team : OmpTeam) (thread : OmpVThread) :
    OmpTeam × OmpVThread × NextResult :=
  let locals := readLocals width team
  if tripFlagNegative width locals then
    (team, thread, .noMore)
  else
    let chunk := claimedChunk width team
    let myLower := locals.globalLower
    let myUpper := width.wrap (myLower + (chunk - 1) * locals.incr)
    let claimed :=
      { team with
        loopLowerBound := width.wrap (myLower + chunk * locals.incr) }
    let result : NextResult :=
      { again := true
        chunk :=
          some { lower := myLower, upper := myUpper, stride := locals.incr } }
    if isOrdered team.scheduleType then
      ({ claimed with scheduleCount := team.scheduleCount + 1 },
        { thread with
          orderedCount := width.wrap team.scheduleCount
          restIterCount := chunk },
        result)
    else
      (claimed, thread, result)

/-- The `switch` on the schedule type; an unknown type ends the program. -/
def nextBySchedule (width : OmpWidth) (tid : Nat) (team : OmpTeam)
    (thread : OmpVThread) : Except String (OmpTeam × OmpVThread × NextResult) :=
  match team.scheduleType with
  | .staticEven =>
      .ok (team, nextStaticEven width false tid team thread)
  | .static => .ok (team, nextStatic width false tid team thread)
  | .orderedStaticEven =>
      .ok (team, nextStaticEven width true tid team thread)
  | .orderedStatic => .ok (team, nextStatic width true tid team thread)
  | .guided => .ok (nextClaimed width team thread)
  | .dynamic => .ok (nextClaimed width team thread)
  | .orderedDynamic => .ok (nextClaimed width team thread)
  | .orderedGuided => .ok (nextClaimed width team thread)
  | _ => .error " unknown schedule type specified"

/-- The whole loop at once, the first time it is asked for. -/
def nextAlone (width : OmpWidth) (result : Bool) (team : OmpTeam)
    (thread : OmpVThread) : OmpTeam × OmpVThread × NextResult :=
  if team.scheduleCount ≠ 0 then
    (team, thread, .noMore)
  else
    ({ team with scheduleCount := 1 },
      { thread with orderedCount := 0 },
      { again := result
        chunk :=
          some
            { lower := width.wrap team.loopLowerBound
              upper := width.wrap team.loopUpperBound
              stride := width.wrap team.loopIncreament } })

/-- Store what a call leaves in the team and in the caller's record. -/
def TeamRecords.store (records : TeamRecords) (tid : Nat)
    (after : OmpTeam × OmpVThread × NextResult) : TeamRecords × NextResult :=
  ({ records.setThread tid after.2.1 with team := after.1 }, after.2.2)

/-- `__ompc_schedule_next` on the team of the calling thread. -/
def scheduleNextTeam (width : OmpWidth) (tid : Nat) (records : TeamRecords) :
    Except String (TeamRecords × NextResult) :=
  if records.team.teamSize = 1 then
    .ok (records.store tid
      (nextAlone width true records.team (records.threads tid)))
  else
    (nextBySchedule width tid records.team (records.threads tid)).map
      (records.store tid)

/-- The body the two widths share: the root team and the thread's own team. -/
def scheduleNext (width : OmpWidth) (mode : ExeMode) (tid : Nat) (root own : TeamRecords) :
    Except String (TeamRecords × TeamRecords × NextResult) :=
  match mode with
  | .sequential =>
      let after :=
        root.store 0
          (nextAlone width width.sequentialResult root.team (root.threads 0))
      .ok (after.1, own, after.2)
  | _ => (scheduleNextTeam width tid own).map fun after => (root, after)

/-- `__ompc_schedule_next_4`. -/
def scheduleNext4 (mode : ExeMode) (tid : Nat) (root own : TeamRecords) :
    Except String (TeamRecords × TeamRecords × NextResult) :=
  scheduleNext .four mode tid root own

/-- `__ompc_schedule_next_8`. -/
def scheduleNext8 (mode : ExeMode) (tid : Nat) (root own : TeamRecords) :
    Except String (TeamRecords × TeamRecords × NextResult) :=
  scheduleNext .eight mode tid root own

end OpenUH.Libopenmp.Scheduler
