import OpenUH.Libopenmp.Scheduler

/-!
# Collapsed loops

`__ompc_collapsed_loop_info_init`, `__ompc_collapse_init` and
`__ompc_collapse_next` of `omp_runtime.c`.  The loops of a nest are numbered
through as one loop from 0 to the product of their lengths; a chunk of that
loop is decoded into a pair of index vectors.

As in the scheduler of single loops, a value that is assigned is wrapped to
its type, and a sum or product is wrapped once.
-/

namespace OpenUH.Libopenmp.Collapse

open Libopenmp.Scheduler

/-- Conversion of a value to the unsigned type of a width. -/
def unsigned (width : OmpWidth) (value : Int) : Nat :=
  (value % 2 ^ width.bits).toNat

/-- The arguments for one loop of the nest. -/
structure LoopLevel where
  is64bit : Bool
  lower : Int
  upper : Int
  stride : Int
deriving DecidableEq, Repr

/-- `omp_loop_info`. -/
structure OmpLoopInfo where
  is64bit : Bool
  lowerBound : Int
  upperBound : Int
  incr : Int
deriving DecidableEq, Repr

/-- The width of the index of a loop. -/
def indexWidth (is64bit : Bool) : OmpWidth :=
  if is64bit then .eight else .four

/-- A team with the fields for collapsed loops. -/
structure CollapseTeam extends OmpTeam where
  collapseCount : Nat := 0
  loopInfoSize : Nat := 0
  loopInfo : List OmpLoopInfo := []
  loopLenv : List Nat := []
deriving DecidableEq, Repr

/-! ## `__ompc_collapsed_loop_info_init` -/

/-- `loop_info_size` is doubled until the loops fit in. -/
def doubleSize (collapseCount : Nat) : Nat → Nat → Nat
  | 0, size => size
  | fuel + 1, size =>
      if collapseCount > size then
        doubleSize collapseCount fuel (size * 2)
      else
        size

/-- The size of the arrays for a nest. -/
def growLoopInfo (collapseCount loopInfoSize : Nat) : Nat :=
  if collapseCount > loopInfoSize then
    doubleSize collapseCount collapseCount
      (if loopInfoSize = 0 then 4 else loopInfoSize)
  else
    loopInfoSize

/--
The arguments of a loop are read through the unsigned type of their width into
fields of 64 bits, the increment through the signed type.
-/
def readLevel (level : LoopLevel) : OmpLoopInfo :=
  if level.is64bit then
    { is64bit := true
      lowerBound := OmpWidth.eight.wrap (unsigned .eight level.lower)
      upperBound := OmpWidth.eight.wrap (unsigned .eight level.upper)
      incr := OmpWidth.eight.wrap level.stride }
  else
    { is64bit := false
      lowerBound := unsigned .four level.lower
      upperBound := unsigned .four level.upper
      incr := OmpWidth.four.wrap level.stride }

/-- The quotient of a distance and a step, plus one, in an unsigned type. -/
def unsignedLen (width : OmpWidth) (distance step : Int) : Nat :=
  unsigned width (unsigned width distance / unsigned width step + 1 : Nat)

/-- The entry of a loop in `loop_lenv`. -/
def loopLen (info : OmpLoopInfo) : Nat :=
  let width := indexWidth info.is64bit
  if info.incr > 0 then
    if info.upperBound ≥ info.lowerBound then
      unsignedLen width (info.upperBound - info.lowerBound) info.incr
    else
      0
  else
    if info.upperBound ≤ info.lowerBound then
      unsignedLen width (info.lowerBound - info.upperBound) (-info.incr)
    else
      0

/-- `iter_count`. -/
def iterCount (loopLenv : List Nat) : Nat :=
  loopLenv.foldl (fun count len => unsigned .eight (count * len : Nat)) 1

/-- `__ompc_collapsed_loop_info_init`. -/
def collapsedLoopInfoInit (team : CollapseTeam) (nest : List LoopLevel) : CollapseTeam :=
  let loopInfo := nest.map readLevel
  let loopLenv := loopInfo.map loopLen
  { team with
    collapseCount := nest.length
    loopInfoSize := growLoopInfo nest.length team.loopInfoSize
    loopInfo := loopInfo
    loopLenv := loopLenv
    loopLowerBound := 0
    loopUpperBound := OmpWidth.eight.wrap (iterCount loopLenv) }

/-! ## `__ompc_collapse_init` -/

/-- A team and the records of its threads, by `global_tid`. -/
structure CollapseRecords where
  team : CollapseTeam
  threads : Nat → OmpVThread

/-- Replace the record of one thread. -/
def CollapseRecords.setThread (records : CollapseRecords) (tid : Nat)
    (thread : OmpVThread) : CollapseRecords :=
  { records with
    threads := fun other =>
      if other = tid then thread else records.threads other }

@[simp]
theorem CollapseRecords.setThread_team (records : CollapseRecords) (tid : Nat)
    (thread : OmpVThread) :
    (records.setThread tid thread).team = records.team := rfl

@[simp]
theorem CollapseRecords.setThread_self (records : CollapseRecords) (tid : Nat)
    (thread : OmpVThread) :
    (records.setThread tid thread).threads tid = thread := by
  simp [setThread]

theorem CollapseRecords.setThread_other (records : CollapseRecords)
    {tid other : Nat} (distinct : other ≠ tid) (thread : OmpVThread) :
    (records.setThread tid thread).threads other = records.threads other := by
  simp [setThread, distinct]

/-- The arguments of `__ompc_collapse_init`. -/
structure CollapseArguments where
  schedtype : OmpSched
  chunk : Int
  nest : List LoopLevel
deriving DecidableEq, Repr

/-- A `RUNTIME` schedule is replaced by the default one. -/
def resolveCollapse (runtime : RuntimeSchedule)
    (arguments : CollapseArguments) : CollapseArguments :=
  match arguments.schedtype with
  | .runtime =>
      { arguments with
        schedtype := runtime.schedType
        chunk := runtime.schedSize }
  | .orderedRuntime =>
      { arguments with
        schedtype := runtime.schedType.addOrderedGap
        chunk := runtime.schedSize }
  | _ => arguments

/-- The initialization under the lock, by the first thread to arrive. -/
def CollapseTeam.describe (team : CollapseTeam) (arguments : CollapseArguments) : CollapseTeam :=
  let described :=
    { team with
      scheduleType := arguments.schedtype
      chunkSize := arguments.chunk
      scheduleCount := 0
      orderedCount :=
        if isOrdered arguments.schedtype then 0 else team.orderedCount
      loopCount := team.loopCount + 1 }
  collapsedLoopInfoInit described arguments.nest

/-- `__ompc_collapse_init` on the team of the calling thread. -/
def collapseInitTeam (tid : Nat) (arguments : CollapseArguments)
    (records : CollapseRecords) : CollapseRecords :=
  let thread := { records.threads tid with scheduleCount := 0 }
  if records.team.teamSize = 1 then
    { records.setThread tid thread with
      team :=
        { collapsedLoopInfoInit records.team arguments.nest with
          scheduleCount := 0
          orderedCount :=
            if isOrdered arguments.schedtype then
              0
            else
              records.team.orderedCount } }
  else
    let counted := { thread with loopCount := thread.loopCount + 1 }
    if records.team.loopCount ≥ counted.loopCount then
      records.setThread tid counted
    else
      { records.setThread tid counted with
        team := records.team.describe arguments }

/-- `__ompc_collapse_init`: the root team and the thread's own team. -/
def collapseInit (runtime : RuntimeSchedule) (mode : ExeMode) (tid : Nat)
    (arguments : CollapseArguments) (root own : CollapseRecords) :
    CollapseRecords × CollapseRecords :=
  let resolved := resolveCollapse runtime arguments
  match mode with
  | .sequential =>
      ({ root with
          team :=
            { collapsedLoopInfoInit root.team resolved.nest with
              scheduleCount := 0 } },
        own)
  | _ => (root, collapseInitTeam tid resolved own)

/-! ## `__ompc_collapse_next` -/

/-- The value of the index of a loop at one of its digits. -/
def OmpLoopInfo.index (info : OmpLoopInfo) (digit : Nat) : Int :=
  (indexWidth info.is64bit).wrap (info.lowerBound + info.incr * digit)

/-- What a call stores through its pointers, from the innermost loop on. -/
abbrev Stores := List (Int × Int)

/-- The decoding of a chunk, from the innermost loop to the outermost. -/
def storeChunk : List (OmpLoopInfo × Nat) → Nat → Nat → Stores
  | [], _, _ => []
  | [(info, _)], myLower, myUpper =>
      [(info.index myLower, info.index myUpper)]
  | (info, len) :: outer, myLower, myUpper =>
      (info.index (myLower % len), info.index (myUpper % len)) ::
        storeChunk outer (myLower / len) (myUpper / len)

/-- The bounds of the whole nest, for a call that is alone. -/
def storeFullLoop : List (OmpLoopInfo × Nat) → Stores
  | [] => []
  | [(info, len)] => [(info.index 0, info.index len)]
  | (info, _) :: outer => (info.index 0, info.index 0) :: storeFullLoop outer

/-- The loops of a team, from the innermost to the outermost. -/
def CollapseTeam.levels (team : CollapseTeam) : List (OmpLoopInfo × Nat) :=
  ((team.loopInfo.zip team.loopLenv).take team.collapseCount).reverse

/-- The value returned, and the stores, if the call makes them. -/
structure CollapseResult where
  result : Bool
  stores : Option Stores
deriving DecidableEq, Repr

/-- The call returns 0 and stores nothing. -/
def CollapseResult.noMore : CollapseResult where
  result := false
  stores := none

/-- The call returns 1 and stores the chunk. -/
def CollapseTeam.chunk (team : CollapseTeam) (myLower myUpper : Nat) :
    CollapseResult where
  result := true
  stores := some (storeChunk team.levels myLower myUpper)

/-- The local `iter_count`. -/
def CollapseTeam.iterCount (team : CollapseTeam) : Nat :=
  unsigned .eight team.loopUpperBound

/-- `mark0` and `mark1`, in unsigned integers. -/
def mark (team : CollapseTeam) (position : Nat) : Nat :=
  let remainder := unsigned .four (team.iterCount % team.teamSize : Nat)
  unsigned .four (remainder * position : Nat) / team.teamSize

/-- Where the block of a thread begins in the STATIC_EVEN branches. -/
def evenBound (team : CollapseTeam) (position : Nat) : Nat :=
  unsigned .eight
    (team.iterCount / team.teamSize * position + mark team position : Nat)

/-- The STATIC_EVEN branch, with or without the ordered fields. -/
def nextStaticEven (ordered : Bool) (tid : Nat) (team : CollapseTeam)
    (thread : OmpVThread) : OmpVThread × CollapseResult :=
  if thread.scheduleCount ≠ 0 then
    (thread, .noMore)
  else
    let myLower := evenBound team tid
    let myUpper := evenBound team (tid + 1)
    let served := { thread with scheduleCount := 1 }
    (if ordered then
        { served with
          orderedCount := tid
          restIterCount := OmpWidth.eight.wrap ((myUpper : Int) - myLower) }
      else
        served,
      if myLower ≠ myUpper then team.chunk myLower myUpper else .noMore)

/-- `my_lower` of the STATIC branches. -/
def staticLower (tid : Nat) (team : CollapseTeam) (thread : OmpVThread) : Nat :=
  unsigned .eight
    (thread.scheduleCount * team.chunkSize * team.teamSize + tid * team.chunkSize)

/-- The end of a chunk, cut at the last iteration. -/
def chunkEnd (team : CollapseTeam) (myLower : Nat) (chunk : Int) : Nat :=
  let myUpper := unsigned .eight (myLower + chunk)
  if myUpper > team.iterCount then team.iterCount else myUpper

/-- The STATIC branch, with or without the ordered fields. -/
def nextStatic (ordered : Bool) (tid : Nat) (team : CollapseTeam)
    (thread : OmpVThread) : OmpVThread × CollapseResult :=
  let myLower := staticLower tid team thread
  if myLower ≥ team.iterCount then
    (thread, .noMore)
  else
    let myUpper := chunkEnd team myLower team.chunkSize
    let served := { thread with scheduleCount := thread.scheduleCount + 1 }
    (if ordered then
        { served with
          orderedCount := thread.scheduleCount * team.teamSize + tid
          restIterCount := OmpWidth.eight.wrap ((myUpper : Int) - myLower) }
      else
        served,
      team.chunk myLower myUpper)

/-- The chunk of the GUIDED branches, at least the requested one. -/
def guidedChunk (team : CollapseTeam) (myLower : Nat) : Int :=
  let rest := unsigned .eight (team.loopUpperBound - myLower)
  let divisor := unsigned .eight (OmpWidth.four.wrap (2 * team.teamSize))
  let chunk := OmpWidth.eight.wrap (rest / divisor : Nat)
  if chunk < team.chunkSize then team.chunkSize else chunk

/-- The iterations the four DYNAMIC and GUIDED branches hand out at a call. -/
def claimedChunk (team : CollapseTeam) (myLower : Nat) : Int :=
  match team.scheduleType with
  | .guided => guidedChunk team myLower
  | .orderedGuided => guidedChunk team myLower
  | _ => team.chunkSize

/--
The DYNAMIC and GUIDED branches: claim the next iterations under the lock.
The ordered ones also take a number from `schedule_count`.
-/
def nextClaimed (team : CollapseTeam) (thread : OmpVThread) :
    CollapseTeam × OmpVThread × CollapseResult :=
  let myLower := unsigned .eight team.loopLowerBound
  if myLower ≥ team.iterCount then
    (team, thread, .noMore)
  else
    let myUpper := chunkEnd team myLower (claimedChunk team myLower)
    let nextLower := OmpWidth.eight.wrap myUpper
    if isOrdered team.scheduleType then
      ({ team with
          loopLowerBound := nextLower
          scheduleCount := team.scheduleCount + 1 },
        { thread with
          orderedCount := team.scheduleCount
          restIterCount := OmpWidth.eight.wrap ((myUpper : Int) - myLower) },
        team.chunk myLower myUpper)
    else
      ({ team with loopLowerBound := nextLower }, thread,
        team.chunk myLower myUpper)

/-- The `switch` on the schedule type; an unknown type ends the program. -/
def nextBySchedule (tid : Nat) (team : CollapseTeam) (thread : OmpVThread) :
    Except String (CollapseTeam × OmpVThread × CollapseResult) :=
  match team.scheduleType with
  | .staticEven => .ok (team, nextStaticEven false tid team thread)
  | .static => .ok (team, nextStatic false tid team thread)
  | .dynamic => .ok (nextClaimed team thread)
  | .guided => .ok (nextClaimed team thread)
  | .orderedStaticEven => .ok (team, nextStaticEven true tid team thread)
  | .orderedStatic => .ok (team, nextStatic true tid team thread)
  | .orderedDynamic => .ok (nextClaimed team thread)
  | .orderedGuided => .ok (nextClaimed team thread)
  | _ => .error " unknown schedule type specified"

/-- The whole nest at once, the first time it is asked for. -/
def nextAlone (team : CollapseTeam) (thread : OmpVThread) :
    CollapseTeam × OmpVThread × CollapseResult :=
  if team.scheduleCount ≠ 0 then
    (team, thread, .noMore)
  else
    ({ team with scheduleCount := 1 },
      { thread with orderedCount := 0 },
      { result := true
        stores := some (storeFullLoop team.levels) })

/-- Store what a call leaves in the team and in the caller's record. -/
def CollapseRecords.store (records : CollapseRecords) (tid : Nat)
    (after : CollapseTeam × OmpVThread × CollapseResult) :
    CollapseRecords × CollapseResult :=
  ({ records.setThread tid after.2.1 with team := after.1 }, after.2.2)

/-- `__ompc_collapse_next` on the team of the calling thread. -/
def collapseNextTeam (tid : Nat) (records : CollapseRecords) :
    Except String (CollapseRecords × CollapseResult) :=
  if records.team.teamSize = 1 then
    .ok (records.store tid (nextAlone records.team (records.threads tid)))
  else
    (nextBySchedule tid records.team (records.threads tid)).map
      (records.store tid)

/-- `__ompc_collapse_next`: the root team and the thread's own team. -/
def collapseNext (mode : ExeMode) (tid : Nat) (root own : CollapseRecords) :
    Except String (CollapseRecords × CollapseRecords × CollapseResult) :=
  match mode with
  | .sequential =>
      let after := root.store 0 (nextAlone root.team (root.threads 0))
      .ok (after.1, own, after.2)
  | _ => (collapseNextTeam tid own).map fun after => (root, after)

end OpenUH.Libopenmp.Collapse
