import OpenUH.Foundation.Allotment
import OpenUH.Foundation.Transition
import OpenUH.Libopenmp.CollapsedNest

/-!
# The chunks of a collapsed nest

The threads of a team enter a collapsed nest and ask for chunks in any order.
Where no sum or product of a call overflows, the chunks handed out are disjoint
and in the end cover the nest.
-/

namespace OpenUH.Libopenmp.Collapse

open Foundation
open Foundation.Transition
open Foundation.Progression
open Libopenmp.Scheduler

/-! ## Runs of a team -/

/--
The records of a team, which threads have called `__ompc_collapse_init` and
which have been told that there is no more, and what the other calls stored.
-/
structure CollapseRun where
  records : CollapseRecords
  entered : Nat → Bool
  ended : Nat → Bool
  returned : List Stores

/-- A call of one thread. -/
inductive CollapseMove where
  | init (tid : Nat)
  | next (tid : Nat)
deriving DecidableEq

/-- A thread enters the nest once, and asks for chunks after that. -/
def CollapseRun.move (arguments : CollapseArguments) (run : CollapseRun) :
    CollapseMove → Option CollapseRun
  | .init tid =>
      if tid < run.records.team.teamSize ∧ run.entered tid = false then
        some
          { run with
            records := collapseInitTeam tid arguments run.records
            entered := Function.update run.entered tid true }
      else
        none
  | .next tid =>
      if tid < run.records.team.teamSize ∧ run.entered tid = true then
        match collapseNextTeam tid run.records with
        | .ok (records, result) =>
            some
              { run with
                records := records
                ended :=
                  if result.result then
                    run.ended
                  else
                    Function.update run.ended tid true
                returned := run.returned ++ result.stores.toList }
        | .error _ => none
      else
        none

/-- The first thread of a team that enters the nest together has entered. -/
def CollapseInitial (arguments : CollapseArguments) (run : CollapseRun) : Prop :=
  ∃ (before : CollapseRecords) (first : Nat),
    1 < before.team.teamSize ∧ before.team.teamSize < 2 ^ 31 ∧
      first < before.team.teamSize ∧
      (∀ tid, (before.threads tid).loopCount = before.team.loopCount) ∧
      run =
        { records := collapseInitTeam first arguments before
          entered := fun tid => decide (tid = first)
          ended := fun _ => false
          returned := [] }

/-! ## What the team should do -/

/-- The points of a half-open range of vectors. -/
def Covers (nest : List LoopLevel) (stores : Stores) (point : List Int) : Prop :=
  ¬ NestBefore nest point (stores.map Prod.fst).reverse ∧
    NestBefore nest point (stores.map Prod.snd).reverse

/-- The claim on the chunks of a nest, in one state. -/
structure HandsOut (nest : List LoopLevel) (run : CollapseRun) : Prop where
  lengths : run.records.team.loopLenv.prod = (points nest).ncard
  disjoint : run.returned.Pairwise fun earlier later =>
    ∀ point ∈ points nest,
      ¬ (Covers nest earlier point ∧ Covers nest later point)
  complete :
    (∀ tid < run.records.team.teamSize, run.ended tid = true) →
      ∀ point ∈ points nest, ∃ stores ∈ run.returned,
        Covers nest stores point

/-! ## The calls that do not overflow -/

/-- How the branches of the `switch` find the next chunk. -/
inductive ScheduleKind where
  | even
  | strided
  | claimed
deriving DecidableEq

/-- The kind of a schedule type. -/
def scheduleKind : OmpSched → Option ScheduleKind
  | .staticEven | .orderedStaticEven => some .even
  | .static | .orderedStatic => some .strided
  | .dynamic | .guided | .orderedDynamic | .orderedGuided => some .claimed
  | _ => none

/-- The first number of the next chunk of a thread, if it is not wrapped. -/
def stridedFirst (records : CollapseRecords) (tid : Nat) : Int :=
  ((records.threads tid).scheduleCount * records.team.teamSize + tid) * records.team.chunkSize

/--
The sums and products of the next call of a thread fit in: those of 32 bits in
the STATIC_EVEN branches, those of 64 bits in the others, as far as they
decide on the chunk.
-/
def Room (records : CollapseRecords) (tid : Nat) : Prop :=
  let team := records.team
  match scheduleKind team.scheduleType with
  | some .even => team.iterCount % team.teamSize * (tid + 1) < 2 ^ 32
  | some .strided =>
      0 < team.chunkSize ∧
        (stridedFirst records tid < team.iterCount →
          stridedFirst records tid + team.chunkSize < 2 ^ 64) ∧
        (team.iterCount ≤ stridedFirst records tid →
          team.iterCount ≤ stridedFirst records tid % 2 ^ 64)
  | some .claimed =>
      0 < team.chunkSize ∧
        (unsigned .eight team.loopLowerBound < team.iterCount →
          unsigned .eight team.loopLowerBound + team.chunkSize < 2 ^ 64)
  | none => True

/-- A call of a thread of which the condition is asked. -/
def Allowed (run : CollapseRun) : CollapseMove → Prop
  | .init _ => True
  | .next tid => Room run.records tid

instance (records : CollapseRecords) (tid : Nat) : Decidable (Room records tid) :=
  match kind : scheduleKind records.team.scheduleType with
  | some .even =>
      decidable_of_iff
        (records.team.iterCount % records.team.teamSize * (tid + 1) < 2 ^ 32)
        (by simp only [Room, kind])
  | some .strided =>
      decidable_of_iff
        (0 < records.team.chunkSize ∧
          (stridedFirst records tid < records.team.iterCount →
            stridedFirst records tid + records.team.chunkSize < 2 ^ 64) ∧
          (records.team.iterCount ≤ stridedFirst records tid →
            records.team.iterCount ≤ stridedFirst records tid % 2 ^ 64))
        (by simp only [Room, kind])
  | some .claimed =>
      decidable_of_iff
        (0 < records.team.chunkSize ∧
          (unsigned .eight records.team.loopLowerBound <
            records.team.iterCount →
              unsigned .eight records.team.loopLowerBound + records.team.chunkSize < 2 ^ 64))
        (by simp only [Room, kind])
  | none => isTrue (by simp only [Room, kind])

instance (run : CollapseRun) (move : CollapseMove) : Decidable (Allowed run move) :=
  match move with
  | .init _ => isTrue trivial
  | .next tid => inferInstanceAs (Decidable (Room run.records tid))

/-- A call whose sums and products fit in. -/
def RoomStep (arguments : CollapseArguments) (before after : CollapseRun) : Prop :=
  ∃ move, Allowed before move ∧ before.move arguments move = some after

/-- Any call. -/
def CollapseStep (arguments : CollapseArguments) (before after : CollapseRun) : Prop :=
  ∃ move, before.move arguments move = some after

/-! ## Which numbers are taken -/

/-- Where the block of a thread begins. -/
def evenStart (count size position : Nat) : Nat :=
  count / size * position + count % size * position / size

/-- A number has been handed out, by the counters of the team. -/
def Taken (run : CollapseRun) (number : Nat) : Prop :=
  let team := run.records.team
  match scheduleKind team.scheduleType with
  | some .even => ∃ tid < team.teamSize,
      run.entered tid = true ∧
        (run.records.threads tid).scheduleCount ≠ 0 ∧
        InRange (evenStart team.iterCount team.teamSize tid,
          evenStart team.iterCount team.teamSize (tid + 1)) number
  | some .strided =>
      let block := number / team.chunkSize.toNat
      let tid := block % team.teamSize
      run.entered tid = true ∧
        (block / team.teamSize : Nat) < (run.records.threads tid).scheduleCount
  | some .claimed => number < unsigned .eight team.loopLowerBound
  | none => False

/-- A thread has nothing more to come. -/
def Dry (run : CollapseRun) (tid : Nat) : Prop :=
  let team := run.records.team
  match scheduleKind team.scheduleType with
  | some .even => (run.records.threads tid).scheduleCount ≠ 0
  | some .strided => team.iterCount ≤ stridedFirst run.records tid
  | some .claimed => team.iterCount ≤ unsigned .eight team.loopLowerBound
  | none => False

/-- The fields of a team that a call leaves alone. -/
structure SamePlan (team team' : CollapseTeam) : Prop where
  teamSize : team'.teamSize = team.teamSize
  scheduleType : team'.scheduleType = team.scheduleType
  chunkSize : team'.chunkSize = team.chunkSize
  loopCount : team'.loopCount = team.loopCount
  loopUpperBound : team'.loopUpperBound = team.loopUpperBound
  levels : team'.levels = team.levels
  loopLenv : team'.loopLenv = team.loopLenv

/-- What every call keeps. -/
structure CollapseKeeps (arguments : CollapseArguments) (run : CollapseRun)
    (ranges : List (Nat × Nat)) : Prop where
  teamSize : 1 < run.records.team.teamSize ∧ run.records.team.teamSize < 2 ^ 31
  scheduleType : run.records.team.scheduleType = arguments.schedtype
  chunkSize : run.records.team.chunkSize = arguments.chunk
  decoded : run.records.team.levels = levels arguments.nest
  loopLenv : run.records.team.loopLenv = lengths arguments.nest
  loopUpperBound : run.records.team.loopUpperBound =
    OmpWidth.eight.wrap (iterCount (lengths arguments.nest))
  loopCount : ∀ tid, (run.records.threads tid).loopCount +
    (if run.entered tid then 0 else 1) = run.records.team.loopCount
  scheduleCount : ∀ tid, run.entered tid = true → 0 ≤ (run.records.threads tid).scheduleCount
  returned : run.returned = ranges.map fun range =>
    storeChunk (levels arguments.nest) range.1 range.2
  allotted : Allotted (Taken run) (iterCount (lengths arguments.nest)) ranges
  ended : ∀ tid, run.ended tid = true → run.entered tid = true ∧ Dry run tid

variable {arguments : CollapseArguments} {run run' : CollapseRun}
  {ranges ranges' : List (Nat × Nat)} {tid : Nat}

theorem unsigned_wrap (value : Int) :
    unsigned .eight (OmpWidth.eight.wrap value) = unsigned .eight value := by
  unfold unsigned OmpWidth.wrap
  have modulus : (2 : Int) ^ OmpWidth.eight.bits = ((2 ^ OmpWidth.eight.bits : Nat) : Int) := rfl
  rw [modulus, Int.bmod_emod]

theorem unsigned_of_lt {value : Nat} (small : value < 2 ^ 64) : unsigned .eight value = value := by
  apply Int.ofNat_inj.1
  rw [cast_unsigned]
  exact Int.emod_eq_of_lt (Int.natCast_nonneg _) (by exact_mod_cast small)

theorem iterCount_lt (loopLenv : List Nat) : iterCount loopLenv < 2 ^ 64 := by
  rw [iterCount_eq]
  exact Nat.mod_lt _ (by positivity)

/-! ## Entering the nest -/

/-- A thread that finds the nest described only counts itself. -/
theorem collapseInitTeam_again {records : CollapseRecords} (many : records.team.teamSize ≠ 1)
    (described : (records.threads tid).loopCount + 1 = records.team.loopCount) :
    collapseInitTeam tid arguments records =
      records.setThread tid
        { records.threads tid with
          scheduleCount := 0
          loopCount := (records.threads tid).loopCount + 1 } := by
  unfold collapseInitTeam
  simp only [if_neg many, described, ge_iff_le, le_refl, if_true]

/-- The first thread describes it. -/
theorem collapseInitTeam_first {records : CollapseRecords} (many : records.team.teamSize ≠ 1)
    (behind : (records.threads tid).loopCount = records.team.loopCount) :
    collapseInitTeam tid arguments records =
      { records.setThread tid
          { records.threads tid with
            scheduleCount := 0
            loopCount := (records.threads tid).loopCount + 1 } with
        team := records.team.describe arguments } := by
  unfold collapseInitTeam
  have behind' : ¬ records.team.loopCount ≥ records.team.loopCount + 1 := by
    omega
  simp only [if_neg many, behind, if_neg behind']

theorem CollapseInitial.keeps (initial : CollapseInitial arguments run) :
    CollapseKeeps arguments run [] := by
  obtain ⟨before, first, several, bounded, isThread, together, rfl⟩ := initial
  have many : before.team.teamSize ≠ 1 := by omega
  have records := @collapseInitTeam_first arguments first before many (together first)
  rw [records]
  constructor
  case teamSize => exact ⟨several, bounded⟩
  case loopCount =>
    intro tid
    by_cases isFirst : tid = first
    · subst isFirst
      simp [CollapseTeam.describe, collapsedLoopInfoInit, together]
    · simp [CollapseTeam.describe, collapsedLoopInfoInit, together, isFirst,
        CollapseRecords.setThread]
  case scheduleCount =>
    intro tid isFirst
    rw [decide_eq_true_eq] at isFirst
    simp [isFirst]
  case scheduleType => rfl
  case chunkSize => rfl
  case decoded =>
    simp only [CollapseTeam.describe, collapsedLoopInfoInit, CollapseTeam.levels, levels, lengths]
    rw [List.take_of_length_le (by simp)]
  case loopLenv => rfl
  case loopUpperBound =>
    simp only [CollapseTeam.describe, collapsedLoopInfoInit, lengths]
  case returned => rfl
  case ended => simp
  case allotted =>
    refine Allotted.none fun number below taken => ?_
    unfold Taken at taken
    simp only at taken
    split at taken
    case h_1 =>
      obtain ⟨tid, -, isFirst, some, -⟩ := taken
      rw [decide_eq_true_eq] at isFirst
      simp [isFirst] at some
    case h_2 =>
      obtain ⟨isFirst, less⟩ := taken
      rw [decide_eq_true_eq] at isFirst
      rw [isFirst] at less
      simp only [CollapseRecords.setThread_self] at less
      exact absurd less (Int.not_lt.2 (Int.natCast_nonneg _))
    case h_3 =>
      simp [CollapseTeam.describe, collapsedLoopInfoInit, unsigned] at taken
    case h_4 => exact taken

namespace CollapseKeeps

/-- A further thread enters. -/
theorem init (keeps : CollapseKeeps arguments run ranges)
    (moved : run.move arguments (.init tid) = some run') :
    CollapseKeeps arguments run' ranges := by
  simp only [CollapseRun.move] at moved
  split at moved
  case isFalse => cases moved
  case isTrue fresh =>
    cases moved
    obtain ⟨isThread, outside⟩ := fresh
    have counted := keeps.loopCount tid
    rw [outside, if_neg (by simp)] at counted
    have many : run.records.team.teamSize ≠ 1 := by
      have := keeps.teamSize
      omega
    have records := @collapseInitTeam_again arguments tid run.records many counted
    have threads : ∀ other, other ≠ tid →
        ((collapseInitTeam tid arguments run.records).threads other) =
          run.records.threads other := by
      intro other unlike
      rw [records, CollapseRecords.setThread_other _ unlike]
    have team : (collapseInitTeam tid arguments run.records).team = run.records.team := by
      rw [records, CollapseRecords.setThread_team]
    have own : ((collapseInitTeam tid arguments run.records).threads tid).scheduleCount = 0 := by
      rw [records, CollapseRecords.setThread_self]
    have unlike : ∀ other, run.entered other = true → other ≠ tid := by
      rintro other inside rfl
      rw [outside] at inside
      cases inside
    constructor
    case loopCount =>
      intro other
      dsimp only
      rw [team]
      by_cases same : other = tid
      · subst same
        simpa [records] using counted
      · simpa [threads other same, Function.update_of_ne same] using keeps.loopCount other
    case scheduleCount =>
      intro other inside
      dsimp only at inside ⊢
      by_cases same : other = tid
      · rw [same, own]
      · rw [Function.update_of_ne same] at inside
        rw [threads other same]
        exact keeps.scheduleCount other inside
    case ended =>
      intro other ended
      obtain ⟨inside, dry⟩ := keeps.ended other ended
      have same := unlike other inside
      dsimp only
      rw [Function.update_of_ne same]
      refine ⟨inside, ?_⟩
      unfold Dry stridedFirst at *
      dsimp only at dry ⊢
      rw [team, threads other same]
      exact dry
    case allotted =>
      refine keeps.allotted.congr fun number below => ?_
      unfold Taken
      dsimp only
      rw [team]
      split
      · refine exists_congr fun other => and_congr_right fun _ => ?_
        by_cases same : other = tid
        · subst same
          rw [own, outside]
          simp
        · rw [threads other same, Function.update_of_ne same]
      · by_cases same : number / run.records.team.chunkSize.toNat % run.records.team.teamSize = tid
        · rw [same, own, outside]
          simp only [Bool.false_eq_true, false_and, iff_false, not_and]
          exact fun _ => Int.not_lt.2 (Int.natCast_nonneg _)
        · rw [threads _ same, Function.update_of_ne same]
      · rfl
      · rfl
    all_goals
      dsimp only
      first
        | exact keeps.returned
        | rw [team]
          first
            | exact keeps.teamSize
            | exact keeps.scheduleType
            | exact keeps.chunkSize
            | exact keeps.decoded
            | exact keeps.loopLenv
            | exact keeps.loopUpperBound

end CollapseKeeps

/-! ## Asking for a chunk -/

/-- The run after a call has left its results. -/
def CollapseRun.after (run : CollapseRun) (tid : Nat)
    (left : CollapseTeam × OmpVThread × CollapseResult) : CollapseRun where
  records := (run.records.store tid left).1
  entered := run.entered
  ended :=
    if left.2.2.result then run.ended else Function.update run.ended tid true
  returned := run.returned ++ left.2.2.stores.toList

theorem next_cases (many : run.records.team.teamSize ≠ 1)
    (moved : run.move arguments (.next tid) = some run') :
    tid < run.records.team.teamSize ∧ run.entered tid = true ∧
      ∃ left, nextBySchedule tid run.records.team (run.records.threads tid) =
        .ok left ∧ run' = run.after tid left := by
  simp only [CollapseRun.move, collapseNextTeam, if_neg many] at moved
  split at moved
  case isFalse => cases moved
  case isTrue inside =>
    refine ⟨inside.1, inside.2, ?_⟩
    cases found : nextBySchedule tid run.records.team (run.records.threads tid) with
    | error text =>
        rw [found] at moved
        cases moved
    | ok left =>
        rw [found] at moved
        cases moved
        exact ⟨left, rfl, rfl⟩

theorem nextBySchedule_even {team : CollapseTeam} {thread : OmpVThread}
    (kind : scheduleKind team.scheduleType = some .even) :
    nextBySchedule tid team thread =
      .ok (team, nextStaticEven (isOrdered team.scheduleType) tid team thread) := by
  unfold nextBySchedule
  cases type : team.scheduleType <;> simp_all [scheduleKind, isOrdered]

theorem nextBySchedule_strided {team : CollapseTeam} {thread : OmpVThread}
    (kind : scheduleKind team.scheduleType = some .strided) :
    nextBySchedule tid team thread =
      .ok (team, nextStatic (isOrdered team.scheduleType) tid team thread) := by
  unfold nextBySchedule
  cases type : team.scheduleType <;> simp_all [scheduleKind, isOrdered]

theorem nextBySchedule_claimed {team : CollapseTeam} {thread : OmpVThread}
    (kind : scheduleKind team.scheduleType = some .claimed) :
    nextBySchedule tid team thread = .ok (nextClaimed team thread) := by
  unfold nextBySchedule
  cases type : team.scheduleType <;> simp_all [scheduleKind]

theorem nextBySchedule_none {team : CollapseTeam} {thread : OmpVThread}
    (kind : scheduleKind team.scheduleType = none)
    {left : CollapseTeam × OmpVThread × CollapseResult} :
    nextBySchedule tid team thread ≠ .ok left := by
  unfold nextBySchedule
  cases type : team.scheduleType <;> simp_all [scheduleKind]

namespace CollapseKeeps

theorem iterCount_team (keeps : CollapseKeeps arguments run ranges) :
    run.records.team.iterCount = iterCount (lengths arguments.nest) := by
  unfold CollapseTeam.iterCount
  rw [keeps.loopUpperBound, unsigned_wrap, unsigned_of_lt (iterCount_lt _)]

/-- A call leaves a range, or none. -/
theorem after {left : CollapseTeam × OmpVThread × CollapseResult}
    (keeps : CollapseKeeps arguments run ranges) (inside : run.entered tid = true)
    (plan : SamePlan run.records.team left.1)
    (loopCount : left.2.1.loopCount = (run.records.threads tid).loopCount)
    (scheduleCount : 0 ≤ left.2.1.scheduleCount)
    (returned : left.2.2.stores.toList = ranges'.map fun range =>
      storeChunk (levels arguments.nest) range.1 range.2)
    (allotted : Allotted (Taken (run.after tid left))
      (iterCount (lengths arguments.nest)) (ranges ++ ranges'))
    (ended : left.2.2.result = false → Dry (run.after tid left) tid)
    (dry : ∀ other, Dry run other → Dry (run.after tid left) other) :
    CollapseKeeps arguments (run.after tid left) (ranges ++ ranges') := by
  obtain ⟨h1, h2, h3, h4, h5, h6, h7⟩ := plan
  have threads : ∀ other, other ≠ tid →
      (run.after tid left).records.threads other = run.records.threads other :=
    fun other unlike => CollapseRecords.setThread_other _ unlike _
  have own : (run.after tid left).records.threads tid = left.2.1 :=
    CollapseRecords.setThread_self _ _ _
  have team : (run.after tid left).records.team = left.1 := rfl
  constructor
  case allotted => exact allotted
  case returned =>
    rw [List.map_append, ← keeps.returned, ← returned]
    rfl
  case loopCount =>
    intro other
    have before := keeps.loopCount other
    rw [team, h4]
    by_cases same : other = tid
    · subst same
      rw [own, loopCount]
      exact before
    · rw [threads other same]
      exact before
  case scheduleCount =>
    intro other isInside
    by_cases same : other = tid
    · rw [same, own]
      exact scheduleCount
    · rw [threads other same]
      exact keeps.scheduleCount other isInside
  case ended =>
    intro other isEnded
    by_cases same : other = tid
    · subst same
      refine ⟨inside, ?_⟩
      simp only [CollapseRun.after] at isEnded
      by_cases result : left.2.2.result = true
      · rw [if_pos result] at isEnded
        exact dry other (keeps.ended other isEnded).2
      · exact ended (by simpa using result)
    · simp only [CollapseRun.after] at isEnded
      have before : run.ended other = true := by
        split at isEnded
        · exact isEnded
        · rwa [Function.update_of_ne same] at isEnded
      exact ⟨(keeps.ended other before).1, dry other (keeps.ended other before).2⟩
  case teamSize =>
    rw [team, h1]
    exact keeps.teamSize
  case scheduleType =>
    rw [team, h2]
    exact keeps.scheduleType
  case chunkSize =>
    rw [team, h3]
    exact keeps.chunkSize
  case decoded =>
    rw [team, h6]
    exact keeps.decoded
  case loopLenv =>
    rw [team, h7]
    exact keeps.loopLenv
  case loopUpperBound =>
    rw [team, h5]
    exact keeps.loopUpperBound

theorem samePlan_refl (team : CollapseTeam) : SamePlan team team :=
  ⟨rfl, rfl, rfl, rfl, rfl, rfl, rfl⟩

/-- A thread that has nothing more to come leaves everything as it is. -/
theorem afterDry (keeps : CollapseKeeps arguments run ranges)
    (inside : run.entered tid = true) (dry : Dry run tid) :
    CollapseKeeps arguments
      (run.after tid (run.records.team, run.records.threads tid, .noMore)) ranges := by
  have records : (run.after tid (run.records.team, run.records.threads tid,
      .noMore)).records = run.records := by
    unfold CollapseRun.after CollapseRecords.store CollapseRecords.setThread
    dsimp only
    congr 1
    funext other
    split
    case isTrue same => rw [same]
    case isFalse => rfl
  rw [← List.append_nil ranges]
  refine keeps.after inside (samePlan_refl run.records.team) rfl
    (keeps.scheduleCount tid inside) rfl ?_ ?_ ?_
  · rw [List.append_nil]
    refine keeps.allotted.congr fun number _ => ?_
    unfold Taken
    rw [records]
    rfl
  · intro _
    unfold Dry at *
    rw [records]
    exact dry
  · intro other isDry
    unfold Dry at *
    rw [records]
    exact isDry

end CollapseKeeps

/-! ## The end of a chunk -/

/-- The end of a chunk that fits in. -/
theorem chunkEnd_eq {team : CollapseTeam} {myLower : Nat} {chunk : Int}
    (positive : 0 < chunk) (room : myLower + chunk < 2 ^ 64) :
    chunkEnd team myLower chunk = min (myLower + chunk.toNat) team.iterCount := by
  have sum : (myLower : Int) + chunk = (myLower + chunk.toNat : Nat) := by
    push_cast
    omega
  unfold chunkEnd
  rw [sum, unsigned_of_lt (by omega)]
  dsimp only
  split <;> omega

/-- The divisor of the GUIDED branches is not zero or one. -/
theorem two_le_divisor {size : Nat} (several : 1 < size) (bounded : size < 2 ^ 31) :
    2 ≤ unsigned .eight (OmpWidth.four.wrap (2 * size)) := by
  have cast : (2 : Int) ≤ unsigned .eight (OmpWidth.four.wrap (2 * size)) := by
    rw [cast_unsigned]
    simp only [OmpWidth.wrap, OmpWidth.four, OmpWidth.eight, Int.bmod_def]
    split <;> omega
  exact_mod_cast cast

/-- A chunk of the GUIDED branches lies within the rest or is as requested. -/
theorem guidedChunk_bounds {team : CollapseTeam} {myLower : Nat}
    (several : 1 < team.teamSize) (bounded : team.teamSize < 2 ^ 31)
    (more : myLower < team.iterCount) (positive : 0 < team.chunkSize)
    (room : myLower + team.chunkSize < 2 ^ 64) :
    0 < guidedChunk team myLower ∧ myLower + guidedChunk team myLower < 2 ^ 64 := by
  have small : team.iterCount < 2 ^ 64 := by
    unfold CollapseTeam.iterCount unsigned
    have := Int.emod_lt_of_pos team.loopUpperBound
      (by norm_num : (0 : Int) < 2 ^ OmpWidth.eight.bits)
    simp only [OmpWidth.eight] at *
    omega
  have rest : unsigned .eight (team.loopUpperBound - myLower) = team.iterCount - myLower := by
    apply Int.ofNat_inj.1
    unfold CollapseTeam.iterCount at *
    have upper := cast_unsigned .eight team.loopUpperBound
    rw [cast_unsigned]
    simp only [OmpWidth.eight] at *
    omega
  have divisor := two_le_divisor several bounded
  unfold guidedChunk
  dsimp only
  rw [rest]
  generalize unsigned .eight (OmpWidth.four.wrap (2 * team.teamSize)) = size
    at divisor ⊢
  have quotient : (team.iterCount - myLower) / size ≤
      (team.iterCount - myLower) / 2 := Nat.div_le_div_left divisor (by omega)
  have half := Nat.div_mul_le_self (team.iterCount - myLower) 2
  generalize (team.iterCount - myLower) / size = block at quotient ⊢
  have fits : OmpWidth.eight.Fits (block : Int) := by
    unfold OmpWidth.Fits
    simp only [OmpWidth.eight]
    omega
  rw [OmpWidth.wrap_eq_of_fits fits]
  split <;> omega

theorem claimedChunk_bounds {team : CollapseTeam} {myLower : Nat}
    (several : 1 < team.teamSize) (bounded : team.teamSize < 2 ^ 31)
    (more : myLower < team.iterCount) (positive : 0 < team.chunkSize)
    (room : myLower + team.chunkSize < 2 ^ 64) :
    0 < claimedChunk team myLower ∧ myLower + claimedChunk team myLower < 2 ^ 64 := by
  unfold claimedChunk
  split
  · exact guidedChunk_bounds several bounded more positive room
  · exact guidedChunk_bounds several bounded more positive room
  · exact ⟨positive, room⟩

/-- A claim leaves the plan as it is. -/
theorem samePlan_claim (team : CollapseTeam) (next count : Int) :
    SamePlan team
      { team with
        loopLowerBound := next
        scheduleCount := count } :=
  ⟨rfl, rfl, rfl, rfl, rfl, rfl, rfl⟩

/-- What a call of the DYNAMIC and GUIDED schedules leaves. -/
theorem nextClaimed_more {team : CollapseTeam} {thread : OmpVThread}
    {myLower : Nat} (first : unsigned .eight team.loopLowerBound = myLower)
    (more : myLower < team.iterCount) :
    SamePlan team (nextClaimed team thread).1 ∧
      (nextClaimed team thread).1.loopLowerBound =
        OmpWidth.eight.wrap (chunkEnd team myLower (claimedChunk team myLower)) ∧
      (nextClaimed team thread).2.2.result = true ∧
      (nextClaimed team thread).2.2.stores =
        some (storeChunk team.levels myLower (chunkEnd team myLower (claimedChunk team myLower))) ∧
      (nextClaimed team thread).2.1.loopCount = thread.loopCount ∧
      (nextClaimed team thread).2.1.scheduleCount = thread.scheduleCount := by
  subst first
  rw [nextClaimed, if_neg (Nat.not_le.2 more)]
  by_cases ordered : isOrdered team.scheduleType = true
  · rw [if_pos ordered]
    exact ⟨samePlan_claim team _ _, by dsimp only, rfl, rfl, rfl, rfl⟩
  · rw [if_neg ordered]
    exact ⟨samePlan_claim team _ _, by dsimp only, rfl, rfl, rfl, rfl⟩

namespace CollapseKeeps

/-- A call of the DYNAMIC and GUIDED schedules. -/
theorem claimed (keeps : CollapseKeeps arguments run ranges)
    (kind : scheduleKind run.records.team.scheduleType = some .claimed)
    (inside : run.entered tid = true) (room : Room run.records tid) :
    ∃ ranges', CollapseKeeps arguments
      (run.after tid (nextClaimed run.records.team (run.records.threads tid)))
      (ranges ++ ranges') := by
  simp only [Room, kind] at room
  have total := keeps.iterCount_team
  have taken : ∀ {left number}, left.1.scheduleType =
      run.records.team.scheduleType →
      (Taken (run.after tid left) number ↔ number < unsigned .eight left.1.loopLowerBound) := by
    intro left number same
    have team : (run.after tid left).records.team = left.1 := rfl
    unfold Taken
    simp only [team, same, kind]
  have dryOf : ∀ {left other}, left.1.scheduleType =
      run.records.team.scheduleType →
      left.1.loopUpperBound = run.records.team.loopUpperBound →
      (Dry (run.after tid left) other ↔
        run.records.team.iterCount ≤ unsigned .eight left.1.loopLowerBound) := by
    intro left other same bound
    have team : (run.after tid left).records.team = left.1 := rfl
    unfold Dry
    simp only [team, same, kind, CollapseTeam.iterCount, bound]
  have before : ∀ number, Taken run number ↔
      number < unsigned .eight run.records.team.loopLowerBound := by
    intro number
    unfold Taken
    simp only [kind]
  have dryBefore : ∀ other, Dry run other →
      run.records.team.iterCount ≤ unsigned .eight run.records.team.loopLowerBound := by
    intro other dry
    unfold Dry at dry
    simpa only [kind] using dry
  by_cases overrun : unsigned .eight run.records.team.loopLowerBound ≥ run.records.team.iterCount
  · have left : nextClaimed run.records.team (run.records.threads tid) =
        (run.records.team, run.records.threads tid, .noMore) := by
      unfold nextClaimed
      rw [if_pos overrun]
    rw [left]
    refine ⟨[], ?_⟩
    rw [List.append_nil]
    apply keeps.afterDry inside
    unfold Dry
    simpa only [kind] using overrun
  · have more : unsigned .eight run.records.team.loopLowerBound <
        run.records.team.iterCount := Nat.lt_of_not_le overrun
    have chunk := claimedChunk_bounds keeps.teamSize.1 keeps.teamSize.2 more room.1 (room.2 more)
    have upper := @chunkEnd_eq run.records.team _ _ chunk.1 chunk.2
    generalize claim : claimedChunk run.records.team
      (unsigned .eight run.records.team.loopLowerBound) = size at chunk upper
    generalize first : unsigned .eight run.records.team.loopLowerBound = myLower at *
    generalize last : chunkEnd run.records.team myLower size = myUpper at upper
    have small : myUpper < 2 ^ 64 := by
      have := iterCount_lt (lengths arguments.nest)
      omega
    have next : unsigned .eight (OmpWidth.eight.wrap myUpper) = myUpper := by
      rw [unsigned_wrap, unsigned_of_lt small]
    have left := @nextClaimed_more _ (run.records.threads tid) _ first more
    rw [claim, last] at left
    obtain ⟨plan, lower, result, stores, counted, scheduled⟩ := left
    have type := plan.scheduleType
    have bound := plan.loopUpperBound
    refine ⟨[(myLower, myUpper)], keeps.after inside plan counted
      (scheduled ▸ keeps.scheduleCount tid inside) ?_ ?_ ?_ ?_⟩
    · rw [stores, keeps.decoded]
      rfl
    · refine keeps.allotted.add (by simp only; omega) (by simp only; omega) ?_ ?_
      · intro number _ inRange
        rw [before]
        exact Nat.not_lt.2 inRange.1
      · intro number _
        rw [taken type, before, lower, next]
        unfold InRange
        simp only
        omega
    · intro ended
      rw [result] at ended
      cases ended
    · intro other dry
      exact absurd (dryBefore other dry) overrun

end CollapseKeeps

/-! ## The STATIC schedules -/

theorem staticLower_eq (records : CollapseRecords) :
    staticLower tid records.team (records.threads tid) =
      unsigned .eight (stridedFirst records tid) := by
  unfold staticLower stridedFirst
  congr 1
  ring

/-- A thread that is past the last number has had the turn of each block. -/
theorem turn_lt_of_dry {records : CollapseRecords} {number total : Nat}
    (nonneg : 0 ≤ (records.threads (number / records.team.chunkSize.toNat %
      records.team.teamSize)).scheduleCount)
    (below : number < total)
    (past : total ≤ stridedFirst records
      (number / records.team.chunkSize.toNat % records.team.teamSize)) :
    ((number / records.team.chunkSize.toNat / records.team.teamSize : Nat) :
      Int) < (records.threads (number / records.team.chunkSize.toNat %
        records.team.teamSize)).scheduleCount := by
  unfold stridedFirst at past
  generalize threadIs : number / records.team.chunkSize.toNat % records.team.teamSize = tid at *
  obtain ⟨turn, turnIs⟩ := Int.eq_ofNat_of_zero_le nonneg
  rw [turnIs] at past ⊢
  have positive : 0 < records.team.chunkSize := by
    by_contra none
    have product : ((turn : Int) * records.team.teamSize + tid) * records.team.chunkSize ≤ 0 :=
      Int.mul_nonpos_of_nonneg_of_nonpos (by positivity) (by omega)
    omega
  obtain ⟨size, sizeIs⟩ := Int.eq_ofNat_of_zero_le positive.le
  rw [sizeIs, Int.toNat_natCast] at threadIs
  rw [sizeIs] at past positive
  rw [sizeIs, Int.toNat_natCast, Int.ofNat_lt]
  have within : number < (turn * records.team.teamSize + tid) * size := by
    exact_mod_cast Int.lt_of_lt_of_le (Int.ofNat_lt.2 below) past
  have block : number / size < turn * records.team.teamSize + tid :=
    (Nat.div_lt_iff_lt_mul (by omega)).2 within
  have split := Nat.div_add_mod' (number / size) records.team.teamSize
  rw [threadIs] at split
  by_contra more
  have scaled := Nat.mul_le_mul_right records.team.teamSize (Nat.le_of_not_lt more)
  omega

/-- What a call of the STATIC schedules leaves. -/
theorem nextStatic_more {ordered : Bool} {team : CollapseTeam} {thread : OmpVThread}
    (more : staticLower tid team thread < team.iterCount) :
    (nextStatic ordered tid team thread).2 =
        team.chunk (staticLower tid team thread)
          (chunkEnd team (staticLower tid team thread) team.chunkSize) ∧
      (nextStatic ordered tid team thread).1.loopCount = thread.loopCount ∧
      (nextStatic ordered tid team thread).1.scheduleCount = thread.scheduleCount + 1 := by
  rw [nextStatic, if_neg (Nat.not_le.2 more)]
  cases ordered
  · exact ⟨rfl, rfl, rfl⟩
  · exact ⟨rfl, rfl, rfl⟩

/-- A block of `size` numbers, by its number. -/
theorem inRange_block_iff {size total block number : Nat}
    (positive : 0 < size) (below : number < total) :
    InRange (block * size, min (block * size + size) total) number ↔ number / size = block := by
  unfold InRange
  simp only [lt_min_iff, below, and_true]
  rw [← Nat.succ_mul, Nat.div_eq_iff positive]
  have := Nat.succ_mul block size
  omega

/-- The number of a block is that of its thread and its turn. -/
theorem block_eq_iff {size block turn : Nat} (isThread : tid < size) :
    block = turn * size + tid ↔ block % size = tid ∧ block / size = turn := by
  constructor
  · rintro rfl
    rw [Nat.mul_comm, Nat.mul_add_mod, Nat.mod_eq_of_lt isThread,
      Nat.mul_add_div (by omega), Nat.div_eq_of_lt isThread, Nat.add_zero]
    exact ⟨rfl, rfl⟩
  · rintro ⟨rest, quotient⟩
    rw [← rest, ← quotient]
    exact (Nat.div_add_mod' block size).symm

namespace CollapseKeeps

/-- A call of the STATIC schedules. -/
theorem strided (keeps : CollapseKeeps arguments run ranges)
    (kind : scheduleKind run.records.team.scheduleType = some .strided)
    (inside : run.entered tid = true) (isThread : tid < run.records.team.teamSize)
    (room : Room run.records tid) {ordered : Bool} :
    ∃ ranges', CollapseKeeps arguments
      (run.after tid (run.records.team,
        nextStatic ordered tid run.records.team (run.records.threads tid)))
      (ranges ++ ranges') := by
  simp only [Room, kind] at room
  obtain ⟨positive, fits, stops⟩ := room
  have total := keeps.iterCount_team
  have nonneg := keeps.scheduleCount tid inside
  have plan : SamePlan run.records.team run.records.team := ⟨rfl, rfl, rfl, rfl, rfl, rfl, rfl⟩
  have lower := @staticLower_eq tid run.records
  have small := iterCount_lt (lengths arguments.nest)
  have team : ∀ {left}, (run.after tid (run.records.team, left)).records.team =
      run.records.team := fun {left} => rfl
  have others : ∀ {left other}, other ≠ tid →
      (run.after tid (run.records.team, left)).records.threads other = run.records.threads other :=
    fun {left other} unlike => CollapseRecords.setThread_other _ unlike _
  have own : ∀ {left}, (run.after tid (run.records.team, left)).records.threads tid = left.1 :=
    fun {left} => CollapseRecords.setThread_self _ _ _
  have dryIff : ∀ {some : CollapseRun} {other},
      scheduleKind some.records.team.scheduleType = .some .strided →
      (Dry some other ↔ some.records.team.iterCount ≤ stridedFirst some.records other) := by
    intro some other kind
    unfold Dry
    simp only [kind]
  by_cases overrun : run.records.team.iterCount ≤ stridedFirst run.records tid
  · have stopped : ¬ staticLower tid run.records.team
        (run.records.threads tid) < run.records.team.iterCount := by
      have high := stops overrun
      have cast := cast_unsigned .eight (stridedFirst run.records tid)
      simp only [OmpWidth.eight] at cast lower
      omega
    have left : nextStatic ordered tid run.records.team
        (run.records.threads tid) = (run.records.threads tid, .noMore) := by
      rw [nextStatic, if_pos (Nat.le_of_not_lt stopped)]
    rw [left]
    refine ⟨[], ?_⟩
    rw [List.append_nil]
    apply keeps.afterDry inside
    unfold Dry
    simpa only [kind] using overrun
  · rw [Int.not_le] at overrun
    obtain ⟨turn, turnIs⟩ := Int.eq_ofNat_of_zero_le nonneg
    obtain ⟨size, sizeIs⟩ := Int.eq_ofNat_of_zero_le positive.le
    have first : stridedFirst run.records tid =
        ((turn * run.records.team.teamSize + tid) * size : Nat) := by
      unfold stridedFirst
      rw [turnIs, sizeIs]
      push_cast
      rfl
    rw [first] at overrun fits
    have sizePositive : 0 < size := by omega
    have room := fits overrun
    rw [first, unsigned_of_lt (by omega)] at lower
    generalize block : turn * run.records.team.teamSize + tid = number at *
    have more : staticLower tid run.records.team (run.records.threads tid) <
        run.records.team.iterCount := by
      rw [lower]
      exact_mod_cast overrun
    obtain ⟨result, counted, scheduled⟩ : _ ∧ _ ∧ _ := @nextStatic_more tid ordered _ _ more
    rw [lower, chunkEnd_eq positive room, sizeIs, Int.toNat_natCast] at result
    refine ⟨[(number * size, min (number * size + size) run.records.team.iterCount)], ?_⟩
    refine keeps.after inside plan counted ?_ ?_ ?_ ?_ ?_
    · dsimp only
      rw [scheduled]
      omega
    · dsimp only
      rw [result]
      unfold CollapseTeam.chunk
      dsimp only
      rw [keeps.decoded]
      rfl
    · have takenIff : ∀ {some : CollapseRun} {number : Nat},
          some.records.team = run.records.team →
          (Taken some number ↔
            some.entered (number / size % run.records.team.teamSize) = true ∧
              ((number / size / run.records.team.teamSize : Nat) : Int) <
                (some.records.threads (number / size %
                  run.records.team.teamSize)).scheduleCount) := by
        intro some number same
        unfold Taken
        simp only [same, kind, sizeIs, Int.toNat_natCast]
      have here : ∀ other < run.records.team.iterCount,
          InRange (number * size, min (number * size + size) run.records.team.iterCount) other ↔
          other / size % run.records.team.teamSize = tid ∧
            other / size / run.records.team.teamSize = turn := by
        intro other below
        rw [inRange_block_iff sizePositive below, ← block, block_eq_iff isThread]
      refine keeps.allotted.add ?_ ?_ ?_ ?_
      · have cast : number * size < run.records.team.iterCount := by
          exact_mod_cast overrun
        dsimp only
        omega
      · rw [← total]
        exact min_le_right _ _
      · intro other below inRange taken
        rw [← total] at below
        obtain ⟨rest, quotient⟩ := (here other below).1 inRange
        have less := ((takenIff rfl).1 taken).2
        rw [rest, quotient, turnIs] at less
        exact absurd less (Int.lt_irrefl _)
      · intro other below
        rw [← total] at below
        rw [here other below, takenIff team, takenIff rfl]
        by_cases rest : other / size % run.records.team.teamSize = tid
        · rw [rest, own, scheduled, turnIs]
          simp only [CollapseRun.after, inside, true_and]
          omega
        · rw [others rest]
          simp only [rest, false_and, or_false]
          rfl
    · intro ended
      dsimp only at ended
      rw [result] at ended
      cases ended
    · intro other isDry
      rw [dryIff (by rw [team]; exact kind), team]
      rw [dryIff kind] at isDry
      by_cases isOwn : other = tid
      · rw [isOwn, first] at isDry
        omega
      · unfold stridedFirst at *
        rw [others isOwn, team]
        exact isDry

end CollapseKeeps

/-! ## The STATIC_EVEN schedules -/

section Even

variable {count size position position' number : Nat}

theorem evenStart_mono (le : position ≤ position') :
    evenStart count size position ≤ evenStart count size position' :=
  Nat.add_le_add (Nat.mul_le_mul_left _ le) (Nat.div_le_div_right (Nat.mul_le_mul_left _ le))

theorem evenStart_zero : evenStart count size 0 = 0 := by
  simp [evenStart]

theorem evenStart_all (positive : 0 < size) : evenStart count size size = count := by
  unfold evenStart
  rw [Nat.mul_div_cancel _ positive]
  exact Nat.div_add_mod' count size

/-- Every number below the total is in the block of one thread. -/
theorem exists_even (positive : 0 < size) (below : number < count) :
    ∃ tid < size, InRange (evenStart count size tid, evenStart count size (tid + 1)) number := by
  have some : ∃ position, number < evenStart count size position :=
    ⟨size, by rwa [evenStart_all positive]⟩
  have found := Nat.find_spec some
  have least : ∀ position, position < Nat.find some → evenStart count size position ≤ number :=
    fun position less => Nat.le_of_not_lt (Nat.find_min some less)
  have bound : Nat.find some ≤ size := Nat.find_min' some (by rwa [evenStart_all positive])
  cases first : Nat.find some with
  | zero =>
      rw [first, evenStart_zero] at found
      exact absurd found (Nat.not_lt_zero _)
  | succ tid =>
      rw [first] at found least bound
      exact ⟨tid, bound, least tid (Nat.lt_succ_self _), found⟩

/-- Two blocks with a number in common are the same. -/
theorem even_unique {other : Nat}
    (inside : InRange (evenStart count size position, evenStart count size (position + 1)) number)
    (inside' : InRange (evenStart count size other, evenStart count size (other + 1)) number) :
    position = other := by
  unfold InRange at inside inside'
  rcases Nat.lt_trichotomy position other with before | same | after
  · have order : evenStart count size (position + 1) ≤
        evenStart count size other := evenStart_mono before
    exact absurd (Nat.lt_of_lt_of_le inside.2 (order.trans inside'.1)) (Nat.lt_irrefl _)
  · exact same
  · have order : evenStart count size (other + 1) ≤
        evenStart count size position := evenStart_mono after
    exact absurd (Nat.lt_of_lt_of_le inside'.2 (order.trans inside.1)) (Nat.lt_irrefl _)

end Even

/-- The marks are those of the exact products where these fit in. -/
theorem evenBound_eq {team : CollapseTeam} {position : Nat}
    (several : 1 < team.teamSize) (bounded : team.teamSize < 2 ^ 31)
    (within : position ≤ team.teamSize) (small : team.iterCount < 2 ^ 64)
    (room : team.iterCount % team.teamSize * position < 2 ^ 32) :
    evenBound team position = evenStart team.iterCount team.teamSize position := by
  have narrow : ∀ {value : Nat}, value < 2 ^ 32 → unsigned .four value = value := by
    intro value fits
    apply Int.ofNat_inj.1
    rw [cast_unsigned]
    exact Int.emod_eq_of_lt (Int.natCast_nonneg _) (by exact_mod_cast fits)
  have rest : team.iterCount % team.teamSize < team.teamSize := Nat.mod_lt _ (by omega)
  have marked : mark team position = team.iterCount % team.teamSize * position / team.teamSize := by
    have remainder : unsigned .four
        ((team.iterCount % team.teamSize : Nat) : Int) =
          team.iterCount % team.teamSize := narrow (by omega)
    unfold mark
    dsimp only
    rw [remainder, narrow room]
  have top : evenStart team.iterCount team.teamSize position ≤ team.iterCount := by
    have order : evenStart team.iterCount team.teamSize position ≤
        evenStart team.iterCount team.teamSize team.teamSize :=
      evenStart_mono within
    rwa [evenStart_all (by omega)] at order
  unfold evenBound
  rw [marked]
  exact unsigned_of_lt (Nat.lt_of_le_of_lt top small)

/-- What the first call of the STATIC_EVEN schedules leaves. -/
theorem nextStaticEven_first {ordered : Bool} {team : CollapseTeam}
    {thread : OmpVThread} (first : thread.scheduleCount = 0) :
    (nextStaticEven ordered tid team thread).2 =
        (if evenBound team tid ≠ evenBound team (tid + 1) then
          team.chunk (evenBound team tid) (evenBound team (tid + 1))
        else
          .noMore) ∧
      (nextStaticEven ordered tid team thread).1.loopCount = thread.loopCount ∧
      (nextStaticEven ordered tid team thread).1.scheduleCount = 1 := by
  rw [nextStaticEven, if_neg (not_not.2 first)]
  cases ordered
  · exact ⟨rfl, rfl, rfl⟩
  · exact ⟨rfl, rfl, rfl⟩

namespace CollapseKeeps

/-- A call of the STATIC_EVEN schedules. -/
theorem even (keeps : CollapseKeeps arguments run ranges)
    (kind : scheduleKind run.records.team.scheduleType = some .even)
    (inside : run.entered tid = true) (isThread : tid < run.records.team.teamSize)
    (room : Room run.records tid) {ordered : Bool} :
    ∃ ranges', CollapseKeeps arguments
      (run.after tid (run.records.team,
        nextStaticEven ordered tid run.records.team (run.records.threads tid)))
      (ranges ++ ranges') := by
  simp only [Room, kind] at room
  have total := keeps.iterCount_team
  have small := iterCount_lt (lengths arguments.nest)
  by_cases overrun : (run.records.threads tid).scheduleCount ≠ 0
  · have left : nextStaticEven ordered tid run.records.team
        (run.records.threads tid) = (run.records.threads tid, .noMore) := by
      rw [nextStaticEven, if_pos overrun]
    rw [left]
    refine ⟨[], ?_⟩
    rw [List.append_nil]
    apply keeps.afterDry inside
    unfold Dry
    simpa only [kind] using overrun
  · have bounds : ∀ {position}, position ≤ tid + 1 →
        evenBound run.records.team position =
          evenStart run.records.team.iterCount run.records.team.teamSize
            position := by
      intro position le
      refine evenBound_eq keeps.teamSize.1 keeps.teamSize.2 (by omega)
        (by omega) (Nat.lt_of_le_of_lt (Nat.mul_le_mul_left _ le) room)
    obtain ⟨result, counted, scheduled⟩ : _ ∧ _ ∧ _ :=
      @nextStaticEven_first tid ordered run.records.team
        (run.records.threads tid) (not_not.1 overrun)
    rw [bounds (Nat.le_succ tid), bounds le_rfl] at result
    have team : ∀ {left},
        (run.after tid (run.records.team, left)).records.team =
          run.records.team := fun {left} => rfl
    have others : ∀ {left other}, other ≠ tid →
        (run.after tid (run.records.team, left)).records.threads other =
          run.records.threads other :=
      fun {left other} unlike => CollapseRecords.setThread_other _ unlike _
    have own : ∀ {left},
        (run.after tid (run.records.team, left)).records.threads tid =
          left.1 := fun {left} => CollapseRecords.setThread_self _ _ _
    have takenIff : ∀ {some : CollapseRun} {number : Nat},
        some.records.team = run.records.team →
        (Taken some number ↔ ∃ other < run.records.team.teamSize,
          some.entered other = true ∧
            (some.records.threads other).scheduleCount ≠ 0 ∧
            InRange (evenStart run.records.team.iterCount
              run.records.team.teamSize other,
              evenStart run.records.team.iterCount run.records.team.teamSize
                (other + 1)) number) := by
      intro some number same
      unfold Taken
      simp only [same, kind]
    have becomes : ∀ number, Taken (run.after tid (run.records.team,
          nextStaticEven ordered tid run.records.team (run.records.threads tid))) number ↔
        Taken run number ∨ InRange
          (evenStart run.records.team.iterCount run.records.team.teamSize tid,
            evenStart run.records.team.iterCount run.records.team.teamSize (tid + 1)) number := by
      intro number
      rw [takenIff team, takenIff rfl]
      constructor
      · rintro ⟨other, less, isInside, some, inRange⟩
        by_cases isOwn : other = tid
        · exact Or.inr (isOwn ▸ inRange)
        · rw [others isOwn] at some
          exact Or.inl ⟨other, less, isInside, some, inRange⟩
      · rintro (⟨other, less, isInside, some, inRange⟩ | inRange)
        · by_cases isOwn : other = tid
          · exact absurd (isOwn ▸ some) overrun
          · rw [← others isOwn] at some
            exact ⟨other, less, isInside, some, inRange⟩
        · refine ⟨tid, isThread, inside, ?_, inRange⟩
          rw [own, scheduled]
          decide
    have dryIff : ∀ {some : CollapseRun} {other},
        some.records.team = run.records.team →
        (Dry some other ↔ (some.records.threads other).scheduleCount ≠ 0) := by
      intro some other same
      unfold Dry
      simp only [same, kind]
    have dries : Dry (run.after tid (run.records.team,
        nextStaticEven ordered tid run.records.team (run.records.threads tid))) tid := by
      rw [dryIff team, own, scheduled]
      decide
    have dry : ∀ other, Dry run other → Dry (run.after tid (run.records.team,
        nextStaticEven ordered tid run.records.team (run.records.threads tid))) other := by
      intro other isDry
      by_cases isOwn : other = tid
      · rw [isOwn]
        exact dries
      · rw [dryIff team, others isOwn]
        exact (dryIff rfl).1 isDry
    have scheduledPos : 0 ≤ (nextStaticEven ordered tid run.records.team
        (run.records.threads tid)).1.scheduleCount := by
      rw [scheduled]
      decide
    by_cases some : evenStart run.records.team.iterCount
        run.records.team.teamSize tid ≠
          evenStart run.records.team.iterCount run.records.team.teamSize (tid + 1)
    · rw [if_pos some] at result
      refine ⟨[_], keeps.after inside (samePlan_refl _) counted scheduledPos ?_
        (keeps.allotted.add (evenStart_mono (Nat.le_succ tid)) ?_ ?_
          fun number _ => becomes number) (fun _ => dries) dry⟩
      · dsimp only
        rw [result]
        unfold CollapseTeam.chunk
        dsimp only
        rw [keeps.decoded]
        rfl
      · have order : evenStart run.records.team.iterCount
            run.records.team.teamSize (tid + 1) ≤
              evenStart run.records.team.iterCount run.records.team.teamSize
                run.records.team.teamSize := evenStart_mono isThread
        rw [evenStart_all (by omega)] at order
        rw [← total]
        exact order
      · intro number _ inRange taken
        obtain ⟨other, -, -, scheduledBefore, inRange'⟩ := (takenIff rfl).1 taken
        rw [even_unique inRange' inRange] at scheduledBefore
        exact overrun scheduledBefore
    · rw [if_neg some] at result
      refine ⟨[], keeps.after inside (samePlan_refl _) counted scheduledPos ?_
        ?_ (fun _ => dries) dry⟩
      · dsimp only
        rw [result]
        rfl
      · rw [List.append_nil]
        refine keeps.allotted.congr fun number _ => ?_
        rw [becomes number]
        refine or_iff_left fun inRange => ?_
        unfold InRange at inRange
        dsimp only at inRange
        omega

/-! ## Runs -/

theorem step (keeps : CollapseKeeps arguments run ranges) (moved : RoomStep arguments run run') :
    ∃ ranges', CollapseKeeps arguments run' ranges' := by
  obtain ⟨move, allowed, moved⟩ := moved
  cases move with
  | init tid => exact ⟨ranges, keeps.init moved⟩
  | next tid =>
      have many : run.records.team.teamSize ≠ 1 := by
        have := keeps.teamSize
        omega
      obtain ⟨isThread, inside, left, found, rfl⟩ := next_cases many moved
      cases kind : scheduleKind run.records.team.scheduleType with
      | none => exact absurd found (nextBySchedule_none kind)
      | some sort =>
          cases sort with
          | even =>
              rw [nextBySchedule_even kind, Except.ok.injEq] at found
              rw [← found]
              obtain ⟨_, keeps'⟩ := keeps.even kind inside isThread allowed
              exact ⟨_, keeps'⟩
          | strided =>
              rw [nextBySchedule_strided kind, Except.ok.injEq] at found
              rw [← found]
              obtain ⟨_, keeps'⟩ := keeps.strided kind inside isThread allowed
              exact ⟨_, keeps'⟩
          | claimed =>
              rw [nextBySchedule_claimed kind, Except.ok.injEq] at found
              rw [← found]
              obtain ⟨_, keeps'⟩ := keeps.claimed kind inside allowed
              exact ⟨_, keeps'⟩

/-- Where every thread has ended, every number has been taken. -/
theorem taken_of_ended (keeps : CollapseKeeps arguments run ranges)
    (all : ∀ tid < run.records.team.teamSize, run.ended tid = true)
    {number : Nat} (below : number < run.records.team.iterCount) :
    Taken run number := by
  have positive : 0 < run.records.team.teamSize := by
    have := keeps.teamSize
    omega
  have dry := fun tid isThread => keeps.ended tid (all tid isThread)
  unfold Dry at dry
  unfold Taken
  cases kind : scheduleKind run.records.team.scheduleType with
  | none =>
      have none := (dry 0 positive).2
      simp only [kind] at none
  | some sort =>
      cases sort with
      | even =>
          obtain ⟨tid, isThread, inRange⟩ := exists_even positive below
          have both := dry tid isThread
          simp only [kind] at both ⊢
          exact ⟨tid, isThread, both.1, both.2, inRange⟩
      | strided =>
          have isThread := Nat.mod_lt (number / run.records.team.chunkSize.toNat) positive
          have both := dry _ isThread
          simp only [kind] at both ⊢
          refine ⟨both.1, ?_⟩
          exact turn_lt_of_dry (keeps.scheduleCount _ both.1) below both.2
      | claimed =>
          have both := dry 0 positive
          simp only [kind] at both ⊢
          exact Nat.lt_of_lt_of_le below both.2

end CollapseKeeps

/-- A chunk covers the points of the numbers in its range. -/
theorem covers_iff {nest : List LoopLevel} {range : Nat × Nat} {number : Nat}
    (valid : ∀ level ∈ nest, level.Valid) (sized : ∀ level ∈ nest, level.Sized)
    (small : total nest < 2 ^ 64) (nonempty : nest ≠ []) (fits : OuterFits nest)
    (inside : range.1 ≤ total nest ∧ range.2 ≤ total nest) (below : number < total nest) :
    Covers nest (storeChunk (levels nest) range.1 range.2)
      (vector nest number) ↔ InRange range number := by
  have positive := Nat.zero_lt_of_lt below
  have moves : ∀ level ∈ nest, level.stride ≠ 0 :=
    fun level member => (valid level member).nonzero
  cases nest with
  | nil => exact absurd rfl nonempty
  | cons outer inner =>
      have innerPositive : 0 < total inner := by
        unfold total at positive ⊢
        rw [List.map_cons, List.prod_cons] at positive
        exact Nat.pos_of_mul_pos_left positive
      have equalLengths : ∀ {number number'},
          (vector (outer :: inner) number).length = (vector (outer :: inner) number').length := by
        simp [vector, MixedRadix.symbols]
      unfold Covers InRange
      rw [levels_eq (lengths_eq valid sized positive small),
        storeChunk_eq valid positive fits inside.1 inside.2,
        List.map_reverse, List.reverse_reverse, List.map_reverse,
        List.reverse_reverse, List.map_fst_zip equalLengths.le,
        List.map_snd_zip equalLengths.le,
        nestBefore_vector moves innerPositive,
        nestBefore_vector moves innerPositive, Nat.not_lt]

/-- The chunks of a run are those the claim asks for. -/
theorem CollapseKeeps.handsOut (keeps : CollapseKeeps arguments run ranges)
    (valid : ∀ level ∈ arguments.nest, level.Valid) (sized : ∀ level ∈ arguments.nest, level.Sized)
    (small : total arguments.nest < 2 ^ 64) (nonempty : arguments.nest ≠ [])
    (fits : 0 < total arguments.nest → OuterFits arguments.nest) :
    HandsOut arguments.nest run := by
  have moves : ∀ level ∈ arguments.nest, level.stride ≠ 0 :=
    fun level member => (valid level member).nonzero
  have count := iterCount_lengths valid sized small
  have allotted := keeps.allotted
  rw [count] at allotted
  have covers : ∀ range ∈ ranges, ∀ number < total arguments.nest,
      (Covers arguments.nest
          (storeChunk (levels arguments.nest) range.1 range.2)
          (vector arguments.nest number) ↔ InRange range number) := by
    intro range member number below
    exact covers_iff valid sized small nonempty
      (fits (Nat.zero_lt_of_lt below)) (allotted.inside range member) below
  constructor
  case lengths =>
    rw [keeps.loopLenv, prod_lengths valid sized small, ncard_points moves]
  case disjoint =>
    rw [keeps.returned, List.pairwise_map]
    refine allotted.disjoint.imp_of_mem ?_
    intro earlier later inEarlier inLater apart point member both
    obtain ⟨number, below, rfl⟩ := (mem_points_iff moves).1 member
    exact apart number ⟨(covers earlier inEarlier number below).1 both.1,
      (covers later inLater number below).1 both.2⟩
  case complete =>
    intro all point member
    obtain ⟨number, below, rfl⟩ := (mem_points_iff moves).1 member
    have taken := keeps.taken_of_ended all (by rwa [keeps.iterCount_team, count])
    obtain ⟨range, inRanges, inRange⟩ := (allotted.covered number below).1 taken
    refine ⟨storeChunk (levels arguments.nest) range.1 range.2, ?_,
      (covers range inRanges number below).2 inRange⟩
    rw [keeps.returned]
    exact List.mem_map.2 ⟨range, inRanges, rfl⟩

@[simp]
theorem resolveCollapse_nest (runtime : RuntimeSchedule) (arguments : CollapseArguments) :
    (resolveCollapse runtime arguments).nest = arguments.nest := by
  unfold resolveCollapse
  split <;> rfl

/--
In every order of the calls of a team, the chunks of a collapsed nest are
disjoint, and cover the nest once every thread has been told that there is no
more; the lengths computed are those of the nest.
-/
theorem collapse_handsOut {runtime : RuntimeSchedule}
    (valid : ∀ level ∈ arguments.nest, level.Valid) (nonempty : arguments.nest ≠ [])
    (small : (points arguments.nest).ncard < 2 ^ 64) (sized : ∀ level ∈ arguments.nest, level.Sized)
    (fits : (points arguments.nest).Nonempty → OuterFits arguments.nest)
    (reached : Reachable
      (CollapseInitial (resolveCollapse runtime arguments))
      (RoomStep (resolveCollapse runtime arguments)) run) :
    HandsOut arguments.nest run := by
  have kept : ∃ ranges, CollapseKeeps (resolveCollapse runtime arguments) run ranges := by
    induction reached with
    | start initial => exact ⟨[], initial.keeps⟩
    | tail _ moved earlier =>
        obtain ⟨ranges, keeps⟩ := earlier
        exact keeps.step moved
  obtain ⟨ranges, keeps⟩ := kept
  have moves : ∀ level ∈ arguments.nest, level.stride ≠ 0 :=
    fun level member => (valid level member).nonzero
  have some : 0 < total arguments.nest → (points arguments.nest).Nonempty :=
    fun positive => ⟨vector arguments.nest 0,
      (mem_points_iff moves).2 ⟨0, positive, rfl⟩⟩
  rw [ncard_points moves] at small
  have handsOut := keeps.handsOut (by simpa using valid) (by simpa using sized)
    (by simpa using small) (by simpa using nonempty)
    (by simpa using fun positive => fits (some positive))
  rwa [resolveCollapse_nest] at handsOut

/-- A team of two threads that has not yet entered a nest. -/
def twoCollapsing : CollapseRecords where
  team := { teamSize := 2 }
  threads := fun _ => {}

/-- A loop that counts up below zero, and one that counts down. -/
def downBelowZero : CollapseArguments where
  schedtype := .dynamic
  chunk := 2
  nest :=
    [{ is64bit := false, lower := -3, upper := -2, stride := 1 },
      { is64bit := true, lower := 4, upper := 0, stride := -2 }]

/-- The first of the two threads has entered. -/
def enteredFirst (arguments : CollapseArguments) : CollapseRun where
  records := collapseInitTeam 0 arguments twoCollapsing
  entered := fun tid => decide (tid = 0)
  ended := fun _ => false
  returned := []

theorem enteredFirst_initial (arguments : CollapseArguments) :
    CollapseInitial arguments (enteredFirst arguments) :=
  ⟨twoCollapsing, 0, by decide, by decide, by decide, fun _ => rfl, rfl⟩

theorem downBelowZero_valid : ∀ level ∈ downBelowZero.nest, level.Valid := by
  intro level member
  simp only [downBelowZero, List.mem_cons, List.not_mem_nil, or_false] at member
  rcases member with rfl | rfl
  · exact ⟨by decide, by decide, by decide, by decide⟩
  · exact ⟨by decide, by decide, by decide, by decide⟩

/-- Two threads take a chunk each, of two iterations of six. -/
theorem collapse_handsOut_downBelowZero :
    ∃ run, run.returned =
        [[(4, 0), (-3, -3)], [(0, 2), (-3, -2)]] ∧
      HandsOut downBelowZero.nest run := by
  have start : Reachable (CollapseInitial (resolveCollapse {} downBelowZero))
      (RoomStep (resolveCollapse {} downBelowZero))
      (enteredFirst downBelowZero) := .start (enteredFirst_initial _)
  have both := start.tail ⟨.init 1, trivial, rfl⟩
  have first := both.tail ⟨.next 1, by decide, rfl⟩
  have second := first.tail ⟨.next 0, by decide, rfl⟩
  refine ⟨_, ?_, collapse_handsOut downBelowZero_valid (by decide) ?_ (by decide)
    ?_ second⟩
  · rfl
  · rw [ncard_points fun level member =>
      (downBelowZero_valid level member).nonzero]
    decide
  · intro _ outer head
    cases head
    decide

/-- A loop of 32 bits that counts from below zero to above it. -/
def acrossZero : CollapseArguments where
  schedtype := .staticEven
  chunk := 1
  nest := [{ is64bit := false, lower := -1, upper := 1, stride := 1 }]

theorem acrossZero_valid : ∀ level ∈ acrossZero.nest, level.Valid := by
  intro level member
  simp only [acrossZero, List.mem_singleton] at member
  subst member
  exact ⟨by decide, by decide, by decide, by decide⟩

/--
Read through the unsigned type, the lower bound is above the upper one: both
threads are told at once that there is no more, and three iterations are lost.
-/
theorem not_handsOut :
    ∃ run, Reachable (CollapseInitial (resolveCollapse {} acrossZero))
        (CollapseStep (resolveCollapse {} acrossZero)) run ∧
      (points acrossZero.nest).ncard = 3 ∧ run.returned = [] ∧
      (∀ tid < run.records.team.teamSize, run.ended tid = true) ∧
      ¬ HandsOut acrossZero.nest run := by
  have start : Reachable (CollapseInitial (resolveCollapse {} acrossZero))
      (CollapseStep (resolveCollapse {} acrossZero))
      (enteredFirst acrossZero) := .start (enteredFirst_initial _)
  have both := start.tail ⟨.init 1, rfl⟩
  have last := (both.tail ⟨.next 0, rfl⟩).tail ⟨.next 1, rfl⟩
  have count : (points acrossZero.nest).ncard = 3 := by
    rw [ncard_points fun level member =>
      (acrossZero_valid level member).nonzero]
    decide
  refine ⟨_, last, count, rfl, ?_, fun handsOut => ?_⟩
  · decide
  · have lengths := handsOut.lengths
    rw [count] at lengths
    exact absurd lengths (by decide)

end OpenUH.Libopenmp.Collapse
