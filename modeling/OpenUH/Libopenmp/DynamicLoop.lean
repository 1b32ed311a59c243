import OpenUH.Foundation.Fallible
import OpenUH.Foundation.Progression
import OpenUH.Libopenmp.Scheduler
import Mathlib.Algebra.Order.Field.Basic

/-!
# Exactly-once execution under the dynamic schedules

A team runs one loop: the threads call `__ompc_schedule_next` in any order
until the calls return 0.  Under DYNAMIC and GUIDED, ordered or not, each
call splits a first part off the iterations that remain.
-/

namespace OpenUH.Libopenmp.Scheduler

open Foundation.Fallible
open Foundation.Progression

/-- The schedule types served from the shared lower bound. -/
def OmpSched.Claimed (schedtype : OmpSched) : Prop :=
  schedtype = dynamic ∨ schedtype = guided ∨ schedtype = orderedDynamic ∨ schedtype = orderedGuided

/-- The iterations of a loop. -/
def loopIterations (lower upper stride : Int) : Set Int :=
  progression stride lower upper

/-- The iterations of a chunk, its upper bound clipped by the caller. -/
def chunkIterations (upper : Int) (chunk : Chunk) : Set Int :=
  progression chunk.stride chunk.lower (clip chunk.stride upper chunk.upper)

/-! ## Runs of calls -/

/-- One call: the descriptor it found, its result, and the caller's number. -/
structure CallRecord where
  thread : Nat
  before : OmpTeam
  result : NextResult
  orderedCount : Int

/-- The threads call `__ompc_schedule_next` in the order of the list. -/
def runCalls (width : OmpWidth) (mode : ExeMode) (root : TeamRecords) :
    TeamRecords → List Nat → List CallRecord
  | _, [] => []
  | own, tid :: calls =>
      match scheduleNext width mode tid root own with
      | .error _ => []
      | .ok (_, after, result) =>
          { thread := tid
            before := own.team
            result := result
            orderedCount := (after.threads tid).orderedCount } ::
            runCalls width mode root after calls

/-- The calls that returned 1. -/
def served (records : List CallRecord) : List CallRecord :=
  records.filter fun record => record.result.again

/-- The iterations one call hands to its thread. -/
def CallRecord.iterations (upper : Int) (record : CallRecord) : Set Int :=
  match record.result.chunk with
  | some chunk => chunkIterations upper chunk
  | none => ∅

/-- What the calls owe the loop they share. -/
structure HandsOutOnce (schedtype : OmpSched) (lower upper stride : Int)
    (firstNumber : Int) (records : List CallRecord) : Prop where
  inside : ∀ record ∈ served records,
    record.iterations upper ⊆ loopIterations lower upper stride
  disjoint : (served records).Pairwise fun earlier later =>
    Disjoint (earlier.iterations upper) (later.iterations upper)
  complete : (∃ record ∈ records, record.result.again = false) →
    ∀ iteration ∈ loopIterations lower upper stride,
      ∃ record ∈ served records, iteration ∈ record.iterations upper
  bounded : (served records).length ≤ (loopIterations lower upper stride).ncard
  stopped : records.Pairwise fun earlier later =>
    earlier.result.again = false → later.result.again = false
  numbers : isOrdered schedtype = true →
    (served records).map (·.orderedCount) =
      (List.range (served records).length).map
        fun position : Nat => firstNumber + position
  increasing : (served records).Pairwise fun earlier later =>
    ∀ before ∈ earlier.iterations upper, ∀ after ∈ later.iterations upper,
      Precedes stride before after

/-- No operation of a call on this descriptor overflows. -/
@[mk_iff]
structure CallFits (width : OmpWidth) (team : OmpTeam) : Prop where
  lower : width.Fits team.loopLowerBound
  upper : width.Fits team.loopUpperBound
  stride : width.Fits team.loopIncreament
  chunk : width.Fits team.chunkSize
  teams : (2 * team.teamSize : Int) < 2 ^ 31
  difference : width.Fits (team.loopUpperBound - team.loopLowerBound)
  quotient : width.Fits
    ((team.loopUpperBound - team.loopLowerBound).tdiv team.loopIncreament)
  tripCount :
    Within team.loopIncreament team.loopUpperBound team.loopLowerBound →
    width.Fits
      ((team.loopUpperBound - team.loopLowerBound).tdiv
        team.loopIncreament + 1)
  block :
    Within team.loopIncreament team.loopUpperBound team.loopLowerBound →
    width.Fits ((claimedChunk width team - 1) * team.loopIncreament) ∧
      width.Fits
        (team.loopLowerBound + (claimedChunk width team - 1) * team.loopIncreament)
  next :
    Within team.loopIncreament team.loopUpperBound team.loopLowerBound →
    width.Fits (claimedChunk width team * team.loopIncreament) ∧
      width.Fits
        (team.loopLowerBound + claimedChunk width team * team.loopIncreament)

instance (width : OmpWidth) (team : OmpTeam) : Decidable (CallFits width team) :=
  decidable_of_iff _ (callFits_iff width team).symm

/-- No value that a call on this descriptor compares or stores overflows. -/
structure ClaimFits (width : OmpWidth) (team : OmpTeam) : Prop where
  lower : width.Fits team.loopLowerBound
  upper : width.Fits team.loopUpperBound
  stride : width.Fits team.loopIncreament
  chunk : width.Fits team.chunkSize
  difference : width.Fits (team.loopUpperBound - team.loopLowerBound)
  block :
    Within team.loopIncreament team.loopUpperBound team.loopLowerBound →
    width.Fits
      (team.loopLowerBound + (claimedChunk width team - 1) * team.loopIncreament)
  next :
    Within team.loopIncreament team.loopUpperBound team.loopLowerBound →
    width.Fits
      (team.loopLowerBound + claimedChunk width team * team.loopIncreament)

variable {width : OmpWidth} {team : OmpTeam}

theorem CallFits.claimFits (fits : CallFits width team) : ClaimFits width team where
  lower := fits.lower
  upper := fits.upper
  stride := fits.stride
  chunk := fits.chunk
  difference := fits.difference
  block := fun within => (fits.block within).2
  next := fun within => (fits.next within).2

/-! ## One call -/

theorem readLocals_of_fits (fits : ClaimFits width team) :
    readLocals width team =
      { globalLower := team.loopLowerBound
        globalUpper := team.loopUpperBound
        incr := team.loopIncreament
        chunk := team.chunkSize } := by
  simp only [readLocals, OmpWidth.wrap_eq_of_fits fits.lower,
    OmpWidth.wrap_eq_of_fits fits.upper, OmpWidth.wrap_eq_of_fits fits.stride,
    OmpWidth.wrap_eq_of_fits fits.chunk]

/-- The sign of the quotient tells whether an iteration remains. -/
theorem quotient_neg_iff {lower upper stride : Int} (nonzero : stride ≠ 0) :
    ((upper - lower : Int) : ℚ) / stride < 0 ↔ ¬ Within stride upper lower := by
  unfold Within
  rw [div_neg_iff]
  by_cases upward : 0 < stride
  · have notDownward : ¬ stride < 0 := by omega
    simp only [upward, if_true, Int.cast_pos, Int.cast_lt_zero, notDownward,
      and_false, and_true, false_or]
    omega
  · have downward : stride < 0 := by omega
    simp only [upward, if_false, Int.cast_pos, Int.cast_lt_zero, downward,
      and_false, and_true, or_false]
    omega

theorem tripFlagNegative_iff (fits : ClaimFits width team) (nonzero : team.loopIncreament ≠ 0) :
    tripFlagNegative width (readLocals width team) = true ↔
      ¬ Within team.loopIncreament team.loopUpperBound
        team.loopLowerBound := by
  rw [tripFlagNegative, decide_eq_true_iff, readLocals_of_fits fits]
  simp only [OmpWidth.wrap_eq_of_fits fits.difference]
  exact quotient_neg_iff nonzero

/-- Every schedule hands out at least one iteration at a time. -/
theorem claimedChunk_pos (fits : ClaimFits width team) (positive : 1 ≤ team.chunkSize) :
    0 < claimedChunk width team := by
  have guided : ∀ divisor, 0 < guidedChunk width divisor (readLocals width team) := by
    intro divisor
    rw [readLocals_of_fits fits]
    simp only [guidedChunk]
    split
    · omega
    · simpa using Int.lt_of_lt_of_le Int.zero_lt_one positive
  unfold claimedChunk
  simp only
  split
  · exact guided _
  · exact guided _
  · rw [readLocals_of_fits fits]
    simpa using Int.lt_of_lt_of_le Int.zero_lt_one positive

/-- The descriptor after a call that returned 1. -/
def OmpTeam.claim (team : OmpTeam) (chunk : Int) : OmpTeam :=
  { team with
    loopLowerBound := team.loopLowerBound + chunk * team.loopIncreament
    scheduleCount :=
      if isOrdered team.scheduleType then
        team.scheduleCount + 1
      else
        team.scheduleCount }

/-- The stores of a call that returned 1. -/
def OmpTeam.chunkOf (team : OmpTeam) (chunk : Int) : Chunk where
  lower := team.loopLowerBound
  upper := team.loopLowerBound + (chunk - 1) * team.loopIncreament
  stride := team.loopIncreament

theorem nextClaimed_past (fits : ClaimFits width team) (nonzero : team.loopIncreament ≠ 0)
    (past : ¬ Within team.loopIncreament team.loopUpperBound team.loopLowerBound)
    (thread : OmpVThread) :
    nextClaimed width team thread = (team, thread, .noMore) := by
  have flag := (tripFlagNegative_iff fits nonzero).mpr past
  simp only [nextClaimed, flag, if_true]

theorem nextClaimed_within (fits : ClaimFits width team) (nonzero : team.loopIncreament ≠ 0)
    (within : Within team.loopIncreament team.loopUpperBound team.loopLowerBound)
    (thread : OmpVThread) :
    (nextClaimed width team thread).1 =
        team.claim (claimedChunk width team) ∧
      (nextClaimed width team thread).2.2 =
        { again := true
          chunk := some (team.chunkOf (claimedChunk width team)) } ∧
      (isOrdered team.scheduleType = true →
        (nextClaimed width team thread).2.1.orderedCount = width.wrap team.scheduleCount) := by
  have flag : tripFlagNegative width (readLocals width team) = false := by
    rw [Bool.eq_false_iff]
    intro negative
    exact (tripFlagNegative_iff fits nonzero).mp negative within
  have lowerLocal : (readLocals width team).globalLower =
      team.loopLowerBound := by rw [readLocals_of_fits fits]
  have strideLocal : (readLocals width team).incr =
      team.loopIncreament := by rw [readLocals_of_fits fits]
  unfold nextClaimed
  simp only [flag, Bool.false_eq_true, if_false, lowerLocal, strideLocal,
    OmpWidth.wrap_eq_of_fits (fits.block within),
    OmpWidth.wrap_eq_of_fits (fits.next within)]
  cases ordered : isOrdered team.scheduleType with
  | true | false => simp [OmpTeam.claim, OmpTeam.chunkOf, ordered]

/-- A thread of a team of two or more is served by `nextClaimed`. -/
theorem scheduleNext_claimed {mode : ExeMode} {root own : TeamRecords} {tid : Nat}
    (parallel : mode ≠ .sequential) (several : 2 ≤ own.team.teamSize)
    (claimed : own.team.scheduleType.Claimed) :
    scheduleNext width mode tid root own =
      .ok (root, own.store tid (nextClaimed width own.team (own.threads tid))) := by
  have inTeam : scheduleNext width mode tid root own =
      (scheduleNextTeam width tid own).map fun after => (root, after) := by
    cases mode with
    | sequential => exact absurd rfl parallel
    | normal => rfl
    | nested => rfl
  have notAlone : own.team.teamSize ≠ 1 := by omega
  rw [inTeam, scheduleNextTeam, if_neg notAlone]
  unfold nextBySchedule
  rcases claimed with type | type | type | type <;> rw [type] <;> rfl

/-! ## The run -/

/-- A claim takes at most one number. -/
theorem OmpTeam.claim_scheduleCount (team : OmpTeam) (chunk : Int) :
    team.scheduleCount ≤ (team.claim chunk).scheduleCount ∧
      (team.claim chunk).scheduleCount ≤ team.scheduleCount + 1 := by
  simp only [claim]
  split <;> omega

/-- The shape of a run: it stops at once, or serves a chunk and goes on. -/
theorem runCalls_cons {mode : ExeMode} {root own : TeamRecords} {tid : Nat}
    {calls : List Nat} (parallel : mode ≠ .sequential) (several : 2 ≤ own.team.teamSize)
    (claimed : own.team.scheduleType.Claimed) :
    runCalls width mode root own (tid :: calls) =
      { thread := tid
        before := own.team
        result := (nextClaimed width own.team (own.threads tid)).2.2
        orderedCount :=
          (nextClaimed width own.team (own.threads tid)).2.1.orderedCount } ::
        runCalls width mode root
          (own.store tid (nextClaimed width own.team (own.threads tid))).1 calls := by
  rw [runCalls, scheduleNext_claimed parallel several claimed]
  simp [TeamRecords.store]

theorem quotient_nonneg {lower upper stride : Int} (within : Within stride upper lower) :
    0 ≤ (upper - lower).tdiv stride := by
  unfold Within at within
  by_cases upward : 0 < stride
  · rw [if_pos upward] at within
    exact Int.tdiv_nonneg (by omega) upward.le
  · rw [if_neg upward] at within
    exact Int.tdiv_nonneg_of_nonpos_of_nonpos (by omega) (by omega)

/-- Claiming iterations takes them off the trip count. -/
theorem quotient_claim {lower upper stride chunk : Int}
    (nonzero : stride ≠ 0) (positive : 0 < chunk)
    (within : Within stride upper (lower + chunk * stride)) :
    (upper - lower).tdiv stride = (upper - (lower + chunk * stride)).tdiv stride + chunk := by
  have quotients : ∀ rest step : Int, 0 < step → 0 ≤ rest →
      (rest + chunk * step).tdiv step = rest.tdiv step + chunk := by
    intro rest step stepPositive nonneg
    have claimed : 0 ≤ chunk * step := Int.mul_nonneg positive.le stepPositive.le
    rw [Int.tdiv_eq_ediv_of_nonneg nonneg, Int.tdiv_eq_ediv_of_nonneg (by omega)]
    exact Int.add_mul_ediv_right rest chunk (by omega)
  unfold Within at within
  by_cases upward : 0 < stride
  · rw [if_pos upward] at within
    have rest := quotients (upper - (lower + chunk * stride)) stride upward (by omega)
    rwa [show upper - (lower + chunk * stride) + chunk * stride = upper - lower by ring] at rest
  · rw [if_neg upward] at within
    have rest := quotients (-(upper - (lower + chunk * stride))) (-stride) (by omega) (by omega)
    rwa [show -(upper - (lower + chunk * stride)) + chunk * -stride =
        -(upper - lower) by ring,
      Int.neg_tdiv_neg, Int.neg_tdiv_neg] at rest

/-- A nonnegative value below one that fits also fits. -/
theorem OmpWidth.Fits.of_le {small large : Int}
    (fits : width.Fits large) (nonneg : 0 ≤ small) (le : small ≤ large) :
    width.Fits small := by
  unfold Fits at *
  omega

variable {records : List CallRecord}

theorem served_cons_again {record : CallRecord} (again : record.result.again = true) :
    served (record :: records) = record :: served records := by
  simp [served, again]

theorem served_cons_noMore {record : CallRecord} (noMore : record.result.again = false) :
    served (record :: records) = served records := by
  simp [served, noMore]

/-- Before a call that finds nothing left, nothing was left to complete. -/
theorem HandsOutOnce.cons_past {schedtype : OmpSched} {lower upper stride number : Int}
    {record : CallRecord} (nonzero : stride ≠ 0) (past : ¬ Within stride upper lower)
    (noMore : record.result.again = false)
    (rest : HandsOutOnce schedtype lower upper stride number records) :
    HandsOutOnce schedtype lower upper stride number (record :: records) := by
  have empty : loopIterations lower upper stride = ∅ := progression_eq_empty nonzero past
  have servedNone : served records = [] := by
    apply List.eq_nil_of_length_eq_zero
    have bounded := rest.bounded
    rw [empty, Set.ncard_empty] at bounded
    omega
  constructor
  · rw [served_cons_noMore noMore]
    exact rest.inside
  · rw [served_cons_noMore noMore]
    exact rest.disjoint
  · intro _ iteration member
    rw [empty] at member
    exact absurd member (Set.notMem_empty iteration)
  · rw [served_cons_noMore noMore]
    exact rest.bounded
  · rw [List.pairwise_cons]
    refine ⟨?_, rest.stopped⟩
    intro later member _
    have notServed : later ∉ served records := by
      rw [servedNone]
      exact List.not_mem_nil
    simpa [served, member] using notServed
  · rw [served_cons_noMore noMore]
    exact rest.numbers
  · rw [served_cons_noMore noMore]
    exact rest.increasing

/-- A call that claims the first iterations, and a run on what remains. -/
theorem HandsOutOnce.cons_within {schedtype : OmpSched} {lower upper stride number chunk : Int}
    {record : CallRecord} (next : Int)
    (nonzero : stride ≠ 0) (positive : 0 < chunk) (within : Within stride upper lower)
    (again : record.result.again = true)
    (iterations : record.iterations upper =
      progression stride lower (clip stride upper (lower + (chunk - 1) * stride)))
    (numbered : isOrdered schedtype = true → record.orderedCount = number ∧ next = number + 1)
    (rest : HandsOutOnce schedtype (lower + chunk * stride) upper stride next records) :
    HandsOutOnce schedtype lower upper stride number (record :: records) := by
  have split : loopIterations lower upper stride =
      record.iterations upper ∪ loopIterations (lower + chunk * stride) upper stride := by
    rw [iterations]
    exact progression_split nonzero positive
  have ordered : ∀ before ∈ record.iterations upper,
      ∀ after ∈ loopIterations (lower + chunk * stride) upper stride,
        Precedes stride before after := by
    intro before inFirst after inRest
    rw [iterations] at inFirst
    exact precedes_of_split nonzero inFirst inRest
  have laterOrdered : ∀ later ∈ served records,
      ∀ before ∈ record.iterations upper, ∀ after ∈ later.iterations upper,
        Precedes stride before after := by
    intro later member before inFirst after inLater
    exact ordered before inFirst after (rest.inside later member inLater)
  constructor
  · rw [served_cons_again again]
    intro other member
    rw [split]
    rcases List.mem_cons.mp member with rfl | later
    · exact Set.subset_union_left
    · exact (rest.inside other later).trans Set.subset_union_right
  · rw [served_cons_again again, List.pairwise_cons]
    refine ⟨?_, rest.disjoint⟩
    intro later member
    exact disjoint_of_precedes (laterOrdered later member)
  · rintro ⟨stopping, member, noMore⟩ iteration inLoop
    rw [served_cons_again again]
    rw [split] at inLoop
    rcases inLoop with inFirst | inRest
    · exact ⟨record, by simp, inFirst⟩
    · rcases List.mem_cons.mp member with rfl | later
      · rw [again] at noMore
        cases noMore
      · obtain ⟨other, otherServed, inOther⟩ :=
          rest.complete ⟨stopping, later, noMore⟩ iteration inRest
        exact ⟨other, by simp [otherServed], inOther⟩
  · rw [served_cons_again again, List.length_cons]
    exact Nat.succ_le_of_lt (Nat.lt_of_le_of_lt rest.bounded (ncard_split nonzero positive within))
  · rw [List.pairwise_cons]
    refine ⟨?_, rest.stopped⟩
    intro later _ noMore
    rw [again] at noMore
    cases noMore
  · intro isOrderedType
    obtain ⟨numberHere, numberNext⟩ := numbered isOrderedType
    rw [served_cons_again again, List.map_cons, List.length_cons,
      List.range_succ_eq_map, List.map_cons, List.map_map,
      numberHere, rest.numbers isOrderedType, numberNext]
    refine congrArg₂ List.cons (by simp) ?_
    apply List.map_congr_left
    intro position _
    simp only [Function.comp_apply]
    omega
  · rw [served_cons_again again, List.pairwise_cons]
    exact ⟨laterOrdered, rest.increasing⟩

/-- Any run from a descriptor whose numbers so far leave room for the rest. -/
theorem runCalls_handsOutOnce (width : OmpWidth) {mode : ExeMode} (root : TeamRecords)
    (parallel : mode ≠ .sequential) (calls : List Nat) :
    ∀ own : TeamRecords,
      2 ≤ own.team.teamSize →
      own.team.scheduleType.Claimed →
      own.team.loopIncreament ≠ 0 →
      1 ≤ own.team.chunkSize →
      0 ≤ own.team.scheduleCount →
      (Within own.team.loopIncreament own.team.loopUpperBound
          own.team.loopLowerBound →
        width.Fits
          (own.team.scheduleCount +
            (own.team.loopUpperBound - own.team.loopLowerBound).tdiv own.team.loopIncreament + 1)) →
      (∀ record ∈ runCalls width mode root own calls, ClaimFits width record.before) →
      HandsOutOnce own.team.scheduleType own.team.loopLowerBound
        own.team.loopUpperBound own.team.loopIncreament
        own.team.scheduleCount (runCalls width mode root own calls) := by
  induction calls with
  | nil =>
      intro own _ _ _ _ _ _ _
      constructor <;> simp [runCalls, served]
  | cons tid calls ih =>
      intro own several claimed nonzero positive counted room fits
      rw [runCalls_cons parallel several claimed] at fits ⊢
      have here : ClaimFits width own.team := fits _ List.mem_cons_self
      by_cases within : Within own.team.loopIncreament own.team.loopUpperBound
          own.team.loopLowerBound
      · obtain ⟨claim, result, number⟩ :=
          nextClaimed_within here nonzero within (own.threads tid)
        have chunkPositive : 0 < claimedChunk width own.team := claimedChunk_pos here positive
        have trips := quotient_nonneg within
        obtain ⟨numberKept, numberTaken⟩ :=
          own.team.claim_scheduleCount (claimedChunk width own.team)
        have nextRoom :
            Within own.team.loopIncreament own.team.loopUpperBound
              (own.team.loopLowerBound + claimedChunk width own.team * own.team.loopIncreament) →
            width.Fits
              ((own.team.claim (claimedChunk width own.team)).scheduleCount +
                (own.team.loopUpperBound -
                  (own.team.loopLowerBound +
                    claimedChunk width own.team * own.team.loopIncreament)).tdiv
                  own.team.loopIncreament + 1) := by
          intro nextWithin
          have fewer := quotient_claim nonzero chunkPositive nextWithin
          have nextTrips := quotient_nonneg nextWithin
          exact (room within).of_le (by omega) (by omega)
        have rest := ih (own.store tid (nextClaimed width own.team (own.threads tid))).1
        have stored :
            (own.store tid
              (nextClaimed width own.team (own.threads tid))).1.team =
              own.team.claim (claimedChunk width own.team) := claim
        rw [stored] at rest
        apply HandsOutOnce.cons_within
          (own.team.claim (claimedChunk width own.team)).scheduleCount
          nonzero chunkPositive within
        · rw [result]
        · simp only [CallRecord.iterations, result, chunkIterations, OmpTeam.chunkOf]
        · intro isOrderedType
          refine ⟨?_, by simp [OmpTeam.claim, isOrderedType]⟩
          rw [number isOrderedType]
          apply OmpWidth.wrap_eq_of_fits
          exact (room within).of_le counted (by omega)
        · exact rest several claimed nonzero positive (by omega) nextRoom
            fun record member => fits record (List.mem_cons_of_mem _ member)
      · have stopped := nextClaimed_past here nonzero within (own.threads tid)
        have rest := ih (own.store tid (nextClaimed width own.team (own.threads tid))).1
        rw [stopped] at rest fits ⊢
        exact HandsOutOnce.cons_past nonzero within rfl
          (rest several claimed nonzero positive counted room
            fun record member => fits record (List.mem_cons_of_mem _ member))

@[simp]
theorem resolveSchedule_bounds (runtime : RuntimeSchedule) (arguments : LoopArguments) :
    (resolveSchedule runtime arguments).lower = arguments.lower ∧
      (resolveSchedule runtime arguments).upper = arguments.upper ∧
      (resolveSchedule runtime arguments).stride = arguments.stride := by
  unfold resolveSchedule
  split <;> exact ⟨rfl, rfl, rfl⟩

/-- The descriptor the first thread to arrive leaves for the calls. -/
theorem schedulerInit_first (runtime : RuntimeSchedule) {mode : ExeMode} {first : Nat}
    (arguments : LoopArguments) (root : TeamRecords) {own : TeamRecords}
    (parallel : mode ≠ .sequential) (several : 2 ≤ own.team.teamSize)
    (arrival : own.team.loopCount < (own.threads first).loopCount + 1) :
    (schedulerInit runtime mode first arguments root own).2.team =
      own.team.describe (resolveSchedule runtime arguments) := by
  have inTeam : (schedulerInit runtime mode first arguments root own).2 =
      schedulerInitTeam first (resolveSchedule runtime arguments) own := by
    cases mode with
    | sequential => exact absurd rfl parallel
    | normal => rfl
    | nested => rfl
  have notAlone : own.team.teamSize ≠ 1 := by omega
  have behind : ¬ own.team.loopCount ≥ (own.threads first).loopCount + 1 := by
    omega
  rw [inTeam]
  simp only [schedulerInitTeam, notAlone, if_false, behind]

/--
The first thread to arrive describes the loop, and the calls that follow hand
out each of its iterations once.
-/
theorem scheduleNext_handsOutOnce (width : OmpWidth) (runtime : RuntimeSchedule) (mode : ExeMode)
    (root own : TeamRecords) (first : Nat) (arguments : LoopArguments) (calls : List Nat)
    (parallel : mode ≠ .sequential) (several : 2 ≤ own.team.teamSize)
    (arrival : own.team.loopCount < (own.threads first).loopCount + 1)
    (claimed : (resolveSchedule runtime arguments).schedtype.Claimed)
    (nonzero : arguments.stride ≠ 0) (positive : 1 ≤ (resolveSchedule runtime arguments).chunk)
    (fits : ∀ record ∈ runCalls width mode root
        (schedulerInit runtime mode first arguments root own).2 calls,
      CallFits width record.before) :
    HandsOutOnce (resolveSchedule runtime arguments).schedtype
      arguments.lower arguments.upper arguments.stride 0
      (runCalls width mode root
        (schedulerInit runtime mode first arguments root own).2 calls) := by
  have described := schedulerInit_first runtime arguments root parallel
    several arrival
  obtain ⟨lower, upper, stride⟩ := resolveSchedule_bounds runtime arguments
  generalize (schedulerInit runtime mode first arguments root own).2 = start at described fits ⊢
  generalize resolveSchedule runtime arguments = loop at *
  rw [← lower, ← upper, ← stride]
  cases calls with
  | nil => constructor <;> simp [runCalls, served]
  | cons tid calls =>
      have startSeveral : 2 ≤ start.team.teamSize := by
        rw [described]
        exact several
      have startClaimed : start.team.scheduleType.Claimed := by
        rw [described]
        exact claimed
      have firstFits : CallFits width start.team := by
        apply fits
          { thread := tid
            before := start.team
            result := _
            orderedCount := _ }
        rw [runCalls_cons parallel startSeveral startClaimed]
        exact List.mem_cons_self
      have run := runCalls_handsOutOnce width root parallel (tid :: calls)
        start startSeveral startClaimed
      rw [described] at run firstFits
      apply run
      · change loop.stride ≠ 0
        rw [stride]
        exact nonzero
      · exact positive
      · exact Int.le_refl 0
      · intro within
        have room := firstFits.tripCount within
        simpa [OmpTeam.describe] using room
      · exact fun record member => (fits record member).claimFits

/-- A team of two threads before its first loop. -/
def twoThreads : TeamRecords where
  team := { teamSize := 2 }
  threads := fun _ => {}

/-- `for (i = 10; i >= 0; i -= 3)`, two iterations at a time. -/
def countDown : LoopArguments where
  schedtype := .orderedDynamic
  lower := 10
  upper := 0
  stride := -3
  chunk := 2

theorem countDown_fits :
    ∀ record ∈ runCalls .four .normal twoThreads
        (schedulerInit {} .normal 1 countDown twoThreads twoThreads).2
        [1, 0, 1, 0],
      CallFits .four record.before := by
  decide +kernel

theorem scheduleNext_handsOutOnce_countDown :
    HandsOutOnce .orderedDynamic 10 0 (-3) 0
      (runCalls .four .normal twoThreads
        (schedulerInit {} .normal 1 countDown twoThreads twoThreads).2
        [1, 0, 1, 0]) :=
  scheduleNext_handsOutOnce .four {} .normal twoThreads twoThreads 1 countDown
    [1, 0, 1, 0] (by decide) (by decide) (by decide)
    (Or.inr (Or.inr (Or.inl rfl))) (by decide) (by decide) countDown_fits

end OpenUH.Libopenmp.Scheduler
