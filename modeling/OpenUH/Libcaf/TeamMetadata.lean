import OpenUH.Foundation.Fallible
import OpenUH.Libcaf.SubteamSetup
import Mathlib.Tactic.Ring

/-!
# Metadata and barrier set-up of a new team

The part of `_FORM_TEAM` that follows the placement: the loop that computes
`current_log2_images` and `current_rem_images`, the size of the symmetric
`barrier.bstep` array, and the rounds the flat and the 2-level branch write
into it.

The loop tests a function-level `static int first`, which outlives the call.
It is the state that one FORM TEAM statement hands to the next.
-/

namespace OpenUH.Libcaf.TeamFormation

open Foundation.Fallible

/-- `team_barrier_t`. -/
inductive TeamBarrierAlgorithm where
  | dissem
  | twoLevelMultiflag
  | twoLevelSharedcounter
deriving DecidableEq, Repr

/-- Whether only the leader of each node joins the dissemination. -/
def TeamBarrierAlgorithm.nodeAware : TeamBarrierAlgorithm → Bool
  | dissem => false
  | twoLevelMultiflag => true
  | twoLevelSharedcounter => true

/-- The `static` variable of `_FORM_TEAM`, one for each image. -/
structure FormTeamStatics where
  first : Bool
deriving DecidableEq, Repr

/-- The value `static int first = 1` has when the process starts. -/
def initialStatics : FormTeamStatics where
  first := true

/-- One write to `barrier.bstep[index]`; `none` is a read outside an array. -/
structure BarrierWrite where
  index : Nat
  target : Option Int
  source : Option Int
deriving DecidableEq, Repr

/-- The new record with the allocated and the written barrier rounds. -/
structure FormedTeam where
  team : Team
  numSteps : Nat
  writes : List BarrierWrite
deriving DecidableEq, Repr

/-- One FORM TEAM statement, with the list its exchange leaves behind. -/
structure FormTeamCall where
  currentTeam : Team
  teamId : Int
  newIndex : Int
  infoList : List TeamInfo
  itemCounts : infoList.length < 2 ^ 31
  own : infoList[currentTeam.currentThisImage - 1]? =
    some { teamId := teamId, index := newIndex }

/-! ## The source functions -/

/-- The loop over `n`: the values left in `first`, `log2_procs` and `m`. -/
def log2Loop (first : Bool) (n log2Procs m : Nat) : Bool × Nat × Nat :=
  if 0 < n then
    if first then
      log2Loop false (n / 2) log2Procs m
    else
      log2Loop false (n / 2) (log2Procs + 1) (m * 2)
  else
    (first, log2Procs, m)
termination_by n

/-- Conversion of a `long` to `unsigned long`. -/
def toUnsignedLong (value : Int) : Nat :=
  (value % 2 ^ 64).toNat

/-- The two log2 fields, and what the loop leaves in `first`. -/
def setLog2Fields (statics : FormTeamStatics) (newTeam : Team) : FormTeamStatics × Team :=
  let loop := log2Loop statics.first newTeam.currentNumImages 0 1
  ({ first := loop.1 },
    { newTeam with
      currentLog2Images := loop.2.1
      currentRemImages :=
        toUnsignedLong ((newTeam.currentNumImages : Int) - loop.2.2) })

/-- The maximum subteam size `sz`. -/
def maxSubteamSize (newTeam : Team) : Nat :=
  newTeam.siblingList.foldl
    (fun sz subteam => if subteam.numImages > sz then subteam.numImages else sz)
    newTeam.currentNumImages

/-- `(int) ceil(log2((double) count))` for a positive `count`. -/
def ceilLog2 (count : Nat) : Nat :=
  Nat.clog 2 count

/-- A read of `array[index]` with an `int` index. -/
def readArray (array : List Int) (index : Int) : Option Int :=
  if 0 ≤ index then array[index.toNat]? else none

/-- Round `i` of the leader branch: partners at distance `2 ^ i`. -/
def leaderRound (leaderSet : List Int) (leaderRank leadersCount i : Nat) :
    BarrierWrite where
  index := i
  target := readArray leaderSet
    (((leaderRank : Int) + 2 ^ i).tmod leadersCount)
  source := readArray leaderSet
    (((leaderRank : Int) - 2 ^ i + leadersCount).tmod leadersCount)

/-- Round `i` of the flat branch. -/
def flatRound (mapping : List Int) (rank nums i : Nat) : BarrierWrite where
  index := i
  target := readArray mapping (((rank : Int) + 2 ^ i).tmod nums)
  source := readArray mapping (((rank : Int) - 2 ^ i + nums).tmod nums)

/-- The position of `my_proc` among the leaders, 0 when it is not there. -/
def leaderRank (newTeam : Team) (myProc : Int) : Nat :=
  ((newTeam.leaderSet.take newTeam.leadersCount).findIdx?
    (· = myProc)).getD 0

/-- `num_flags` of the flat branch. -/
def flatNumFlags (newTeam : Team) : Nat :=
  if newTeam.currentRemImages ≠ 0 then
    newTeam.currentLog2Images + 1
  else
    newTeam.currentLog2Images

/-- The precomputed synchronization information, in the order written. -/
def barrierWrites (algorithm : TeamBarrierAlgorithm) (newTeam : Team)
    (myProc leader : Int) : List BarrierWrite :=
  if algorithm.nodeAware then
    if myProc = leader then
      (List.range (1 + ceilLog2 newTeam.leadersCount)).map
        (leaderRound newTeam.leaderSet (leaderRank newTeam myProc)
          newTeam.leadersCount)
    else
      []
  else
    (List.range (flatNumFlags newTeam)).map
      (flatRound newTeam.codimensionMapping (newTeam.currentThisImage - 1)
        newTeam.currentNumImages)

/-- What follows the placement in `_FORM_TEAM`. -/
def setupMetadata (algorithm : TeamBarrierAlgorithm) (statics : FormTeamStatics) (placed : Team) :
    Except Fault (FormTeamStatics × FormedTeam) :=
  match placed.codimensionMapping[placed.currentThisImage - 1]?,
      placed.intranodeSet[0]? with
  | some myProc, some leader =>
      .ok ((setLog2Fields statics placed).1,
        { team := (setLog2Fields statics placed).2
          numSteps := ceilLog2 (maxSubteamSize placed)
          writes := barrierWrites algorithm
            (setLog2Fields statics placed).2 myProc leader })
  | _, _ => .error .outOfBounds

/-- `__setup_subteams` and `__place_codimension_mapping` of one statement. -/
def placeSubteam (nodeId : Int → Nat) (totalNumSupernodes : Nat)
    (call : FormTeamCall) : Except Fault Team :=
  placeCodimensionMapping nodeId totalNumSupernodes call.currentTeam
    call.infoList (setupSubteams call.infoList call.teamId)

/-- `_FORM_TEAM` on one image, after the exchange of the team infos. -/
def formTeam (algorithm : TeamBarrierAlgorithm) (nodeId : Int → Nat) (totalNumSupernodes : Nat)
    (statics : FormTeamStatics) (call : FormTeamCall) :
    Except Fault (FormTeamStatics × FormedTeam) :=
  if call.teamId ≤ 0 then
    .error
      (.error "TEAM_ID argument must be positive for FORM TEAM statement")
  else
    (placeSubteam nodeId totalNumSupernodes call).bind
      (setupMetadata algorithm statics)

/-- The teams an image forms one after the other, until an Error ends it. -/
def formTeams (algorithm : TeamBarrierAlgorithm) (nodeId : Int → Nat) (totalNumSupernodes : Nat) :
    FormTeamStatics → List FormTeamCall → List (FormTeamCall × FormedTeam)
  | _, [] => []
  | statics, call :: calls =>
      match formTeam algorithm nodeId totalNumSupernodes statics call with
      | .error _ => []
      | .ok (after, formed) =>
          (call, formed) :: formTeams algorithm nodeId totalNumSupernodes after calls

/-! ## What the metadata should be -/

/-- The fields and the barrier rounds FORM TEAM owes a team. -/
structure MetadataCorrect (algorithm : TeamBarrierAlgorithm)
    (formed : FormedTeam) : Prop where
  log2Images : formed.team.currentLog2Images = Nat.log 2 formed.team.currentNumImages
  remImages : formed.team.currentRemImages =
    formed.team.currentNumImages - 2 ^ Nat.log 2 formed.team.currentNumImages
  rounds : algorithm.nodeAware = false →
    formed.writes.length = Nat.clog 2 formed.team.currentNumImages
  inside : ∀ write ∈ formed.writes, write.index < formed.numSteps

/-- This image is the first member of the team on its node. -/
def LeadsNode (placed : Team) : Prop :=
  placed.codimensionMapping[placed.currentThisImage - 1]? = placed.intranodeSet[0]?

/--
The leaders' rounds fit into `bstep`: some team of the statement is larger
than the power of two the leaders are rounded up to.
-/
def LeaderRoundsFit (algorithm : TeamBarrierAlgorithm) (placed : Team) : Prop :=
  algorithm.nodeAware = true → LeadsNode placed →
    2 ^ ceilLog2 placed.leadersCount < maxSubteamSize placed

/-! ## The log2 loop -/

theorem log2Loop_later (n log2Procs m : Nat) :
    log2Loop false n log2Procs m =
      if n = 0 then
        (false, log2Procs, m)
      else
        (false, log2Procs + (Nat.log 2 n + 1), m * 2 ^ (Nat.log 2 n + 1)) := by
  induction n using Nat.strong_induction_on generalizing log2Procs m with
  | _ n ih =>
      rw [log2Loop]
      by_cases zero : n = 0
      · simp [zero]
      · have smaller : n / 2 < n := by omega
        rw [if_pos (Nat.pos_of_ne_zero zero), if_neg Bool.false_ne_true,
          ih (n / 2) smaller, if_neg zero]
        by_cases one : n = 1
        · simp [one]
        · have half : n / 2 ≠ 0 := by omega
          have step : Nat.log 2 n = Nat.log 2 (n / 2) + 1 :=
            Nat.log_of_one_lt_of_le (by omega) (by omega)
          rw [if_neg half, step]
          refine Prod.ext rfl (Prod.ext ?_ ?_)
          · simp only
            omega
          · simp only
            rw [pow_succ, pow_succ, pow_succ]
            ring

/-- The first call skips one doubling, which makes the count the floor. -/
theorem log2Loop_first {n : Nat} (positive : 0 < n) :
    log2Loop true n 0 1 = (false, Nat.log 2 n, 2 ^ Nat.log 2 n) := by
  rw [log2Loop, if_pos positive, if_pos rfl, log2Loop_later]
  by_cases one : n = 1
  · simp [one]
  · have half : n / 2 ≠ 0 := by omega
    have step : Nat.log 2 n = Nat.log 2 (n / 2) + 1 := Nat.log_of_one_lt_of_le (by omega) (by omega)
    rw [if_neg half, step]
    simp

/-- Whatever `first` was, the loop over a positive count clears it. -/
theorem log2Loop_clears {n : Nat} (positive : 0 < n) (first : Bool) (log2Procs m : Nat) :
    (log2Loop first n log2Procs m).1 = false := by
  cases first with
  | true =>
      rw [log2Loop, if_pos positive, if_pos rfl, log2Loop_later]
      split <;> rfl
  | false =>
      rw [log2Loop_later]
      split <;> rfl

/-- The rounds of a dissemination among `n` images, from the two fields. -/
theorem clog_eq_log_add {n : Nat} (positive : 0 < n) :
    Nat.clog 2 n =
      if n - 2 ^ Nat.log 2 n ≠ 0 then Nat.log 2 n + 1 else Nat.log 2 n := by
  have lower : 2 ^ Nat.log 2 n ≤ n := Nat.pow_log_le_self 2 (Nat.pos_iff_ne_zero.mp positive)
  have upper : n < 2 ^ (Nat.log 2 n + 1) := Nat.lt_pow_succ_log_self (by decide) n
  by_cases exactPower : n - 2 ^ Nat.log 2 n = 0
  · rw [if_neg (not_not.mpr exactPower)]
    have power : n = 2 ^ Nat.log 2 n := by omega
    conv_lhs => rw [power]
    exact Nat.clog_pow 2 _ (by decide)
  · rw [if_pos exactPower]
    apply Nat.le_antisymm
    · exact Nat.clog_le_of_le_pow upper.le
    · exact (Nat.lt_clog_iff_pow_lt (by decide)).mpr (by omega)

/-! ## Sizes of the new teams -/

/-- The placement fills the mappings and leaves the counts alone. -/
def SameCount (before after : Team) : Prop :=
  after.currentNumImages = before.currentNumImages

theorem placeAsserted_currentNumImages (before : Team) (member : TeamInfo × Int) (after : Team)
    (placed : placeAsserted before member = .ok after) :
    SameCount before after := by
  unfold placeAsserted at placed
  split at placed
  · split at placed
    · split at placed
      · cases placed
      · obtain ⟨mapping, -, rfl⟩ := map_eq_ok.mp placed
        rfl
    · split at placed
      · cases placed
      · split at placed
        · cases placed
        · obtain ⟨mapping, -, rfl⟩ := map_eq_ok.mp placed
          rfl
  · cases placed
    rfl

theorem placeUnasserted_currentNumImages (before : Team) (member : TeamInfo × Int) (after : Team)
    (placed : placeUnasserted before member = .ok after) :
    SameCount before after := by
  unfold placeUnasserted at placed
  split at placed
  · split at placed
    · obtain ⟨mapping, -, rfl⟩ := map_eq_ok.mp placed
      rfl
    · split at placed
      · cases placed
      · obtain ⟨mapping, -, rfl⟩ := map_eq_ok.mp placed
        rfl
  · cases placed
    rfl

variable {totalNumSupernodes : Nat} {nodeId : Int → Nat}

theorem placeCodimensionMapping_currentNumImages
    {currentTeam newTeam after : Team} {infoList : List TeamInfo}
    (placed : placeCodimensionMapping nodeId totalNumSupernodes currentTeam
      infoList newTeam = .ok after) :
    after.currentNumImages = newTeam.currentNumImages := by
  obtain ⟨found, foundOk, leadersOk⟩ := bind_eq_ok.mp placed
  obtain ⟨leaders, -, rfl⟩ := map_eq_ok.mp leadersOk
  obtain ⟨second, passes, lookup⟩ := bind_eq_ok.mp foundOk
  obtain ⟨first, firstOk, secondOk⟩ := bind_eq_ok.mp passes
  have firstCount : first.currentNumImages = newTeam.currentNumImages :=
    foldlM_induction SameCount (fun _ => rfl)
      (fun _ _ _ left right => Eq.trans right left)
      placeAsserted_currentNumImages firstOk
  have secondCount : second.currentNumImages = first.currentNumImages :=
    foldlM_induction SameCount (fun _ => rfl)
      (fun _ _ _ left right => Eq.trans right left)
      placeUnasserted_currentNumImages secondOk
  have lookupCount : found.currentNumImages = second.currentNumImages := by
    split at lookup
    · cases lookup
    · cases lookup
      rfl
  calc
    found.currentNumImages = second.currentNumImages := lookupCount
    _ = first.currentNumImages := secondCount
    _ = newTeam.currentNumImages := firstCount

variable {call : FormTeamCall} {placed : Team}

/-- A new team holds as many images as chose its id: some, but few. -/
theorem placeSubteam_currentNumImages
    (placedOk : placeSubteam nodeId totalNumSupernodes call = .ok placed) :
    0 < placed.currentNumImages ∧ placed.currentNumImages < 2 ^ 31 := by
  have member : ({ teamId := call.teamId, index := call.newIndex } : TeamInfo) ∈ call.infoList :=
    List.mem_of_getElem? call.own
  have positive : 0 < teamCount call.infoList call.teamId := teamCount_pos_of_mem member
  have count : placed.currentNumImages = teamCount call.infoList call.teamId :=
    (placeCodimensionMapping_currentNumImages placedOk).trans
      (setupSubteams_own call.infoList call.teamId positive).2.1
  have bounded : teamCount call.infoList call.teamId ≤ call.infoList.length := List.countP_le_length
  have itemCounts := call.itemCounts
  omega

theorem le_maxSubteamSize (newTeam : Team) : newTeam.currentNumImages ≤ maxSubteamSize newTeam := by
  have loop : ∀ (siblings : List HashedCdMapping) (sz : Nat), sz ≤ siblings.foldl (fun sz subteam =>
          if subteam.numImages > sz then subteam.numImages else sz) sz := by
    intro siblings
    induction siblings with
    | nil => exact fun sz => Nat.le_refl sz
    | cons subteam siblings ih =>
        intro sz
        refine Nat.le_trans ?_ (ih _)
        by_cases larger : subteam.numImages > sz
        · simpa [larger] using larger.le
        · simp [larger]
  exact loop newTeam.siblingList newTeam.currentNumImages

/-! ## One statement -/

/-- The fields of the first statement of a process. -/
theorem setLog2Fields_first (positive : 0 < placed.currentNumImages)
    (bounded : placed.currentNumImages < 2 ^ 31) :
    setLog2Fields initialStatics placed =
      ({ first := false },
        { placed with
          currentLog2Images := Nat.log 2 placed.currentNumImages
          currentRemImages :=
            placed.currentNumImages - 2 ^ Nat.log 2 placed.currentNumImages }) := by
  have lower : 2 ^ Nat.log 2 placed.currentNumImages ≤ placed.currentNumImages :=
    Nat.pow_log_le_self 2 (Nat.pos_iff_ne_zero.mp positive)
  have converted :
      toUnsignedLong ((placed.currentNumImages : Int) -
          (2 ^ Nat.log 2 placed.currentNumImages : Nat)) =
        placed.currentNumImages - 2 ^ Nat.log 2 placed.currentNumImages := by
    unfold toUnsignedLong
    generalize 2 ^ Nat.log 2 placed.currentNumImages = m at lower
    omega
  simp only [setLog2Fields, initialStatics, log2Loop_first positive, converted]

/-- Every later statement counts one doubling too many. -/
theorem setLog2Fields_later (positive : 0 < placed.currentNumImages) :
    (setLog2Fields { first := false } placed).2.currentLog2Images =
      Nat.log 2 placed.currentNumImages + 1 := by
  have nonzero : placed.currentNumImages ≠ 0 := Nat.pos_iff_ne_zero.mp positive
  simp [setLog2Fields, log2Loop_later, nonzero]

/-- The rounds written fit exactly when the last of them does. -/
theorem rounds_inside {round : Nat → BarrierWrite}
    (indexed : ∀ i, (round i).index = i) (count numSteps : Nat) :
    (∀ write ∈ (List.range count).map round, write.index < numSteps) ↔ count ≤ numSteps := by
  constructor
  · intro inside
    by_contra excess
    have last : round numSteps ∈ (List.range count).map round :=
      List.mem_map_of_mem (List.mem_range.mpr (Nat.lt_of_not_le excess))
    have below := inside _ last
    rw [indexed] at below
    exact Nat.lt_irrefl _ below
  · intro enough write member
    obtain ⟨i, inRange, rfl⟩ := List.mem_map.mp member
    rw [indexed]
    exact Nat.lt_of_lt_of_le (List.mem_range.mp inRange) enough

/-- The two branches, once the log2 fields are right. -/
theorem barrierWrites_inside_iff (algorithm : TeamBarrierAlgorithm) (myProc leader : Int)
    (positive : 0 < placed.currentNumImages) (bounded : placed.currentNumImages < 2 ^ 31) :
    (∀ write ∈ barrierWrites algorithm
        (setLog2Fields initialStatics placed).2 myProc leader,
      write.index < ceilLog2 (maxSubteamSize placed)) ↔
      (algorithm.nodeAware = true → myProc = leader →
        2 ^ ceilLog2 placed.leadersCount < maxSubteamSize placed) := by
  rw [setLog2Fields_first positive bounded]
  unfold barrierWrites
  cases aware : algorithm.nodeAware with
  | true =>
      rw [if_pos rfl]
      by_cases leads : myProc = leader
      · rw [if_pos leads, rounds_inside (fun _ => rfl)]
        rw [show 1 + ceilLog2 placed.leadersCount ≤
              ceilLog2 (maxSubteamSize placed) ↔
            2 ^ ceilLog2 placed.leadersCount < maxSubteamSize placed by
          rw [Nat.add_comm, Nat.succ_le_iff]
          exact Nat.lt_clog_iff_pow_lt (by decide)]
        simp [leads]
      · simp [leads]
  | false =>
      rw [if_neg Bool.false_ne_true, rounds_inside (fun _ => rfl)]
      have flat : flatNumFlags
          { placed with
            currentLog2Images := Nat.log 2 placed.currentNumImages
            currentRemImages :=
              placed.currentNumImages - 2 ^ Nat.log 2 placed.currentNumImages } =
          Nat.clog 2 placed.currentNumImages :=
        (clog_eq_log_add positive).symm
      rw [flat]
      have enough : Nat.clog 2 placed.currentNumImages ≤ ceilLog2 (maxSubteamSize placed) :=
        Nat.clog_mono_right 2 (le_maxSubteamSize placed)
      simp [enough]

variable {algorithm : TeamBarrierAlgorithm} {formed : FormedTeam}

theorem setupMetadata_eq_ok {statics after : FormTeamStatics}
    (ran : setupMetadata algorithm statics placed = .ok (after, formed)) :
    ∃ myProc leader,
      placed.codimensionMapping[placed.currentThisImage - 1]? = some myProc ∧
      placed.intranodeSet[0]? = some leader ∧
      after = (setLog2Fields statics placed).1 ∧
      formed =
        { team := (setLog2Fields statics placed).2
          numSteps := ceilLog2 (maxSubteamSize placed)
          writes := barrierWrites algorithm (setLog2Fields statics placed).2 myProc leader } := by
  unfold setupMetadata at ran
  split at ran
  · rename_i myProc leader myProcAt leaderAt
    cases ran
    exact ⟨myProc, leader, myProcAt, leaderAt, rfl, rfl⟩
  · cases ran

/-- Whatever it leaves behind, a statement clears `first`. -/
theorem setupMetadata_clears {statics after : FormTeamStatics}
    (positive : 0 < placed.currentNumImages)
    (ran : setupMetadata algorithm statics placed = .ok (after, formed)) :
    after = { first := false } := by
  obtain ⟨-, -, -, -, rfl, -⟩ := setupMetadata_eq_ok ran
  simp only [setLog2Fields, log2Loop_clears positive]

theorem setupMetadata_correct_iff {statics after : FormTeamStatics}
    (positive : 0 < placed.currentNumImages) (bounded : placed.currentNumImages < 2 ^ 31)
    (ran : setupMetadata algorithm statics placed = .ok (after, formed)) :
    MetadataCorrect algorithm formed ↔
      statics = initialStatics ∧ LeaderRoundsFit algorithm placed := by
  obtain ⟨myProc, leader, myProcAt, leaderAt, -, rfl⟩ := setupMetadata_eq_ok ran
  have leads : LeadsNode placed ↔ myProc = leader := by
    rw [LeadsNode, myProcAt, leaderAt, Option.some_inj]
  rcases statics with ⟨first⟩
  cases first with
  | false =>
      constructor
      · intro correct
        have wrong := setLog2Fields_later positive
        have right := correct.log2Images
        have count : (setLog2Fields { first := false } placed).2.currentNumImages =
            placed.currentNumImages := rfl
        simp only [count] at right
        omega
      · rintro ⟨impossible, -⟩
        cases impossible
  | true =>
      have inside := barrierWrites_inside_iff algorithm myProc leader positive bounded
      constructor
      · intro correct
        refine ⟨rfl, ?_⟩
        intro aware leadsNode
        exact inside.mp correct.inside aware (leads.mp leadsNode)
      · rintro ⟨-, fits⟩
        have fields := setLog2Fields_first positive bounded
        change MetadataCorrect algorithm
          { team := (setLog2Fields initialStatics placed).2
            numSteps := ceilLog2 (maxSubteamSize placed)
            writes := barrierWrites algorithm
              (setLog2Fields initialStatics placed).2 myProc leader }
        constructor
        · rw [fields]
        · rw [fields]
        · intro flat
          simp only [barrierWrites, flat, Bool.false_eq_true, if_false,
            List.length_map, List.length_range, fields]
          exact (clog_eq_log_add positive).symm
        · apply inside.mpr
          intro aware leader
          exact fits aware (leads.mpr leader)

/-! ## Runs of FORM TEAM statements -/

/-- One statement that finishes: its placement, and what it did after it. -/
theorem formTeam_eq_ok {statics after : FormTeamStatics}
    (ran : formTeam algorithm nodeId totalNumSupernodes statics call = .ok (after, formed)) :
    0 < call.teamId ∧ ∃ placed,
      placeSubteam nodeId totalNumSupernodes call = .ok placed ∧
      setupMetadata algorithm statics placed = .ok (after, formed) := by
  unfold formTeam at ran
  split at ran
  · cases ran
  · rename_i positive
    exact ⟨by omega, bind_eq_ok.mp ran⟩

/-- The condition on one statement, read off its own placement. -/
def LeaderRoundsFitCall (algorithm : TeamBarrierAlgorithm)
    (nodeId : Int → Nat) (totalNumSupernodes : Nat) (call : FormTeamCall) : Prop :=
  ∀ placed, placeSubteam nodeId totalNumSupernodes call = .ok placed →
    LeaderRoundsFit algorithm placed

theorem formTeam_correct_iff {statics after : FormTeamStatics}
    (ran : formTeam algorithm nodeId totalNumSupernodes statics call = .ok (after, formed)) :
    MetadataCorrect algorithm formed ↔
      statics = initialStatics ∧ LeaderRoundsFitCall algorithm nodeId totalNumSupernodes call := by
  obtain ⟨-, placed, placedOk, metadataOk⟩ := formTeam_eq_ok ran
  obtain ⟨positive, bounded⟩ := placeSubteam_currentNumImages placedOk
  rw [setupMetadata_correct_iff positive bounded metadataOk]
  apply and_congr_right
  intro _
  constructor
  · intro fits other otherOk
    rw [placedOk] at otherOk
    cases otherOk
    exact fits
  · intro fits
    exact fits placed placedOk

theorem formTeam_clears {statics after : FormTeamStatics}
    (ran : formTeam algorithm nodeId totalNumSupernodes statics call = .ok (after, formed)) :
    after = { first := false } := by
  obtain ⟨-, placed, placedOk, metadataOk⟩ := formTeam_eq_ok ran
  exact setupMetadata_clears (placeSubteam_currentNumImages placedOk).1 metadataOk

/-- The statics every team of a run was formed under, and its own call. -/
theorem formTeams_getElem? {calls : List FormTeamCall} {statics : FormTeamStatics} {step : Nat}
    (at_step : (formTeams algorithm nodeId totalNumSupernodes statics calls)[
      step]? = some (call, formed)) :
    ∃ after,
      formTeam algorithm nodeId totalNumSupernodes
        (if step = 0 then statics else { first := false }) call = .ok (after, formed) := by
  induction calls generalizing statics step with
  | nil => cases at_step
  | cons head calls ih =>
      rw [formTeams] at at_step
      cases ran : formTeam algorithm nodeId totalNumSupernodes statics head with
      | error fault => simp [ran] at at_step
      | ok result =>
          rcases result with ⟨after, headFormed⟩
          simp only [ran] at at_step
          cases step with
          | zero =>
              simp only [List.getElem?_cons_zero, Option.some.injEq, Prod.mk.injEq] at at_step
              obtain ⟨rfl, rfl⟩ := at_step
              exact ⟨after, by rw [if_pos rfl, ran]⟩
          | succ step =>
              rw [List.getElem?_cons_succ] at at_step
              obtain ⟨later, laterRan⟩ := ih at_step
              refine ⟨later, ?_⟩
              rw [formTeam_clears ran] at laterRan
              simpa using laterRan

/--
In any run from the start of the process, a team gets the right metadata
exactly when it is the first team formed and the leaders' rounds fit.
-/
theorem formTeams_metadata_iff (algorithm : TeamBarrierAlgorithm) (nodeId : Int → Nat)
    (totalNumSupernodes : Nat) (calls : List FormTeamCall)
    (step : Nat) (call : FormTeamCall) (formed : FormedTeam)
    (formedAt : (formTeams algorithm nodeId totalNumSupernodes initialStatics
      calls)[step]? = some (call, formed)) :
    MetadataCorrect algorithm formed ↔
      step = 0 ∧ LeaderRoundsFitCall algorithm nodeId totalNumSupernodes call := by
  obtain ⟨after, ran⟩ := formTeams_getElem? formedAt
  rw [formTeam_correct_iff ran]
  apply and_congr_left
  intro _
  by_cases first : step = 0
  · simp [first]
  · simp [first, initialStatics]

/-! ## A job of one image -/

/-- FORM TEAM (1, team) in the initial team of a job with one image. -/
def formOneImage : FormTeamCall where
  currentTeam :=
    { currentThisImage := 1
      currentNumImages := 1
      codimensionMapping := [0]
      intranodeSet := [0]
      leaderSet := [0]
      leadersCount := 1 }
  teamId := 1
  newIndex := 0
  infoList := [{ teamId := 1, index := 0 }]
  itemCounts := by decide
  own := rfl

/-- The team of one image, with the log2 fields its statement computed. -/
def oneImageTeam (log2Images remImages : Nat) : Team :=
  { teamId := 1
    currentThisImage := 1
    currentNumImages := 1
    codimensionMapping := [0]
    intranodeSet := [0]
    leaderSet := [0]
    leadersCount := 1
    currentLog2Images := log2Images
    currentRemImages := remImages }

theorem placeSubteam_formOneImage :
    placeSubteam (fun _ => 0) 1 formOneImage = .ok (oneImageTeam 0 0) := by
  rfl

theorem formTeam_formOneImage :
    formTeam .dissem (fun _ => 0) 1 initialStatics formOneImage =
      .ok ({ first := false },
        { team := oneImageTeam 0 0, numSteps := 0, writes := [] }) := by
  have positive : ¬ formOneImage.teamId ≤ 0 := by decide
  rw [formTeam, if_neg positive, placeSubteam_formOneImage]
  simp [Except.bind, setupMetadata, setLog2Fields, oneImageTeam, log2Loop,
    initialStatics, toUnsignedLong, maxSubteamSize, ceilLog2, barrierWrites,
    TeamBarrierAlgorithm.nodeAware, flatNumFlags]

/-- The second team of one image is given one doubling and two rounds. -/
theorem formTeam_formOneImage_again :
    formTeam .dissem (fun _ => 0) 1 { first := false } formOneImage =
      .ok ({ first := false },
        { team := oneImageTeam 1 (2 ^ 64 - 1)
          numSteps := 0
          writes :=
            [{ index := 0, target := some 0, source := some 0 },
              { index := 1, target := some 0, source := some 0 }] }) := by
  have positive : ¬ formOneImage.teamId ≤ 0 := by decide
  rw [formTeam, if_neg positive, placeSubteam_formOneImage]
  simp [Except.bind, setupMetadata, setLog2Fields, oneImageTeam, log2Loop,
    toUnsignedLong, maxSubteamSize, ceilLog2, barrierWrites,
    TeamBarrierAlgorithm.nodeAware, flatNumFlags, List.range_succ, flatRound,
    readArray]

theorem formTeams_metadata_iff_oneImage :
    (formTeams .dissem (fun _ => 0) 1 initialStatics
        [formOneImage, formOneImage])[0]? =
      some (formOneImage,
        { team := oneImageTeam 0 0, numSteps := 0, writes := [] }) ∧
    (MetadataCorrect .dissem
        { team := oneImageTeam 0 0, numSteps := 0, writes := [] } ↔
      0 = 0 ∧ LeaderRoundsFitCall .dissem (fun _ => 0) 1 formOneImage) := by
  have formed : (formTeams .dissem (fun _ => 0) 1 initialStatics
        [formOneImage, formOneImage])[0]? =
      some (formOneImage,
        { team := oneImageTeam 0 0, numSteps := 0, writes := [] }) := by
    simp [formTeams, formTeam_formOneImage]
  exact ⟨formed,
    formTeams_metadata_iff .dissem (fun _ => 0) 1
      [formOneImage, formOneImage] 0 formOneImage
      { team := oneImageTeam 0 0, numSteps := 0, writes := [] } formed⟩

/-- The second FORM TEAM of a job with one image writes outside `bstep`. -/
theorem formTeams_second_oneImage :
    ∃ formed,
      (formTeams .dissem (fun _ => 0) 1 initialStatics
        [formOneImage, formOneImage])[1]? = some (formOneImage, formed) ∧
      formed.team.currentNumImages = 1 ∧
      formed.team.currentLog2Images ≠ Nat.log 2 1 ∧
      formed.team.currentRemImages ≠ 1 - 2 ^ Nat.log 2 1 ∧
      formed.writes.length ≠ Nat.clog 2 1 ∧
      ∃ write ∈ formed.writes, ¬ write.index < formed.numSteps := by
  refine
    ⟨{ team := oneImageTeam 1 (2 ^ 64 - 1)
       numSteps := 0
       writes :=
         [{ index := 0, target := some 0, source := some 0 },
           { index := 1, target := some 0, source := some 0 }] },
      ?_, rfl, ?_, ?_, ?_, ?_⟩
  · simp [formTeams, formTeam_formOneImage, formTeam_formOneImage_again]
  · simp [oneImageTeam]
  · simp [oneImageTeam]
  · simp
  · exact ⟨{ index := 0, target := some 0, source := some 0 }, by simp, by simp⟩

end OpenUH.Libcaf.TeamFormation
