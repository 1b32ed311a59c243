import OpenUH.Libopenmp.StaticSchedule

/-!
# Loop scheduling near the ends of the integers

The calls multiply the number of a thread, the chunk size, the increment and
the number of a round before they clip anything, and a dynamic loop moves its
lower bound past the end.  A loop with any bounds, any increment and any chunk
size runs each of its iterations once if the bounds of the chunks that its
threads come to can be represented.
-/

namespace OpenUH.Libopenmp.Scheduler

open Foundation.Progression

namespace SharedLoop

variable {width : OmpWidth} {loop : SharedLoop} {tid : Nat}

/-- The loops that the calls can be given. -/
structure Given (width : OmpWidth) (loop : SharedLoop) : Prop where
  schedtype : loop.IsStatic ∨ loop.schedtype.Claimed
  inhabited : 1 ≤ loop.teamSize
  few : loop.teamSize ≤ 256
  nonzero : loop.incr ≠ 0
  positive : 1 ≤ loop.chunk
  lower : width.Fits loop.lower
  upper : width.Fits loop.upper
  incr : width.Fits loop.incr
  chunk : width.Fits loop.chunk
  total : width.Fits loop.total

/-! ## What the calls owe to a loop -/

/-- The calls of a dynamic loop run its iterations once, and come to an end. -/
structure ServesOnce (loop : SharedLoop) (records : List CallRecord) : Prop where
  inside : ∀ record ∈ served records, record.iterations loop.upper ⊆
    loopIterations loop.lower loop.upper loop.incr
  disjoint : (served records).Pairwise fun earlier later =>
    Disjoint (earlier.iterations loop.upper) (later.iterations loop.upper)
  complete : (∃ record ∈ records, record.result.again = false) →
    ∀ iteration ∈ loopIterations loop.lower loop.upper loop.incr,
      ∃ record ∈ served records, iteration ∈ record.iterations loop.upper
  ends : (served records).length ≤ max 1 (loopIterations loop.lower loop.upper loop.incr).ncard

/-- Every run of calls serves a dynamic loop once. -/
def ClaimsOnce (width : OmpWidth) (mode : ExeMode) (loop : SharedLoop) : Prop :=
  ∀ (root own : TeamRecords) (calls : List Nat), loop.Ready own.team →
    (loop.teamSize ≠ 1 → own.team.scheduleType = loop.schedtype) →
      loop.ServesOnce (runCalls width mode root own calls)

/-- No iteration of a loop runs twice or is left out, and its calls end. -/
structure RunsOnce (width : OmpWidth) (mode : ExeMode) (loop : SharedLoop) :
    Prop where
  static : loop.IsStatic → loop.SharesOut width mode
  claimed : loop.schedtype.Claimed → loop.ClaimsOnce width mode

/-! ## Bounds that can be represented -/

/-- The iterations handed out at a lower bound of a dynamic loop. -/
def claimSize (loop : SharedLoop) (lower : Int) : Int :=
  let tripCount := (loop.upper - lower).tdiv loop.incr + 1
  match loop.schedtype with
  | .guided => max loop.chunk (tripCount.tdiv (2 * loop.teamSize))
  | .orderedGuided => max loop.chunk (tripCount.tdiv loop.teamSize)
  | _ => loop.chunk

/-- The lower bound of a dynamic loop after a number of chunks. -/
def claimLower (loop : SharedLoop) : Nat → Int
  | 0 => loop.lower
  | count + 1 =>
      loop.claimLower count + loop.claimSize (loop.claimLower count) * loop.incr

/-- A call finds the lower bound: the first one, or one behind a chunk. -/
def ClaimAsked (loop : SharedLoop) : Nat → Prop
  | 0 => True
  | count + 1 => Within loop.incr loop.upper (loop.claimLower count)

/-- The bounds of the chunks of a dynamic loop do not overflow. -/
structure ClaimsFit (width : OmpWidth) (loop : SharedLoop) : Prop where
  lowers : ∀ count, loop.ClaimAsked count → width.Fits (loop.claimLower count)
  differences : ∀ count, loop.ClaimAsked count → width.Fits (loop.upper - loop.claimLower count)
  uppers : ∀ count, Within loop.incr loop.upper (loop.claimLower count) →
    width.Fits (loop.claimLower count + (loop.claimSize (loop.claimLower count) - 1) * loop.incr)

/-- No value that decides which iterations run overflows. -/
structure InRange (width : OmpWidth) (loop : SharedLoop) : Prop where
  alone : loop.teamSize = 1 → loop.schedtype = .static →
    Within loop.incr loop.upper loop.lower →
      width.Fits (loop.upper + if loop.incr > 0 then 1 else -1)
  difference : loop.teamSize ≠ 1 → width.Fits (loop.upper - loop.lower)
  blocks : loop.teamSize ≠ 1 → loop.IsStatic → loop.BlocksFit width
  claims : loop.teamSize ≠ 1 → loop.schedtype.Claimed → loop.ClaimsFit width

/-! ## Dynamic loops -/

/-- The descriptor after a number of chunks. -/
structure Claiming (loop : SharedLoop) (count : Nat) (team : OmpTeam) :
    Prop where
  schedule : team.scheduleType = loop.schedtype
  teamSize : team.teamSize = loop.teamSize
  lower : team.loopLowerBound = loop.claimLower count
  upper : team.loopUpperBound = loop.upper
  incr : team.loopIncreament = loop.incr
  chunk : team.chunkSize = loop.chunk
  asked : loop.ClaimAsked count
  trips : Within loop.incr loop.upper (loop.claimLower count) →
    (loop.upper - loop.claimLower count).tdiv loop.incr + 1 ≤ loop.total

theorem Given.claimSize_pos (given : loop.Given width) (lower : Int) :
    0 < loop.claimSize lower := by
  have positive := given.positive
  unfold claimSize
  dsimp only
  split
  · exact lt_of_lt_of_le (by omega) (le_max_left _ _)
  · exact lt_of_lt_of_le (by omega) (le_max_left _ _)
  · omega

variable {team : OmpTeam}

/-- What the calls compute is the size of the chunk. -/
theorem Claiming.claimedChunk_eq {count : Nat}
    (claiming : loop.Claiming count team) (given : loop.Given width) (fits : loop.ClaimsFit width)
    (within : Within loop.incr loop.upper (loop.claimLower count)) :
    claimedChunk width team = loop.claimSize (loop.claimLower count) := by
  have locals : readLocals width team =
      ⟨loop.claimLower count, loop.upper, loop.incr, loop.chunk⟩ := by
    unfold readLocals
    rw [claiming.lower, claiming.upper, claiming.incr, claiming.chunk,
      width.wrap_eq_of_fits (fits.lowers count claiming.asked),
      width.wrap_eq_of_fits given.upper, width.wrap_eq_of_fits given.incr,
      width.wrap_eq_of_fits given.chunk]
  have trips := claiming.trips within
  have nonneg := quotient_nonneg within
  have trip : width.wrap
      (quotient width ⟨loop.claimLower count, loop.upper, loop.incr, loop.chunk⟩ + 1) =
        (loop.upper - loop.claimLower count).tdiv loop.incr + 1 := by
    unfold quotient
    dsimp only
    rw [width.wrap_eq_of_fits (fits.differences count claiming.asked),
      width.wrap_eq_of_fits (given.total.of_le nonneg (by omega)),
      width.wrap_eq_of_fits (given.total.of_le (by omega) trips)]
  have larger (size : Int) :
      (if size > loop.chunk then size else loop.chunk) = max loop.chunk size := by
    split
    · rw [max_eq_right (by omega)]
    · rw [max_eq_left (by omega)]
  have doubled : (2 * loop.teamSize : Int).bmod (2 ^ 32) = 2 * loop.teamSize := by
    have few := given.few
    exact Int.bmod_eq_of_le_mul_two (by omega) (by omega)
  unfold claimedChunk claimSize guidedChunk
  rw [claiming.schedule, locals, claiming.teamSize]
  cases loop.schedtype <;> simp only [trip, larger, doubled]

theorem Claiming.fits {count : Nat} (claiming : loop.Claiming count team) (given : loop.Given width)
    (fits : loop.ClaimsFit width) : ClaimFits width team := by
  have chunkIs := claiming.claimedChunk_eq given fits
  have next (within : Within loop.incr loop.upper (loop.claimLower count)) :
      width.Fits (loop.claimLower (count + 1)) :=
    fits.lowers (count + 1) within
  refine
    { lower := claiming.lower ▸ fits.lowers count claiming.asked
      upper := claiming.upper ▸ given.upper
      stride := claiming.incr ▸ given.incr
      chunk := claiming.chunk ▸ given.chunk
      difference := ?_
      block := ?_
      next := ?_ }
  · rw [claiming.upper, claiming.lower]
    exact fits.differences count claiming.asked
  · rw [claiming.incr, claiming.upper, claiming.lower]
    intro within
    rw [chunkIs within]
    exact fits.uppers count within
  · rw [claiming.incr, claiming.upper, claiming.lower]
    intro within
    rw [chunkIs within]
    exact next within

/-- A call moves on to the next chunk, or leaves the descriptor alone. -/
theorem Claiming.next {count : Nat} (claiming : loop.Claiming count team) (given : loop.Given width)
    (fits : loop.ClaimsFit width) (thread : OmpVThread) :
    ∃ after, loop.Claiming after (nextClaimed width team thread).1 := by
  have nonzero : team.loopIncreament ≠ 0 := claiming.incr ▸ given.nonzero
  have here := claiming.fits given fits
  by_cases within : Within loop.incr loop.upper (loop.claimLower count)
  · have claimed := (nextClaimed_within here nonzero
      (by rwa [claiming.incr, claiming.upper, claiming.lower]) thread).1
    rw [claiming.claimedChunk_eq given fits within] at claimed
    refine ⟨count + 1, ?_⟩
    rw [claimed]
    refine
      { schedule := claiming.schedule
        teamSize := claiming.teamSize
        lower := ?_
        upper := claiming.upper
        incr := claiming.incr
        chunk := claiming.chunk
        asked := within
        trips := fun later => ?_ }
    · change team.loopLowerBound + _ * team.loopIncreament = _
      rw [claiming.lower, claiming.incr]
      rfl
    · have fewer := quotient_claim given.nonzero (given.claimSize_pos (loop.claimLower count)) later
      have positive := given.claimSize_pos (loop.claimLower count)
      have trips := claiming.trips within
      change (loop.upper - (loop.claimLower count +
        loop.claimSize (loop.claimLower count) * loop.incr)).tdiv loop.incr + 1 ≤ _
      omega
  · refine ⟨count, ?_⟩
    rw [nextClaimed_past here nonzero (by rwa [claiming.incr, claiming.upper, claiming.lower])]
    exact claiming

variable {mode : ExeMode} {root : TeamRecords}

/-- Whatever the order of the calls, none of them overflows. -/
theorem Claiming.records_fit (given : loop.Given width) (fits : loop.ClaimsFit width)
    (parallel : mode ≠ .sequential) (several : loop.teamSize ≠ 1)
    (claimed : loop.schedtype.Claimed) (calls : List Nat) :
    ∀ (own : TeamRecords) (count : Nat), loop.Claiming count own.team →
      ∀ record ∈ runCalls width mode root own calls,
        ClaimFits width record.before := by
  induction calls with
  | nil => exact fun _ _ _ record member => absurd member List.not_mem_nil
  | cons tid calls ih =>
      intro own count claiming record member
      have many : 2 ≤ own.team.teamSize := by
        have inhabited := given.inhabited
        rw [claiming.teamSize]
        omega
      rw [runCalls_cons parallel many (claiming.schedule ▸ claimed)] at member
      rcases List.mem_cons.mp member with rfl | later
      · exact claiming.fits given fits
      · obtain ⟨after, next⟩ := claiming.next given fits (own.threads tid)
        exact ih _ after next record later

theorem Given.claimsOnce (given : loop.Given width)
    (fits : loop.ClaimsFit width) (parallel : mode ≠ .sequential)
    (several : loop.teamSize ≠ 1) (claimed : loop.schedtype.Claimed) :
    loop.ClaimsOnce width mode := by
  intro root own calls ready schedule
  have inhabited := given.inhabited
  have claiming : loop.Claiming 0 own.team :=
    { schedule := schedule several
      teamSize := ready.teamSize
      lower := ready.lower
      upper := ready.upper
      incr := ready.incr
      chunk := ready.chunk several
      asked := trivial
      trips := fun within => (tripCount_eq within).le }
  have records := @Claiming.records_fit width loop mode root given fits parallel
    several claimed calls own 0 claiming
  have once := runCalls_handsOutOnce width root parallel calls own
    (by rw [ready.teamSize]; omega) (claiming.schedule ▸ claimed)
    (by rw [ready.incr]; exact given.nonzero)
    (by rw [claiming.chunk]; exact given.positive)
    ready.scheduleCount.ge
    (by
      rw [ready.scheduleCount, ready.incr, ready.upper, ready.lower]
      intro within
      rw [Int.zero_add, tripCount_eq within]
      exact given.total)
    records
  rw [ready.lower, ready.upper, ready.incr] at once
  exact ⟨once.inside, once.disjoint, once.complete, once.bounded.trans (le_max_right _ _)⟩

/-! ## A team of one thread -/

/-- The only thread gets the whole loop from its first call. -/
theorem runCalls_alone {root own : TeamRecords} {caller : Nat}
    (calls : List Nat) (parallel : mode ≠ .sequential) (alone : own.team.teamSize = 1) :
    runCalls width mode root own (caller :: calls) =
      { thread := caller
        before := own.team
        result := (nextAlone width true own.team (own.threads caller)).2.2
        orderedCount :=
          (nextAlone width true own.team (own.threads caller)).2.1.orderedCount } ::
        runCalls width mode root
          (own.store caller (nextAlone width true own.team (own.threads caller))).1 calls := by
  have next : scheduleNext width mode caller root own =
      .ok (root, own.store caller (nextAlone width true own.team (own.threads caller))) := by
    have team : scheduleNextTeam width caller own = .ok
        (own.store caller (nextAlone width true own.team (own.threads caller))) := by
      rw [scheduleNextTeam, if_pos alone]
    cases mode with
    | sequential => exact absurd rfl parallel
    | normal | nested => exact congrArg (Except.map fun after => (root, after)) team
  rw [runCalls, next]
  simp [TeamRecords.store]

/-- Behind the first call there is nothing left for anyone. -/
theorem runCalls_alone_done (parallel : mode ≠ .sequential) (calls : List Nat) :
    ∀ own : TeamRecords, own.team.teamSize = 1 → own.team.scheduleCount ≠ 0 →
      ∀ record ∈ runCalls width mode root own calls, record.result.again = false := by
  induction calls with
  | nil => exact fun _ _ _ record member => absurd member List.not_mem_nil
  | cons caller calls ih =>
      intro own alone called record member
      have stopped : nextAlone width true own.team (own.threads caller) =
          (own.team, own.threads caller, .noMore) := by
        rw [nextAlone, if_pos called]
      rw [runCalls_alone calls parallel alone, stopped] at member
      rcases List.mem_cons.mp member with rfl | later
      · rfl
      · exact ih _ (by exact alone) (by exact called) record later

theorem runCalls_alone_handsOut {upper : Int} (parallel : mode ≠ .sequential) (calls : List Nat) :
    ∀ own : TeamRecords, own.team.teamSize = 1 → own.team.scheduleCount ≠ 0 →
      HandsOut upper tid 1 [] calls (runCalls width mode root own calls) := by
  induction calls with
  | nil => exact fun _ _ _ => HandsOut.nil _ (le_refl _)
  | cons caller calls ih =>
      intro own alone called
      have stopped : nextAlone width true own.team (own.threads caller) =
          (own.team, own.threads caller, .noMore) := by
        rw [nextAlone, if_pos called]
      rw [runCalls_alone calls parallel alone, stopped]
      have rest := ih (own.store caller (own.team, own.threads caller, .noMore)).1 alone called
      by_cases same : caller = tid
      · subst same
        exact rest.done rfl rfl
      · exact rest.other rfl same

/-- The loop that the first call hands out. -/
theorem Given.nextAlone_eq (given : loop.Given width)
    (ready : loop.Ready team) (thread : OmpVThread) :
    nextAlone width true team thread =
      ({ team with scheduleCount := 1 }, { thread with orderedCount := 0 },
        ⟨true, some ⟨loop.lower, loop.upper, loop.incr⟩⟩) := by
  rw [nextAlone, if_neg (not_not.mpr ready.scheduleCount), ready.lower, ready.upper,
    ready.incr, width.wrap_eq_of_fits given.lower, width.wrap_eq_of_fits given.upper,
    width.wrap_eq_of_fits given.incr]

theorem clip_self (stride limit : Int) : clip stride limit limit = limit := by
  unfold clip
  split
  · exact min_self limit
  · exact max_self limit

/-- The values of the loop, for the only thread. -/
def whole (loop : SharedLoop) : List Int :=
  loopValues loop.incr loop.lower loop.upper

section

variable (given : loop.Given width)

include given

theorem Given.mem_whole {value : Int} :
    value ∈ loop.whole ↔ value ∈ loopIterations loop.lower loop.upper loop.incr := by
  rw [whole, loopValues, List.mem_map, loopIterations, mem_progression_iff given.nonzero]
  refine exists_congr fun number => ?_
  rw [List.mem_range]
  exact and_congr_right fun _ => eq_comm

theorem Given.whole_partitions
    (alone : loop.teamSize = 1) : loop.PartitionsLoop fun _ => loop.whole where
  inside := fun _ _ _ => given.mem_whole.mp
  once := fun _ _ => List.nodup_range.map (value_injective given.nonzero)
  disjoint := fun tid member other otherMember differ => by
    exact absurd (by omega) differ
  complete := fun _ inLoop =>
    ⟨0, by omega, given.mem_whole.mpr inLoop⟩

/-- The loops of the only thread: the whole loop, and none behind it. -/
theorem Given.staticInit_alone {stride : Int} {fuel : Nat} (inRange : loop.InRange width)
    (alone : loop.teamSize = 1) (isStatic : loop.IsStatic) (plenty : loop.total ≤ fuel) :
    staticInitValues width mode tid loop.schedtype loop.teamSize
        ⟨loop.lower, loop.upper, stride⟩ loop.incr loop.chunk fuel =
      .ok loop.whole := by
  have init : staticInit width mode tid loop.schedtype loop.teamSize
      ⟨loop.lower, loop.upper, stride⟩ loop.incr loop.chunk =
        .ok ⟨loop.lower, loop.upper,
          if loop.incr > 0 then width.wrap (loop.upper - loop.lower + 1)
          else width.wrap (loop.upper - loop.lower - 1)⟩ := by
    rw [staticInit, if_pos (.inr alone)]
  rw [staticInitValues, init]
  change Except.ok (if _ then _ else _) = _
  congr 1
  obtain even | static := isStatic
  · rw [if_pos even, evenLoop, clip_self]
    rfl
  · have notEven : ¬loop.schedtype = .staticEven := by
      rw [static]
      exact OmpSched.noConfusion
    rw [if_neg notEven]
    have none (past : ¬Within loop.incr loop.upper loop.lower) : loop.whole = [] :=
      loopValues_past given.nonzero past
    cases fuel with
    | zero =>
        rw [none fun within => ?_]
        · rfl
        · have some := (within_iff_lt_length given.nonzero).mp
            (by simpa using within : Within loop.incr loop.upper
              (loop.lower + (0 : Nat) * loop.incr))
          change 0 < loop.total at some
          omega
    | succ fuel =>
        rw [strideLoop]
        dsimp only
        by_cases within : Within loop.incr loop.upper loop.lower
        · have fits := inRange.alone alone static within
          have next : width.wrap (loop.lower +
              if loop.incr > 0 then width.wrap (loop.upper - loop.lower + 1)
              else width.wrap (loop.upper - loop.lower - 1)) =
                loop.upper + if loop.incr > 0 then 1 else -1 := by
            refine width.wrap_eq fits ?_
            split
            · have moved : loop.upper + 1 = loop.lower + (loop.upper - loop.lower + 1) := by omega
              rw [moved]
              exact (width.wrap_modEq _).add_left _
            · have moved : loop.upper + -1 = loop.lower + (loop.upper - loop.lower - 1) := by omega
              rw [moved]
              exact (width.wrap_modEq _).add_left _
          have past : ¬Within loop.incr loop.upper
              (loop.upper + if loop.incr > 0 then 1 else -1) := by
            unfold Within
            split
            · omega
            · omega
          have rest : strideLoop width loop.incr loop.upper fuel
              ⟨loop.upper + if loop.incr > 0 then 1 else -1,
                width.wrap (loop.upper +
                  if loop.incr > 0 then width.wrap (loop.upper - loop.lower + 1)
                  else width.wrap (loop.upper - loop.lower - 1)),
                if loop.incr > 0 then width.wrap (loop.upper - loop.lower + 1)
                else width.wrap (loop.upper - loop.lower - 1)⟩ = [] := by
            cases fuel with
            | zero => rfl
            | succ fuel => rw [strideLoop, if_neg past]
          rw [if_pos within, clip_self, next, rest, List.append_nil]
          rfl
        · rw [if_neg within, none within]

theorem Given.sharesOut_alone (inRange : loop.InRange width) (parallel : mode ≠ .sequential)
    (alone : loop.teamSize = 1) (isStatic : loop.IsStatic) :
    loop.SharesOut width mode := by
  refine ⟨fun _ => loop.whole, given.whole_partitions alone, fun tid member =>
    ⟨fun stride fuel plenty => given.staticInit_alone inRange alone isStatic plenty,
      fun root own calls members ready _ => ?_⟩⟩
  cases calls with
  | nil => exact HandsOut.nil _ (by omega)
  | cons caller calls =>
      have same : caller = tid := by
        have := members caller List.mem_cons_self
        omega
      subst same
      have one : own.team.teamSize = 1 := ready.teamSize.trans alone
      have whole : clip loop.incr loop.upper loop.upper = loop.upper :=
        clip_self loop.incr loop.upper
      rw [runCalls_alone calls parallel one, given.nextAlone_eq ready]
      have rest := @runCalls_alone_handsOut width caller mode root loop.upper parallel
        calls (own.store caller
          ({ own.team with scheduleCount := 1 },
            { own.threads caller with orderedCount := 0 },
            ⟨true, some ⟨loop.lower, loop.upper, loop.incr⟩⟩)).1 one Int.one_ne_zero
      change HandsOut loop.upper caller _ loop.whole _ _
      rw [← List.append_nil loop.whole]
      refine (rest.again rfl rfl ?_).mono (by omega)
      change loopValues _ _ (clip loop.incr loop.upper loop.upper) = _
      rw [whole]
      rfl

theorem Given.claimsOnce_alone (parallel : mode ≠ .sequential) (alone : loop.teamSize = 1) :
    loop.ClaimsOnce width mode := by
  intro root own calls ready _
  cases calls with
  | nil => constructor <;> simp [runCalls, served]
  | cons caller calls =>
      have one : own.team.teamSize = 1 := ready.teamSize.trans alone
      rw [runCalls_alone calls parallel one, given.nextAlone_eq ready]
      generalize restIs : runCalls width mode root _ calls = rest
      have nothing : served rest = [] := by
        refine List.filter_eq_nil_iff.mpr fun record member => ?_
        rw [← restIs] at member
        rw [runCalls_alone_done parallel calls _ (by exact one) Int.one_ne_zero record member]
        decide
      have iterations :
          chunkIterations loop.upper ⟨loop.lower, loop.upper, loop.incr⟩ =
            loopIterations loop.lower loop.upper loop.incr := by
        unfold chunkIterations loopIterations
        rw [clip_self]
      constructor
      · rw [served_cons_again rfl, nothing]
        intro record member
        rw [List.mem_singleton.mp member]
        exact iterations.subset
      · rw [served_cons_again rfl, nothing]
        exact List.pairwise_singleton _ _
      · rw [served_cons_again rfl, nothing]
        intro _ iteration inLoop
        exact ⟨_, List.mem_singleton_self _, iterations.superset inLoop⟩
      · rw [served_cons_again rfl, nothing]
        exact le_max_left _ _

/-! ## Loops without iterations -/

/-- The descriptor, as the calls read it. -/
theorem Given.locals (described : loop.Described team) :
    readLocals width team = ⟨loop.lower, loop.upper, loop.incr, loop.chunk⟩ := by
  unfold readLocals
  rw [described.lower, described.upper, described.incr, described.chunk,
    width.wrap_eq_of_fits given.lower, width.wrap_eq_of_fits given.upper,
    width.wrap_eq_of_fits given.incr, width.wrap_eq_of_fits given.chunk]

end

/-- A chunk without iterations, if the call returned 1. -/
def ServesNone (loop : SharedLoop) (result : NextResult) : Prop :=
  result.again = true → ∃ chunk, result.chunk = some chunk ∧
    chunk.stride = loop.incr ∧ ¬Within loop.incr loop.upper chunk.lower

/-- A call that serves nothing any more, whatever other threads do. -/
def Stopped (width : OmpWidth) (tid : Nat) (team : OmpTeam) (thread : OmpVThread) : Prop :=
  nextBySchedule width tid team thread = .ok (team, thread, .noMore)

/-- The values of a call that serves no iteration. -/
theorem ServesNone.values {record : CallRecord} (given : loop.Given width)
    (none : loop.ServesNone record.result) (again : record.result.again = true) :
    record.values loop.upper = [] := by
  obtain ⟨chunk, chunkIs, strideIs, notWithin⟩ := none again
  rw [CallRecord.values, chunkIs]
  dsimp only
  rw [strideIs]
  exact loopValues_past given.nonzero fun within =>
    notWithin (within_clip.mp within).1

/-- A call of another thread leaves a thread stopped. -/
theorem stopped_handsOut
    (parallel : mode ≠ .sequential) (isStatic : loop.IsStatic) (calls : List Nat) :
    ∀ own : TeamRecords, own.team.teamSize ≠ 1 → loop.Described own.team →
      Stopped width tid own.team (own.threads tid) →
        HandsOut loop.upper tid 1 [] calls (runCalls width mode root own calls) := by
  induction calls with
  | nil => exact fun _ _ _ _ => HandsOut.nil _ (le_refl _)
  | cons caller calls ih =>
      intro own several described stopped
      by_cases same : caller = tid
      · subst same
        obtain ⟨record, thread, result, runs⟩ := @runCalls_static width mode root own
          caller calls _ parallel several stopped
        rw [runs]
        have rest := ih (own.setThread caller (own.threads caller))
          several described (by rwa [own.setThread_self])
        exact rest.done thread (by rw [result]; rfl)
      · obtain ⟨after, called⟩ := @nextBySchedule_called width loop own.team described
          isStatic caller (own.threads caller)
        obtain ⟨record, thread, -, runs⟩ := @runCalls_static width mode root own caller
          calls after parallel several called
        rw [← own.setThread_other (Ne.symm same) after.1] at stopped
        rw [runs]
        exact (ih (own.setThread caller after.1) several described stopped).other thread same

section Empty

variable (past : ¬Within loop.incr loop.upper loop.lower)
include past

theorem total_eq_zero (nonzero : loop.incr ≠ 0) : loop.total = 0 := by
  have first := (@within_iff_lt_length loop.incr loop.lower loop.upper nonzero 0).not
  rw [Int.natCast_zero, Int.zero_mul, Int.add_zero] at first
  exact Nat.eq_zero_of_not_pos (first.mp past)

/-- No numbered value is within the bound. -/
theorem value_past (nonzero : loop.incr ≠ 0) (number : Nat) :
    ¬Within loop.incr loop.upper (loop.value number) := by
  intro within
  have below := (within_iff_lt_length nonzero).mp within
  change number < loop.total at below
  rw [total_eq_zero past nonzero] at below
  exact absurd below (Nat.not_lt_zero number)

/-- The quotient is the number of increments from the upper to the lower bound. -/
theorem quotient_past :
    ∃ steps : Nat, (loop.upper - loop.lower).tdiv loop.incr = -steps ∧
      if 0 < loop.incr then steps * loop.incr ≤ loop.lower - loop.upper
      else steps * -loop.incr ≤ loop.upper - loop.lower := by
  unfold Within at past
  by_cases upward : 0 < loop.incr
  · rw [if_pos upward] at past
    have nonneg : 0 ≤ (loop.lower - loop.upper) / loop.incr := Int.ediv_nonneg (by omega) upward.le
    refine ⟨((loop.lower - loop.upper) / loop.incr).toNat, ?_, ?_⟩
    · rw [Int.toNat_of_nonneg nonneg, ← Int.tdiv_eq_ediv_of_nonneg (by omega),
        ← Int.neg_tdiv, Int.neg_sub]
    · rw [if_pos upward, Int.toNat_of_nonneg nonneg]
      exact Int.ediv_mul_le _ (by omega)
  · rw [if_neg upward] at past
    by_cases still : loop.incr = 0
    · exact ⟨0, by simp [still], by simp [still]; omega⟩
    · have nonneg : 0 ≤ (loop.upper - loop.lower) / -loop.incr :=
        Int.ediv_nonneg (by omega) (by omega)
      refine ⟨((loop.upper - loop.lower) / -loop.incr).toNat, ?_, ?_⟩
      · rw [Int.toNat_of_nonneg nonneg, ← Int.tdiv_eq_ediv_of_nonneg (by omega),
          Int.tdiv_neg, Int.neg_neg]
      · rw [if_neg upward, Int.toNat_of_nonneg nonneg]
        exact Int.ediv_mul_le _ (by omega)

/-- The trip count that the calls compute. -/
theorem tripCount_past (given : loop.Given width)
    (difference : width.Fits (loop.upper - loop.lower)) :
    width.wrap (width.wrap
        ((width.wrap (loop.upper - loop.lower)).tdiv loop.incr) + 1) =
      loop.tripCount ∧ loop.tripCount ≤ 1 := by
  obtain ⟨steps, quotient, few⟩ := quotient_past past
  have chunk := given.chunk
  have positive := given.positive
  have nonzero := given.nonzero
  have fits : width.Fits (-(steps : Int)) := by
    unfold OmpWidth.Fits at difference chunk ⊢
    split at few
    · have := le_mul_of_one_le_right (Int.natCast_nonneg steps) (by omega : 1 ≤ loop.incr)
      omega
    · have := le_mul_of_one_le_right (Int.natCast_nonneg steps) (by omega : 1 ≤ -loop.incr)
      omega
  have fitsNext : width.Fits (-(steps : Int) + 1) := by
    unfold OmpWidth.Fits at fits chunk ⊢
    omega
  unfold tripCount
  rw [width.wrap_eq_of_fits difference, quotient, width.wrap_eq_of_fits fits,
    width.wrap_eq_of_fits fitsNext]
  exact ⟨rfl, by omega⟩

/-- A lower bound moved back by fewer increments than that is not within. -/
theorem movedBack_past (given : loop.Given width) {count : Nat}
    (few : (count : Int) ≤ -loop.tripCount) :
    width.Fits (loop.lower - count * loop.incr) ∧
      ¬Within loop.incr loop.upper (loop.lower - count * loop.incr) := by
  obtain ⟨steps, quotient, bound⟩ := quotient_past past
  unfold tripCount at few
  have lower := given.lower
  have upper := given.upper
  unfold OmpWidth.Fits at lower upper ⊢
  unfold Within
  split at bound
  · rename_i upward
    have moved : (count + 1) * loop.incr ≤ steps * loop.incr :=
      Int.mul_le_mul_of_nonneg_right (by omega) upward.le
    have some := Int.mul_nonneg (Int.natCast_nonneg count) upward.le
    rw [Int.add_mul] at moved
    rw [if_pos upward]
    omega
  · rename_i downward
    have nonzero := given.nonzero
    have moved : (count + 1) * -loop.incr ≤ steps * -loop.incr :=
      Int.mul_le_mul_of_nonneg_right (by omega) (by omega)
    have some := Int.mul_nonneg (Int.natCast_nonneg count) (by omega : 0 ≤ -loop.incr)
    rw [Int.add_mul] at moved
    rw [Int.mul_neg] at moved some
    rw [if_neg downward]
    omega

/-- What STATIC_EVEN makes the lower bound of a thread. -/
theorem evenLower_past (given : loop.Given width) (blocks : loop.BlocksFit width)
    (even : loop.schedtype = .staticEven) (member : tid < loop.teamSize) :
    ¬Within loop.incr loop.upper (width.wrap (loop.lower +
      tid * width.wrap (evenStride loop.tripCount loop.teamSize * loop.incr))) := by
  have moved : loop.lower +
      tid * width.wrap (evenStride loop.tripCount loop.teamSize * loop.incr) ≡
        loop.lower + tid * (evenStride loop.tripCount loop.teamSize * loop.incr)
          [ZMOD 2 ^ width.bits] :=
    ((width.wrap_modEq _).mul_left _).add_left _
  by_cases forward : 0 ≤ evenStride loop.tripCount loop.teamSize
  · have same : loop.lower +
        tid * (evenStride loop.tripCount loop.teamSize * loop.incr) =
          loop.value (loop.start tid 0) := by
      unfold value
      rw [start_zero, size_staticEven even]
      push_cast
      rw [Int.toNat_of_nonneg forward, Int.mul_assoc]
    rw [same] at moved
    rw [width.wrap_eq (blocks.lowers tid member 0 (firstAsked loop _ tid)) moved]
    exact value_past past given.nonzero _
  · obtain ⟨back, backIs⟩ : ∃ back : Nat, evenStride loop.tripCount loop.teamSize = -back :=
      ⟨(-evenStride loop.tripCount loop.teamSize).toNat, by omega⟩
    have few : ((tid * back : Nat) : Int) ≤ -loop.tripCount := by
      obtain ⟨trips, tripsIs⟩ : ∃ trips : Nat, loop.tripCount = -trips := by
        refine ⟨(-loop.tripCount).toNat, ?_⟩
        by_contra positive
        refine forward ?_
        have atLeast : 0 ≤ loop.tripCount.tdiv loop.teamSize :=
          Int.tdiv_nonneg (by omega) (by omega)
        unfold evenStride
        split
        · omega
        · omega
      have turns : back ≤ trips / loop.teamSize := by
        unfold evenStride at backIs
        rw [tripsIs, Int.neg_tdiv, ← Int.ofNat_tdiv] at backIs
        split at backIs
        · omega
        · omega
      have all : tid * back ≤ trips := calc
        tid * back ≤ loop.teamSize * (trips / loop.teamSize) := Nat.mul_le_mul member.le turns
        _ ≤ trips := Nat.mul_div_le _ _
      omega
    have same : loop.lower +
        tid * (evenStride loop.tripCount loop.teamSize * loop.incr) =
          loop.lower - (tid * back : Nat) * loop.incr := by
      rw [backIs]
      push_cast
      ring
    obtain ⟨fits, notWithin⟩ := movedBack_past past given few
    rw [same] at moved
    rwa [width.wrap_eq fits moved]

/-- After `__ompc_static_init` no thread has an iteration. -/
theorem staticInit_past {stride : Int} {fuel : Nat}
    (given : loop.Given width) (inRange : loop.InRange width)
    (parallel : mode ≠ .sequential) (several : loop.teamSize ≠ 1)
    (isStatic : loop.IsStatic) (member : tid < loop.teamSize) :
    staticInitValues width mode tid loop.schedtype loop.teamSize
        ⟨loop.lower, loop.upper, stride⟩ loop.incr loop.chunk fuel = .ok [] := by
  have blocks := inRange.blocks several isStatic
  have many : ¬(mode = .sequential ∨ loop.teamSize = 1) := by
    rintro (sequential | one)
    · exact parallel sequential
    · exact several one
  obtain ⟨first, init, firstPast⟩ : ∃ first,
      staticInit width mode tid loop.schedtype loop.teamSize
          ⟨loop.lower, loop.upper, stride⟩ loop.incr loop.chunk = .ok first ∧
        ¬Within loop.incr loop.upper first.lower := by
    rw [staticInit, if_neg many]
    obtain even | static := isStatic
    · rw [if_pos even, (tripCount_past past given (inRange.difference several)).1]
      exact ⟨_, rfl, evenLower_past past given blocks even member⟩
    · have notEven : ¬loop.schedtype = .staticEven := by
        rw [static]
        exact OmpSched.noConfusion
      have positive := given.positive
      rw [if_neg notEven, if_neg (by omega)]
      refine ⟨_, rfl, ?_⟩
      dsimp only
      have chunkIs : loop.chunk = loop.size := by
        rw [size_static static]
        omega
      have same : loop.value (loop.start tid 0) = loop.lower + tid * (loop.size * loop.incr) := by
        unfold value
        rw [start_zero]
        push_cast
        ring
      have moved : loop.lower + tid * width.wrap (loop.chunk * loop.incr) ≡
          loop.value (loop.start tid 0) [ZMOD 2 ^ width.bits] := by
        rw [same, chunkIs]
        exact ((width.wrap_modEq _).mul_left _).add_left _
      rw [width.wrap_eq (blocks.lowers tid member 0 (firstAsked loop _ tid)) moved]
      exact value_past past given.nonzero _
  rw [staticInitValues, init]
  change Except.ok (if _ then _ else _) = _
  congr 1
  split
  · exact loopValues_past given.nonzero fun within =>
      firstPast (within_clip.mp within).1
  · cases fuel with
    | zero => rfl
    | succ fuel => rw [strideLoop, if_neg firstPast]

/-- The first call of a thread under STATIC_EVEN. -/
theorem nextStaticEven_past {thread : OmpVThread}
    (ordered : Bool) (given : loop.Given width) (difference : width.Fits (loop.upper - loop.lower))
    (blocks : loop.BlocksFit width) (even : loop.schedtype = .staticEven)
    (member : tid < loop.teamSize) (described : loop.Described team)
    (fresh : thread.scheduleCount = 0) :
    (nextStaticEven width ordered tid team thread).1.scheduleCount ≠ 0 ∧
      loop.ServesNone (nextStaticEven width ordered tid team thread).2 := by
  have trip : width.wrap
      (quotient width ⟨loop.lower, loop.upper, loop.incr, loop.chunk⟩ + 1) =
        loop.tripCount := (tripCount_past past given difference).1
  unfold nextStaticEven
  rw [if_neg (not_not.mpr fresh), given.locals described]
  dsimp only
  rw [trip, described.teamSize]
  refine ⟨?_, fun _ => ⟨_, rfl, rfl, ?_⟩⟩
  · split
    · exact Int.one_ne_zero
    · exact Int.one_ne_zero
  · exact evenLower_past past given blocks even member

/-- A call under STATIC: no more, or the first one of the first thread. -/
theorem nextStatic_past {thread : OmpVThread} {turn : Nat}
    (ordered : Bool) (given : loop.Given width) (difference : width.Fits (loop.upper - loop.lower))
    (blocks : loop.BlocksFit width) (static : loop.schedtype = .static)
    (member : tid < loop.teamSize) (described : loop.Described team)
    (count : thread.scheduleCount = turn) (asked : loop.Asked loop.tripCount tid turn) :
    nextStatic width ordered tid team thread = (thread, .noMore) ∨
      loop.start tid turn = 0 ∧ loop.tripCount = 1 ∧
        (nextStatic width ordered tid team thread).1.scheduleCount = turn + 1 ∧
        loop.ServesNone (nextStatic width ordered tid team thread).2 := by
  obtain ⟨tripIs, few⟩ := tripCount_past past given difference
  have trip : width.wrap
      (quotient width ⟨loop.lower, loop.upper, loop.incr, loop.chunk⟩ + 1) =
        loop.tripCount := tripIs
  have positive := given.positive
  have chunkIs : loop.chunk = loop.size := by
    rw [size_static static]
    omega
  have number : width.wrap
      ((turn : Int) * loop.chunk * loop.teamSize + tid * loop.chunk + 1) =
        loop.start tid turn + 1 := by
    have starts : (turn : Int) * loop.chunk * loop.teamSize + tid * loop.chunk + 1 =
        (loop.start tid turn + 1 : Nat) := by
      rw [chunkIs]
      unfold start
      push_cast
      ring
    rw [starts, width.wrap_eq_of_fits (blocks.counts tid member turn asked)]
    push_cast
    rfl
  unfold nextStatic
  rw [given.locals described]
  dsimp only
  rw [trip, described.teamSize, count, number]
  by_cases served : (loop.start tid turn : Int) + 1 > loop.tripCount
  · exact .inl (if_pos served)
  · rw [if_neg served]
    have zero : loop.start tid turn = 0 := by omega
    refine .inr ⟨zero, by omega, ?_, fun _ => ⟨_, rfl, rfl, ?_⟩⟩
    · split <;> rfl
    · have first : tid = 0 ∧ turn = 0 := by
        unfold start at zero
        have inhabited := given.inhabited
        have both := (Nat.mul_eq_zero.mp zero).resolve_right (by omega)
        refine ⟨by omega, ?_⟩
        exact (Nat.mul_eq_zero.mp (by omega : turn * loop.teamSize = 0)).resolve_right (by omega)
      obtain ⟨rfl, rfl⟩ := first
      dsimp only
      simp only [Int.natCast_zero, Int.zero_mul, Int.add_zero]
      have zeroFits : width.wrap 0 = 0 := by
        unfold OmpWidth.wrap
        exact Int.zero_bmod
      rw [zeroFits, Int.add_zero, width.wrap_eq_of_fits given.lower]
      exact past

/-- The calls of a thread: at most one chunk without iterations. -/
theorem nextBySchedule_past {thread : OmpVThread}
    (given : loop.Given width) (inRange : loop.InRange width)
    (several : loop.teamSize ≠ 1) (isStatic : loop.IsStatic)
    (member : tid < loop.teamSize) (described : loop.Described team)
    (fresh : thread.scheduleCount = 0) :
    ∃ after : OmpVThread × NextResult,
      nextBySchedule width tid team thread = .ok (team, after) ∧
        Stopped width tid team after.1 ∧ loop.ServesNone after.2 := by
  have blocks := inRange.blocks several isStatic
  have difference := inRange.difference several
  obtain ⟨ordered, ⟨even, calls⟩ | ⟨static, calls⟩⟩ :=
    @nextBySchedule_static width loop team described isStatic
  · obtain ⟨counted, none⟩ := nextStaticEven_past past ordered given difference
      blocks even member described fresh
    refine ⟨_, calls tid thread, ?_, none⟩
    rw [Stopped, calls]
    conv_lhs => rw [nextStaticEven, if_pos counted]
  · obtain stopped | ⟨zero, one, counted, none⟩ := nextStatic_past past ordered given
      difference blocks static member described fresh (firstAsked loop _ tid)
    · refine ⟨(thread, .noMore), by rw [calls, stopped], ?_, (nomatch ·)⟩
      rw [Stopped, calls, stopped]
    · refine ⟨_, calls tid thread, ?_, none⟩
      have asked : loop.Asked loop.tripCount tid 1 := by
        refine .inr ⟨static, ?_⟩
        rw [one, Nat.sub_self, zero]
        decide
      have later : loop.start tid 1 ≠ 0 := by
        have inhabited := given.inhabited
        have positive := given.positive
        have some : 0 < loop.size := by
          rw [size_static static]
          omega
        have := Nat.mul_pos inhabited some
        rw [start_succ]
        omega
      rw [Stopped, calls]
      exact congrArg (fun after => Except.ok (team, after))
        ((nextStatic_past past ordered given difference blocks static member described
          counted asked).resolve_right fun served => later served.1)

section

variable (given : loop.Given width) (inRange : loop.InRange width) (parallel : mode ≠ .sequential)
  (several : loop.teamSize ≠ 1) (isStatic : loop.IsStatic)

include given inRange parallel several isStatic

theorem handsOut_past
            (member : tid < loop.teamSize) (calls : List Nat) :
    ∀ own : TeamRecords, loop.Described own.team →
      (own.threads tid).scheduleCount = 0 →
        HandsOut loop.upper tid 2 [] calls (runCalls width mode root own calls) := by
  induction calls with
  | nil => exact fun _ _ _ => HandsOut.nil _ (by decide)
  | cons caller calls ih =>
      intro own described fresh
      have many : own.team.teamSize ≠ 1 := by rwa [described.teamSize]
      by_cases same : caller = tid
      · subst same
        obtain ⟨after, called, stopped, none⟩ := nextBySchedule_past past given inRange
          several isStatic member described fresh
        obtain ⟨record, thread, result, runs⟩ := @runCalls_static width mode root own
          caller calls after parallel many called
        rw [runs]
        rw [← result] at none
        rw [← own.setThread_self caller after.1] at stopped
        have rest := @stopped_handsOut width loop caller mode root parallel
          isStatic calls (own.setThread caller after.1) many described stopped
        by_cases again : record.result.again = true
        · exact rest.again thread again (none.values given again)
        · exact rest.done thread (Bool.not_eq_true _ ▸ again)
      · obtain ⟨after, called⟩ := @nextBySchedule_called width loop own.team described
          isStatic caller (own.threads caller)
        obtain ⟨record, thread, -, runs⟩ := @runCalls_static width mode root own caller
          calls after parallel many called
        rw [← own.setThread_other (Ne.symm same) after.1] at fresh
        rw [runs]
        exact (ih (own.setThread caller after.1) described fresh).other thread same

theorem sharesOut_past : loop.SharesOut width mode := by
  have empty : loopIterations loop.lower loop.upper loop.incr = ∅ :=
    progression_eq_empty given.nonzero past
  refine ⟨fun _ => [], ?_, fun tid member => ⟨fun stride fuel _ => ?_,
    fun root own calls _ ready fresh => ?_⟩⟩
  · refine
      { inside := fun _ _ _ member => absurd member List.not_mem_nil
        once := fun _ _ => List.nodup_nil
        disjoint := fun _ _ _ _ _ => List.disjoint_nil_left _
        complete := fun value inLoop => ?_ }
    rw [empty] at inLoop
    exact absurd inLoop (Set.notMem_empty value)
  · exact staticInit_past past given inRange parallel several isStatic member
  · exact (handsOut_past past given inRange parallel several isStatic member calls own
      (ready.described several) fresh).mono (by omega)

end

end Empty

/-! ## All loops -/

theorem Given.runsOnce {mode : ExeMode} (given : loop.Given width)
    (inRange : loop.InRange width) (parallel : mode ≠ .sequential) :
    loop.RunsOnce width mode := by
  by_cases alone : loop.teamSize = 1
  · exact
      { static := given.sharesOut_alone inRange parallel alone
        claimed := fun _ => given.claimsOnce_alone parallel alone }
  refine
    { static := fun isStatic => ?_
      claimed := fun claimed =>
        given.claimsOnce (inRange.claims alone claimed) parallel alone claimed }
  by_cases within : Within loop.incr loop.upper loop.lower
  · have inhabited := given.inhabited
    have valid : loop.Valid := ⟨isStatic, by omega, given.nonzero, within, given.positive⟩
    exact valid.sharesOut
      ⟨given.lower, given.upper, given.incr, given.chunk, inRange.difference alone,
        given.total, inRange.blocks alone isStatic⟩ parallel
  · exact sharesOut_past within given inRange parallel alone isStatic

/--
Whatever the bounds, the increment, the chunk size, the size of the team and
the schedule type: if the values that decide which iterations run can be
represented, no iteration runs twice or is left out, and the calls end.
-/
theorem runsOnce_of_inRange {mode : ExeMode} (given : loop.Given width)
    (inRange : loop.InRange width) (parallel : mode ≠ .sequential) :
    loop.RunsOnce width mode :=
  given.runsOnce inRange parallel

theorem runsOnce_of_inRange_twoBlocks : twoBlocks.RunsOnce .four .normal := by
  refine runsOnce_of_inRange ?_ ?_ (by decide)
  · exact ⟨.inl twoBlocks_valid.isStatic, by decide, by decide, by decide, by decide,
      by decide, by decide, by decide, by decide, by decide⟩
  · refine ⟨fun alone => absurd alone (by decide), fun _ => by decide,
      fun _ _ => twoBlocks_fits.blocks, fun _ claimed => ?_⟩
    exact absurd claimed (by unfold OmpSched.Claimed; decide)

/-- `for (i = INT_MIN; i <= INT_MAX; i += 4)`, for two threads. -/
def wideLoop : SharedLoop where
  schedtype := .staticEven
  teamSize := 2
  lower := -2 ^ 31
  upper := 2 ^ 31 - 1
  incr := 4
  chunk := 1

/-- The threads run one iteration each, of a quarter of 2 ^ 32. -/
theorem wideLoop_not_runsOnce : wideLoop.Given .four ∧ ¬wideLoop.RunsOnce .four .normal := by
  refine ⟨⟨.inl (.inl rfl), by decide, by decide, by decide, by decide, by decide,
    by decide, by decide, by decide, by decide⟩, fun once => ?_⟩
  obtain ⟨values, partition, calls⟩ := once.static (.inl rfl)
  have first : values 0 = [-2 ^ 31] := by
    have runs := (calls 0 (by decide)).1 0 wideLoop.total (le_refl _)
    exact (Except.ok.inj (runs.symm.trans (by decide)))
  have second : values 1 = [-2 ^ 31 + 4] := by
    have runs := (calls 1 (by decide)).1 0 wideLoop.total (le_refl _)
    exact (Except.ok.inj (runs.symm.trans (by decide)))
  have inLoop : (-2 ^ 31 + 8 : Int) ∈ loopIterations wideLoop.lower wideLoop.upper wideLoop.incr :=
    ⟨⟨2, by decide⟩, by decide⟩
  obtain ⟨tid, member, run⟩ := partition.complete _ inLoop
  have two : tid = 0 ∨ tid = 1 := by
    change tid < 2 at member
    omega
  rcases two with rfl | rfl
  · rw [first] at run
    exact absurd run (by decide)
  · rw [second] at run
    exact absurd run (by decide)

end SharedLoop

end OpenUH.Libopenmp.Scheduler
