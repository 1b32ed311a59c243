import OpenUH.Foundation.SenseReversal
import OpenUH.Foundation.Tally
import OpenUH.Libcaf.TeamBarrierSteps

/-!
# Team barriers are barriers

The invariant relates the flags to how far the images got: a flag of a round
shows how often its source has put, a node flag whether an arrival or a
release is outstanding, and a leader's counter how many of its non-leaders
have arrived.  From it every poll waits for exactly the write of its own
barrier, and dissemination among the parties gives the rendezvous.
-/

namespace OpenUH.Libcaf.TeamBarrier

open Foundation
open Libcaf.TeamFormation
open Formation

variable {team : Formation} {state : State} {proc : Nat}

/-! ## Milestones of leaders and non-leaders -/

namespace Phase

/-- Before the arrival at the rounds. -/
def beforeRounds : Phase → Bool
  | gathering _ => true
  | counting => true
  | resetting => true
  | _ => false

/-- Before the poll of a round succeeds. -/
def beforeHear (round : Nat) : Phase → Bool
  | gathering _ => true
  | counting => true
  | resetting => true
  | putting current => current ≤ round
  | polling current => current ≤ round
  | _ => false

/-- Before the parity turns. -/
def beforeToggle : Phase → Bool
  | gathering _ => true
  | counting => true
  | resetting => true
  | putting _ => true
  | polling _ => true
  | toggling => true
  | _ => false

/-- Before a leader knows that the non-leader of an index arrived. -/
def beforeGather (index : Nat) : Phase → Bool
  | gathering current => current ≤ index
  | counting => true
  | _ => false

/-- The phase in which it learns that. -/
def gathers (index : Nat) : Phase → Bool
  | gathering current => current = index
  | counting => true
  | _ => false

/-- Before a leader resets its counter. -/
def beforeReset : Phase → Bool
  | counting => true
  | resetting => true
  | _ => false

/-- Before a non-leader sees that it may go on. -/
def beforeSeen : Phase → Bool
  | notifying => true
  | awaitingLeader => true
  | _ => false

/-- Before a non-leader clears its flag. -/
def beforeClear : Phase → Bool
  | notifying => true
  | awaitingLeader => true
  | clearing => true
  | _ => false

end Phase

section Milestones

attribute [local grind] nextPhase Fits roundFrom gatherFrom releaseFrom
  firstPhase

theorem milestone_put (leads : team.leads proc = true) {round : Nat}
    (isRound : round < team.roundBound) :
    Milestone team proc (Phase.beforePut round) (· == .putting round) where
  outside := rfl
  first := by
    cases algorithm : team.algorithm <;> grind [Phase.beforePut]
  pass phase started fits := by
    cases phase <;> grind [Phase.beforePut]
  once phase started fits here := by
    cases phase <;> grind [Phase.beforePut]

theorem milestone_hear (leads : team.leads proc = true) {round : Nat}
    (isRound : round < team.roundBound) :
    Milestone team proc (Phase.beforeHear round) (· == .polling round) where
  outside := rfl
  first := by
    cases algorithm : team.algorithm <;> grind [Phase.beforeHear]
  pass phase started fits := by
    cases phase <;> grind [Phase.beforeHear]
  once phase started fits here := by
    cases phase <;> grind [Phase.beforeHear]

theorem milestone_toggle (leads : team.leads proc = true) :
    Milestone team proc Phase.beforeToggle (· == .toggling) where
  outside := rfl
  first := by
    cases algorithm : team.algorithm <;> grind [Phase.beforeToggle]
  pass phase started fits := by
    cases phase <;> grind [Phase.beforeToggle]
  once phase started fits here := by
    cases phase <;> grind [Phase.beforeToggle]

theorem milestone_release (leads : team.leads proc = true) {index : Nat}
    (inside : index < (team.nonleaders proc).length) :
    Milestone team proc (Phase.beforeRelease index) (· == .releasing index) where
  outside := rfl
  first := by
    cases algorithm : team.algorithm <;> grind [Phase.beforeRelease]
  pass phase started fits := by
    cases phase <;> grind [Phase.beforeRelease]
  once phase started fits here := by
    cases phase <;> grind [Phase.beforeRelease]

theorem milestone_gather (leads : team.leads proc = true)
    (aware : team.algorithm.nodeAware = true) {index : Nat}
    (inside : index < (team.nonleaders proc).length) :
    Milestone team proc (Phase.beforeGather index) (Phase.gathers index) where
  outside := rfl
  first := by
    cases algorithm : team.algorithm with
    | dissem => rw [algorithm] at aware; cases aware
    | twoLevelMultiflag | twoLevelSharedcounter => grind [Phase.beforeGather]
  pass phase started fits := by
    cases phase <;> grind [Phase.beforeGather, Phase.gathers]
  once phase started fits here := by
    cases phase <;> grind [Phase.beforeGather, Phase.gathers]

theorem milestone_reset (leads : team.leads proc = true)
    (shared : team.algorithm = .twoLevelSharedcounter) :
    Milestone team proc Phase.beforeReset (· == .resetting) where
  outside := rfl
  first := by grind [Phase.beforeReset]
  pass phase started fits := by
    cases phase <;> grind [Phase.beforeReset]
  once phase started fits here := by
    cases phase <;> grind [Phase.beforeReset]

theorem milestone_arrival (follows : team.leads proc = false) :
    Milestone team proc Phase.beforeArrival (· == .notifying) where
  outside := rfl
  first := by grind [Phase.beforeArrival]
  pass phase started fits := by
    cases phase <;> grind [Phase.beforeArrival]
  once phase started fits here := by
    cases phase <;> grind [Phase.beforeArrival]

theorem milestone_seen (follows : team.leads proc = false) :
    Milestone team proc Phase.beforeSeen (· == .awaitingLeader) where
  outside := rfl
  first := by grind [Phase.beforeSeen]
  pass phase started fits := by
    cases phase <;> grind [Phase.beforeSeen]
  once phase started fits here := by
    cases phase <;> grind [Phase.beforeSeen]

theorem milestone_clear (follows : team.leads proc = false)
    (shared : team.algorithm = .twoLevelSharedcounter) :
    Milestone team proc Phase.beforeClear (· == .clearing) where
  outside := rfl
  first := by grind [Phase.beforeClear]
  pass phase started fits := by
    cases phase <;> grind [Phase.beforeClear]
  once phase started fits here := by
    cases phase <;> grind [Phase.beforeClear]

end Milestones

/-! ## Counts of one image -/

theorem times_le_entered (image : Image) (before : Phase → Bool) :
    image.times before ≤ image.entered :=
  Nat.sub_le _ _

theorem entered_le_times (image : Image) (before : Phase → Bool) :
    image.entered ≤ image.times before + 1 := by
  unfold Image.times
  have bound := Bool.toNat_le (before image.phase)
  omega

theorem times_le_times_at {image : Image} {before earlier : Phase → Bool}
    (further : earlier image.phase = true → before image.phase = true) :
    image.times before ≤ image.times earlier := by
  unfold Image.times
  have step : (earlier image.phase).toNat ≤ (before image.phase).toNat := by
    cases early : earlier image.phase with
    | false => exact Nat.zero_le _
    | true => rw [further early]
  omega

/-- A milestone that lies further ahead has been passed less often. -/
theorem times_le_times {image : Image} {before earlier : Phase → Bool}
    (further : ∀ phase, earlier phase = true → before phase = true) :
    image.times before ≤ image.times earlier :=
  times_le_times_at (further _)

theorem times_of_past {image : Image} {before : Phase → Bool}
    (past : before image.phase = false) : image.times before = image.entered := by
  simp [Image.times, past]

theorem times_of_before {image : Image} {before : Phase → Bool}
    (ahead : before image.phase = true) :
    image.times before = image.entered - 1 := by
  simp [Image.times, ahead]

/-! ## The invariant -/

/-- In how many barriers the parity of an image has turned. -/
def State.toggled (state : State) (proc : Nat) : Nat :=
  (state proc).times Phase.beforeToggle

/-- In how many barriers the poll of a round has succeeded. -/
def State.heard (state : State) (proc round : Nat) : Nat :=
  (state proc).times (Phase.beforeHear round)

/-- In how many barriers an image has come to the rounds. -/
def State.started (state : State) (proc : Nat) : Nat :=
  (state proc).times Phase.beforeRounds

/-- In how many barriers a leader knows of the arrival of a non-leader. -/
def State.gathered (state : State) (leader index : Nat) : Nat :=
  (state leader).times (Phase.beforeGather index)

/-- In how many barriers a leader has reset its counter. -/
def State.reset (state : State) (leader : Nat) : Nat :=
  (state leader).times Phase.beforeReset

/-- In how many barriers a non-leader has seen its release. -/
def State.seen (state : State) (nonleader : Nat) : Nat :=
  (state nonleader).times Phase.beforeSeen

/-- In how many barriers a non-leader has cleared its flag. -/
def State.cleared (state : State) (nonleader : Nat) : Nat :=
  (state nonleader).times Phase.beforeClear

/-- How the flags stand to the progress of the images. -/
structure Invariant (team : Formation) (state : State) : Prop where
  begun : ∀ proc, (state proc).phase ≠ .outside → 0 < (state proc).entered
  fits : ∀ proc ∈ team.codimensionMapping, Fits team proc (state proc).phase
  toggles : ∀ proc ∈ team.parties,
    (state proc).parity = SenseReversal.parity (state.toggled proc) ∧
      (state proc).sense = SenseReversal.senseBefore (state.toggled proc)
  localFlags : ∀ proc ∈ team.parties, ∀ round < team.roundBound,
    ∀ flag < 2, (state proc).localFlag round flag =
      SenseReversal.held (state.sent (team.source proc round) round) flag
  heard : ∀ proc ∈ team.parties, ∀ round < team.roundBound,
    state.heard proc round ≤ state.sent (team.source proc round) round
  seen : ∀ leader index nonleader, Serves team leader index nonleader →
    state.seen nonleader ≤ state.released leader index
  arrived : ∀ leader index nonleader, Serves team leader index nonleader →
    state.arrived nonleader ≤ state.released leader index + 1
  gathered : ∀ leader index nonleader, Serves team leader index nonleader →
    state.gathered leader index ≤ state.arrived nonleader
  multiflag : team.algorithm = .twoLevelMultiflag →
    ∀ leader index nonleader, Serves team leader index nonleader →
      ((state nonleader).intranodeFlag = 1 ↔
        state.arrived nonleader = state.released leader index + 1) ∧
      (0 < state.arrived nonleader →
        (state nonleader).intranodeFlag = 0 ∨ (state nonleader).intranodeFlag = 1)
  sharedFlag : team.algorithm = .twoLevelSharedcounter →
    ∀ leader index nonleader, Serves team leader index nonleader →
      ((state nonleader).intranodeFlag = 1 ↔
        state.released leader index = state.cleared nonleader + 1)
  counter : team.algorithm = .twoLevelSharedcounter →
    ∀ leader ∈ team.codimensionMapping, team.leads leader = true →
      Tally (fun nonleader => nonleader ∈ team.nonleaders leader ∧
        state.reset leader < state.arrived nonleader)
        (state leader).intranodeFlag

/-! ## Dissemination among the parties -/

theorem State.released_le_gathered (state : State) (leader index : Nat) :
    state.released leader index ≤ state.gathered leader index :=
  times_le_times fun phase => by
    cases phase <;> simp [Phase.beforeGather, Phase.beforeRelease]

theorem State.released_le_toggled (state : State) (leader index : Nat) :
    state.released leader index ≤ state.toggled leader :=
  times_le_times fun phase => by
    cases phase <;> simp [Phase.beforeToggle, Phase.beforeRelease]

theorem State.started_le_gathered (state : State) (leader index : Nat) :
    state.started leader ≤ state.gathered leader index :=
  times_le_times fun phase => by
    cases phase <;> simp [Phase.beforeGather, Phase.beforeRounds]

theorem State.sent_le_started (state : State) (proc round : Nat) :
    state.sent proc round ≤ state.started proc :=
  times_le_times fun phase => by
    cases phase <;> simp [Phase.beforePut, Phase.beforeRounds]

theorem State.toggled_le_heard (state : State) (proc round : Nat) :
    state.toggled proc ≤ state.heard proc round :=
  times_le_times fun phase => by
    cases phase <;> simp [Phase.beforeToggle, Phase.beforeHear]

theorem State.toggled_le_started (state : State) (proc : Nat) :
    state.toggled proc ≤ state.started proc :=
  times_le_times fun phase => by
    cases phase <;> simp [Phase.beforeToggle, Phase.beforeRounds]

theorem State.heard_le_sent (state : State) (proc round : Nat) :
    state.heard proc round ≤ state.sent proc round :=
  times_le_times fun phase => by
    cases phase <;> simp [Phase.beforePut, Phase.beforeHear]
    omega

theorem State.sent_succ_le_heard (state : State) (proc round : Nat) :
    state.sent proc (round + 1) ≤ state.heard proc round :=
  times_le_times fun phase => by
    cases phase <;> simp [Phase.beforePut, Phase.beforeHear]
    all_goals omega

/-- Who is about to show its arrival has seen every release for which it showed one. -/
theorem State.arrived_eq_seen (here : (state proc).phase = .notifying) :
    state.arrived proc = state.seen proc := by
  rw [State.arrived, State.seen, times_of_before (by simp [here, Phase.beforeArrival]),
    times_of_before (by simp [here, Phase.beforeSeen])]

namespace Invariant

section

variable (invariant : Invariant team state)

include invariant

/-- The parties, by their place, are the counts of a dissemination. -/
theorem counts (fallback : Nat) :
    Dissemination.Counts team.parties.length
      (fun place => state.started (team.parties.getD place fallback))
      (fun place => state.sent (team.parties.getD place fallback))
      (fun place => state.heard (team.parties.getD place fallback)) where
  first place inside := state.sent_le_started _ 0
  own place inside round isRound := state.heard_le_sent _ round
  next place inside round isRound := state.sent_succ_le_heard _ round
  source place inside round isRound := by
    have party := getD_mem inside fallback
    have heard := invariant.heard _ party round isRound
    have partner : team.source (team.parties.getD place fallback) round =
        team.parties.getD
          (Dissemination.behind team.parties.length place (2 ^ round))
          fallback := by
      rw [source_eq isRound, rank_getD inside]
      have behind := Dissemination.behind_lt inside (2 ^ round)
      simp [List.getD, List.getElem?_eq_getElem behind]
    rwa [partner] at heard

/-- A party is through the rounds no more often than any other came to them. -/
theorem toggled_le_started {proc other : Nat}
    (party : proc ∈ team.parties) (otherParty : other ∈ team.parties) :
    state.toggled proc ≤ state.started other := by
  have bound := @Dissemination.Counts.finished_le_begun _ _ _ _
    (invariant.counts proc)
    (fun place => state.toggled (team.parties.getD place proc))
    (fun place inside round last => state.toggled_le_heard _ round)
    (fun place inside => state.toggled_le_started _)
    _ _ (rank_lt party) (rank_lt otherParty)
  rwa [getD_rank party, getD_rank otherParty] at bound

/-- So is what a party finished, for every member of the team. -/
theorem toggled_le_entered {proc other : Nat}
    (party : proc ∈ team.parties) (member : other ∈ team.codimensionMapping) :
    state.toggled proc ≤ (state other).entered := by
  cases leads : team.leads other with
  | true =>
      exact (invariant.toggled_le_started party
        (mem_parties.mpr ⟨member, leads⟩)).trans (times_le_entered _ _)
  | false =>
      have serves := serves_of_not_leads member leads
      calc state.toggled proc
          ≤ state.started (team.getLeader other) :=
            invariant.toggled_le_started party (mem_parties.mpr ⟨serves.member, serves.leads⟩)
        _ ≤ state.gathered (team.getLeader other) _ := state.started_le_gathered _ _
        _ ≤ state.arrived other := invariant.gathered _ _ _ serves
        _ ≤ (state other).entered := times_le_entered _ _

/-- No image is back from a barrier that some member has not entered. -/
theorem rendezvous {proc other : Nat}
    (member : proc ∈ team.codimensionMapping) (otherMember : other ∈ team.codimensionMapping) :
    state.returned proc ≤ (state other).entered := by
  cases leads : team.leads proc with
  | true =>
      have past : state.returned proc ≤ state.toggled proc := times_le_times fun phase => by
          cases phase <;> simp [Phase.beforeToggle, Phase.inside]
      exact past.trans (invariant.toggled_le_entered (mem_parties.mpr ⟨member, leads⟩) otherMember)
  | false =>
      have serves := serves_of_not_leads member leads
      calc state.returned proc
          ≤ state.seen proc := times_le_times fun phase => by
              cases phase <;> simp [Phase.beforeSeen, Phase.inside]
        _ ≤ state.released (team.getLeader proc) _ := invariant.seen _ _ _ serves
        _ ≤ state.toggled (team.getLeader proc) := state.released_le_toggled _ _
        _ ≤ (state other).entered :=
            invariant.toggled_le_entered (mem_parties.mpr ⟨serves.member, serves.leads⟩) otherMember

/-! ## Polls -/

/-- The flag of a round shows exactly whether the source has put. -/
theorem poll_round {proc round : Nat}
    (party : proc ∈ team.parties) (isRound : round < team.roundBound)
    (here : (state proc).phase = .polling round) :
    (state proc).localFlag round (state proc).parity = (state proc).barSense ↔
      (state proc).entered ≤ state.sent (team.source proc round) round := by
  have positive := invariant.begun proc (by simp [here])
  have toggled : state.toggled proc = (state proc).entered - 1 :=
    times_of_before (by simp [here, Phase.beforeToggle])
  have heard : state.heard proc round = (state proc).entered - 1 :=
    times_of_before (by simp [here, Phase.beforeHear])
  obtain ⟨parity, sense⟩ := invariant.toggles proc party
  have sourceParty := source_mem party isRound
  have behind := invariant.heard proc party round isRound
  have ahead : state.sent (team.source proc round) round ≤ (state proc).entered + 1 := by
    have turned : (state (team.source proc round)).entered ≤
        state.toggled (team.source proc round) + 1 := entered_le_times _ _
    have bound := invariant.toggled_le_started sourceParty party
    have started : state.started proc ≤ (state proc).entered := times_le_entered _ _
    have sent : state.sent (team.source proc round) round ≤
        (state (team.source proc round)).entered := times_le_entered _ _
    omega
  have shown := invariant.localFlags proc party round isRound
    (state proc).parity (by rw [parity]; exact SenseReversal.parity_lt _)
  have value : (state proc).barSense = SenseReversal.written (state.toggled proc) := by
    rw [Image.barSense, sense, SenseReversal.written]
  rw [shown, value, parity, SenseReversal.held_eq_written_iff (by omega) (by omega)]
  omega

/-- A non-leader's flag shows exactly whether it was let go on. -/
theorem poll_leader {leader index nonleader : Nat} (serves : Serves team leader index nonleader)
    (here : (state nonleader).phase = .awaitingLeader) :
    (team.algorithm = .twoLevelMultiflag →
      ((state nonleader).intranodeFlag = 0 ↔
        (state nonleader).entered ≤ state.released leader index)) ∧
    (team.algorithm = .twoLevelSharedcounter →
      ((state nonleader).intranodeFlag = 1 ↔
        (state nonleader).entered ≤ state.released leader index)) := by
  have positive := invariant.begun nonleader (by simp [here])
  have arrived : state.arrived nonleader = (state nonleader).entered :=
    times_of_past (by simp [here, Phase.beforeArrival])
  have cleared : state.cleared nonleader = (state nonleader).entered - 1 :=
    times_of_before (by simp [here, Phase.beforeClear])
  have lower := invariant.arrived _ _ _ serves
  have upper := (state.released_le_gathered leader index).trans (invariant.gathered _ _ _ serves)
  constructor
  · intro multiflag
    obtain ⟨shown, range⟩ := invariant.multiflag multiflag _ _ _ serves
    have range := range (by omega)
    omega
  · intro shared
    have shown := invariant.sharedFlag shared _ _ _ serves
    omega

/-- The flag a leader polls shows exactly whether its owner arrived. -/
theorem poll_nonleader {leader index nonleader : Nat}
    (serves : Serves team leader index nonleader) (multiflag : team.algorithm = .twoLevelMultiflag)
    (here : (state leader).phase = .gathering index) :
    (state nonleader).intranodeFlag = 1 ↔ (state leader).entered ≤ state.arrived nonleader := by
  have positive := invariant.begun leader (by simp [here])
  have released : state.released leader index = (state leader).entered - 1 :=
    times_of_before (by simp [here, Phase.beforeRelease])
  have upper := invariant.arrived _ _ _ serves
  have shown := (invariant.multiflag multiflag _ _ _ serves).1
  omega

/-- The counter is full exactly when every non-leader arrived. -/
theorem poll_counter {leader : Nat}
    (member : leader ∈ team.codimensionMapping) (leads : team.leads leader = true)
    (shared : team.algorithm = .twoLevelSharedcounter) (here : (state leader).phase = .counting) :
    (state leader).intranodeFlag = (team.nonleaders leader).length ↔
      ∀ other ∈ team.nonleaders leader, (state leader).entered ≤ state.arrived other := by
  have positive := invariant.begun leader (by simp [here])
  have reset : state.reset leader = (state leader).entered - 1 :=
    times_of_before (by simp [here, Phase.beforeReset])
  rw [(invariant.counter shared leader member leads).eq_length_iff
    (nodup_nonleaders leader) (fun _ chosen => chosen.1)]
  refine forall_congr' fun other => ?_
  constructor
  · intro chosen present
    have later := (chosen present).2
    omega
  · intro arrived present
    have later := arrived present
    exact ⟨present, by omega⟩

/-- A poll succeeds exactly when its write was made in this barrier. -/
theorem poll_iff (member : proc ∈ team.codimensionMapping) :
    pollSucceeds team state proc = true ↔ Awaited team state proc := by
  have fits := invariant.fits proc member
  unfold pollSucceeds Awaited
  cases here : (state proc).phase with
  | awaitingLeader =>
      rw [here] at fits
      have serves := serves_of_not_leads member fits
      have poll := invariant.poll_leader serves here
      cases algorithm : team.algorithm with
      | dissem =>
          have aware := serves.nodeAware
          rw [algorithm] at aware
          cases aware
      | twoLevelMultiflag => simpa using poll.1 algorithm
      | twoLevelSharedcounter => simpa using poll.2 algorithm
  | gathering index =>
      rw [here] at fits
      simpa using invariant.poll_nonleader (serves_of_lt member fits.1 fits.2.2) fits.2.1 here
  | counting =>
      rw [here] at fits
      simpa using invariant.poll_counter member fits.1 fits.2 here
  | polling round =>
      rw [here] at fits
      simpa using invariant.poll_round (mem_parties.mpr ⟨member, fits.1⟩) fits.2 here
  | outside | notifying | clearing | resetting | putting | toggling
    | releasing => simp

/-! ## Every action keeps the invariant -/

theorem begun_act (other : Nat) (started : (act team state proc other).phase ≠ .outside) :
    0 < (act team state proc other).entered := by
  rw [act_entered]
  rw [act_phase] at started
  split
  · omega
  · rename_i elsewhere
    apply invariant.begun
    split at started
    · rename_i same
      subst same
      simpa using elsewhere
    · exact started

theorem fits_act (other : Nat) (member : other ∈ team.codimensionMapping) :
    Fits team other (act team state proc other).phase := by
  rw [act_phase]
  split
  · rename_i same
    subst same
    exact fits_nextPhase (invariant.fits other member)
  · exact invariant.fits other member

/-- Passing a milestone, for a member of the team. -/
theorem times_act (proc : Nat) {other : Nat}
    (member : other ∈ team.codimensionMapping) {before here : Phase → Bool}
    (milestone : Milestone team other before here) :
    (act team state proc other).times before =
      (state other).times before +
        if other = proc ∧ (state proc).phase ≠ .outside ∧
            here (state proc).phase = true then 1 else 0 :=
  TeamBarrier.times_act milestone (invariant.fits other member) (invariant.begun other)

theorem toggles_act {other : Nat} (party : other ∈ team.parties) :
    (act team state proc other).parity =
        SenseReversal.parity (State.toggled (act team state proc) other) ∧
      (act team state proc other).sense =
        SenseReversal.senseBefore (State.toggled (act team state proc) other) := by
  obtain ⟨member, leads⟩ := mem_parties.mp party
  obtain ⟨parity, sense⟩ := invariant.toggles other party
  have toggled : State.toggled (act team state proc) other = state.toggled other + _ :=
    invariant.times_act proc member (milestone_toggle leads)
  have changed := act_toggles team state proc other
  rw [Prod.mk.injEq] at changed
  by_cases turns : other = proc ∧ (state proc).phase = .toggling
  · rw [if_pos turns] at changed
    rw [changed.1, changed.2, toggled, if_pos (by simp [turns]),
      SenseReversal.parity_succ, SenseReversal.senseBefore_succ]
    simp only [Image.toggle, Image.barSense, parity, sense, SenseReversal.written, and_self]
  · rw [if_neg turns] at changed
    rw [changed.1, changed.2, toggled,
      if_neg (by simpa using fun same _ phase => turns ⟨same, phase⟩)]
    exact ⟨parity, sense⟩

/-- A put shows up at its target as one more episode of its source. -/
theorem localFlags_act {other : Nat} (party : other ∈ team.parties) {round : Nat}
    (isRound : round < team.roundBound) {flag : Nat} (isFlag : flag < 2)
    (actor : proc ∈ team.codimensionMapping) :
    (act team state proc other).localFlag round flag =
      SenseReversal.held
        (State.sent (act team state proc) (team.source other round) round)
        flag := by
  have shown := invariant.localFlags other party round isRound flag isFlag
  have sourceParty := source_mem party isRound
  obtain ⟨sourceMember, sourceLeads⟩ := mem_parties.mp sourceParty
  have sent : State.sent (act team state proc) (team.source other round)
      round = state.sent (team.source other round) round + _ :=
    invariant.times_act proc sourceMember (milestone_put sourceLeads isRound)
  have fits := invariant.fits proc actor
  rw [act_localFlag, sent]
  cases here : (state proc).phase with
  | putting current =>
      rw [here] at fits
      have actorParty := mem_parties.mpr ⟨actor, fits.1⟩
      dsimp only
      by_cases mine : other = team.target proc current
      · rw [if_pos mine]
        by_cases same : round = current
        · subst same
          have source : team.source other round = proc := by
            rw [mine]
            exact source_target actorParty isRound
          have positive := invariant.begun proc (by simp [here])
          have before : state.sent proc round = state.toggled proc := by
            rw [State.sent, State.toggled,
              times_of_before (by simp [here, Phase.beforePut]),
              times_of_before (by simp [here, Phase.beforeToggle])]
          obtain ⟨parity, sense⟩ := invariant.toggles proc actorParty
          rw [source] at shown ⊢
          rw [if_pos (by simp), SenseReversal.held_succ _ isFlag, ← shown,
            before, ← parity, SenseReversal.written, ← sense]
          simp [Image.setLocalFlag, Function.update_apply, Image.barSense]
        · rw [if_neg (by simp [Ne.symm same]), Nat.add_zero, ← shown]
          simp [Image.setLocalFlag, same]
      · rw [if_neg mine, if_neg, shown, Nat.add_zero]
        rintro ⟨source, -, passes⟩
        have same : current = round := by simpa using passes
        subst same
        apply mine
        rw [← source]
        exact (target_source party isRound).symm
  | outside | notifying | awaitingLeader | clearing | gathering | counting
    | resetting | polling | toggling | releasing =>
      rw [if_neg (by simp), Nat.add_zero]
      exact shown

/-- Whoever hears in a round has a source that put. -/
theorem heard_act {other : Nat}
    (party : other ∈ team.parties) {round : Nat} (isRound : round < team.roundBound)
    (awaited : Awaited team state proc) :
    State.heard (act team state proc) other round ≤
      State.sent (act team state proc) (team.source other round) round := by
  have before := invariant.heard other party round isRound
  obtain ⟨member, leads⟩ := mem_parties.mp party
  obtain ⟨sourceMember, sourceLeads⟩ := mem_parties.mp (source_mem party isRound)
  have heard : State.heard (act team state proc) other round = state.heard other round + _ :=
    invariant.times_act proc member (milestone_hear leads isRound)
  have sent : State.sent (act team state proc) (team.source other round)
      round = state.sent (team.source other round) round + _ :=
    invariant.times_act proc sourceMember (milestone_put sourceLeads isRound)
  rw [heard, sent]
  split
  · rename_i passes
    obtain ⟨rfl, -, polling⟩ := passes
    have here : (state other).phase = .polling round := by simpa using polling
    have positive := invariant.begun other (by simp [here])
    have count : state.heard other round = (state other).entered - 1 :=
      times_of_before (by simp [here, Phase.beforeHear])
    rw [Awaited, here] at awaited
    dsimp only at awaited
    omega
  · omega

end

/-! ## The flags of a node -/

section Node

variable {leader index nonleader : Nat}

section

variable (invariant : Invariant team state)

include invariant

/-- How the counts of a leader and of one it serves change. -/
theorem counts_act (proc : Nat) (serves : Serves team leader index nonleader) :
    State.seen (act team state proc) nonleader =
        state.seen nonleader +
          (if nonleader = proc ∧ (state proc).phase = .awaitingLeader then 1
            else 0) ∧
      State.arrived (act team state proc) nonleader =
        state.arrived nonleader +
          (if nonleader = proc ∧ (state proc).phase = .notifying then 1
            else 0) ∧
      State.released (act team state proc) leader index =
        state.released leader index +
          (if leader = proc ∧ (state proc).phase = .releasing index then 1
            else 0) ∧
      State.gathered (act team state proc) leader index =
        state.gathered leader index +
          (if leader = proc ∧ Phase.gathers index (state proc).phase = true
            then 1 else 0) := by
  obtain ⟨member, -, -, follows⟩ := serves.roles
  have seen := invariant.times_act proc member (milestone_seen follows)
  have arrived := invariant.times_act proc member (milestone_arrival follows)
  have released := invariant.times_act proc serves.member
    (milestone_release serves.leads serves.index_lt)
  have gathered := invariant.times_act proc serves.member
    (milestone_gather serves.leads serves.nodeAware serves.index_lt)
  refine ⟨seen.trans ?_, arrived.trans ?_, released.trans ?_, gathered.trans ?_⟩
  all_goals
    congr 2
    cases (state proc).phase <;> simp [Phase.gathers]

/-- A non-leader goes on only when its leader let it. -/
theorem seen_act (serves : Serves team leader index nonleader) (awaited : Awaited team state proc) :
    State.seen (act team state proc) nonleader ≤
      State.released (act team state proc) leader index := by
  have before := invariant.seen _ _ _ serves
  obtain ⟨seen, -, released, -⟩ := invariant.counts_act proc serves
  rw [seen, released]
  split
  · rename_i passes
    obtain ⟨rfl, here⟩ := passes
    have positive := invariant.begun nonleader (by simp [here])
    have count : state.seen nonleader = (state nonleader).entered - 1 :=
      times_of_before (by simp [here, Phase.beforeSeen])
    rw [Awaited, here] at awaited
    dsimp only at awaited
    rw [serves.roles.2.2.1, serves.idxOf_eq] at awaited
    omega
  · omega

/-- A non-leader shows an arrival only after the last release. -/
theorem arrived_act (serves : Serves team leader index nonleader) :
    State.arrived (act team state proc) nonleader ≤
      State.released (act team state proc) leader index + 1 := by
  have before := invariant.arrived _ _ _ serves
  have seen := invariant.seen _ _ _ serves
  obtain ⟨-, arrived, released, -⟩ := invariant.counts_act proc serves
  rw [arrived, released]
  split
  · rename_i passes
    obtain ⟨rfl, here⟩ := passes
    have count := State.arrived_eq_seen here
    omega
  · omega

/-- A leader takes for arrived only who showed it. -/
theorem gathered_act
    (serves : Serves team leader index nonleader) (awaited : Awaited team state proc) :
    State.gathered (act team state proc) leader index ≤
      State.arrived (act team state proc) nonleader := by
  have before := invariant.gathered _ _ _ serves
  obtain ⟨-, arrived, -, gathered⟩ := invariant.counts_act proc serves
  rw [arrived, gathered]
  split
  · rename_i passes
    obtain ⟨rfl, gathers⟩ := passes
    have count : (state leader).entered - 1 = state.gathered leader index := (times_of_before (by
        cases here : (state leader).phase <;>
          simp_all [Phase.gathers, Phase.beforeGather])).symm
    have reached : (state leader).entered ≤ state.arrived nonleader := by
      cases here : (state leader).phase with
      | gathering current =>
          rw [here] at gathers
          have same : current = index := by simpa [Phase.gathers] using gathers
          rw [Awaited, here] at awaited
          dsimp only at awaited
          rwa [same, serves.getD_eq] at awaited
      | counting =>
          rw [Awaited, here] at awaited
          exact awaited nonleader serves.mem
      | outside | notifying | awaitingLeader | clearing | resetting
        | putting | polling | toggling | releasing =>
          simp [here, Phase.gathers] at gathers
    have positive : 0 < (state leader).entered := by
      apply invariant.begun
      intro outside
      simp [outside, Phase.gathers] at gathers
    omega
  · omega

/-- A leader that releases a non-leader has gathered it once more than released. -/
theorem releasing {current : Nat} (here : (state leader).phase = .releasing current) :
    0 < (state leader).entered ∧ state.gathered leader current = (state leader).entered ∧
      state.released leader current = (state leader).entered - 1 :=
  ⟨invariant.begun leader (by simp [here]), times_of_past (by simp [here, Phase.beforeGather]),
    times_of_before (by simp [here, Phase.beforeRelease])⟩

/-- With a flag for each non-leader the flag shows an open arrival. -/
theorem multiflag_act
    (multiflag : team.algorithm = .twoLevelMultiflag) (serves : Serves team leader index nonleader)
    (actor : proc ∈ team.codimensionMapping) :
    ((act team state proc nonleader).intranodeFlag = 1 ↔
        State.arrived (act team state proc) nonleader =
          State.released (act team state proc) leader index + 1) ∧
      (0 < State.arrived (act team state proc) nonleader →
        (act team state proc nonleader).intranodeFlag = 0 ∨
          (act team state proc nonleader).intranodeFlag = 1) := by
  obtain ⟨shown, range⟩ := invariant.multiflag multiflag _ _ _ serves
  obtain ⟨-, arrived, released, -⟩ := invariant.counts_act proc serves
  have upper := (state.released_le_gathered leader index).trans (invariant.gathered _ _ _ serves)
  have lower := invariant.arrived _ _ _ serves
  have fits := invariant.fits proc actor
  rw [arrived, released, act_intranodeFlag, multiflag]
  cases here : (state proc).phase with
  | notifying =>
      by_cases mine : nonleader = proc
      · subst mine
        have seen := invariant.seen _ _ _ serves
        have count := State.arrived_eq_seen here
        simp
        omega
      · simp only [mine, false_and, if_false, and_false, reduceCtorEq, Nat.add_zero]
        exact ⟨shown, range⟩
  | releasing current =>
      rw [here] at fits
      by_cases mine : leader = proc ∧ current = index
      · obtain ⟨rfl, rfl⟩ := mine
        obtain ⟨positive, gathered, count⟩ := invariant.releasing here
        have known := invariant.gathered _ _ _ serves
        simp only [serves.getD_eq, if_true, reduceCtorEq, and_false, if_false,
          and_self, zero_ne_one, false_iff, true_or, implies_true, and_true]
        omega
      · have elsewhere := serves.ne_served (serves_of_lt actor fits.1 fits.2) mine
        have releases : ¬ (leader = proc ∧ Phase.releasing current = .releasing index) := by
          simpa using mine
        simp only [if_neg elsewhere, if_neg releases, reduceCtorEq, and_false,
          if_false, Nat.add_zero]
        exact ⟨shown, range⟩
  | clearing | resetting =>
      rw [here, Fits, multiflag] at fits
      cases fits.2
  | outside | awaitingLeader | gathering | counting | putting | polling
    | toggling =>
      simp only [reduceCtorEq, and_false, if_false, Nat.add_zero]
      exact ⟨shown, range⟩

/-- With a shared counter the flag shows a release not yet cleared. -/
theorem sharedFlag_act
    (shared : team.algorithm = .twoLevelSharedcounter) (serves : Serves team leader index nonleader)
    (actor : proc ∈ team.codimensionMapping) :
    (act team state proc nonleader).intranodeFlag = 1 ↔
      State.released (act team state proc) leader index =
        State.cleared (act team state proc) nonleader + 1 := by
  have shown := invariant.sharedFlag shared _ _ _ serves
  obtain ⟨-, -, released, -⟩ := invariant.counts_act proc serves
  obtain ⟨member, distinct, sameLeader, follows⟩ := serves.roles
  have cleared : State.cleared (act team state proc) nonleader = state.cleared nonleader + _ :=
    invariant.times_act proc member (milestone_clear follows shared)
  have upper := (state.released_le_gathered leader index).trans (invariant.gathered _ _ _ serves)
  have seen := invariant.seen _ _ _ serves
  have fits := invariant.fits proc actor
  have arrived : state.arrived nonleader ≤ (state nonleader).entered := times_le_entered _ _
  rw [released, cleared, act_intranodeFlag, shared]
  cases here : (state proc).phase with
  | notifying =>
      rw [here] at fits
      have elsewhere : nonleader ≠ team.getLeader proc := by
        rintro rfl
        rw [leads_getLeader actor] at follows
        cases follows
      simp only [if_neg elsewhere, reduceCtorEq, and_false, if_false, beq_iff_eq, Nat.add_zero]
      exact shown
  | clearing =>
      by_cases mine : nonleader = proc
      · subst mine
        have positive := invariant.begun nonleader (by simp [here])
        have count : state.cleared nonleader = (state nonleader).entered - 1 :=
          times_of_before (by simp [here, Phase.beforeClear])
        have saw : state.seen nonleader = (state nonleader).entered :=
          times_of_past (by simp [here, Phase.beforeSeen])
        simp
        omega
      · simp only [mine, false_and, if_false, and_false, reduceCtorEq, Nat.add_zero]
        exact shown
  | releasing current =>
      rw [here] at fits
      by_cases mine : leader = proc ∧ current = index
      · obtain ⟨rfl, rfl⟩ := mine
        obtain ⟨positive, gathered, count⟩ := invariant.releasing here
        have known := invariant.gathered _ _ _ serves
        have clears : state.cleared nonleader ≤ state.seen nonleader :=
          times_le_times fun phase => by
            cases phase <;> simp [Phase.beforeSeen, Phase.beforeClear]
        have entered : (state nonleader).entered ≤
            state.cleared nonleader + 1 := entered_le_times _ _
        simp only [serves.getD_eq, if_true, reduceCtorEq, and_false, if_false,
          and_self, true_iff, beq_iff_eq]
        omega
      · have elsewhere := serves.ne_served (serves_of_lt actor fits.1 fits.2) mine
        have releases : ¬ (leader = proc ∧ Phase.releasing current = .releasing index) := by
          simpa using mine
        simp only [if_neg elsewhere, if_neg releases, reduceCtorEq, and_false,
          if_false, beq_iff_eq, Nat.add_zero]
        exact shown
  | resetting =>
      rw [here] at fits
      have elsewhere : nonleader ≠ proc := by
        rintro rfl
        rw [fits.1] at follows
        cases follows
      simp only [if_neg elsewhere, reduceCtorEq, and_false, if_false, beq_iff_eq, Nat.add_zero]
      exact shown
  | outside | awaitingLeader | gathering | counting | putting | polling
    | toggling =>
      simp only [reduceCtorEq, and_false, if_false, beq_iff_eq, Nat.add_zero]
      exact shown

end

/-- A byte can hold the number of the non-leaders. -/
theorem toChar_of_lt {value : Int} (lower : 0 ≤ value) (upper : value < 128) :
    toChar value = value := by
  unfold toChar
  omega

/-- Between two resets of its counter a leader gathers every arrival once. -/
theorem reset_le_gathered (invariant : Invariant team state)
    (shared : team.algorithm = .twoLevelSharedcounter)
    (member : leader ∈ team.codimensionMapping) (index : Nat) :
    state.reset leader ≤ state.gathered leader index := by
  apply times_le_times_at
  have fits := invariant.fits leader member
  cases here : (state leader).phase with
  | gathering current =>
      rw [here, Fits, shared] at fits
      cases fits.2.1
  | counting => exact fun _ => rfl
  | outside | notifying | awaitingLeader | clearing | resetting | putting
    | polling | toggling | releasing =>
      intro before
      cases before

theorem released_le_reset (state : State) (leader index : Nat) :
    state.released leader index ≤ state.reset leader :=
  times_le_times fun phase => by
    cases phase <;> simp [Phase.beforeReset, Phase.beforeRelease]

/-- The counter is the number of arrivals since it was reset. -/
theorem counter_act (invariant : Invariant team state)
    (shared : team.algorithm = .twoLevelSharedcounter) (member : leader ∈ team.codimensionMapping)
    (leads : team.leads leader = true) (narrow : (team.nonleaders leader).length < 128)
    (actor : proc ∈ team.codimensionMapping) :
    Tally (fun nonleader => nonleader ∈ team.nonleaders leader ∧
      State.reset (act team state proc) leader < State.arrived (act team state proc) nonleader)
      (act team state proc leader).intranodeFlag := by
  have tally := invariant.counter shared leader member leads
  have fits := invariant.fits proc actor
  have reset : State.reset (act team state proc) leader = state.reset leader + _ :=
    invariant.times_act proc member (milestone_reset leads shared)
  have arrived : ∀ nonleader ∈ team.nonleaders leader,
      State.arrived (act team state proc) nonleader =
        state.arrived nonleader +
          (if nonleader = proc ∧ (state proc).phase = .notifying then 1
            else 0) := by
    intro nonleader present
    obtain ⟨index, serves⟩ := serves_of_mem member leads present
    exact (invariant.counts_act proc serves).2.1
  have same :
      (∀ nonleader ∈ team.nonleaders leader,
        ¬ (nonleader = proc ∧ (state proc).phase = .notifying)) →
      ¬ (leader = proc ∧ (state proc).phase = .resetting) →
      (act team state proc leader).intranodeFlag = (state leader).intranodeFlag →
      Tally (fun nonleader => nonleader ∈ team.nonleaders leader ∧
        State.reset (act team state proc) leader < State.arrived (act team state proc) nonleader)
        (act team state proc leader).intranodeFlag := by
    intro noArrival noReset noWrite
    rw [noWrite]
    refine tally.congr fun nonleader => and_congr_right fun present => ?_
    rw [arrived nonleader present, if_neg (noArrival nonleader present), reset,
      if_neg (by simpa using fun equal _ here => noReset ⟨equal, here⟩)]
    rfl
  have flag := act_intranodeFlag team state proc leader
  rw [shared] at flag
  cases here : (state proc).phase with
  | notifying =>
      rw [here] at fits flag
      by_cases mine : leader = team.getLeader proc
      · have present : proc ∈ team.nonleaders leader := by
          rw [mine]
          exact (serves_of_not_leads actor fits).mem
        obtain ⟨index, serves⟩ := serves_of_mem member leads present
        have sawIt := invariant.seen _ _ _ serves
        have count := State.arrived_eq_seen here
        have upper := released_le_reset state leader index
        have lower := (invariant.reset_le_gathered shared member index).trans
          (invariant.gathered _ _ _ serves)
        have added : Tally (fun nonleader =>
            nonleader ∈ team.nonleaders leader ∧
              State.reset (act team state proc) leader <
                State.arrived (act team state proc) nonleader)
            ((state leader).intranodeFlag + 1) := by
          have absent : ¬ (proc ∈ team.nonleaders leader ∧
              state.reset leader < state.arrived proc) := by
            rintro ⟨-, later⟩
            omega
          refine tally.add absent fun other => ?_
          rw [reset, if_neg (by simp [here]), Nat.add_zero]
          constructor
          · rintro ⟨listed, later⟩
            rw [arrived other listed] at later
            by_cases equal : other = proc
            · exact .inl equal
            · rw [if_neg (by simp [equal])] at later
              exact .inr ⟨listed, later⟩
          · rintro (rfl | ⟨listed, later⟩)
            · rw [arrived other present, if_pos (by simp [here])]
              exact ⟨present, by omega⟩
            · rw [arrived other listed]
              exact ⟨listed, by omega⟩
        have bound := added.le_length fun _ chosen => chosen.1
        have positive := tally.nonneg
        rw [if_pos mine, toChar_of_lt (by omega) (by omega)] at flag
        rw [flag]
        exact added
      · refine same (fun nonleader present => ?_) (by simp [here]) ?_
        · rintro ⟨rfl, -⟩
          obtain ⟨index, serves⟩ := serves_of_mem member leads present
          exact mine serves.roles.2.2.1.symm
        · simpa [mine] using flag
  | resetting =>
      rw [here] at flag
      by_cases mine : leader = proc
      · subst mine
        dsimp only at flag
        rw [if_pos rfl] at flag
        rw [flag]
        apply Tally.none
        rintro nonleader ⟨present, later⟩
        obtain ⟨index, serves⟩ := serves_of_mem member leads present
        have positive := invariant.begun leader (by simp [here])
        have count : state.reset leader = (state leader).entered - 1 :=
          times_of_before (by simp [here, Phase.beforeReset])
        have released : state.released leader index = (state leader).entered - 1 :=
          times_of_before (by simp [here, Phase.beforeRelease])
        have bound := invariant.arrived _ _ _ serves
        rw [reset, if_pos (by simp [here]), arrived nonleader present,
          if_neg (by simp [here])] at later
        omega
      · exact same (fun _ _ => by simp [here]) (by simp [mine]) (by simpa [mine] using flag)
  | clearing =>
      rw [here] at fits flag
      have elsewhere : leader ≠ proc := by
        rintro rfl
        rw [fits.1] at leads
        cases leads
      exact same (fun _ _ => by simp [here]) (by simp [here]) (by simpa [elsewhere] using flag)
  | releasing current =>
      rw [here] at fits flag
      have elsewhere : leader ≠ (team.nonleaders proc).getD current proc := by
        rintro rfl
        have follows := (serves_of_lt actor fits.1 fits.2).roles.2.2.2
        rw [leads] at follows
        cases follows
      exact same (fun _ _ => by simp [here]) (by simp [here]) (by rw [flag]; exact if_neg elsewhere)
  | outside | awaitingLeader | gathering | counting | putting | polling
    | toggling =>
      rw [here] at flag
      exact same (fun _ _ => by simp [here]) (by simp [here]) flag

end Node

/-- Every action of an image keeps the invariant. -/
theorem act (invariant : Invariant team state) (actor : proc ∈ team.codimensionMapping)
    (polled : pollSucceeds team state proc = true)
    (narrow : team.algorithm = .twoLevelSharedcounter →
      ∀ leader ∈ team.codimensionMapping, team.leads leader = true →
        (team.nonleaders leader).length < 128) :
    Invariant team (TeamBarrier.act team state proc) := by
  have awaited := (invariant.poll_iff actor).mp polled
  exact
    { begun := fun other => invariant.begun_act other
      fits := fun other => invariant.fits_act other
      toggles := fun other party => invariant.toggles_act party
      localFlags := fun other party round isRound flag isFlag =>
        invariant.localFlags_act party isRound isFlag actor
      heard := fun other party round isRound =>
        invariant.heard_act party isRound awaited
      seen := fun leader index nonleader serves =>
        invariant.seen_act serves awaited
      arrived := fun leader index nonleader serves =>
        invariant.arrived_act serves
      gathered := fun leader index nonleader serves =>
        invariant.gathered_act serves awaited
      multiflag := fun multiflag leader index nonleader serves =>
        invariant.multiflag_act multiflag serves actor
      sharedFlag := fun shared leader index nonleader serves =>
        invariant.sharedFlag_act shared serves actor
      counter := fun shared leader member leads =>
        invariant.counter_act shared member leads (narrow shared leader member leads) actor }

/-- A team whose node flags are clear starts with the invariant. -/
theorem formed {memory : Nat → Int} (clear : FlagsClear team memory) :
    Invariant team (formed memory) where
  begun proc started := absurd rfl started
  fits proc member := trivial
  toggles proc party := by
    have none : State.toggled (TeamBarrier.formed memory) proc = 0 := rfl
    rw [none]
    exact ⟨rfl, rfl⟩
  localFlags proc party round isRound flag isFlag := (SenseReversal.held_zero isFlag).symm
  heard proc party round isRound := le_rfl
  seen leader index nonleader serves := le_rfl
  arrived leader index nonleader serves := Nat.zero_le _
  gathered leader index nonleader serves := le_rfl
  multiflag multiflag leader index nonleader serves := by
    have notOne := clear.nonleader nonleader serves.roles.1 serves.roles.2.2.2
    exact ⟨iff_of_false notOne (Nat.zero_ne_one),
      fun positive => absurd positive (Nat.lt_irrefl 0)⟩
  sharedFlag shared leader index nonleader serves :=
    iff_of_false
      (clear.nonleader nonleader serves.roles.1 serves.roles.2.2.2)
      Nat.zero_ne_one
  counter shared leader member leads := by
    change Tally _ (memory leader)
    rw [(clear.counter shared leader member leads).1]
    exact Tally.none fun _ chosen => Nat.lt_irrefl 0 chosen.2

end Invariant

/-! ## The claims about barriers -/

theorem step_eq_some {after : State} (moved : step team state proc = some after) :
    proc ∈ team.codimensionMapping ∧ pollSucceeds team state proc = true ∧
      after = act team state proc := by
  unfold step at moved
  split at moved
  · rename_i able
    exact ⟨able.1, able.2, (Option.some.inj moved).symm⟩
  · cases moved

theorem reached_of_runAll {memory : Nat → Int} {procs : List Nat}
    (ran : Transition.runAll (step team) (formed memory) procs = some state) :
    Reached team memory state :=
  have start : Reached team memory (formed memory) := .start rfl
  Transition.Reachable.runAll (fun _ proc _ moved => ⟨proc, moved⟩) start ran

/-- Images 0 and 1 on one node and image 2 on another. -/
def twoNodes (algorithm : TeamBarrierAlgorithm) : Formation where
  algorithm := algorithm
  codimensionMapping := [0, 1, 2]
  supernode proc := proc / 2
  totalNumSupernodes := 2
  nodup := by decide
  onNode := by decide

theorem flagsClear_twoNodes :
    FlagsClear (twoNodes .twoLevelSharedcounter) fun _ => 0 where
  nonleader proc member follows := by decide
  counter shared proc member leads := by
    have cases : proc = 0 ∨ proc = 1 ∨ proc = 2 := by
      simpa [twoNodes] using member
    rcases cases with rfl | rfl | rfl <;> decide

end OpenUH.Libcaf.TeamBarrier
