import OpenUH.Foundation.Dissemination
import OpenUH.Foundation.Transition
import OpenUH.Libcaf.TeamMetadata

/-!
# Team barriers

`sync_all_dissemination_mcs`, `sync_all_2level_multiflag` and
`sync_all_2level_sharedcounter` as the images of a formed team run them, one
atomic action at a time: a `gasnet_put` that returns when the flag is written,
a store to or an atomic add on a flag of the same node, a poll that succeeds.
Images are known by their process.  No image stops.
-/

namespace OpenUH.Libcaf.TeamBarrier

open Foundation
open Libcaf.TeamFormation

/-- What FORM TEAM leaves behind for the barriers of a team. -/
structure Formation where
  algorithm : TeamBarrierAlgorithm
  codimensionMapping : List Nat
  supernode : Nat → Nat
  totalNumSupernodes : Nat
  nodup : codimensionMapping.Nodup
  onNode : ∀ proc ∈ codimensionMapping, supernode proc < totalNumSupernodes

namespace Formation

/-- `intranode_set`: the members on the node of a process. -/
def intranodeSet (team : Formation) (proc : Nat) : List Nat :=
  team.codimensionMapping.filter (team.supernode · = team.supernode proc)

/-- `get_leader`. -/
def getLeader (team : Formation) (proc : Nat) : Nat :=
  (team.intranodeSet proc).headD proc

/-- `leader_set`: node by node, the first member on it. -/
def leaderSet (team : Formation) : List Nat :=
  (List.range team.totalNumSupernodes).filterMap fun node =>
    team.codimensionMapping.find? (team.supernode · = node)

/-- The images that join the dissemination. -/
def parties (team : Formation) : List Nat :=
  if team.algorithm.nodeAware then
    team.leaderSet
  else
    team.codimensionMapping

/-- The place of an image among them. -/
def rank (team : Formation) (proc : Nat) : Nat :=
  team.parties.idxOf proc

/-- `round_bound`. -/
def roundBound (team : Formation) : Nat :=
  ceilLog2 team.parties.length

/-- `bstep[round].target`. -/
def target (team : Formation) (proc round : Nat) : Nat :=
  team.parties.getD
    ((team.rank proc + 2 ^ round) % team.parties.length) proc

/-- `bstep[round].source`. -/
def source (team : Formation) (proc round : Nat) : Nat :=
  team.parties.getD
    ((team.rank proc + team.parties.length - 2 ^ round) %
      team.parties.length) proc

/-- Whether an image takes the leader's path through the barrier. -/
def leads (team : Formation) (proc : Nat) : Bool :=
  !team.algorithm.nodeAware || team.getLeader proc = proc

/-- The non-leaders whose flags a leader holds pointers to. -/
def nonleaders (team : Formation) (proc : Nat) : List Nat :=
  if team.algorithm.nodeAware then
    (team.intranodeSet proc).tail
  else
    []

end Formation

/-! ## Images -/

/-- Where an image stands; the loop phases carry their loop variable. -/
inductive Phase where
  | outside
  | notifying
  | awaitingLeader
  | clearing
  | gathering (index : Nat)
  | counting
  | resetting
  | putting (round : Nat)
  | polling (round : Nat)
  | toggling
  | releasing (index : Nat)
deriving DecidableEq, Repr

/--
The flags of one image: `barrier`, `bstep[round].local[parity]` and the byte
`intranode_barflags[0]` points to.  `entered` counts its barriers.
-/
structure Image where
  phase : Phase
  entered : Nat
  parity : Nat
  sense : Nat
  localFlag : Nat → Nat → Nat
  intranodeFlag : Int

/-- The images of the team. -/
abbrev State := Nat → Image

/-- The value of an `int` kept in a `barrier_flags_t`. -/
def toChar (value : Int) : Int :=
  (value + 128) % 256 - 128

namespace Image

/-- `bar_sense`. -/
def barSense (image : Image) : Nat :=
  1 - image.sense

/-- Move on to another phase; the phase after `outside` is in a new barrier. -/
def goto (image : Image) (phase : Phase) : Image :=
  { image with
    phase := phase
    entered :=
      if image.phase = .outside then image.entered + 1 else image.entered }

/-- Store to the byte of the node flag. -/
def setIntranodeFlag (image : Image) (value : Int) : Image :=
  { image with intranodeFlag := value }

/-- A put to `local[parity]` of a round. -/
def setLocalFlag (image : Image) (round parity value : Nat) : Image :=
  { image with
    localFlag :=
      Function.update image.localFlag round
        (Function.update (image.localFlag round) parity value) }

/-- Leave the rounds: turn the parity, and the sense after both parities. -/
def toggle (image : Image) : Image :=
  { image with
    parity := 1 - image.parity
    sense := if image.parity = 1 then image.barSense else image.sense }

end Image

/-- Change the memory of one image. -/
def State.modify (state : State) (proc : Nat) (change : Image → Image) : State :=
  Function.update state proc (change (state proc))

/-! ## The source functions -/

/-- The head of the loop over the rounds. -/
def roundFrom (team : Formation) (round : Nat) : Phase :=
  if round < team.roundBound then .putting round else .toggling

/-- The head of the leader's loop over the flags of its non-leaders. -/
def gatherFrom (team : Formation) (proc index : Nat) : Phase :=
  if index < (team.nonleaders proc).length then
    .gathering index
  else
    roundFrom team 0

/-- The head of the leader's last loop. -/
def releaseFrom (team : Formation) (proc index : Nat) : Phase :=
  if index < (team.nonleaders proc).length then
    .releasing index
  else
    .outside

/-- The first action of a barrier. -/
def firstPhase (team : Formation) (proc : Nat) : Phase :=
  if team.leads proc then
    match team.algorithm with
    | .dissem => roundFrom team 0
    | .twoLevelMultiflag => gatherFrom team proc 0
    | .twoLevelSharedcounter => .counting
  else
    .notifying

/-- The condition an image polls, if it is at a poll. -/
def pollSucceeds (team : Formation) (state : State) (proc : Nat) : Bool :=
  match (state proc).phase with
  | .awaitingLeader =>
      match team.algorithm with
      | .twoLevelSharedcounter => (state proc).intranodeFlag = 1
      | _ => (state proc).intranodeFlag = 0
  | .gathering index =>
      (state ((team.nonleaders proc).getD index proc)).intranodeFlag = 1
  | .counting => (state proc).intranodeFlag = (team.nonleaders proc).length
  | .polling round =>
      (state proc).localFlag round (state proc).parity = (state proc).barSense
  | _ => true

/-- Where an image goes from a phase, once its poll succeeds. -/
def nextPhase (team : Formation) (proc : Nat) : Phase → Phase
  | .outside => firstPhase team proc
  | .notifying => .awaitingLeader
  | .awaitingLeader =>
      match team.algorithm with
      | .twoLevelSharedcounter => .clearing
      | _ => .outside
  | .clearing => .outside
  | .gathering index => gatherFrom team proc (index + 1)
  | .counting => .resetting
  | .resetting => roundFrom team 0
  | .putting round => .polling round
  | .polling round => roundFrom team (round + 1)
  | .toggling => releaseFrom team proc 0
  | .releasing index => releaseFrom team proc (index + 1)

/-- The memory an image writes in a phase. -/
def write (team : Formation) (state : State) (proc : Nat) : State :=
  match (state proc).phase with
  | .notifying =>
      match team.algorithm with
      | .twoLevelSharedcounter =>
          state.modify (team.getLeader proc) fun image =>
            image.setIntranodeFlag (toChar (image.intranodeFlag + 1))
      | _ => state.modify proc (·.setIntranodeFlag 1)
  | .clearing => state.modify proc (·.setIntranodeFlag 0)
  | .resetting => state.modify proc (·.setIntranodeFlag 0)
  | .putting round =>
      state.modify (team.target proc round)
        (·.setLocalFlag round (state proc).parity (state proc).barSense)
  | .toggling => state.modify proc Image.toggle
  | .releasing index =>
      state.modify ((team.nonleaders proc).getD index proc)
        (·.setIntranodeFlag
          (match team.algorithm with
          | .twoLevelSharedcounter => 1
          | _ => 0))
  | _ => state

/-- What an image does next. -/
def act (team : Formation) (state : State) (proc : Nat) : State :=
  (write team state proc).modify proc
    (·.goto (nextPhase team proc (state proc).phase))

/-- One atomic action of a member of the team. -/
def step (team : Formation) (state : State) (proc : Nat) : Option State :=
  if proc ∈ team.codimensionMapping ∧ pollSucceeds team state proc then
    some (act team state proc)
  else
    none

/--
A team just formed.  FORM TEAM zeroes `barrier` and `bstep`; the byte of the
node flag keeps what the memory held when it was allocated.
-/
def formed (memory : Nat → Int) : State := fun proc =>
  { phase := .outside
    entered := 0
    parity := 0
    sense := 0
    localFlag := fun _ _ => 0
    intranodeFlag := memory proc }

/-- The states of the barriers of a team. -/
def Reached (team : Formation) (memory : Nat → Int) : State → Prop :=
  Transition.Reachable (· = formed memory) fun before after =>
    ∃ proc, step team before proc = some after

/-! ## What a barrier is for -/

/-- In how many of its barriers an image got past the phases `before`. -/
def Image.times (image : Image) (before : Phase → Bool) : Nat :=
  image.entered - (before image.phase).toNat

namespace Phase

/-- Not yet back from the barrier. -/
def inside (phase : Phase) : Bool :=
  phase != .outside

/-- Before the put of a round. -/
def beforePut (round : Nat) : Phase → Bool
  | gathering _ => true
  | counting => true
  | resetting => true
  | putting current => current ≤ round
  | polling current => current < round
  | _ => false

/-- Before the write that tells a non-leader to go on. -/
def beforeRelease (index : Nat) : Phase → Bool
  | gathering _ => true
  | counting => true
  | resetting => true
  | putting _ => true
  | polling _ => true
  | toggling => true
  | releasing current => current ≤ index
  | _ => false

/-- Before the arrival is shown to the leader. -/
def beforeArrival (phase : Phase) : Bool :=
  phase == .notifying

end Phase

/-- How many barriers an image returned from. -/
def State.returned (state : State) (proc : Nat) : Nat :=
  (state proc).times Phase.inside

/-- In how many barriers a non-leader showed its arrival. -/
def State.arrived (state : State) (proc : Nat) : Nat :=
  (state proc).times Phase.beforeArrival

/-- In how many barriers an image made the put of a round. -/
def State.sent (state : State) (proc round : Nat) : Nat :=
  (state proc).times (Phase.beforePut round)

/-- In how many barriers a leader let the non-leader of an index go on. -/
def State.released (state : State) (leader index : Nat) : Nat :=
  (state leader).times (Phase.beforeRelease index)

/-- What an image at a poll waits for was done for its current barrier. -/
def Awaited (team : Formation) (state : State) (proc : Nat) : Prop :=
  match (state proc).phase with
  | .awaitingLeader =>
      (state proc).entered ≤
        state.released (team.getLeader proc)
          ((team.nonleaders (team.getLeader proc)).idxOf proc)
  | .gathering index =>
      (state proc).entered ≤ state.arrived ((team.nonleaders proc).getD index proc)
  | .counting =>
      ∀ other ∈ team.nonleaders proc,
        (state proc).entered ≤ state.arrived other
  | .polling round =>
      (state proc).entered ≤ state.sent (team.source proc round) round
  | _ => True

/--
No image returns from its `k`-th barrier before every member has entered its
`k`-th barrier, and a poll succeeds exactly when the write it waits for was
made in this barrier.
-/
structure BarrierCorrect (team : Formation) (state : State) : Prop where
  rendezvous : ∀ proc ∈ team.codimensionMapping,
    ∀ other ∈ team.codimensionMapping,
      state.returned proc ≤ (state other).entered
  arrivals : ∀ proc ∈ team.codimensionMapping,
    pollSucceeds team state proc = true ↔ Awaited team state proc

/--
The bytes of the node flags cannot be mistaken for an arrival or a release,
and a byte can count the arrivals of a node.
-/
structure FlagsClear (team : Formation) (memory : Nat → Int) : Prop where
  nonleader : ∀ proc ∈ team.codimensionMapping,
    team.leads proc = false → memory proc ≠ 1
  counter : team.algorithm = .twoLevelSharedcounter →
    ∀ proc ∈ team.codimensionMapping, team.leads proc = true →
      memory proc = 0 ∧ (team.nonleaders proc).length < 128

end OpenUH.Libcaf.TeamBarrier
