import OpenUH.Foundation.Transition
import OpenUH.Libcaf.TeamFormation

/-!
# The Bruck exchange of team infos

`__alltoall_exchange_bruck` as every image of a team runs it, together with
the remote writes in flight between each pair of images.  An image is known
by its rank in the current team.  A write is read from the sender's memory
when it is issued and takes effect at the receiver later, after the writes
issued before it by the same sender to the same receiver.
-/

namespace OpenUH.Libcaf.BruckExchange

open Foundation.Transition
open Libcaf.TeamFormation

/-- The team that exchanges, and the info each rank contributes. -/
structure Job where
  numImages : Nat
  info : Nat → TeamInfo

/-- Where an image stands; the loop phases carry `round` and `rem_slots`. -/
inductive Phase where
  | entering
  | syncing
  | sendData (round remSlots : Nat)
  | sendFlag (round remSlots : Nat)
  | polling (round remSlots : Nat)
  | reordering
  | finished
deriving DecidableEq, Repr

/-- The memory of one image that the exchange uses. -/
structure Image where
  phase : Phase
  teamInfoList : List TeamInfo
  flagCoarray : Nat → Int

/-- A remote write: infos into the list, or one cell of `flag_coarray`. -/
inductive RemoteWrite where
  | infos (start : Nat) (values : List TeamInfo)
  | flag (round : Nat) (value : Int)
deriving DecidableEq, Repr

/-- All images, and per sender and receiver the writes in flight. -/
structure State where
  images : Nat → Image
  inFlight : Nat × Nat → List RemoteWrite

/-! ## The expressions of the loop -/

/-- `max_round`. -/
def maxRound (numImages : Nat) : Nat :=
  Nat.clog 2 numImages

/-- `num_data` of a round, from its `offset` and `rem_slots`. -/
def numData (round remSlots : Nat) : Nat :=
  if 2 ^ round ≤ remSlots then 2 ^ round else remSlots

/-- `send_peer`; the loop body runs with `offset` below the image count. -/
def sendPeer (numImages rank round : Nat) : Nat :=
  (rank + numImages - 2 ^ round) % numImages

/-- The byte `comm_poll_char_while_zero` reads of a little-endian `int`. -/
def polledByte (value : Int) : Int :=
  value % 256

/-- A copy into the list at `start`. -/
def storeInfos (list : List TeamInfo) (start : Nat) (values : List TeamInfo) : List TeamInfo :=
  list.take start ++ values ++ list.drop (start + values.length)

/-- The local reorder of step 3. -/
def reorder (numImages rank : Nat) (list : List TeamInfo) : List TeamInfo :=
  if rank ≠ 0 then
    (list.drop (numImages - rank)).take rank ++ list.take (numImages - rank)
  else
    list

/-- The head of the loop: another round, or the reorder. -/
def loopHead (numImages round remSlots : Nat) : Phase :=
  if round < maxRound numImages ∧ remSlots ≠ 0 then
    .sendData round remSlots
  else
    .reordering

/-! ## Steps -/

/-- Replace the memory of one image. -/
def State.setImage (state : State) (rank : Nat) (image : Image) : State :=
  { state with images := Function.update state.images rank image }

/-- Issue a write behind those already on the way. -/
def State.issue (state : State) (sender receiver : Nat) (write : RemoteWrite) : State :=
  { state with
    inFlight :=
      Function.update state.inFlight (sender, receiver)
        (state.inFlight (sender, receiver) ++ [write]) }

/-- The effect of a write on the receiver's memory. -/
def Image.receive (image : Image) : RemoteWrite → Image
  | .infos start values =>
      { image with
        teamInfoList := storeInfos image.teamInfoList start values }
  | .flag round value =>
      { image with
        flagCoarray := Function.update image.flagCoarray round value }

/-- The phase of an image. -/
def State.phase (state : State) (rank : Nat) : Phase :=
  (state.images rank).phase

/-- One step of an image, or the delivery of one write. -/
inductive Step (job : Job) : State → State → Prop where
  | enter (state : State) (rank : Nat)
      (isImage : rank < job.numImages)
      (here : state.phase rank = .entering) :
      Step job state
        (state.setImage rank
          { state.images rank with
            phase := .syncing
            flagCoarray := fun _ => 0 })
  | leave (state : State) (rank : Nat)
      (isImage : rank < job.numImages)
      (here : state.phase rank = .syncing)
      (arrived : ∀ other < job.numImages, state.phase other ≠ .entering) :
      Step job state
        (state.setImage rank
          { state.images rank with
            phase := loopHead job.numImages 0 (job.numImages - 1)
            teamInfoList :=
              storeInfos (state.images rank).teamInfoList 0
                [job.info rank] })
  | sendData (state : State) (rank round remSlots : Nat)
      (isImage : rank < job.numImages)
      (here : state.phase rank = .sendData round remSlots) :
      Step job state
        ((state.setImage rank
          { state.images rank with phase := .sendFlag round remSlots }).issue
            rank (sendPeer job.numImages rank round)
            (.infos (job.numImages - remSlots)
              ((state.images rank).teamInfoList.take
                (numData round remSlots))))
  | sendFlag (state : State) (rank round remSlots : Nat)
      (isImage : rank < job.numImages)
      (here : state.phase rank = .sendFlag round remSlots) :
      Step job state
        ((state.setImage rank
          { state.images rank with
            phase :=
              .polling round (remSlots - numData round remSlots) }).issue
            rank (sendPeer job.numImages rank round)
            (.flag round (numData round remSlots)))
  | poll (state : State) (rank round remSlots : Nat)
      (isImage : rank < job.numImages)
      (here : state.phase rank = .polling round remSlots)
      (nonzero :
        polledByte ((state.images rank).flagCoarray round) ≠ 0) :
      Step job state
        (state.setImage rank
          { state.images rank with
            phase := loopHead job.numImages (round + 1) remSlots })
  | reorder (state : State) (rank : Nat)
      (isImage : rank < job.numImages)
      (here : state.phase rank = .reordering) :
      Step job state
        (state.setImage rank
          { state.images rank with
            phase := .finished
            teamInfoList :=
              reorder job.numImages rank (state.images rank).teamInfoList })
  | deliver (state : State) (sender receiver : Nat)
      (write : RemoteWrite) (rest : List RemoteWrite)
      (oldest : state.inFlight (sender, receiver) = write :: rest) :
      Step job state
        { images :=
            Function.update state.images receiver
              ((state.images receiver).receive write)
          inFlight :=
            Function.update state.inFlight (sender, receiver) rest }

/-- Every image is about to allocate its flags; its list has been zeroed. -/
structure Initial (job : Job) (state : State) : Prop where
  entering : ∀ rank, state.phase rank = .entering
  zeroed : ∀ rank, (state.images rank).teamInfoList =
    List.replicate job.numImages { teamId := 0, index := 0 }
  quiet : ∀ pair, state.inFlight pair = []

/-! ## What the exchange should achieve -/

/-- The exchange in one state of a run. -/
structure ExchangeCorrect (job : Job) (state : State) : Prop where
  finished : ∀ rank < job.numImages, state.phase rank = .finished →
    ∀ other < job.numImages,
      (state.images rank).teamInfoList[other]? = some (job.info other)
  inside : ∀ pair start values,
    .infos start values ∈ state.inFlight pair → start + values.length ≤ job.numImages
  polls : ∀ pair round value,
    .flag round value ∈ state.inFlight pair → polledByte value ≠ 0
  polled : ∀ rank < job.numImages, state.phase rank ≠ .entering →
    ∀ round, (state.images rank).flagCoarray round ≠ 0 →
      polledByte ((state.images rank).flagCoarray round) ≠ 0

end OpenUH.Libcaf.BruckExchange
