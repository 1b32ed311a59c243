import OpenUH.Foundation.Dissemination
import OpenUH.Foundation.Transition

/-!
# Gathering blocks from all images

`co_gather_to_all__` as every image of a team runs it, together with the
remote writes in flight between each pair of images.  An image is known by
its rank in the team, one less than its number.  The blocks of one write land
one by one, in any order, and each is read from the sender's memory when it
lands.

`SYNC IMAGES` returns when every partner has begun as many of them with this
image, and when the writes that either of the two issued to the other before
are complete.
-/

namespace OpenUH.Libcaf.GatherToAll

open Foundation.Dissemination
open Foundation.Transition

variable {α : Type}

/-- The images of the team, and the block that each contributes. -/
structure Job (α : Type) where
  numImages : Nat
  source : Nat → α

/-- Where an image stands; in round `i` of the loop, `round` is `i - 1`. -/
inductive Phase where
  | entering
  | writing (round : Nat)
  | arriving (round : Nat)
  | syncing (round : Nat)
  | saving
  | shiftingEnd
  | shiftingStart
  | finished
  deriving DecidableEq, Repr

/--
The memory of an image: the blocks of `dest`, of the local buffer `b`, and
for each other image the `SYNC IMAGES` begun with it.
-/
structure Image (α : Type) where
  phase : Phase
  dest : Nat → α
  copy : Nat → α
  begun : Nat → Nat

/-- A block on its way, and the `SYNC IMAGES` begun with the receiver before. -/
structure BlockWrite where
  target : Nat
  source : Nat
  begun : Nat
  deriving DecidableEq, Repr

/-- All images, and per sender and receiver the blocks in flight. -/
structure State (α : Type) where
  images : Nat → Image α
  inFlight : Nat × Nat → List BlockWrite

/-! ## The expressions of the loop -/

/-- The loop that finds `log2_p`. -/
def findLog2 (p : Nat) : (turns q log2 : Nat) → Nat
  | 0, _, log2 => log2
  | turns + 1, q, log2 =>
      if q < p then findLog2 p turns (2 * q) (log2 + 1) else log2

/-- `log2_p`. -/
def log2P (p : Nat) : Nat :=
  findLog2 p p 1 0

/-- `step` in a round. -/
def step (round : Nat) : Nat :=
  2 ^ round

/-- `partners[0]`, less one. -/
def below (p rank round : Nat) : Nat :=
  (rank + p - step round) % p

/-- `partners[1]`, less one. -/
def above (p rank round : Nat) : Nat :=
  (rank + p + step round) % p

/-- The images of `_SYNC_IMAGES` in a round. -/
def partners (p rank round : Nat) : List Nat :=
  if below p rank round ≠ above p rank round then
    [below p rank round, above p rank round]
  else
    [below p rank round]

/-- `k`, the number of blocks written in a round. -/
def amount (p round : Nat) : Nat :=
  min (step round) (p - step round)

/-- The head of the loop: the next round, or the shift. -/
def loopHead (p round : Nat) : Phase :=
  if round < log2P p then .writing round else .saving

/-- The blocks that `comm_write_x` writes in a round. -/
def blockWrites (p round begun : Nat) : List BlockWrite :=
  (List.range (amount p round)).map fun index =>
    { target := step round + index, source := index, begun := begun }

/-- `memcpy` of some blocks. -/
def copyBlocks (target source : Nat → α) (start first count : Nat) : Nat → α :=
  fun block =>
    if start ≤ block ∧ block < start + count then
      source (first + (block - start))
    else
      target block

/-! ## Steps -/

/-- Replace the memory of one image. -/
def State.setImage (state : State α) (rank : Nat) (image : Image α) : State α :=
  { state with images := Function.update state.images rank image }

/-- The phase of an image. -/
def State.phase (state : State α) (rank : Nat) : Phase :=
  (state.images rank).phase

/-- One step of an image, or the landing of one block. -/
inductive Step (job : Job α) : State α → State α → Prop where
  | enter (state : State α) (rank : Nat)
      (isImage : rank < job.numImages)
      (here : state.phase rank = .entering) :
      Step job state
        (state.setImage rank
          { state.images rank with
            phase := loopHead job.numImages 0
            dest := Function.update (state.images rank).dest 0
              (job.source rank) })
  | write (state : State α) (rank round : Nat)
      (isImage : rank < job.numImages)
      (here : state.phase rank = .writing round) :
      Step job state
        { images := Function.update state.images rank
            { state.images rank with phase := .arriving round }
          inFlight := Function.update state.inFlight
            (rank, below job.numImages rank round)
            (state.inFlight (rank, below job.numImages rank round) ++
              blockWrites job.numImages round ((state.images rank).begun
                (below job.numImages rank round))) }
  | arrive (state : State α) (rank round : Nat)
      (isImage : rank < job.numImages)
      (here : state.phase rank = .arriving round) :
      Step job state
        (state.setImage rank
          { state.images rank with
            phase := .syncing round
            begun := fun other =>
              if other ∈ partners job.numImages rank round then
                (state.images rank).begun other + 1
              else
                (state.images rank).begun other })
  | leave (state : State α) (rank round : Nat)
      (isImage : rank < job.numImages)
      (here : state.phase rank = .syncing round)
      (met : ∀ other ∈ partners job.numImages rank round,
        (state.images rank).begun other ≤ (state.images other).begun rank)
      (written : ∀ other ∈ partners job.numImages rank round,
        state.inFlight (rank, other) = [])
      (received : ∀ other ∈ partners job.numImages rank round,
        ∀ write ∈ state.inFlight (other, rank),
          (state.images rank).begun other ≤ write.begun) :
      Step job state
        (state.setImage rank
          { state.images rank with phase := loopHead job.numImages (round + 1) })
  | save (state : State α) (rank : Nat)
      (isImage : rank < job.numImages)
      (here : state.phase rank = .saving) :
      Step job state
        (state.setImage rank
          { state.images rank with
            phase := .shiftingEnd
            copy := copyBlocks (state.images rank).copy (state.images rank).dest
              0 0 job.numImages })
  | shiftEnd (state : State α) (rank : Nat)
      (isImage : rank < job.numImages)
      (here : state.phase rank = .shiftingEnd) :
      Step job state
        (state.setImage rank
          { state.images rank with
            phase := .shiftingStart
            dest := copyBlocks (state.images rank).dest (state.images rank).copy
              rank 0 (job.numImages - rank) })
  | shiftStart (state : State α) (rank : Nat)
      (isImage : rank < job.numImages)
      (here : state.phase rank = .shiftingStart) :
      Step job state
        (state.setImage rank
          { state.images rank with
            phase := .finished
            dest := copyBlocks (state.images rank).dest (state.images rank).copy
              0 (job.numImages - rank) rank })
  | land (state : State α) (sender receiver : Nat) (write : BlockWrite)
      (before after : List BlockWrite)
      (flying : state.inFlight (sender, receiver) = before ++ write :: after) :
      Step job state
        { images := Function.update state.images receiver
            { state.images receiver with
              dest := Function.update (state.images receiver).dest write.target
                ((state.images sender).dest write.source) }
          inFlight := Function.update state.inFlight (sender, receiver)
            (before ++ after) }

/-- Every image is about to enter. -/
structure Initial (state : State α) : Prop where
  entering : ∀ rank, state.phase rank = .entering
  begun : ∀ rank other, (state.images rank).begun other = 0
  quiet : ∀ pair, state.inFlight pair = []

/-! ## What the gather should achieve -/

/-- The blocks that an image is forwarding in its round. -/
def Forwards (p : Nat) (image : Image α) (block : Nat) : Prop :=
  ∃ round, (image.phase = .writing round ∨ image.phase = .arriving round ∨
    image.phase = .syncing round) ∧ block < amount p round

/-- The gather in one state of a run. -/
structure GatherCorrect (job : Job α) (state : State α) : Prop where
  gathered : ∀ rank < job.numImages, state.phase rank = .finished →
    ∀ other < job.numImages,
      (state.images rank).dest other = job.source other
  inside : ∀ sender receiver, ∀ write ∈ state.inFlight (sender, receiver),
    sender < job.numImages ∧ receiver < job.numImages ∧
      write.source < job.numImages ∧ write.target < job.numImages
  apart : ∀ sender receiver, ∀ write ∈ state.inFlight (sender, receiver),
    ¬ Forwards job.numImages (state.images receiver) write.target

end OpenUH.Libcaf.GatherToAll
