import OpenUH.Foundation.MachineIntegers
import OpenUH.Libcaf.CharReductions

/-!
# Buffers of the collectives

The reductions and the broadcast of `libcaf/collectives.c` combine their data in
a base buffer and in work buffers.  Each holds the elements and one more, in
which a flag byte says that the data arrived.  The buffers lie in the team's
collectives buffer where they fit there, and are allocated otherwise: as many
work buffers as the largest free slot has room for.

The set-up counts its buffers in `int`, and the bytes in `size_t`.
-/

namespace OpenUH.Libcaf.CollectiveBuffers

open Foundation.MachineIntegers
open Libcaf.CharReductions (greatestPower)

/-! ## The set-up of a reduction -/

/-- The arguments of a reduction, with what the image has room for. -/
structure Call where
  sz : Nat
  elemSize : Nat
  collectivesBufsz : Nat
  slots : List (Bool × Nat)
  collectivesMaxWorkbufs : Int
  szFits : sz < 2 ^ 31
  elemPos : 1 ≤ elemSize
  bufszFits : collectivesBufsz < 2 ^ 63

/-- The loop of `largest_allocatable_slot_avail` for the size zero. -/
def largestSlot : List (Bool × Nat) → Nat → Nat
  | [], retval => retval
  | (full, size) :: prev, retval =>
      largestSlot prev (if full = false ∧ retval < size then size else retval)

/-- Its loop for another size, which ends at a slot that is large enough. -/
def largestSlotUpTo (size : Nat) : List (Bool × Nat) → Nat → Nat
  | [], retval => retval
  | (full, slotSize) :: prev, retval =>
      if retval < size then
        largestSlotUpTo size prev
          (if full = false ∧ retval < slotSize then slotSize else retval)
      else
        retval

/-- `largest_allocatable_slot_avail`. -/
def largestAllocatableSlotAvail (slots : List (Bool × Nat)) (size : Nat) : Nat :=
  if size = 0 then
    largestSlot slots 0
  else
    let retval := largestSlotUpTo size slots 0
    if size < retval then size else retval

/-- The areas that a collective reads and writes. -/
inductive Area where
  | base
  | work
  | collectives
  deriving DecidableEq, Repr

/-- Bytes of an area that are read or written. -/
structure Access where
  area : Area
  offset : Nat
  length : Nat
  deriving DecidableEq, Repr

/-- The buffers of a reduction, with the room from the start of each area on. -/
structure Buffers where
  numBufs : Int
  room : Area → Nat
  baseBufferAlloc : Bool
  workBuffersAlloc : Bool

/-- A base buffer that is allocated, with the work buffers behind it. -/
def Buffers.allocated (numBufs : Int) (start size bufsz : Nat) : Buffers where
  numBufs := numBufs
  room
    | .base => min start size
    | .work => size - start
    | .collectives => bufsz
  baseBufferAlloc := true
  workBuffersAlloc := false

/-- Work buffers that are allocated, beside a base buffer that is not. -/
def Buffers.workAllocated (numBufs : Int) (size bufsz : Nat) : Buffers where
  numBufs := numBufs
  room
    | .base => bufsz
    | .work => size
    | .collectives => bufsz
  baseBufferAlloc := false
  workBuffersAlloc := true

/-- A base buffer and work buffers in the collectives buffer. -/
def Buffers.inCollectives (numBufs : Int) (start bufsz : Nat) : Buffers where
  numBufs := numBufs
  room
    | .base => min start bufsz
    | .work => bufsz - start
    | .collectives => bufsz
  baseBufferAlloc := false
  workBuffersAlloc := false

/--
A set-up: `k`, the largest slot with its value as `int`, and the buffers, unless
`Error` was called.
-/
structure SetUp where
  k : Int
  slot : Option (Nat × Int)
  buffers : Option Buffers

namespace Call

variable (call : Call)

/-- `num_bufs`, limited by `collectives_max_workbufs`. -/
def limitBufs (numBufs : Int) : Int :=
  if 1 ≤ call.collectivesMaxWorkbufs then
    min numBufs call.collectivesMaxWorkbufs
  else
    numBufs

/-- `n*(sz+1)*elem_size`. -/
def bytes (n : Int) : Option Nat := do
  let sz1 ← checked (call.sz + 1)
  let count ← checked (n * sz1)
  some (sizeMul (sizeOfInt count) call.elemSize)

/-- `k`. -/
def slotBytes : Option Int := do
  let sz1 ← checked (call.sz + 1)
  some (intOfSize (sizeMul (sizeOfInt sz1) call.elemSize))

/-- The base buffer is allocated, with the work buffers behind it. -/
def allocateBase (k : Int) (slot : Option (Nat × Int)) (numBufs : Int) :
    Option SetUp := do
  let bufs ← checked (numBufs + 1)
  let size ← call.bytes bufs
  let start ← call.bytes 1
  some
    { k := k
      slot := slot
      buffers := some (.allocated numBufs start size call.collectivesBufsz) }

/-- The work buffers are allocated. -/
def allocateWork (k : Int) (slot : Option (Nat × Int)) (numBufs : Int) :
    Option SetUp := do
  let size ← call.bytes numBufs
  some
    { k := k
      slot := slot
      buffers := some (.workAllocated numBufs size call.collectivesBufsz) }

/-- Neither the base buffer nor a work buffer fits in the collectives buffer. -/
def setUpAllocated (numSteps : Nat) (k : Int) : Option SetUp := do
  let steps ← checked (numSteps + 1)
  let wanted ← call.bytes steps
  let largestSlot := largestAllocatableSlotAvail call.slots wanted
  let nb ← divideInt (intOfSize largestSlot) k
  let numBufs := call.limitBufs (intOfSize (sizeSub (sizeOfInt nb) 1))
  let slot := some (largestSlot, intOfSize largestSlot)
  if numBufs = 0 ∧ numSteps ≠ 0 then
    some { k := k, slot := slot, buffers := none }
  else
    call.allocateBase k slot numBufs

/-- The base buffer fits in the collectives buffer, but no work buffer. -/
def setUpWork (numSteps : Nat) (k : Int) : Option SetUp := do
  let wanted ← call.bytes numSteps
  let largestSlot := largestAllocatableSlotAvail call.slots wanted
  let nb ← divideInt (intOfSize largestSlot) k
  let numBufs := call.limitBufs (intOfSize (sizeOfInt nb))
  let slot := some (largestSlot, intOfSize largestSlot)
  if numBufs = 0 ∧ numSteps ≠ 0 then
    some { k := k, slot := slot, buffers := none }
  else
    call.allocateWork k slot numBufs

/-- The collectives buffer has room for the base buffer and a work buffer. -/
def setUpCollectives (numSteps : Nat) (k : Int) : Option SetUp := do
  let start ← call.bytes 1
  let left ← checked (intOfSize call.collectivesBufsz - k)
  let quotient ← divideInt left k
  let numBufs := call.limitBufs (min quotient numSteps)
  some
    { k := k
      slot := none
      buffers := some (.inCollectives numBufs start call.collectivesBufsz) }

/-- The set-up that the reductions share, for their numbers of steps. -/
def setUp (numSteps : Nat) : Option SetUp := do
  let k ← call.slotBytes
  if call.collectivesBufsz < sizeOfInt k then
    call.setUpAllocated numSteps k
  else
    let twice ← checked (2 * k)
    if call.collectivesBufsz < sizeOfInt twice then
      call.setUpWork numSteps k
    else
      call.setUpCollectives numSteps k

/-! ## The accesses of a reduction -/

/-- `sz*elem_size`. -/
def dataBytes : Nat :=
  sizeMul (sizeOfInt call.sz) call.elemSize

/-- The bytes of the base buffer that a reduction reads and writes. -/
def baseAccesses : List Access :=
  [⟨.base, 0, call.dataBytes⟩, ⟨.base, call.dataBytes, 1⟩]

/--
The bytes that a round uses, of a work buffer and of the base buffer: `k1` to
`k2` on its own image or on its partner.
-/
def slotAccesses (slot : Int) : Option (List Access) := do
  let sz1 ← checked (call.sz + 1)
  let before ← checked ((slot - 1) * sz1)
  let k1 ← checked (before + 1)
  let k2 ← checked (slot * sz1)
  some
    (⟨.work, sizeMul (sizeOfInt (k1 - 1)) call.elemSize, call.dataBytes⟩ ::
      ⟨.work, sizeMul (sizeOfInt (k2 - 1)) call.elemSize, 1⟩ ::
      call.baseAccesses)

/--
The rounds of one turn, from `j` on, for an image that has a partner in some of
them.
-/
def turnAccesses (partner : Nat → Bool) (firstSlot : Int) (i : Nat) :
    (rounds j : Nat) → Option (List Access)
  | 0, _ => some []
  | more + 1, j => do
      let here ←
        if partner (i + j - 2) then call.slotAccesses (firstSlot + j) else some []
      let others ← turnAccesses partner firstSlot i more (j + 1)
      some (here ++ others)

/-- The loop over the rounds, in turns of as many rounds as there are buffers. -/
def loopAccesses (partner : Nat → Bool) (log2 numBufs : Nat) (firstSlot : Int) :
    (fuel i : Nat) → Option (List Access)
  | 0, _ => none
  | fuel + 1, i =>
      if i ≤ log2 then do
        let here ← call.turnAccesses partner firstSlot i
          (min numBufs (log2 - i + 1)) 1
        let others ← loopAccesses partner log2 numBufs firstSlot fuel (i + numBufs)
        some (here ++ others)
      else
        some []

/-- The loop where there are several buffers, and the one where there are not. -/
def roundAccesses (partner : Nat → Bool) (log2 : Nat) (numBufs firstSlot : Int)
    (fuel : Nat) : Option (List Access) :=
  if 1 < numBufs then
    call.loopAccesses partner log2 numBufs.toNat firstSlot fuel 1
  else
    call.loopAccesses partner log2 1 firstSlot fuel 1

/-- The buffers that lie in the collectives buffer are cleared at the end. -/
def clearAccesses (buffers : Buffers) : Option (List Access) :=
  if buffers.baseBufferAlloc then
    some []
  else if buffers.workBuffersAlloc then do
    let length ← call.bytes 1
    some [⟨.base, 0, length⟩]
  else do
    let bufs ← checked (buffers.numBufs + 1)
    let length ← call.bytes bufs
    some [⟨.collectives, 0, length⟩]

/-- What a reduction did on an image. -/
structure Reduction where
  setUp : SetUp
  accesses : List Access

/-- The skeleton of the reductions: set-up, rounds, and the clearing of the buffers. -/
def reduceWith (numSteps : Nat) (rounds : Buffers → Option (List Access)) :
    Option Reduction := do
  let setUp ← call.setUp numSteps
  match setUp.buffers with
  | none => some { setUp := setUp, accesses := [] }
  | some buffers => do
      let others ← rounds buffers
      let cleared ← call.clearAccesses buffers
      some { setUp := setUp, accesses := call.baseAccesses ++ others ++ cleared }

/-! ## The reductions -/

/-- `log2_p`, rounded up, in the reductions to one image. -/
def log2Up (p : Nat) : Nat :=
  let (q, log2) := greatestPower p p 1 0
  if q < p then log2 + 1 else log2

/-- Whether an image has a partner in a round of a reduction to one image. -/
def hasPartner (p me round : Nat) : Bool :=
  let step := 2 ^ round
  if (me - 1) % (2 * step) = 0 then me + step ≤ p
  else if (me - 1) % (2 * step) = step then step + 1 ≤ me
  else false

/-- `co_reduce_predef_to_image__` on one image. -/
def coReducePredefToImage (p me fuel : Nat) : Option Reduction :=
  let log2P := log2Up p
  call.reduceWith log2P fun buffers =>
    call.roundAccesses (hasPartner p me) log2P buffers.numBufs 0 fuel

/-- `nbufs1` and `nbufs2`, for communication between nodes and inside of one. -/
def splitBufs (numBufs : Int) (log2Q log2Qq : Nat) : Int × Int :=
  if 1 < numBufs then
    if log2Q = 0 then (0, numBufs)
    else if log2Qq = 0 then (numBufs, 0)
    else if numBufs ≤ log2Q then (numBufs - 1, 1)
    else (log2Q, numBufs - log2Q)
  else
    (0, 0)

/-- The rounds inside of a node, whose slots are behind those between the nodes. -/
def intranodeAccesses (intranodeCount intranodeIndex : Nat) (bufs : Int × Int)
    (fuel : Nat) : Option (List Access) :=
  let (nbufs1, nbufs2) := bufs
  let log2Qq := log2Up intranodeCount
  call.loopAccesses (hasPartner intranodeCount intranodeIndex) log2Qq
    (if 0 < nbufs2 then nbufs2.toNat else 1) nbufs1 fuel 1

/-- The rounds between the nodes, on the first image of each. -/
def leaderAccesses (leadersCount leaderIndex intranodeIndex : Nat)
    (nbufs1 : Int) (fuel : Nat) : Option (List Access) :=
  let log2Q := log2Up leadersCount
  if intranodeIndex = 1 then
    call.loopAccesses (hasPartner leadersCount (leaderIndex + 1)) log2Q
      (if 0 < nbufs1 then nbufs1.toNat else 1) 0 fuel 1
  else
    some []

/--
`co_reduce_predef_to_image_2level__` on an image of a node: first inside of the
node, and then, on the node's first image, between the nodes.
-/
def coReducePredefToImage2level (leadersCount intranodeCount leaderIndex
    intranodeIndex fuel : Nat) : Option Reduction :=
  let log2Q := log2Up leadersCount
  let log2Qq := log2Up intranodeCount
  call.reduceWith (log2Q + log2Qq) fun buffers => do
    let bufs := splitBufs buffers.numBufs log2Q log2Qq
    let inside ← call.intranodeAccesses intranodeCount intranodeIndex bufs fuel
    let between ←
      call.leaderAccesses leadersCount leaderIndex intranodeIndex bufs.1 fuel
    some (inside ++ between)

/-- The images past the greatest power of two hand their data to another one. -/
def handedAccesses (q r me : Nat) : Option (List Access) :=
  if me > q ∨ me ≤ r then call.slotAccesses 1 else some []

/-- The rounds among the other images, where there is a buffer. -/
def exchangedAccesses (q log2Q me : Nat) (numBufs : Int) (fuel : Nat) : Option (List Access) :=
  if me ≤ q ∧ 1 < numBufs then
    call.loopAccesses (fun _ => true) log2Q numBufs.toNat 0 fuel 1
  else if me ≤ q ∧ numBufs = 1 then
    call.loopAccesses (fun _ => true) log2Q 1 0 fuel 1
  else
    some []

/-- `co_reduce_predef_to_all__` on one image. -/
def coReducePredefToAll (p me fuel : Nat) : Option Reduction :=
  let (q, log2Q) := greatestPower p p 1 0
  let r := p - q
  call.reduceWith log2Q fun buffers => do
    let handed ← call.handedAccesses q r me
    let exchanged ← call.exchangedAccesses q log2Q me buffers.numBufs fuel
    some (handed ++ exchanged)

end Call

/-! ## The broadcast -/

/-- The arguments of a broadcast. -/
structure Broadcast where
  sz : Nat
  collectivesBufsz : Nat
  szFits : sz < 2 ^ 64
  bufszFits : collectivesBufsz < 2 ^ 63

/-- The base buffer of a broadcast, and what an image reads and writes of it. -/
structure BroadcastRun where
  room : Nat
  accesses : List Access

/-- Whether an image has a partner in one of the rounds of a broadcast. -/
def broadcastPartner (p me : Nat) : (fuel step : Nat) → Bool
  | 0, _ => false
  | fuel + 1, step =>
      if 0 < step then
        let partner :=
          if (me - 1) % step = 0 then
            if (me - 1) % (2 * step) = 0 then me + step else me - step
          else
            0
        (1 ≤ partner ∧ partner ≤ p) ∨ broadcastPartner p me fuel (step / 2)
      else
        false

/-- `co_broadcast_from_root` on one image. -/
def Broadcast.coBroadcastFromRoot (call : Broadcast) (p me : Nat) : BroadcastRun :=
  let k := intOfSize call.sz
  let baseBufferAlloc := call.collectivesBufsz < sizeOfInt k
  let (q, log2) := greatestPower p p 1 0
  let data : Access := ⟨.base, 0, call.sz⟩
  let flag : Access := ⟨.base, call.sz, 1⟩
  { room :=
      if baseBufferAlloc then sizeAdd call.sz 4 else call.collectivesBufsz
    accesses :=
      data :: (if me = 1 ∨ broadcastPartner p me (log2 + 1) (q / 2) then [flag] else []) ++
        if baseBufferAlloc then [] else [⟨.base, 0, sizeAdd call.sz 4⟩] }

end OpenUH.Libcaf.CollectiveBuffers
