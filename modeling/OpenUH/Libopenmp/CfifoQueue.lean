import OpenUH.Foundation.Ring
import OpenUH.Foundation.Transition
import OpenUH.Libopenmp.ArrayQueue

/-!
# The concurrent FIFO over a growing array

The CFIFO queue of the `dyn_array` storage keeps takes and puts apart with
two locks.  A put samples `head_index` before it takes `lock2`, and takes both
locks only where the sample says that the queue is full.  A take holds
`lock1`, and takes `lock2` inside it only to mark the queue empty.

A section under a lock is one step, and so is a read without a lock.  The
section of a take that has found the queue to look empty keeps `lock1` until
its inner section is done.  A queue that cannot be enlarged stops the program,
so that step is not one of the system.
-/

namespace OpenUH.Libopenmp.Queue

open Foundation.Transition

variable {α Thread : Type}

/-! ## The sections of a put -/

/-- `(q->tail_index + 1) % q->num_slots`. -/
def OmpQueue.newTailIndex (q : OmpQueue α) : Nat :=
  (q.tailIndex + 1) % q.numSlots

/-- The end of a put, which writes the slot behind the tail. -/
def cfifoStore (q : OmpQueue α) (item : α) : OmpQueue α :=
  { q with
    items := Function.update q.items q.newTailIndex (some item)
    tailIndex := q.newTailIndex
    isEmpty := false }

/--
The section of `__ompc_queue_cfifo_dyn_array_put` under `lock2`; `none` where
it looks full.
-/
def cfifoPut (q : OmpQueue α) (headIndex : Nat) (item : α) : Option (OmpQueue α) :=
  if q.newTailIndex = headIndex then none else some (cfifoStore q item)

/-- The section of `__ompc_queue_cfifo_dyn_array_put` under both locks. -/
def cfifoPutLocked (memory : SlotMemory α) (q : OmpQueue α)
    (headIndex : Nat) (item : α) : Except QueueFault (OmpQueue α) :=
  if q.newTailIndex = headIndex then
    (dynArrayResize memory q (2 * q.numSlots % 2 ^ 32)).map
      fun q => cfifoStore q item
  else
    .ok (cfifoStore q item)

/-! ## The sections of a take -/

/-- `__ompc_queue_cfifo_array_num_used_slots`. -/
def cfifoNumUsedSlots (q : OmpQueue α) : Nat :=
  if q.tailIndex = q.headIndex then 0
  else if q.tailIndex > q.headIndex then q.tailIndex - q.headIndex
  else q.numSlots - (q.headIndex - q.tailIndex)

/-- The items of a queue, as its indices delimit them. -/
def cfifoContents (q : OmpQueue α) : List (Option α) :=
  OpenUH.Foundation.Ring.slice q.items q.numSlots (q.headIndex + 1)
    (cfifoNumUsedSlots q)

/-- The outer section of `__ompc_queue_cfifo_array_get`. -/
def cfifoGet (q : OmpQueue α) : OmpQueue α × Option α :=
  let newHeadIndex := (q.headIndex + 1) % q.numSlots
  ({ q with headIndex := newHeadIndex }, q.items newHeadIndex)

/-- The copy loops of a transfer: some slots in a row to some others. -/
def copySlots (source : Nat → Option α) :
    (Nat → Option α) → Nat → Nat → Nat → Nat → Option α
  | target, _, _, 0 => target
  | target, start, first, count + 1 =>
      copySlots source (Function.update target first (source start))
        (start + 1) (first + 1) count

/-- The number of items that a transfer can take. -/
def actualChunkSize (src dst : OmpQueue α) (chunkSize : Nat) : Nat :=
  let usedSlots := cfifoNumUsedSlots src
  let actual := if chunkSize > usedSlots then usedSlots else chunkSize
  if actual > dst.numSlots then dst.numSlots else actual

/--
The outer section of `__ompc_queue_cfifo_array_transfer_chunk_to_empty`: the
source, the destination and the item returned.
-/
def cfifoTransfer (src dst : OmpQueue α) (chunkSize : Nat) : OmpQueue α × OmpQueue α × Option α :=
  let actual := actualChunkSize src dst chunkSize
  let startHeadIndex := (src.headIndex + 1) % src.numSlots
  let newHeadIndex := (startHeadIndex + actual - 1) % src.numSlots
  let item := src.items startHeadIndex
  let slots :=
    if newHeadIndex ≥ startHeadIndex then
      copySlots src.items dst.items (startHeadIndex + 1) 1 (actual - 1)
    else
      let behind := src.numSlots - (startHeadIndex + 1)
      copySlots src.items
        (copySlots src.items dst.items (startHeadIndex + 1) 1 behind)
        0 (1 + behind) (newHeadIndex + 1)
  ({ src with headIndex := newHeadIndex },
    { dst with
      items := slots
      headIndex := 0
      tailIndex := actual - 1
      isEmpty := if actual > 1 then false else dst.isEmpty },
    item)

/-- The inner section of a take, under both locks. -/
def cfifoMarkEmpty (q : OmpQueue α) (newHeadIndex : Nat) : OmpQueue α :=
  { q with
    isEmpty := if newHeadIndex = q.tailIndex then true else q.isEmpty }

/-! ## The threads -/

/-- A queue that a transfer may fill. -/
structure EmptyQueue (α : Type) where
  queue : OmpQueue α
  isEmpty : queue.isEmpty = true
  positive : 0 < queue.numSlots

/-- How far a thread is in a call. -/
inductive CfifoState (α : Type) where
  /-- Between two calls. -/
  | idle
  /-- The put has sampled `head_index`. -/
  | putSampled (item : α) (headIndex : Nat)
  /-- The put has found the queue to look full, and given up `lock2`. -/
  | putFull (item : α) (headIndex : Nat)
  /-- The transfer has found the queue not empty. -/
  | transferring (dst : EmptyQueue α) (chunkSize : Nat)
  /-- The take holds `lock1`, and has found the queue to look empty. -/
  | emptying (newHeadIndex : Nat)

/-- A queue, the holder of its `lock1`, its threads, and what went in and out. -/
structure CfifoSystem (α Thread : Type) where
  queue : OmpQueue α
  lock1 : Option Thread
  threads : Thread → CfifoState α
  puts : List α
  gets : List (Option α)

variable [DecidableEq Thread]

namespace CfifoSystem

/-- A thread goes on to another state. -/
def setThread (s : CfifoSystem α Thread) (thread : Thread)
    (state : CfifoState α) : CfifoSystem α Thread :=
  { s with threads := Function.update s.threads thread state }

/-- A put has written its item. -/
def finishPut (s : CfifoSystem α Thread) (thread : Thread)
    (queue : OmpQueue α) (item : α) : CfifoSystem α Thread :=
  { s.setThread thread .idle with
    queue := queue
    puts := s.puts ++ [item] }

/-- The outer section of a take ends, or goes on to the inner one. -/
def finishTake (s : CfifoSystem α Thread) (thread : Thread)
    (queue : OmpQueue α) (items : List (Option α)) : CfifoSystem α Thread :=
  if queue.headIndex = queue.tailIndex then
    { s.setThread thread (.emptying queue.headIndex) with
      queue := queue
      lock1 := some thread
      gets := s.gets ++ items }
  else
    { s.setThread thread .idle with
      queue := queue
      gets := s.gets ++ items }

/-- A put samples `head_index`. -/
def startPut (s : CfifoSystem α Thread) (thread : Thread) (item : α) :
    Option (CfifoSystem α Thread) :=
  match s.threads thread with
  | .idle => some (s.setThread thread (.putSampled item s.queue.headIndex))
  | _ => none

/-- The outer section of a get; an empty queue is reported as one. -/
def get (s : CfifoSystem α Thread) (thread : Thread) : Option (CfifoSystem α Thread) :=
  match s.threads thread, s.lock1 with
  | .idle, none =>
      if s.queue.isEmpty then
        some s
      else
        let (queue, item) := cfifoGet s.queue
        some (s.finishTake thread queue [item])
  | _, _ => none

/-- The test of a transfer before it takes a lock. -/
def startTransfer (s : CfifoSystem α Thread) (thread : Thread)
    (dst : EmptyQueue α) (chunkSize : Nat) :
    Option (CfifoSystem α Thread) :=
  match s.threads thread with
  | .idle =>
      if s.queue.isEmpty || decide (chunkSize = 0) then
        some s
      else
        some (s.setThread thread (.transferring dst chunkSize))
  | _ => none

/-- The next section of the call of a thread. -/
def proceed (memory : SlotMemory α) (s : CfifoSystem α Thread)
    (thread : Thread) : Option (CfifoSystem α Thread) :=
  match s.threads thread with
  | .idle => none
  | .putSampled item headIndex =>
      match cfifoPut s.queue headIndex item with
      | some queue => some (s.finishPut thread queue item)
      | none => some (s.setThread thread (.putFull item headIndex))
  | .putFull item headIndex =>
      match s.lock1 with
      | some _ => none
      | none =>
          (cfifoPutLocked memory s.queue headIndex item).toOption.map
            fun queue => s.finishPut thread queue item
  | .transferring dst chunkSize =>
      match s.lock1 with
      | some _ => none
      | none =>
          if s.queue.isEmpty then
            some (s.setThread thread .idle)
          else
            let (queue, filled, item) := cfifoTransfer s.queue dst.queue chunkSize
            some (s.finishTake thread queue (item :: cfifoContents filled))
  | .emptying newHeadIndex =>
      some
        { s.setThread thread .idle with
          queue := cfifoMarkEmpty s.queue newHeadIndex
          lock1 := none }

end CfifoSystem

/-! ## Runs -/

/-- Which thread makes which step. -/
inductive CfifoStep (α Thread : Type) where
  | startPut (thread : Thread) (item : α)
  | get (thread : Thread)
  | startTransfer (thread : Thread) (dst : EmptyQueue α) (chunkSize : Nat)
  | proceed (thread : Thread)

/-- One step of one thread. -/
def CfifoSystem.move (memory : SlotMemory α) (s : CfifoSystem α Thread) :
    CfifoStep α Thread → Option (CfifoSystem α Thread)
  | .startPut thread item => s.startPut thread item
  | .get thread => s.get thread
  | .startTransfer thread dst chunkSize =>
      s.startTransfer thread dst chunkSize
  | .proceed thread => s.proceed memory thread

/-- A new queue that nobody has used. -/
structure CfifoInitial (memory : SlotMemory α) (s : CfifoSystem α Thread) :
    Prop where
  small : s.queue.numSlots < 2 ^ 32
  queue : queueArrayInit memory s.queue.numSlots = .ok s.queue
  lock1 : s.lock1 = none
  threads : ∀ thread, s.threads thread = .idle
  puts : s.puts = []
  gets : s.gets = []

/--
The items taken and then the items of the queue are the items put, in the
order in which the puts completed; and where the queue says that it is empty,
it is.
-/
structure IsFifo (s : CfifoSystem α Thread) : Prop where
  ordered : s.puts.map some = s.gets ++ cfifoContents s.queue
  reports : s.queue.isEmpty = true → cfifoContents s.queue = []

/-- A put that meets a full queue has sampled the head as it is. -/
def SeesFull (s : CfifoSystem α Thread) : CfifoStep α Thread → Prop
  | .proceed thread =>
      match s.threads thread with
      | .putSampled _ headIndex | .putFull _ headIndex =>
          s.queue.newTailIndex = s.queue.headIndex → headIndex = s.queue.headIndex
      | _ => True
  | _ => True

end OpenUH.Libopenmp.Queue
