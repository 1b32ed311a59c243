import OpenUH.Libopenmp.ArrayQueue
import Mathlib.Data.List.Cycle

/-!
# The task queue over a ring of segments

The list storage of `omp_queue.c`.  The slots of a queue lie in segments, one
for each call of `aligned_malloc`, and form one ring.  A slot whose `next` is
NULL is followed by the next slot in memory, and one whose `prev` is NULL
follows the previous slot in memory.
-/

namespace OpenUH.Libopenmp.Queue

open Foundation

variable {α : Type}

/-- The address of a slot: its segment, and its place there. -/
structure SlotAddr where
  segment : Nat
  index : Nat
deriving DecidableEq, Repr

/-- The fields of `struct omp_queue` that the list storage uses. -/
structure ListQueue (α : Type) where
  item : SlotAddr → Option α
  next : SlotAddr → Option SlotAddr
  prev : SlotAddr → Option SlotAddr
  segmentSize : Nat → Nat
  segmentCount : Nat
  head : SlotAddr
  tail : SlotAddr
  numSlots : Nat
  isEmpty : Bool
  usedSlots : Nat

/-- `__ompc_queue_list_init`. -/
def queueListInit (memory : SlotMemory α) (numSlots : Nat) : Except QueueFault (ListQueue α) :=
  if memory.serves numSlots then
    .ok
      { item := fun _ => none
        next := Function.update (fun _ => none) ⟨0, numSlots - 1⟩ (some ⟨0, 0⟩)
        prev := Function.update (fun _ => none) ⟨0, 0⟩ (some ⟨0, numSlots - 1⟩)
        segmentSize := fun _ => numSlots
        segmentCount := 1
        head := ⟨0, 0⟩
        tail := ⟨0, 0⟩
        numSlots := numSlots
        isEmpty := true
        usedSlots := 0 }
  else
    .error
      (.assertionFailed "__ompc_queue_init: couldn't malloc slots for queue")

/-- `__ompc_queue_list_is_full`. -/
def queueListIsFull (q : ListQueue α) : Bool :=
  decide (q.usedSlots = (q.numSlots + (2 ^ 32 - 1)) % 2 ^ 32)

/-- `slot + 1`, the next slot in memory. -/
def ListQueue.nextInMemory (q : ListQueue α) (slot : SlotAddr) : Except QueueFault SlotAddr :=
  if slot.index + 1 < q.segmentSize slot.segment then
    .ok ⟨slot.segment, slot.index + 1⟩
  else
    .error .outOfSegment

/-- `slot - 1`, the previous slot in memory. -/
def previousInMemory (slot : SlotAddr) : Except QueueFault SlotAddr :=
  if slot.index ≠ 0 then
    .ok ⟨slot.segment, slot.index - 1⟩
  else
    .error .outOfSegment

/-- The slot a take moves the head to. -/
def ListQueue.slotBehind (q : ListQueue α) (slot : SlotAddr) : Except QueueFault SlotAddr :=
  match q.next slot with
  | some nextSlot => .ok nextSlot
  | none => q.nextInMemory slot

/-- The slot a take moves the tail to. -/
def ListQueue.slotAhead (q : ListQueue α) (slot : SlotAddr) : Except QueueFault SlotAddr :=
  match q.prev slot with
  | some prevSlot => .ok prevSlot
  | none => previousInMemory slot

/-- `--q->used_slots`, and the flag where this makes it zero. -/
def ListQueue.oneLess (q : ListQueue α) : ListQueue α :=
  { q with
    usedSlots := (q.usedSlots + (2 ^ 32 - 1)) % 2 ^ 32
    isEmpty := q.isEmpty ||
      decide ((q.usedSlots + (2 ^ 32 - 1)) % 2 ^ 32 = 0) }

/-- The end of a take: an item less, and the check of the two ends. -/
def finishListTake (q : ListQueue α) (item : Option α) :
    Except QueueFault (ListQueue α × Option α) :=
  if q.oneLess.usedSlots ≠ 0 ∧ q.oneLess.head = q.oneLess.tail then
    .error (.assertionFailed "queue overflow")
  else
    .ok (q.oneLess, item)

/-- `__ompc_queue_list_get_head`. -/
def queueListGetHead (q : ListQueue α) : Except QueueFault (ListQueue α × Option α) :=
  if q.isEmpty then
    .ok (q, none)
  else
    (q.slotBehind q.head).bind fun newHead =>
      finishListTake { q with head := newHead } (q.item newHead)

/-- `__ompc_queue_list_get_tail`. -/
def queueListGetTail (q : ListQueue α) : Except QueueFault (ListQueue α × Option α) :=
  if q.isEmpty then
    .ok (q, none)
  else
    (q.slotAhead q.tail).bind fun newTail =>
      finishListTake { q with tail := newTail } (q.item q.tail)

/-- `__ompc_queue_list_steal_head`, which gives up where the lock is held. -/
def queueListStealHead (q : ListQueue α) (lockFree : Bool) :
    Except QueueFault (ListQueue α × Option α) :=
  if q.isEmpty || !lockFree then .ok (q, none) else queueListGetHead q

/-- `__ompc_queue_list_steal_tail`, which gives up where the lock is held. -/
def queueListStealTail (q : ListQueue α) (lockFree : Bool) :
    Except QueueFault (ListQueue α × Option α) :=
  if q.isEmpty || !lockFree then .ok (q, none) else queueListGetTail q

/-- Where the lock is free, a steal is a get. -/
theorem queueListStealHead_free {q : ListQueue α} :
    queueListStealHead q true = queueListGetHead q := by
  unfold queueListStealHead queueListGetHead
  cases q.isEmpty <;> rfl

theorem queueListStealTail_free {q : ListQueue α} :
    queueListStealTail q true = queueListGetTail q := by
  unfold queueListStealTail queueListGetTail
  cases q.isEmpty <;> rfl

/-- Assignment to a field of the slot a pointer names, unless it is NULL. -/
def assignAt {β : Type} (field : SlotAddr → β) (pointer : Option SlotAddr)
    (value : β) : SlotAddr → β :=
  match pointer with
  | some slot => Function.update field slot value
  | none => field

/-- A field of the slots, cleared in a new segment. -/
def clearedIn {β : Type} (field : SlotAddr → Option β) (segment : Nat) : SlotAddr → Option β :=
  fun slot => if slot.segment = segment then none else field slot

/-- `__ompc_list_add_slots`. -/
def listAddSlots (memory : SlotMemory α) (q : ListQueue α) (numSlots : Nat) :
    Except QueueFault (ListQueue α) :=
  if memory.serves numSlots then
    let newSegment := q.segmentCount
    let first : SlotAddr := ⟨newSegment, 0⟩
    let last : SlotAddr := ⟨newSegment, numSlots - 1⟩
    let prev := assignAt (clearedIn q.prev newSegment) (q.next q.tail) none
    let next := assignAt (clearedIn q.next newSegment) (prev q.head) none
    .ok
      { q with
        item := clearedIn q.item newSegment
        next :=
          Function.update (Function.update next q.tail (some first)) last
            (some q.head)
        prev :=
          Function.update (Function.update prev first (some q.tail)) q.head
            (some last)
        segmentSize := Function.update q.segmentSize newSegment numSlots
        segmentCount := q.segmentCount + 1
        numSlots := (q.numSlots + numSlots) % 2 ^ 32 }
  else
    .error (.assertionFailed "couldn't resize the queue")

/-- The test that both puts start with: a full queue gets as many more slots. -/
def addSlotsIfFull (memory : SlotMemory α) (q : ListQueue α) : Except QueueFault (ListQueue α) :=
  if queueListIsFull q then listAddSlots memory q q.numSlots else .ok q

/-- The slot a put moves the tail to, with the check of its link back. -/
def ListQueue.newTail (q : ListQueue α) : Except QueueFault SlotAddr :=
  match q.next q.tail with
  | some newTail =>
      if q.prev newTail = some q.tail then
        .ok newTail
      else
        .error (.assertionFailed "list nodes are not linked correctly")
  | none => q.nextInMemory q.tail

/-- The slot a put moves the head to, with the check of its link back. -/
def ListQueue.newHead (q : ListQueue α) : Except QueueFault SlotAddr :=
  match q.prev q.head with
  | some newHead =>
      if q.next newHead = some q.head then
        .ok newHead
      else
        .error (.assertionFailed "list nodes are not linked correctly")
  | none => previousInMemory q.head

/-- `__ompc_queue_list_put_tail`. -/
def queueListPutTail (memory : SlotMemory α) (q : ListQueue α) (item : α) :
    Except QueueFault (ListQueue α) :=
  (addSlotsIfFull memory q).bind fun q =>
    q.newTail.map fun newTail =>
      { q with
        item := Function.update q.item newTail (some item)
        tail := newTail
        usedSlots := (q.usedSlots + 1) % 2 ^ 32
        isEmpty := false }

/-- `__ompc_queue_list_put_head`. -/
def queueListPutHead (memory : SlotMemory α) (q : ListQueue α) (item : α) :
    Except QueueFault (ListQueue α) :=
  (addSlotsIfFull memory q).bind fun q =>
    q.newHead.map fun newHead =>
      { q with
        item := Function.update q.item q.head (some item)
        head := newHead
        usedSlots := (q.usedSlots + 1) % 2 ^ 32
        isEmpty := false }

/-- One call of a list queue, made while no other holds the lock. -/
def listCall (memory : SlotMemory α) (q : ListQueue α) :
    QueueCall α → Except QueueFault (ListQueue α × Deque.Result α)
  | .putHead item => (queueListPutHead memory q item).map (·, .stored)
  | .putTail item => (queueListPutTail memory q item).map (·, .stored)
  | .getHead => (queueListGetHead q).map (Prod.map id .taken)
  | .stealHead => (queueListStealHead q true).map (Prod.map id .taken)
  | .getTail => (queueListGetTail q).map (Prod.map id .taken)
  | .stealTail => (queueListStealTail q true).map (Prod.map id .taken)

/-! ## The ring -/

/-- One slot follows another, by links both ways or in memory. -/
inductive SlotLink (next prev : SlotAddr → Option SlotAddr)
    (segmentSize : Nat → Nat) (slot : SlotAddr) : SlotAddr → Prop
  | links {other : SlotAddr} (isNext : next slot = some other)
      (isPrev : prev other = some slot) :
      SlotLink next prev segmentSize slot other
  | adjacent (noNext : next slot = none)
      (noPrev : prev ⟨slot.segment, slot.index + 1⟩ = none)
      (inside : slot.index + 1 < segmentSize slot.segment) :
      SlotLink next prev segmentSize slot ⟨slot.segment, slot.index + 1⟩

/-- One slot of a queue follows another. -/
def ListQueue.Linked (q : ListQueue α) : SlotAddr → SlotAddr → Prop :=
  SlotLink q.next q.prev q.segmentSize

/--
A queue holds some items: its slots form a ring, in which the slots that hold
the items lie behind the head, and the unused ones behind these.
-/
structure ListQueue.HoldsIn (q : ListQueue α) (items : List α)
    (used unused : List SlotAddr) : Prop where
  ring : Cycle.Chain q.Linked (q.head :: (used ++ unused) : List SlotAddr)
  nodup : (q.head :: (used ++ unused)).Nodup
  known : ∀ slot ∈ q.head :: (used ++ unused), slot.segment < q.segmentCount
  tail_eq : q.tail = used.getLast?.getD q.head
  items_eq : used.map q.item = items.map some
  numSlots_eq : q.numSlots = used.length + unused.length + 1
  small : q.numSlots < 2 ^ 32
  used_eq : q.usedSlots = items.length
  isEmpty_eq : q.isEmpty = items.isEmpty

end OpenUH.Libopenmp.Queue
