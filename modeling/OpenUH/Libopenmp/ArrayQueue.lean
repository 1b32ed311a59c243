import OpenUH.Foundation.Deque
import Mathlib.Algebra.Order.Ring.Int

/-!
# The task queues over an array

The array and `dyn_array` storages of `omp_queue.c`.  A queue keeps its items
in the slots behind `head_index` up to `tail_index`, around the end of the
array; one slot stays unused.  The item of a slot is `none` where the C code
has NULL.

Memory comes from `malloc`, of which the model knows whether it serves a
request and what the slots it serves hold.  A number of slots is the 32-bit
pattern of the C `int`.
-/

namespace OpenUH.Libopenmp.Queue

open Foundation

variable {α : Type}

/-- What stops a call. -/
inductive QueueFault where
  | assertionFailed (text : String)
  | outOfSegment
deriving DecidableEq, Repr

/-! ## Memory -/

/-- The slots that `malloc` serves. -/
structure SlotMemory (α : Type) where
  malloc : Nat → Bool
  contents : Nat → Option α

/-- `malloc` serves no request beyond `PTRDIFF_MAX`. -/
def SlotMemory.Limited (memory : SlotMemory α) : Prop :=
  ∀ bytes, memory.malloc bytes = true → bytes < 2 ^ 63

/-- `CACHE_LINE_SIZE`. -/
def cacheLineSize : Nat :=
  64

/-- `sizeof(omp_queue_slot_t)`. -/
def slotSize : Nat :=
  32

/-- Whether `aligned_malloc` serves a request, with its check for overflow. -/
def SlotMemory.alignedMalloc (memory : SlotMemory α) (bytes : Nat) : Bool :=
  decide (bytes ≠ 0) &&
    decide (bytes ≤ 2 ^ 64 - 1 - 8 - cacheLineSize - 1) &&
    memory.malloc (bytes + cacheLineSize - 1 + 8)

/-- The size of some slots; a negative `int` is a large `size_t`. -/
def sizeOfSlots (numSlots : Nat) : Nat :=
  ((if numSlots < 2 ^ 31 then numSlots else numSlots + (2 ^ 64 - 2 ^ 32)) * slotSize) % 2 ^ 64

/-- Whether some slots are served. -/
def SlotMemory.serves (memory : SlotMemory α) (numSlots : Nat) : Bool :=
  memory.alignedMalloc (sizeOfSlots numSlots)

/-- Slots that are served are some, and their number is no negative `int`. -/
theorem SlotMemory.Limited.served {memory : SlotMemory α} {numSlots : Nat}
    (limited : memory.Limited) (small : numSlots < 2 ^ 32)
    (served : memory.serves numSlots = true) :
    1 ≤ numSlots ∧ numSlots < 2 ^ 31 := by
  unfold serves alignedMalloc at served
  rw [Bool.and_eq_true, Bool.and_eq_true, decide_eq_true_eq, decide_eq_true_eq] at served
  obtain ⟨⟨some, _⟩, malloced⟩ := served
  have bounded := limited _ malloced
  unfold sizeOfSlots slotSize cacheLineSize at *
  by_cases positive : numSlots < 2 ^ 31
  · rw [if_pos positive] at some
    exact ⟨by omega, positive⟩
  · rw [if_neg positive] at bounded
    omega

/-- A memory that serves small requests, with slots that hold garbage. -/
def smallMemory : SlotMemory Nat where
  malloc := fun bytes => decide (bytes < 2 ^ 20)
  contents := some

theorem smallMemory_limited : smallMemory.Limited := by
  intro bytes served
  have small : bytes < 2 ^ 20 := of_decide_eq_true served
  omega

/-! ## The array storage -/

/-- The fields of `struct omp_queue` that the array storages use. -/
structure OmpQueue (α : Type) where
  items : Nat → Option α
  numSlots : Nat
  headIndex : Nat
  tailIndex : Nat
  isEmpty : Bool
  usedSlots : Nat

/-- `__ompc_queue_array_init`. -/
def queueArrayInit (memory : SlotMemory α) (numSlots : Nat) : Except QueueFault (OmpQueue α) :=
  if memory.serves numSlots then
    .ok
      { items := fun _ => none
        numSlots := numSlots
        headIndex := 0
        tailIndex := 0
        isEmpty := true
        usedSlots := 0 }
  else
    .error
      (.assertionFailed "__ompc_queue_init: couldn't malloc slots for queue")

/-- `__ompc_queue_array_is_full`. -/
def queueArrayIsFull (q : OmpQueue α) : Bool :=
  decide (q.usedSlots = q.numSlots - 1)

/-- An index moved back by one slot. -/
def previousIndex (numSlots index : Nat) : Nat :=
  if index ≠ 0 then (index - 1) % numSlots else numSlots - 1

/-- The end of a take: an item less, and the check of the indices. -/
def finishTake (q : OmpQueue α) (item : Option α) : Except QueueFault (OmpQueue α × Option α) :=
  let taken :=
    { q with
      usedSlots := q.usedSlots - 1
      isEmpty := q.isEmpty || decide (q.usedSlots - 1 = 0) }
  if taken.usedSlots ≠ 0 ∧ taken.headIndex = taken.tailIndex then
    .error (.assertionFailed "queue overflow")
  else
    .ok (taken, item)

/-- `__ompc_queue_array_get_head`. -/
def queueArrayGetHead (q : OmpQueue α) : Except QueueFault (OmpQueue α × Option α) :=
  if q.isEmpty then
    .ok (q, none)
  else
    let newHeadIndex := (q.headIndex + 1) % q.numSlots
    finishTake { q with headIndex := newHeadIndex } (q.items newHeadIndex)

/-- `__ompc_queue_array_get_tail`. -/
def queueArrayGetTail (q : OmpQueue α) : Except QueueFault (OmpQueue α × Option α) :=
  if q.isEmpty then
    .ok (q, none)
  else
    finishTake { q with tailIndex := previousIndex q.numSlots q.tailIndex }
      (q.items q.tailIndex)

/-- `__ompc_queue_array_steal_head`, which gives up where the lock is held. -/
def queueArrayStealHead (q : OmpQueue α) (lockFree : Bool) :
    Except QueueFault (OmpQueue α × Option α) :=
  if q.isEmpty || !lockFree then .ok (q, none) else queueArrayGetHead q

/-- `__ompc_queue_array_steal_tail`, which gives up where the lock is held. -/
def queueArrayStealTail (q : OmpQueue α) (lockFree : Bool) :
    Except QueueFault (OmpQueue α × Option α) :=
  if q.isEmpty || !lockFree then .ok (q, none) else queueArrayGetTail q

/-- Where the lock is free, a steal is a get. -/
theorem queueArrayStealHead_free {q : OmpQueue α} :
    queueArrayStealHead q true = queueArrayGetHead q := by
  unfold queueArrayStealHead queueArrayGetHead
  cases q.isEmpty <;> rfl

theorem queueArrayStealTail_free {q : OmpQueue α} :
    queueArrayStealTail q true = queueArrayGetTail q := by
  unfold queueArrayStealTail queueArrayGetTail
  cases q.isEmpty <;> rfl

/-! ## The `dyn_array` storage -/

/-- `aligned_realloc`: the old slots, and behind them what memory holds. -/
def reallocated (memory : SlotMemory α) (q : OmpQueue α) : Nat → Option α :=
  fun index =>
    if index < q.numSlots then q.items index else memory.contents index

/-- `__ompc_dyn_array_resize`. -/
def dynArrayResize (memory : SlotMemory α) (q : OmpQueue α)
    (newNumSlots : Nat) : Except QueueFault (OmpQueue α) :=
  if memory.serves newNumSlots then
    if q.tailIndex < q.headIndex then
      .ok
        { q with
          items := fun index =>
            if q.numSlots ≤ index ∧ index < q.numSlots + (q.tailIndex + 1) then
              reallocated memory q (index - q.numSlots)
            else
              reallocated memory q index
          tailIndex := q.tailIndex + q.numSlots
          numSlots := newNumSlots }
    else
      .ok { q with items := reallocated memory q, numSlots := newNumSlots }
  else
    .error (.assertionFailed "Can not aligned malloc")

/-- The test that both puts start with: a full queue gets twice the slots. -/
def resizeIfFull (memory : SlotMemory α) (q : OmpQueue α) : Except QueueFault (OmpQueue α) :=
  if queueArrayIsFull q then
    dynArrayResize memory q (2 * q.numSlots % 2 ^ 32)
  else
    .ok q

/-- `__ompc_queue_dyn_array_put_tail`. -/
def queueDynArrayPutTail (memory : SlotMemory α) (q : OmpQueue α) (item : α) :
    Except QueueFault (OmpQueue α) :=
  (resizeIfFull memory q).map fun q =>
    let tailIndex := (q.tailIndex + 1) % q.numSlots
    { q with
      tailIndex := tailIndex
      items := Function.update q.items tailIndex (some item)
      usedSlots := q.usedSlots + 1
      isEmpty := false }

/-- `__ompc_queue_dyn_array_put_head`. -/
def queueDynArrayPutHead (memory : SlotMemory α) (q : OmpQueue α) (item : α) :
    Except QueueFault (OmpQueue α) :=
  (resizeIfFull memory q).map fun q =>
    { q with
      items := Function.update q.items q.headIndex (some item)
      headIndex := previousIndex q.numSlots q.headIndex
      usedSlots := q.usedSlots + 1
      isEmpty := false }

/-! ## Calls -/

/-- A call of a task queue. -/
inductive QueueCall (α : Type) where
  | putHead (item : α)
  | putTail (item : α)
  | getHead
  | stealHead
  | getTail
  | stealTail
deriving DecidableEq, Repr

/-- The call as one on a deque. -/
def QueueCall.meaning : QueueCall α → Deque.Call α
  | .putHead item => .putHead item
  | .putTail item => .putTail item
  | .getHead | .stealHead => .takeHead
  | .getTail | .stealTail => .takeTail

/-- One call of a `dyn_array` queue, made while no other holds the lock. -/
def dynArrayCall (memory : SlotMemory α) (q : OmpQueue α) :
    QueueCall α → Except QueueFault (OmpQueue α × Deque.Result α)
  | .putHead item => (queueDynArrayPutHead memory q item).map (·, .stored)
  | .putTail item => (queueDynArrayPutTail memory q item).map (·, .stored)
  | .getHead => (queueArrayGetHead q).map (Prod.map id .taken)
  | .stealHead => (queueArrayStealHead q true).map (Prod.map id .taken)
  | .getTail => (queueArrayGetTail q).map (Prod.map id .taken)
  | .stealTail => (queueArrayStealTail q true).map (Prod.map id .taken)

end OpenUH.Libopenmp.Queue
