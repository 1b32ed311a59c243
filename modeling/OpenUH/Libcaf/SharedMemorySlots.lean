import OpenUH.Foundation.Succession
import Mathlib.Algebra.Order.Ring.Int

/-!
# The coarray heap

The shared memory slots of `alloc.h` and the routines of `alloc.c` that
allocate and deallocate them, on the heap of the initial team.

A slot is known by the number of the `malloc` call that made it, and the heap
keeps one function for each field of `struct shared_memory_slot`, so that an
assignment `slot->f = v` updates one function at one slot.  A slot given back
with `comm_free` keeps its fields and is no longer `allocated`.  A loop that
follows links takes as many steps as there are slots, after which it is
endless.
-/

namespace OpenUH.Libcaf.SharedMemorySlots

open Foundation.Succession

/-- What stops a routine. -/
inductive HeapFault where
  | error (text : String)
  | nullDereference
  | endlessLoop
  | invalidFree
deriving DecidableEq, Repr

/-- `mem_usage_info_t`. -/
structure MemUsageInfo where
  currentHeapUsage : Nat
  maxHeapUsage : Nat
  reservedHeapUsage : Nat
deriving DecidableEq, Repr

/-- `alloc_dp_slot`; `dp` is `none` for an implicit allocation. -/
structure AllocDpSlot where
  addr : Nat
  dp : Option Nat
deriving DecidableEq, Repr

/-- The part of the runtime that the routines do not change. -/
structure HeapSettings where
  allocByteAlignment : Nat
  alignmentPositive : 0 < allocByteAlignment
  outOfSegmentRmaEnabled : Nat
  restricts : Nat → Nat → Bool
  segmentAddr : Nat
  segmentSize : Nat

/-- `symm_mem_slot.start_addr`, which `comm_init` takes from the first slot. -/
def HeapSettings.startAddr (settings : HeapSettings) : Nat :=
  settings.segmentAddr

/-- The slots, the handle `init_common_slot`, and the bookkeeping. -/
structure Heap where
  addr : Nat → Nat
  size : Nat → Nat
  feb : Nat → Bool
  next : Nat → Option Nat
  prev : Nat → Option Nat
  nextEmpty : Nat → Option Nat
  prevEmpty : Nat → Option Nat
  allocated : Nat → Bool
  slotCount : Nat
  commonSlot : Nat
  memInfo : Option MemUsageInfo
  allocatedList : List AllocDpSlot

/-- The same slots, with other books. -/
def Heap.books (heap : Heap) (memInfo : Option MemUsageInfo)
    (allocatedList : List AllocDpSlot) : Heap :=
  { heap with memInfo := memInfo, allocatedList := allocatedList }

/-- Assignment to a field of the slot a pointer names, unless it is NULL. -/
def assignThrough {β : Type} (field : Nat → β) (pointer : Option Nat) (value : β) : Nat → β :=
  match pointer with
  | some slot => Function.update field slot value
  | none => field

/-- `size_t` arithmetic. -/
def wrapSize (value : Nat) : Nat :=
  value % 2 ^ 64

/-! ## Searching -/

/-- The result of a loop over links. -/
def ofWalk {β : Type} : Walk β → Except HeapFault β
  | .done result => .ok result
  | .endless => .error .endlessLoop

/-- The test both finders make on an empty slot. -/
def fitsEmpty (heap : Heap) (varSize : Nat) (slot : Nat) : Bool :=
  !heap.feb slot && decide (varSize ≤ heap.size slot)

/-- `find_empty_shared_memory_slot_above`. -/
def findEmptySlotAbove (heap : Heap) (slot varSize : Nat) : Except HeapFault (Option Nat) :=
  (ofWalk (walkToEnd heap.prevEmpty heap.slotCount slot)).bind fun first =>
    ofWalk (walkFind heap.nextEmpty (fitsEmpty heap varSize) heap.slotCount
      (some first))

/-- `find_empty_shared_memory_slot_below`. -/
def findEmptySlotBelow (heap : Heap) (slot varSize : Nat) : Except HeapFault (Option Nat) :=
  (ofWalk (walkToEnd heap.nextEmpty heap.slotCount slot)).bind fun last =>
    ofWalk (walkFind heap.prevEmpty (fitsEmpty heap varSize) heap.slotCount
      (some last))

/-- The full slot at an address. -/
def holdsAddress (heap : Heap) (address : Nat) (slot : Nat) : Bool :=
  heap.feb slot && decide (heap.addr slot = address)

/-- Where the loop of `find_shared_memory_slot_above` stops. -/
def stopsAbove (settings : HeapSettings) (heap : Heap) (address slot : Nat) : Bool :=
  decide (heap.addr slot < settings.startAddr) ||
    holdsAddress heap address slot

/-- `find_shared_memory_slot_above`. -/
def findSlotAbove (settings : HeapSettings) (heap : Heap)
    (slot address : Nat) : Except HeapFault (Option Nat) :=
  (ofWalk (walkFind heap.prev (stopsAbove settings heap address)
    heap.slotCount (some slot))).map fun stopped =>
      stopped.bind fun found =>
        if heap.addr found < settings.startAddr then none else some found

/-- `find_shared_memory_slot_below`. -/
def findSlotBelow (heap : Heap) (slot address : Nat) : Except HeapFault (Option Nat) :=
  ofWalk (walkFind heap.next (holdsAddress heap address) heap.slotCount
    (some slot))

/-! ## Splitting -/

/-- `split_empty_shared_memory_slot_from_top`, for the common-slot handle. -/
def splitFromTop (heap : Heap) (slot varSize : Nat) : Heap :=
  let newEmptySlot := heap.slotCount
  { heap with
    addr := Function.update heap.addr newEmptySlot (heap.addr slot + varSize)
    size :=
      Function.update
        (Function.update heap.size newEmptySlot (heap.size slot - varSize))
        slot varSize
    feb := Function.update (Function.update heap.feb newEmptySlot false) slot true
    next :=
      Function.update (Function.update heap.next newEmptySlot (heap.next slot))
        slot (some newEmptySlot)
    prev := Function.update heap.prev newEmptySlot (some slot)
    nextEmpty :=
      Function.update
        (assignThrough
          (Function.update heap.nextEmpty newEmptySlot (heap.nextEmpty slot))
          (heap.prevEmpty slot) (some newEmptySlot))
        slot none
    prevEmpty :=
      Function.update
        (assignThrough
          (Function.update heap.prevEmpty newEmptySlot (heap.prevEmpty slot))
          (heap.nextEmpty slot) (some newEmptySlot))
        slot none
    allocated := Function.update heap.allocated newEmptySlot true
    slotCount := heap.slotCount + 1
    commonSlot :=
      if heap.commonSlot = slot then newEmptySlot else heap.commonSlot }

/-- `split_empty_shared_memory_slot_from_bottom`. -/
def splitFromBottom (heap : Heap) (slot varSize : Nat) : Heap :=
  let newFullSlot := heap.slotCount
  { heap with
    addr :=
      Function.update heap.addr newFullSlot
        (heap.addr slot + heap.size slot - varSize)
    size :=
      Function.update (Function.update heap.size newFullSlot varSize) slot
        (heap.size slot - varSize)
    feb := Function.update heap.feb newFullSlot true
    next :=
      Function.update (Function.update heap.next newFullSlot (heap.next slot))
        slot (some newFullSlot)
    prev :=
      assignThrough (Function.update heap.prev newFullSlot (some slot))
        (heap.next slot) (some newFullSlot)
    nextEmpty := Function.update heap.nextEmpty newFullSlot none
    prevEmpty := Function.update heap.prevEmpty newFullSlot none
    allocated := Function.update heap.allocated newFullSlot true
    slotCount := heap.slotCount + 1 }

/-- An empty slot of the right size becomes full and leaves the chain. -/
def takeWhole (heap : Heap) (slot : Nat) : Heap :=
  { heap with
    feb := Function.update heap.feb slot true
    nextEmpty :=
      Function.update
        (assignThrough heap.nextEmpty (heap.prevEmpty slot)
          (heap.nextEmpty slot))
        slot none
    prevEmpty :=
      Function.update
        (assignThrough heap.prevEmpty (heap.nextEmpty slot)
          (heap.prevEmpty slot))
        slot none }

/-- Whether an allocation takes a slot as it is. -/
def takesWhole (heap : Heap) (emptySlot varSize : Nat) : Bool :=
  decide (emptySlot ≠ heap.commonSlot) &&
    decide (heap.size emptySlot = varSize)

/-- An allocation for allocatable data from the slot found. -/
def takeFromTop (heap : Heap) (emptySlot varSize : Nat) : Heap :=
  if takesWhole heap emptySlot varSize then
    takeWhole heap emptySlot
  else
    splitFromTop heap emptySlot varSize

/-- An allocation for asymmetric data from the slot found. -/
def takeFromBottom (heap : Heap) (emptySlot varSize : Nat) : Heap :=
  if takesWhole heap emptySlot varSize then
    takeWhole heap emptySlot
  else
    splitFromBottom heap emptySlot varSize

/-! ## Joining -/

/-- `join_3_shared_memory_slots`. -/
def join3 (heap : Heap) (slot prevSlot nextSlot : Nat) : Heap :=
  { heap with
    addr := Function.update heap.addr slot (heap.addr prevSlot)
    size :=
      Function.update heap.size slot
        (heap.size prevSlot + heap.size slot + heap.size nextSlot)
    next :=
      assignThrough (Function.update heap.next slot (heap.next nextSlot))
        (heap.prev prevSlot) (some slot)
    prev :=
      assignThrough (Function.update heap.prev slot (heap.prev prevSlot))
        (heap.next nextSlot) (some slot)
    nextEmpty :=
      assignThrough
        (Function.update heap.nextEmpty slot (heap.nextEmpty nextSlot))
        (heap.prevEmpty prevSlot) (some slot)
    prevEmpty :=
      assignThrough
        (Function.update heap.prevEmpty slot (heap.prevEmpty prevSlot))
        (heap.nextEmpty nextSlot) (some slot)
    allocated :=
      Function.update (Function.update heap.allocated prevSlot false)
        nextSlot false
    commonSlot :=
      if heap.commonSlot = nextSlot ∨ heap.commonSlot = prevSlot then
        slot
      else
        heap.commonSlot }

/-- `join_with_prev_shared_memory_slot`. -/
def joinWithPrev (heap : Heap) (slot prevSlot : Nat) : Heap :=
  { heap with
    addr := Function.update heap.addr slot (heap.addr prevSlot)
    size := Function.update heap.size slot (heap.size prevSlot + heap.size slot)
    next := assignThrough heap.next (heap.prev prevSlot) (some slot)
    prev := Function.update heap.prev slot (heap.prev prevSlot)
    nextEmpty :=
      Function.update
        (assignThrough heap.nextEmpty (heap.prevEmpty prevSlot) (some slot))
        slot (heap.nextEmpty prevSlot)
    prevEmpty :=
      assignThrough
        (Function.update heap.prevEmpty slot (heap.prevEmpty prevSlot))
        (heap.nextEmpty prevSlot) (some slot)
    allocated := Function.update heap.allocated prevSlot false
    commonSlot :=
      if prevSlot = heap.commonSlot then slot else heap.commonSlot }

/-- `join_with_next_shared_memory_slot`. -/
def joinWithNext (heap : Heap) (slot nextSlot : Nat) : Heap :=
  { heap with
    size := Function.update heap.size slot (heap.size slot + heap.size nextSlot)
    next := Function.update heap.next slot (heap.next nextSlot)
    prev := assignThrough heap.prev (heap.next nextSlot) (some slot)
    nextEmpty :=
      assignThrough
        (Function.update heap.nextEmpty slot (heap.nextEmpty nextSlot))
        (heap.prevEmpty nextSlot) (some slot)
    prevEmpty :=
      Function.update
        (assignThrough heap.prevEmpty (heap.nextEmpty nextSlot) (some slot))
        slot (heap.prevEmpty nextSlot)
    allocated := Function.update heap.allocated nextSlot false
    commonSlot :=
      if heap.commonSlot = nextSlot then slot else heap.commonSlot }

/-! ## Emptying a slot -/

/-- The empty neighbour a link names, if there is one. -/
def emptyNeighbour (heap : Heap) (link : Option Nat) : Option Nat :=
  link.filter fun slot => !heap.feb slot

/-- Link an isolated slot in front of the next empty slot. -/
def linkBefore (heap : Heap) (slot nextSlot : Nat) : Heap :=
  { heap with
    nextEmpty := Function.update heap.nextEmpty slot (some nextSlot)
    prevEmpty :=
      Function.update
        (Function.update heap.prevEmpty slot (heap.prevEmpty nextSlot))
        nextSlot (some slot) }

/-- Link an isolated slot behind the previous empty slot. -/
def linkBehind (heap : Heap) (slot prevSlot : Nat) : Heap :=
  { heap with
    prevEmpty := Function.update heap.prevEmpty slot (some prevSlot)
    nextEmpty :=
      Function.update
        (Function.update heap.nextEmpty slot (heap.nextEmpty prevSlot))
        prevSlot (some slot) }

/-- The forward search, made when the common slot is not above. -/
def searchForward (heap : Heap) (slot : Nat) : Except HeapFault (Option Nat) :=
  if heap.addr heap.commonSlot ≥ heap.addr slot then
    ofWalk (walkFind heap.next (fun other => !heap.feb other) heap.slotCount
      (heap.next slot))
  else
    .ok none

/-- The backward search, made when the forward one has found nothing. -/
def searchBackward (heap : Heap) (slot : Nat) : Except HeapFault (Option Nat) :=
  ofWalk (walkFind heap.prev (fun other => !heap.feb other) heap.slotCount
    (heap.prev slot))

/-- The branch of `empty_shared_memory_slot` without an empty neighbour. -/
def emptyIsolated (heap : Heap) (slot : Nat) : Except HeapFault Heap :=
  (searchForward heap slot).bind fun ahead =>
    match ahead with
    | some nextSlot => .ok (linkBefore heap slot nextSlot)
    | none =>
        (searchBackward heap slot).map fun behind =>
          match behind with
          | some prevSlot => linkBehind heap slot prevSlot
          | none => heap

/-- The assignment `slot->feb = 0`. -/
def clearFeb (heap : Heap) (slot : Nat) : Heap :=
  { heap with feb := Function.update heap.feb slot false }

/-- `empty_shared_memory_slot`. -/
def emptySlot (heap : Heap) (slot : Nat) : Except HeapFault Heap :=
  let emptied := clearFeb heap slot
  match emptyNeighbour emptied (emptied.prev slot),
      emptyNeighbour emptied (emptied.next slot) with
  | some prevSlot, some nextSlot => .ok (join3 emptied slot prevSlot nextSlot)
  | some prevSlot, none => .ok (joinWithPrev emptied slot prevSlot)
  | none, some nextSlot => .ok (joinWithNext emptied slot nextSlot)
  | none, none => emptyIsolated emptied slot

/-! ## Bookkeeping -/

/-- `store_slot_info`. -/
def storeSlotInfo (heap : Heap) (addr : Nat) (dp : Option Nat) : Except HeapFault Heap :=
  match heap.allocatedList.find? (fun slot => slot.addr = addr) with
  | none =>
      .ok
        (heap.books heap.memInfo
          (heap.allocatedList ++ [{ addr := addr, dp := dp }]))
  | some slot =>
      if slot.dp = none then
        .ok
          (heap.books heap.memInfo
            (heap.allocatedList.map fun other =>
              if other.addr = addr then { other with dp := dp } else other))
      else
        .error (.error "Duplicated usage of this slot:%p")

/-- `delete_slot_info`. -/
def deleteSlotInfo (heap : Heap) (addr : Nat) : Except HeapFault Heap :=
  match heap.allocatedList.find? (fun slot => slot.addr = addr) with
  | none =>
      .error
        (.error "Cannot free the memory which not allocated in current team")
  | some _ =>
      .ok
        (heap.books heap.memInfo
          (heap.allocatedList.filter fun other => other.addr ≠ addr))

/-- Count an allocation in the usage record. -/
def MemUsageInfo.grow (info : MemUsageInfo) (varSize : Nat) : MemUsageInfo :=
  { info with
    currentHeapUsage := wrapSize (info.currentHeapUsage + varSize)
    maxHeapUsage :=
      if info.maxHeapUsage < wrapSize (info.currentHeapUsage + varSize) then
        wrapSize (info.currentHeapUsage + varSize)
      else
        info.maxHeapUsage }

/-- Take a deallocated slot off the usage record. -/
def MemUsageInfo.shrink (info : MemUsageInfo) (size : Nat) : MemUsageInfo :=
  { info with
    currentHeapUsage := wrapSize (info.currentHeapUsage + 2 ^ 64 - size) }

/-! ## Allocation -/

/-- The rounding of `coarray_allocatable_allocate_`. -/
def roundAllocatable (settings : HeapSettings) (varSize : Nat) : Nat :=
  if varSize % settings.allocByteAlignment ≠ 0 then
    wrapSize
      (((varSize - 1) / settings.allocByteAlignment + 1) * settings.allocByteAlignment)
  else
    varSize

/-- The rounding of `coarray_asymmetric_allocate_`. -/
def roundAsymmetric (settings : HeapSettings) (varSize : Nat) : Nat :=
  if varSize % settings.allocByteAlignment ≠ 0 then
    wrapSize
      ((varSize / settings.allocByteAlignment + 1) * settings.allocByteAlignment)
  else
    varSize

/-- Where an allocation ended up. -/
inductive Allocation where
  | inSegment (addr : Nat)
  | systemMemory
  | notPossible
deriving DecidableEq, Repr

/-- `coarray_allocatable_allocate_`. -/
def allocatableAllocate (settings : HeapSettings) (heap : Heap)
    (requested : Nat) (dp : Option Nat) :
    Except HeapFault (Heap × Allocation) :=
  let varSize := roundAllocatable settings requested
  (findEmptySlotAbove heap heap.commonSlot varSize).bind fun found =>
    match found with
    | none =>
        .error
          (.error
            "No more shared memory space available for allocatable coarray.")
    | some emptySlot =>
        let counted := heap.books (heap.memInfo.map (·.grow varSize)) heap.allocatedList
        (storeSlotInfo (takeFromTop counted emptySlot varSize)
          (heap.addr emptySlot) dp).map fun stored =>
            (stored, .inSegment (heap.addr emptySlot))

/-- The part the two asymmetric allocations share: take the slot found. -/
def takeAsymmetric (heap : Heap) (emptySlot varSize : Nat) : Except HeapFault (Heap × Allocation) :=
  match heap.memInfo with
  | none => .error .nullDereference
  | some info =>
      let counted := heap.books (some (info.grow varSize)) heap.allocatedList
      .ok (takeFromBottom counted emptySlot varSize,
        .inSegment
          (if takesWhole heap emptySlot varSize then
            heap.addr emptySlot
          else
            heap.addr emptySlot + heap.size emptySlot - varSize))

/-- Whether memory outside the segment is used although a slot was found. -/
def leavesSegment (settings : HeapSettings) (info : MemUsageInfo) (varSize : Nat) : Bool :=
  decide (settings.outOfSegmentRmaEnabled = 2) ||
    (decide (settings.outOfSegmentRmaEnabled = 1) &&
      settings.restricts (wrapSize (info.currentHeapUsage + varSize))
        info.reservedHeapUsage)

/-- `coarray_asymmetric_allocate_`. -/
def asymmetricAllocate (settings : HeapSettings) (heap : Heap)
    (requested : Nat) : Except HeapFault (Heap × Allocation) :=
  let varSize := roundAsymmetric settings requested
  (findEmptySlotBelow heap heap.commonSlot varSize).bind fun found =>
    match found, heap.memInfo with
    | none, _ =>
        if settings.outOfSegmentRmaEnabled = 0 then
          .error
            (.error
              "No more shared memory space available for asymmetric data.")
        else
          .ok (heap, .systemMemory)
    | some _, none => .error .nullDereference
    | some emptySlot, some info =>
        if leavesSegment settings info varSize then
          .ok (heap, .systemMemory)
        else
          takeAsymmetric heap emptySlot varSize

/-- `coarray_asymmetric_allocate_if_possible_`. -/
def asymmetricAllocateIfPossible (settings : HeapSettings) (heap : Heap)
    (requested : Nat) : Except HeapFault (Heap × Allocation) :=
  let varSize := roundAsymmetric settings requested
  (findEmptySlotBelow heap heap.commonSlot varSize).bind fun found =>
    match found with
    | none => .ok (heap, .notPossible)
    | some emptySlot => takeAsymmetric heap emptySlot varSize

/-! ## Deallocation -/

/-- The slot `coarray_deallocate_` finds: above the common slot, else below. -/
def findSlot (settings : HeapSettings) (heap : Heap) (address : Nat) :
    Except HeapFault (Option Nat) :=
  (findSlotAbove settings heap heap.commonSlot address).bind fun found =>
    match found with
    | some slot => .ok (some slot)
    | none => findSlotBelow heap heap.commonSlot address

/-- `coarray_deallocate_`. -/
def deallocate (settings : HeapSettings) (heap : Heap) (address : Nat) : Except HeapFault Heap :=
  (findSlot settings heap address).bind fun found =>
    match found with
    | none => .ok heap
    | some slot =>
        (deleteSlotInfo heap (heap.addr slot)).bind fun deleted =>
          match deleted.memInfo with
          | none => .error .nullDereference
          | some info =>
              emptySlot
                (deleted.books (some (info.shrink (heap.size slot)))
                  deleted.allocatedList)
                slot

/-- `coarray_asymmetric_deallocate_`; `free` of a segment address is invalid. -/
def asymmetricDeallocate (settings : HeapSettings) (heap : Heap)
    (address : Nat) : Except HeapFault Heap :=
  (findSlotBelow heap heap.commonSlot address).bind fun found =>
    match found with
    | none =>
        if settings.segmentAddr ≤ address ∧
            address < settings.segmentAddr + settings.segmentSize then
          .error .invalidFree
        else
          .ok heap
    | some slot =>
        match heap.memInfo with
        | none => .error .nullDereference
        | some info =>
            emptySlot
              (heap.books (some (info.shrink (heap.size slot)))
                heap.allocatedList)
              slot

/-! ## Calls -/

/-- A call of the program into the heap. -/
inductive HeapCall where
  | allocate (varSize : Nat) (dp : Option Nat)
  | asymmetricAllocate (varSize : Nat)
  | asymmetricAllocateIfPossible (varSize : Nat)
  | deallocate (address : Nat)
  | asymmetricDeallocate (address : Nat)
deriving DecidableEq, Repr

/-- Run one call; a deallocation returns no address. -/
def Heap.call (settings : HeapSettings) (heap : Heap) :
    HeapCall → Except HeapFault (Heap × Allocation)
  | .allocate varSize dp => allocatableAllocate settings heap varSize dp
  | .asymmetricAllocate varSize =>
      SharedMemorySlots.asymmetricAllocate settings heap varSize
  | .asymmetricAllocateIfPossible varSize =>
      SharedMemorySlots.asymmetricAllocateIfPossible settings heap varSize
  | .deallocate address =>
      (SharedMemorySlots.deallocate settings heap address).map
        (·, .notPossible)
  | .asymmetricDeallocate address =>
      (SharedMemorySlots.asymmetricDeallocate settings heap address).map
        (·, .notPossible)

/-- The heap `comm_init` sets up: one empty slot, which covers the segment. -/
def initialHeap (settings : HeapSettings) (memInfo : Option MemUsageInfo) :
    Heap where
  addr := fun _ => settings.segmentAddr
  size := fun _ => settings.segmentSize
  feb := fun _ => false
  next := fun _ => none
  prev := fun _ => none
  nextEmpty := fun _ => none
  prevEmpty := fun _ => none
  allocated := fun slot => decide (slot = 0)
  slotCount := 1
  commonSlot := 0
  memInfo := memInfo
  allocatedList := []

end OpenUH.Libcaf.SharedMemorySlots
