import OpenUH.Foundation.Transition
import OpenUH.Libcaf.HeapCalls

/-!
# Safety of the coarray heap

Runs of a program that allocates and deallocates, and what keeps the live
blocks apart: where every deallocation finds the links it follows right, and
empties an isolated slot at an end of the chain only, no two live blocks
overlap.  A run that frees a block behind a slot split from the top hands out
the bytes of a live block.
-/

namespace OpenUH.Libcaf.SharedMemorySlots

open Foundation.Fallible
open Foundation.Succession
open Foundation.Transition

/-- A block that has been allocated and not yet deallocated. -/
structure LiveBlock where
  addr : Nat
  size : Nat
  allocatable : Bool
deriving DecidableEq, Repr

/-- The addresses of two blocks do not overlap. -/
def LiveBlock.Apart (block other : LiveBlock) : Prop :=
  block.addr + block.size ≤ other.addr ∨ other.addr + other.size ≤ block.addr

instance (block other : LiveBlock) : Decidable (block.Apart other) :=
  inferInstanceAs (Decidable (_ ∨ _))

/-- The heap, and the blocks of the segment that the program holds. -/
structure HeapState where
  heap : Heap
  live : List LiveBlock

/-- The live blocks after a call. -/
def HeapCall.updateLive (live : List LiveBlock) :
    HeapCall → Allocation → List LiveBlock
  | .allocate varSize _, .inSegment addr => ⟨addr, varSize, true⟩ :: live
  | .asymmetricAllocate varSize, .inSegment addr =>
      ⟨addr, varSize, false⟩ :: live
  | .asymmetricAllocateIfPossible varSize, .inSegment addr =>
      ⟨addr, varSize, false⟩ :: live
  | .deallocate address, _ => live.filter fun block => block.addr ≠ address
  | .asymmetricDeallocate address, _ =>
      live.filter fun block => block.addr ≠ address
  | _, _ => live

/-- A call, with the blocks it makes live or takes away. -/
def HeapState.perform (settings : HeapSettings) (state : HeapState)
    (call : HeapCall) : Except HeapFault HeapState :=
  (state.heap.call settings call).map fun result =>
    { heap := result.1, live := call.updateLive state.live result.2 }

/-- What a program may ask for: sizes of `unsigned long`, live addresses. -/
def HeapCall.Permitted (settings : HeapSettings) (live : List LiveBlock) :
    HeapCall → Prop
  | .allocate varSize _ => 1 ≤ varSize ∧ varSize < 2 ^ 64
  | .asymmetricAllocate varSize => 1 ≤ varSize ∧ varSize < 2 ^ 64
  | .asymmetricAllocateIfPossible varSize => 1 ≤ varSize ∧ varSize < 2 ^ 64
  | .deallocate address => ∃ block ∈ live, block.addr = address
  | .asymmetricDeallocate address =>
      (∃ block ∈ live, block.addr = address) ∨
        ¬ (settings.segmentAddr ≤ address ∧ address < settings.segmentEnd)

/-- The program starts on one empty slot, which covers the segment. -/
def HeapState.Initial (settings : HeapSettings) (state : HeapState) : Prop :=
  ∃ memInfo, state = { heap := initialHeap settings memInfo, live := [] }

/-- One call of a program. -/
def HeapStep (settings : HeapSettings) (before after : HeapState) : Prop :=
  ∃ call : HeapCall, call.Permitted settings before.live ∧ before.perform settings call = .ok after

/-- The live blocks, and the full slots, are apart and inside the segment. -/
structure HeapState.Safe (settings : HeapSettings) (state : HeapState) :
    Prop where
  fullApart : ∀ slot other, state.heap.Full slot → state.heap.Full other →
    slot ≠ other →
      state.heap.addr slot + state.heap.size slot ≤ state.heap.addr other ∨
        state.heap.addr other + state.heap.size other ≤ state.heap.addr slot
  fullInside : ∀ slot, state.heap.Full slot →
    settings.segmentAddr ≤ state.heap.addr slot ∧
      state.heap.addr slot + state.heap.size slot ≤ settings.segmentEnd
  liveApart : state.live.Pairwise LiveBlock.Apart
  liveInside : ∀ block ∈ state.live,
    settings.segmentAddr ≤ block.addr ∧ block.addr + block.size ≤ settings.segmentEnd

/-! ## The condition on the calls -/

/-- The links that a deallocation follows are right. -/
structure DeallocatesSoundly (settings : HeapSettings) (heap : Heap)
    (address : Nat) : Prop where
  walked : ∀ other ∈ passed heap.prev (stopsAbove settings heap address)
    heap.slotCount (some heap.commonSlot), PrevRight heap other
  emptied : ∀ slot, findSlot settings heap address = .ok (some slot) → EmptiesSoundly heap slot

/-- The condition on a call, in the state before it. -/
def HeapCall.Sound (settings : HeapSettings) (heap : Heap) : HeapCall → Prop
  | .allocate varSize _ => RoundsUp settings varSize
  | .asymmetricAllocate varSize => RoundsUp settings varSize
  | .asymmetricAllocateIfPossible varSize => RoundsUp settings varSize
  | .deallocate address => DeallocatesSoundly settings heap address
  | .asymmetricDeallocate address =>
      ∀ slot, findSlotBelow heap heap.commonSlot address = .ok (some slot) →
        EmptiesSoundly heap slot

/-- One call that meets the condition. -/
def SoundHeapStep (settings : HeapSettings) (before after : HeapState) : Prop :=
  ∃ call : HeapCall, call.Permitted settings before.live ∧
    call.Sound settings before.heap ∧ before.perform settings call = .ok after

/-! ## The invariant -/

/-- The live blocks are those the full slots hold. -/
structure Backed (heap : Heap) (live : List LiveBlock) : Prop where
  liveFull : ∀ block ∈ live, ∃ slot, heap.Full slot ∧
    heap.addr slot = block.addr ∧ block.size ≤ heap.size slot
  fullLive : ∀ slot, heap.Full slot → ∃ block ∈ live,
    block.addr = heap.addr slot
  distinct : (live.map LiveBlock.addr).Nodup

/-- The heap is arranged and holds the live blocks. -/
structure HeapInvariant (settings : HeapSettings) (exact : Prop)
    (state : HeapState) : Prop where
  arranged : ∃ slots, Arranged settings exact state.heap slots
  backed : Backed state.heap state.live

section Steps

variable {settings : HeapSettings} {exact : Prop} {heap heap' : Heap}
  {slots : List Nat} {live : List LiveBlock}

/-- Full slots with one address are one slot. -/
theorem Arranged.full_injective {slot other : Nat} (arranged : Arranged settings exact heap slots)
    (full : heap.Full slot) (full' : heap.Full other)
    (same : heap.addr slot = heap.addr other) : slot = other := by
  by_contra different
  obtain ⟨member, isFull⟩ := arranged.full_iff.mp full
  obtain ⟨member', isFull'⟩ := arranged.full_iff.mp full'
  have apart := arranged.tiles.disjoint member member' different
  have positive := arranged.positive slot member (arranged.ne_common_of_full isFull)
  have positive' := arranged.positive other member' (arranged.ne_common_of_full isFull')
  omega

theorem initial_arranged (settings : HeapSettings) (exact : Prop) (memInfo : Option MemUsageInfo) :
    Arranged settings exact (initialHeap settings memInfo) [0] where
  nodup := List.nodup_singleton 0
  listed slot := by simp [initialHeap]
  numbered slot member := by
    rw [List.mem_singleton.mp member]
    exact Nat.zero_lt_one
  commonListed := List.mem_singleton.mpr rfl
  commonEmpty := rfl
  next slot member _ := by
    rw [List.mem_singleton.mp member]
    rfl
  prev slot member _ := by
    rw [List.mem_singleton.mp member]
    rfl
  nextEmpty slot member _ := by
    rw [List.mem_singleton.mp (Arranged.mem_emptySlots.mp member).1]
    rfl
  prevEmpty slot member _ := by
    rw [List.mem_singleton.mp (Arranged.mem_emptySlots.mp member).1]
    rfl
  unchained slot _ _ := ⟨rfl, rfl⟩
  tiles := ⟨rfl, rfl⟩
  positive slot member notCommon := absurd (List.mem_singleton.mp member) notCommon
  separated := List.isChain_singleton 0

theorem HeapState.Initial.invariant {state : HeapState}
    (initial : state.Initial settings) : HeapInvariant settings exact state := by
  obtain ⟨memInfo, rfl⟩ := initial
  refine ⟨⟨[0], initial_arranged settings exact memInfo⟩, ?_⟩
  constructor
  · simp
  · intro slot full
    exact absurd full.2 Bool.false_ne_true
  · exact List.nodup_nil

/-- A block more is live. -/
theorem Backed.gain {newSlot addr size requested : Nat} {allocatable : Bool}
    (backed : Backed heap live) (gains : Gains heap heap' newSlot addr size)
    (arranged : Arranged settings exact heap' slots) (enough : requested ≤ size) :
    Backed heap' (⟨addr, requested, allocatable⟩ :: live) := by
  constructor
  · intro block member
    rcases List.mem_cons.mp member with rfl | old
    · exact ⟨newSlot, gains.isFull, gains.addr_eq, gains.size_eq ▸ enough⟩
    · obtain ⟨slot, full, place, fits⟩ := backed.liveFull block old
      obtain ⟨full', sameAddr, sameSize⟩ := gains.kept slot full
      exact ⟨slot, full', sameAddr.trans place, sameSize ▸ fits⟩
  · intro slot full
    rcases gains.onlyNew slot full with rfl | old
    · exact ⟨_, List.mem_cons_self, gains.addr_eq.symm⟩
    · obtain ⟨block, member, place⟩ := backed.fullLive slot old
      exact ⟨block, List.mem_cons_of_mem _ member, place.trans (gains.kept slot old).2.1.symm⟩
  · rw [List.map_cons, List.nodup_cons]
    refine ⟨?_, backed.distinct⟩
    intro taken
    obtain ⟨block, member, place⟩ := List.mem_map.mp taken
    obtain ⟨slot, full, sameAddr, _⟩ := backed.liveFull block member
    obtain ⟨full', kept, _⟩ := gains.kept slot full
    have same : slot = newSlot := by
      apply arranged.full_injective full' gains.isFull
      rw [kept, sameAddr, place, gains.addr_eq]
    exact gains.isNew (same ▸ full)

/-- A block less is live. -/
theorem Backed.lose {oldSlot : Nat} (backed : Backed heap live) (loses : Loses heap heap' oldSlot)
    (arranged : Arranged settings exact heap slots) (full : heap.Full oldSlot) :
    Backed heap' (live.filter fun block => block.addr ≠ heap.addr oldSlot) := by
  constructor
  · intro block member
    obtain ⟨isLive, different⟩ := List.mem_filter.mp member
    obtain ⟨slot, slotFull, place, fits⟩ := backed.liveFull block isLive
    have notOld : slot ≠ oldSlot := by
      rintro rfl
      exact of_decide_eq_true different place.symm
    have full' := (loses.full_iff slot).mpr ⟨slotFull, notOld⟩
    obtain ⟨sameAddr, sameSize⟩ := loses.kept slot full'
    exact ⟨slot, full', sameAddr.trans place, sameSize ▸ fits⟩
  · intro slot full'
    obtain ⟨slotFull, notOld⟩ := (loses.full_iff slot).mp full'
    obtain ⟨block, isLive, place⟩ := backed.fullLive slot slotFull
    refine ⟨block, List.mem_filter.mpr ⟨isLive, ?_⟩, ?_⟩
    · apply decide_eq_true
      intro same
      exact notOld (arranged.full_injective slotFull full (place ▸ same))
    · rw [place, (loses.kept slot full').1]
  · exact backed.distinct.sublist (List.filter_sublist.map _)

theorem HeapInvariant.safe {state : HeapState}
    (invariant : HeapInvariant settings exact state) : state.Safe settings := by
  obtain ⟨⟨slots, arranged⟩, backed⟩ := invariant
  constructor
  · intro slot other full full' different
    exact arranged.tiles.disjoint (arranged.full_iff.mp full).1
      (arranged.full_iff.mp full').1 different
  · intro slot full
    exact arranged.tiles.bounds (arranged.full_iff.mp full).1
  · have distinct := List.pairwise_map.mp backed.distinct
    refine distinct.imp_of_mem ?_
    intro block other member member' different
    obtain ⟨slot, full, place, fits⟩ := backed.liveFull block member
    obtain ⟨slot', full', place', fits'⟩ := backed.liveFull other member'
    have notSame : slot ≠ slot' := by
      rintro rfl
      exact different (place.symm.trans place')
    have apart := arranged.tiles.disjoint (arranged.full_iff.mp full).1
      (arranged.full_iff.mp full').1 notSame
    unfold LiveBlock.Apart
    omega
  · intro block member
    obtain ⟨slot, full, place, fits⟩ := backed.liveFull block member
    have bounds := arranged.tiles.bounds (arranged.full_iff.mp full).1
    omega

/-! ## Each call keeps the invariant -/

variable {allocatedList : List AllocDpSlot}

section

variable (invariant : HeapInvariant settings exact ⟨heap, live⟩)

include invariant

theorem HeapInvariant.takeFromTop {varSize slot requested : Nat} {allocatable : Bool}
    {memInfo : Option MemUsageInfo}
    (found : findEmptySlotAbove heap heap.commonSlot varSize = .ok (some slot))
    (positive : 0 < varSize) (enough : requested ≤ varSize)
    (last : exact → takesWhole heap slot varSize = true ∨ heap.next slot = none) :
    HeapInvariant settings exact
      ⟨(SharedMemorySlots.takeFromTop heap slot varSize).books memInfo
        allocatedList, ⟨heap.addr slot, requested, allocatable⟩ :: live⟩ := by
  obtain ⟨⟨slots, arranged⟩, backed⟩ := invariant
  obtain ⟨front, rest, split, fits, _⟩ := arranged.ofFindEmptySlotAbove found
  have member : slot ∈ slots := by simp [split]
  obtain ⟨slots', arranged'⟩ := arranged.takeFromTop_arranged member fits positive last
  have gains := arranged.gains_takeFromTop member fits
  exact ⟨⟨slots', arranged'.books⟩, backed.gain gains.books arranged'.books enough⟩

theorem HeapInvariant.takeFromBottom {varSize slot requested : Nat} {allocatable : Bool}
    {memInfo : Option MemUsageInfo}
    (found : findEmptySlotBelow heap heap.commonSlot varSize = .ok (some slot))
    (positive : 0 < varSize) (enough : requested ≤ varSize) :
    HeapInvariant settings exact
      ⟨(SharedMemorySlots.takeFromBottom heap slot varSize).books memInfo
        allocatedList,
        ⟨bottomAddr heap slot varSize, requested, allocatable⟩ :: live⟩ := by
  obtain ⟨⟨slots, arranged⟩, backed⟩ := invariant
  obtain ⟨front, rest, split, fits, _⟩ := arranged.ofFindEmptySlotBelow found
  have member : slot ∈ slots := by simp [split]
  obtain ⟨slots', arranged'⟩ := arranged.takeFromBottom_arranged member fits positive
  obtain ⟨newSlot, gains⟩ := arranged.gains_takeFromBottom member fits
  exact ⟨⟨slots', arranged'.books⟩, backed.gain gains.books arranged'.books enough⟩

theorem HeapInvariant.emptySlot {slot : Nat} {memInfo : Option MemUsageInfo}
    (full : heap.Full slot) (soundly : EmptiesSoundly heap slot)
    (empties : SharedMemorySlots.emptySlot (heap.books memInfo allocatedList) slot = .ok heap') :
    HeapInvariant settings exact ⟨heap', live.filter fun block => block.addr ≠ heap.addr slot⟩ := by
  obtain ⟨⟨slots, arranged⟩, backed⟩ := invariant
  have full' : (heap.books memInfo allocatedList).Full slot := full
  obtain ⟨result, slots', same, arranged', loses⟩ :=
    arranged.books.emptySlot_arranged full' soundly.books
  obtain rfl : result = heap' := Except.ok.inj (same.symm.trans empties)
  have loses' : Loses heap result slot := { loses with }
  exact ⟨⟨slots', arranged'⟩, backed.lose loses' arranged full⟩

end

/-- The slot a top split is made in has no successor. -/
def SplitsAtEnd (settings : HeapSettings) (heap : Heap) : HeapCall → Prop
  | .allocate varSize _ => ∀ slot,
      findEmptySlotAbove heap heap.commonSlot
          (roundAllocatable settings varSize) = .ok (some slot) →
        takesWhole heap slot (roundAllocatable settings varSize) = true ∨ heap.next slot = none
  | _ => True

variable {after : HeapState}

section

variable (invariant : HeapInvariant settings exact ⟨heap, live⟩)

include invariant

theorem HeapInvariant.perform_allocate {varSize : Nat} {dp : Option Nat}
    (atLeastOne : 1 ≤ varSize) (rounds : RoundsUp settings varSize)
    (atEnd : exact → SplitsAtEnd settings heap (.allocate varSize dp))
    (performed : (HeapState.mk heap live).perform settings (.allocate varSize dp) = .ok after) :
    HeapInvariant settings exact after := by
  obtain ⟨⟨heap', allocation⟩, called, rfl⟩ := map_eq_ok.mp performed
  obtain ⟨slot, memInfo, list, found, rfl, rfl, _⟩ := allocatableAllocate_eq_ok called
  have enough : varSize ≤ roundAllocatable settings varSize := by
    rw [roundAllocatable_eq]
    exact le_roundAsymmetric rounds
  exact invariant.takeFromTop found (Nat.lt_of_lt_of_le atLeastOne enough)
    enough (fun isExact => atEnd isExact slot found)

theorem HeapInvariant.perform_asymmetricAllocate {varSize : Nat}
    (atLeastOne : 1 ≤ varSize) (rounds : RoundsUp settings varSize)
    (performed : (HeapState.mk heap live).perform settings
      (.asymmetricAllocate varSize) = .ok after) :
    HeapInvariant settings exact after := by
  obtain ⟨⟨heap', allocation⟩, called, rfl⟩ := map_eq_ok.mp performed
  have enough := le_roundAsymmetric rounds
  rcases asymmetricAllocate_eq_ok called with
    ⟨rfl, rfl⟩ | ⟨slot, memInfo, found, rfl, rfl⟩
  · exact invariant
  · exact invariant.takeFromBottom found (Nat.lt_of_lt_of_le atLeastOne enough) enough

theorem HeapInvariant.perform_asymmetricAllocateIfPossible {varSize : Nat}
    (atLeastOne : 1 ≤ varSize) (rounds : RoundsUp settings varSize)
    (performed : (HeapState.mk heap live).perform settings
      (.asymmetricAllocateIfPossible varSize) = .ok after) :
    HeapInvariant settings exact after := by
  obtain ⟨⟨heap', allocation⟩, called, rfl⟩ := map_eq_ok.mp performed
  have enough := le_roundAsymmetric rounds
  rcases asymmetricAllocateIfPossible_eq_ok called with
    ⟨rfl, rfl⟩ | ⟨slot, memInfo, found, rfl, rfl⟩
  · exact invariant
  · exact invariant.takeFromBottom found (Nat.lt_of_lt_of_le atLeastOne enough) enough

theorem HeapInvariant.perform_deallocate {address : Nat}
    (isLive : ∃ block ∈ live, block.addr = address)
    (soundly : DeallocatesSoundly settings heap address)
    (performed : (HeapState.mk heap live).perform settings (.deallocate address) = .ok after) :
    HeapInvariant settings exact after := by
  obtain ⟨⟨heap', allocation⟩, called, rfl⟩ := map_eq_ok.mp performed
  obtain ⟨heap', deallocated, same⟩ := map_eq_ok.mp called
  cases same
  obtain ⟨slots, arranged⟩ := invariant.arranged
  rcases deallocate_eq_ok deallocated with
    ⟨notFound, rfl⟩ | ⟨slot, memInfo, list, found, empties, _⟩
  · obtain ⟨block, member, rfl⟩ := isLive
    obtain ⟨slot, full, place, _⟩ := invariant.backed.liveFull block member
    exact absurd place (arranged.ofFindSlot_none soundly.walked notFound full)
  · obtain ⟨full, rfl⟩ := arranged.ofFindSlot soundly.walked found
    exact invariant.emptySlot full (soundly.emptied slot found) empties

/-- An address outside the segment is not the address of a live block. -/
theorem HeapInvariant.filter_outside {address : Nat}
    (outside : ¬ (settings.segmentAddr ≤ address ∧ address < settings.segmentEnd)) :
    (live.filter fun block => block.addr ≠ address) = live := by
  obtain ⟨slots, arranged⟩ := invariant.arranged
  rw [List.filter_eq_self]
  intro block member
  apply decide_eq_true
  rintro rfl
  obtain ⟨slot, full, place, _⟩ := invariant.backed.liveFull block member
  obtain ⟨listed, isFull⟩ := arranged.full_iff.mp full
  have bounds := arranged.tiles.bounds listed
  have positive := arranged.positive slot listed (arranged.ne_common_of_full isFull)
  omega

theorem HeapInvariant.perform_asymmetricDeallocate {address : Nat}
    (soundly : ∀ slot,
      findSlotBelow heap heap.commonSlot address = .ok (some slot) → EmptiesSoundly heap slot)
    (performed : (HeapState.mk heap live).perform settings
      (.asymmetricDeallocate address) = .ok after) :
    HeapInvariant settings exact after := by
  obtain ⟨⟨heap', allocation⟩, called, rfl⟩ := map_eq_ok.mp performed
  obtain ⟨heap', deallocated, same⟩ := map_eq_ok.mp called
  cases same
  obtain ⟨slots, arranged⟩ := invariant.arranged
  rcases asymmetricDeallocate_eq_ok deallocated with
    ⟨outside, rfl⟩ | ⟨slot, memInfo, found, empties⟩
  · rw [HeapCall.updateLive, invariant.filter_outside outside]
    exact invariant
  · obtain ⟨full, rfl⟩ := arranged.ofFindSlotBelow found
    exact invariant.emptySlot full (soundly slot found) empties

end

/-- A call that meets the condition keeps the invariant. -/
theorem HeapInvariant.perform {before after : HeapState} {call : HeapCall}
    (invariant : HeapInvariant settings exact before)
    (permitted : call.Permitted settings before.live) (sound : call.Sound settings before.heap)
    (atEnd : exact → SplitsAtEnd settings before.heap call)
    (performed : before.perform settings call = .ok after) :
    HeapInvariant settings exact after := by
  cases call with
  | allocate varSize dp =>
      exact invariant.perform_allocate permitted.1 sound atEnd performed
  | asymmetricAllocate varSize =>
      exact invariant.perform_asymmetricAllocate permitted.1 sound performed
  | asymmetricAllocateIfPossible varSize =>
      exact invariant.perform_asymmetricAllocateIfPossible permitted.1 sound performed
  | deallocate address =>
      exact invariant.perform_deallocate permitted sound performed
  | asymmetricDeallocate address =>
      exact invariant.perform_asymmetricDeallocate sound performed

end Steps

/-! ## Runs -/

/--
In a run whose calls all find the links they follow right, the live blocks
never overlap and never leave the segment.
-/
theorem heap_safe_of_sound_calls (settings : HeapSettings) {state : HeapState}
    (reached : Reachable (HeapState.Initial settings)
      (SoundHeapStep settings) state) :
    state.Safe settings := by
  have invariant : HeapInvariant settings False state := by
    refine reached.invariant (fun _ initial => initial.invariant) ?_
    rintro before after invariant ⟨call, permitted, sound, performed⟩
    exact invariant.perform permitted sound False.elim performed
  exact invariant.safe

/-! ## Fixed runs -/

instance (settings : HeapSettings) (live : List LiveBlock) (call : HeapCall) :
    Decidable (call.Permitted settings live) :=
  match call with
  | .allocate _ _ => inferInstanceAs (Decidable (_ ∧ _))
  | .asymmetricAllocate _ => inferInstanceAs (Decidable (_ ∧ _))
  | .asymmetricAllocateIfPossible _ => inferInstanceAs (Decidable (_ ∧ _))
  | .deallocate _ => inferInstanceAs (Decidable (∃ block ∈ live, _))
  | .asymmetricDeallocate _ =>
      inferInstanceAs (Decidable ((∃ block ∈ live, _) ∨ _))

/-- Perform a call if it is permitted and succeeds. -/
def HeapState.move (settings : HeapSettings) (state : HeapState)
    (call : HeapCall) : Option HeapState :=
  if call.Permitted settings state.live then
    (state.perform settings call).toOption
  else
    none

theorem HeapState.step_of_move {settings : HeapSettings}
    (before : HeapState) (call : HeapCall) (after : HeapState)
    (moved : before.move settings call = some after) :
    HeapStep settings before after := by
  unfold HeapState.move at moved
  split at moved
  · rename_i permitted
    exact ⟨call, permitted, eq_ok_of_toOption moved⟩
  · cases moved

/-- A segment of 64 bytes. -/
def smallSegment : HeapSettings where
  allocByteAlignment := 8
  alignmentPositive := by decide
  outOfSegmentRmaEnabled := 0
  restricts := fun _ _ => false
  segmentAddr := 4096
  segmentSize := 64

/-- The empty heap of that segment. -/
def smallHeap : HeapState where
  heap := initialHeap smallSegment (some ⟨0, 0, 64⟩)
  live := []

theorem smallHeap_initial : smallHeap.Initial smallSegment :=
  ⟨_, rfl⟩

/-- What the deallocation of the block at 4144 meets, and what it leaves. -/
theorem smallHeap_asymmetric :
    ((smallHeap.perform smallSegment (.asymmetricAllocate 16)).toOption.map
      fun state =>
        ((findSlotBelow state.heap state.heap.commonSlot 4144).toOption,
          emptyNeighbour (clearFeb state.heap 1) (state.heap.prev 1),
          state.live,
          (state.perform smallSegment (.asymmetricDeallocate 4144)).toOption.map HeapState.live)) =
      some (some (some 1), some 0, [⟨4144, 16, false⟩], some []) := by
  decide

/-- A run that allocates the block at the bottom and frees it again. -/
theorem smallHeap_freed :
    ∃ state, Reachable (HeapState.Initial smallSegment)
        (SoundHeapStep smallSegment) state ∧ state.live = [] := by
  obtain ⟨first, ran, facts⟩ := Option.map_eq_some_iff.mp smallHeap_asymmetric
  simp only [Prod.mk.injEq] at facts
  obtain ⟨found, neighbour, live, freed⟩ := facts
  obtain ⟨second, ranAgain, noneLive⟩ := Option.map_eq_some_iff.mp freed
  have performed := eq_ok_of_toOption ran
  have rounds : RoundsUp smallSegment 16 := fun unaligned => absurd rfl unaligned
  have permitted : (HeapCall.asymmetricAllocate 16).Permitted smallSegment
      smallHeap.live := by decide
  have invariant : HeapInvariant smallSegment True first :=
    smallHeap_initial.invariant.perform permitted rounds (fun _ => trivial) performed
  obtain ⟨slots, arranged⟩ := invariant.arranged
  have soundly : ∀ slot,
      findSlotBelow first.heap first.heap.commonSlot 4144 = .ok (some slot) →
        EmptiesSoundly first.heap slot := by
    intro slot here
    obtain rfl : slot = 1 := by
      rw [eq_ok_of_toOption found] at here
      cases here
      rfl
    apply arranged.emptiesSoundly_of_exact (arranged.ofFindSlotBelow here).1
    intro isolated
    cases neighbour.symm.trans isolated.1
  have permittedAgain : (HeapCall.asymmetricDeallocate 4144).Permitted
      smallSegment first.live := by
    rw [live]
    decide
  refine ⟨second, ?_, noneLive⟩
  exact .tail
    (.tail (.start smallHeap_initial) ⟨.asymmetricAllocate 16, permitted, rounds, performed⟩)
    ⟨.asymmetricDeallocate 4144, permittedAgain, soundly, eq_ok_of_toOption ranAgain⟩

theorem heap_safe_of_sound_calls_freed :
    ∃ state : HeapState, state.live = [] ∧ state.Safe smallSegment := by
  obtain ⟨state, reached, noneLive⟩ := smallHeap_freed
  exact ⟨state, noneLive, heap_safe_of_sound_calls smallSegment reached⟩

/-- A top split in front of an asymmetric block, and then both are freed. -/
def overlappingCalls : List HeapCall :=
  [.asymmetricAllocate 16, .allocate 16 none, .allocate 16 none,
    .deallocate 4096, .asymmetricDeallocate 4144, .allocate 32 none]

theorem overlappingCalls_live :
    (runAll (HeapState.move smallSegment) smallHeap overlappingCalls).map
        HeapState.live =
      some [⟨4096, 32, true⟩, ⟨4112, 16, true⟩] := by
  decide

/-- An allocation hands out the bytes of a live block. -/
theorem heap_not_safe :
    ¬ ∀ (settings : HeapSettings) (state : HeapState),
      Reachable (HeapState.Initial settings) (HeapStep settings) state → state.Safe settings := by
  intro safe
  obtain ⟨last, ran, live⟩ := Option.map_eq_some_iff.mp overlappingCalls_live
  have reached := Reachable.runAll HeapState.step_of_move
    (.start smallHeap_initial) ran
  have apart := (safe smallSegment last reached).liveApart
  rw [live] at apart
  revert apart
  decide

end OpenUH.Libcaf.SharedMemorySlots
