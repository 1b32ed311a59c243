import OpenUH.Libcaf.HeapIntegrity
import OpenUH.Libcaf.SymmetricHeap

/-!
# The offsets of allocatable coarrays

Each image runs the collective allocations and deallocations of the program,
and between them allocations and deallocations of its own.  An image is
compared with the area that the collective calls alone make: as long as no
call reaches past the common slot, the image returns the offsets of that area,
so that any two images return the same ones.
-/

namespace OpenUH.Libcaf.SharedMemorySlots

open Foundation
open Foundation.Fallible
open Foundation.Transition

/-! ## Images -/

/-- A call that all images make: a coarray is known by its allocation. -/
inductive CollectiveCall where
  | allocate (varSize : Nat)
  | deallocate (allocation : Nat)
deriving DecidableEq, Repr

/-- A call of one image. -/
inductive ImageCall where
  | allocate (varSize : Nat) (dp : Option Nat)
  | deallocate (allocation : Nat)
  | asymmetricAllocate (varSize : Nat)
  | asymmetricAllocateIfPossible (varSize : Nat)
  | asymmetricDeallocate (address : Nat)
deriving DecidableEq, Repr

/-- The collective call that an image makes its part of. -/
def ImageCall.collective : ImageCall → Option CollectiveCall
  | .allocate varSize _ => some (.allocate varSize)
  | .deallocate allocation => some (.deallocate allocation)
  | _ => none

/-- An image: its heap, the collective calls and the addresses they returned. -/
structure ImageState where
  heapState : HeapState
  calls : List CollectiveCall
  allocations : List Nat

/-- The call into the heap: a coarray is freed at the address it has here. -/
def ImageCall.heapCall (allocations : List Nat) :
    ImageCall → Option HeapCall
  | .allocate varSize dp => some (.allocate varSize dp)
  | .deallocate allocation => allocations[allocation]?.map .deallocate
  | .asymmetricAllocate varSize => some (.asymmetricAllocate varSize)
  | .asymmetricAllocateIfPossible varSize =>
      some (.asymmetricAllocateIfPossible varSize)
  | .asymmetricDeallocate address => some (.asymmetricDeallocate address)

/-- The addresses of the coarrays after a call. -/
def ImageCall.updateAllocations (allocations : List Nat) :
    ImageCall → Allocation → List Nat
  | .allocate _ _, .inSegment addr => allocations ++ [addr]
  | _, _ => allocations

/-- A call of an image, where there is such a coarray and the call succeeds. -/
def ImageState.perform (settings : HeapSettings) (state : ImageState)
    (call : ImageCall) : Option ImageState :=
  (call.heapCall state.allocations).bind fun heapCall =>
    (state.heapState.heap.call settings heapCall).toOption.map fun result =>
      { heapState :=
          { heap := result.1
            live := heapCall.updateLive state.heapState.live result.2 }
        calls := state.calls ++ call.collective.toList
        allocations := call.updateAllocations state.allocations result.2 }

/--
What an image may ask for: `allocation.c` does not ask for zero bytes, and
frees coarrays and asymmetric data as such.
-/
def ImageCall.Permitted (settings : HeapSettings) (state : ImageState) :
    ImageCall → Prop
  | .deallocate allocation =>
      ∃ address, state.allocations[allocation]? = some address ∧
        ∃ block ∈ state.heapState.live,
          block.addr = address ∧ block.allocatable = true
  | .asymmetricDeallocate address =>
      HeapCall.Permitted settings state.heapState.live
          (.asymmetricDeallocate address) ∧
        HeapCall.Matches state.heapState.live (.asymmetricDeallocate address)
  | .allocate varSize _ => 1 ≤ varSize ∧ varSize < 2 ^ 64
  | .asymmetricAllocate varSize => 1 ≤ varSize ∧ varSize < 2 ^ 64
  | .asymmetricAllocateIfPossible varSize => 1 ≤ varSize ∧ varSize < 2 ^ 64

/-- An image starts on one empty slot, before any call. -/
def ImageState.Initial (settings : HeapSettings) (state : ImageState) : Prop :=
  state.heapState.Initial settings ∧ state.calls = [] ∧ state.allocations = []

/-- One call of an image. -/
def ImageStep (settings : HeapSettings) (before after : ImageState) : Prop :=
  ∃ call : ImageCall, call.Permitted settings before ∧ before.perform settings call = some after

/-- Two heaps with the same layout, perhaps at different addresses. -/
structure HeapSettings.SameLayout (settings settings' : HeapSettings) :
    Prop where
  sameAlignment : settings.allocByteAlignment = settings'.allocByteAlignment
  sameSize : settings.segmentSize = settings'.segmentSize

/-- The offsets in the segment of the coarrays allocated so far. -/
def ImageState.offsets (settings : HeapSettings) (state : ImageState) : List Nat :=
  state.allocations.map fun address => address - settings.segmentAddr

/-! ## The condition on the calls -/

/-- The condition on a call, in the state before it. -/
def ImageCall.Stays (settings : HeapSettings) (state : ImageState) :
    ImageCall → Prop
  | .allocate varSize _ =>
      RoundsUp settings varSize ∧ FitsAbove state.heapState.heap (roundAllocatable settings varSize)
  | .asymmetricAllocate varSize =>
      RoundsUp settings varSize ∧ FitsBelow state.heapState.heap (roundAsymmetric settings varSize)
  | .asymmetricAllocateIfPossible varSize =>
      RoundsUp settings varSize ∧ FitsBelow state.heapState.heap (roundAsymmetric settings varSize)
  | .deallocate allocation =>
      ∀ address, state.allocations[allocation]? = some address →
        DeallocatesSoundly settings state.heapState.heap address
  | .asymmetricDeallocate address =>
      HeapCall.Sound settings state.heapState.heap
        (.asymmetricDeallocate address)

/-- One call that meets the condition. -/
def StayingImageStep (settings : HeapSettings) (before after : ImageState) : Prop :=
  ∃ call : ImageCall, call.Permitted settings before ∧
    call.Stays settings before ∧ before.perform settings call = some after

/-! ## The area that the collective calls make -/

/-- The blocks of the area, and the offsets handed out so far. -/
structure SymmetricArea where
  blocks : List FirstFit.Block
  offsets : List Nat

/-- A collective call on the area. -/
def SymmetricArea.perform (settings : HeapSettings) (area : SymmetricArea) :
    CollectiveCall → SymmetricArea
  | .allocate varSize =>
      let served := FirstFit.allocate (roundAllocatable settings varSize) area.blocks
      { blocks := served.2, offsets := area.offsets ++ [served.1] }
  | .deallocate allocation =>
      { area with
        blocks :=
          FirstFit.release (area.offsets.getD allocation 0) area.blocks }

/-- The area after a sequence of collective calls. -/
def symmetricArea (settings : HeapSettings) (calls : List CollectiveCall) : SymmetricArea :=
  calls.foldl (SymmetricArea.perform settings) { blocks := [], offsets := [] }

section Area

variable {settings settings' : HeapSettings} {calls calls' : List CollectiveCall}
  {area : SymmetricArea}

theorem symmetricArea_concat {call : CollectiveCall} :
    symmetricArea settings (calls ++ [call]) =
      (symmetricArea settings calls).perform settings call := by
  rw [symmetricArea, List.foldl_append]
  rfl

/-- The area depends on the alignment only. -/
theorem symmetricArea_sameLayout (same : settings.SameLayout settings') :
    symmetricArea settings calls = symmetricArea settings' calls := by
  have rounds : roundAllocatable settings = roundAllocatable settings' := by
    funext varSize
    rw [roundAllocatable, roundAllocatable, same.sameAlignment]
  have performs : SymmetricArea.perform settings = SymmetricArea.perform settings' := by
    funext area call
    cases call <;> simp only [SymmetricArea.perform, rounds]
  rw [symmetricArea, symmetricArea, performs]

theorem offsets_grow_perform {call : CollectiveCall} :
    area.offsets <+: (area.perform settings call).offsets := by
  cases call with
  | allocate varSize => exact List.prefix_append _ _
  | deallocate allocation => exact List.prefix_refl _

/-- More calls only add offsets. -/
theorem offsets_grow (continued : calls <+: calls') :
    (symmetricArea settings calls).offsets <+: (symmetricArea settings calls').offsets := by
  obtain ⟨more, rfl⟩ := continued
  induction more using List.reverseRecOn with
  | nil => rw [List.append_nil]
  | append_singleton more call ih =>
      rw [← List.append_assoc, symmetricArea_concat]
      exact ih.trans offsets_grow_perform

end Area

/-! ## Each call keeps an image and the area together -/

/-- An image has the symmetric part and the offsets of the area. -/
structure SymmetricInvariant (settings : HeapSettings) (state : ImageState) :
    Prop where
  upper : ∃ front rest, UpperPart settings state.heapState.heap
    state.heapState.live (symmetricArea settings state.calls).blocks front rest
  allocations_eq : state.allocations =
    (symmetricArea settings state.calls).offsets.map (settings.segmentAddr + ·)

section Steps

variable {settings : HeapSettings} {heap heap' : Heap}
  {live live' : List LiveBlock} {blocks : List FirstFit.Block}
  {front rest : List Nat} {slot : Nat} {memInfo : Option MemUsageInfo}
  {allocatedList : List AllocDpSlot} {calls : List CollectiveCall}
  {allocations : List Nat}

theorem UpperPart.books (upper : UpperPart settings heap live blocks front rest) :
    UpperPart settings (heap.books memInfo allocatedList) live blocks front rest where
  arranged := upper.arranged.books
  blocks_eq := upper.blocks_eq
  allocatable := upper.allocatable

/-- The allocatable blocks matter only. -/
theorem UpperPart.live_subset (upper : UpperPart settings heap live blocks front rest)
    (subset : ∀ block ∈ live', block.allocatable = true → block ∈ live) :
    UpperPart settings heap live' blocks front rest where
  arranged := upper.arranged
  blocks_eq := upper.blocks_eq
  allocatable block member isAllocatable :=
    upper.allocatable block (subset block member isAllocatable) isAllocatable

theorem ImageState.perform_eq_some {state after : ImageState}
    {call : ImageCall} (performs : state.perform settings call = some after) :
    ∃ heapCall result,
      call.heapCall state.allocations = some heapCall ∧
      state.heapState.heap.call settings heapCall = .ok result ∧
      after =
        { heapState :=
            { heap := result.1
              live := heapCall.updateLive state.heapState.live result.2 }
          calls := state.calls ++ call.collective.toList
          allocations :=
            call.updateAllocations state.allocations result.2 } := by
  obtain ⟨heapCall, isCall, called⟩ := Option.bind_eq_some_iff.mp performs
  obtain ⟨result, succeeds, rfl⟩ := Option.map_eq_some_iff.mp called
  exact ⟨heapCall, result, isCall, eq_ok_of_toOption succeeds, rfl⟩

theorem ImageState.Initial.invariant {state : ImageState}
    (initial : state.Initial settings) : SymmetricInvariant settings state := by
  obtain ⟨⟨heap, live⟩, calls, allocations⟩ := state
  obtain ⟨⟨memInfo, same⟩, rfl, rfl⟩ := initial
  cases same
  refine ⟨⟨[], [], initial_arranged settings False memInfo, rfl, ?_⟩, rfl⟩
  intro block member
  cases member

variable {after : ImageState}

theorem SymmetricInvariant.performs_allocate {varSize : Nat} {dp : Option Nat}
    (invariant : SymmetricInvariant settings ⟨⟨heap, live⟩, calls, allocations⟩)
    (atLeastOne : 1 ≤ varSize)
    (stays : (ImageCall.allocate varSize dp).Stays settings ⟨⟨heap, live⟩, calls, allocations⟩)
    (performs : (ImageState.mk ⟨heap, live⟩ calls allocations).perform
      settings (.allocate varSize dp) = some after) :
    SymmetricInvariant settings after := by
  obtain ⟨⟨front, rest, upper⟩, same⟩ := invariant
  obtain ⟨rounds, fitsAbove⟩ := stays
  obtain ⟨heapCall, ⟨heap', allocation⟩, isCall, called, rfl⟩ := ImageState.perform_eq_some performs
  cases isCall
  obtain ⟨slot, memInfo, list, found, rfl, rfl, _⟩ := allocatableAllocate_eq_ok called
  have enough : 0 < roundAllocatable settings varSize := by
    rw [roundAllocatable_eq]
    exact Nat.lt_of_lt_of_le atLeastOne (le_roundAsymmetric rounds)
  obtain ⟨fits, served⟩ := upper.arranged.found_above fitsAbove found
  have taken : (∃ front' rest', UpperPart settings
        (takeFromTop heap slot (roundAllocatable settings varSize))
        (⟨heap.addr slot, varSize, true⟩ :: live)
        (FirstFit.allocate (roundAllocatable settings varSize)
          (symmetricArea settings calls).blocks).2 front' rest') ∧
      heap.addr slot = settings.segmentAddr +
        (FirstFit.allocate (roundAllocatable settings varSize)
          (symmetricArea settings calls).blocks).1 := by
    rcases served with ⟨left, right, split, notBefore⟩ | ⟨rfl, notBefore⟩
    · obtain ⟨⟨front', upper'⟩, place⟩ :=
        upper.takeFromTop_front split fits notBefore enough
      exact ⟨⟨front', rest, upper'⟩, place⟩
    · obtain ⟨⟨front', upper'⟩, place⟩ :=
        upper.takeFromTop_common fits notBefore enough
      exact ⟨⟨front', rest, upper'⟩, place⟩
  obtain ⟨⟨front', rest', upper'⟩, place⟩ := taken
  have area : symmetricArea settings
      (calls ++ (ImageCall.allocate varSize dp).collective.toList) = _ :=
    symmetricArea_concat
  constructor
  · rw [area]
    exact ⟨front', rest', upper'.books⟩
  · rw [area, SymmetricArea.perform, List.map_append]
    exact congrArg₂ _ same (congrArg (fun address => [address]) place)

/-- Calls of the image alone keep the area. -/
theorem SymmetricInvariant.of_upper
    (invariant : SymmetricInvariant settings ⟨⟨heap, live⟩, calls, allocations⟩)
    (upper : ∃ front rest, UpperPart settings heap' live'
      (symmetricArea settings calls).blocks front rest) :
    SymmetricInvariant settings ⟨⟨heap', live'⟩, calls ++ [], allocations⟩ := by
  rw [List.append_nil]
  exact ⟨upper, invariant.allocations_eq⟩

/-- Asymmetric data taken from the slot found leaves the symmetric part alone. -/
theorem UpperPart.asymmetric {varSize requested address : Nat}
    (upper : UpperPart settings heap live blocks front rest)
    (atLeastOne : 1 ≤ requested) (rounds : RoundsUp settings requested)
    (fitsBelow : FitsBelow heap varSize) (rounded : varSize = roundAsymmetric settings requested)
    (found : findEmptySlotBelow heap heap.commonSlot varSize = .ok (some slot)) :
    ∃ front rest, UpperPart settings
      ((SharedMemorySlots.takeFromBottom heap slot varSize).books memInfo allocatedList)
      (⟨address, requested, false⟩ :: live) blocks front rest := by
  have enough : 0 < varSize := rounded ▸ Nat.lt_of_lt_of_le atLeastOne (le_roundAsymmetric rounds)
  obtain ⟨fits, below⟩ := upper.arranged.found_below fitsBelow found
  obtain ⟨rest', upper'⟩ := upper.takeFromBottom fits below enough
  refine ⟨front, rest', upper'.books.live_subset ?_⟩
  intro block member isAllocatable
  rcases List.mem_cons.mp member with rfl | old
  · cases isAllocatable
  · exact old

section

variable (invariant : SymmetricInvariant settings ⟨⟨heap, live⟩, calls, allocations⟩)

include invariant

theorem SymmetricInvariant.performs_asymmetricAllocate {varSize : Nat} (atLeastOne : 1 ≤ varSize)
    (stays : (ImageCall.asymmetricAllocate varSize).Stays settings
      ⟨⟨heap, live⟩, calls, allocations⟩)
    (performs : (ImageState.mk ⟨heap, live⟩ calls allocations).perform
      settings (.asymmetricAllocate varSize) = some after) :
    SymmetricInvariant settings after := by
  obtain ⟨front, rest, upper⟩ := invariant.upper
  obtain ⟨rounds, fitsBelow⟩ := stays
  obtain ⟨heapCall, ⟨heap', allocation⟩, isCall, called, rfl⟩ := ImageState.perform_eq_some performs
  cases isCall
  rcases asymmetricAllocate_eq_ok called with
    ⟨rfl, rfl⟩ | ⟨slot, memInfo, found, rfl, rfl⟩
  · exact invariant.of_upper ⟨front, rest, upper⟩
  · exact invariant.of_upper (upper.asymmetric atLeastOne rounds fitsBelow rfl found)

theorem SymmetricInvariant.performs_asymmetricAllocateIfPossible {varSize : Nat}
    (atLeastOne : 1 ≤ varSize)
    (stays : (ImageCall.asymmetricAllocateIfPossible varSize).Stays settings
      ⟨⟨heap, live⟩, calls, allocations⟩)
    (performs : (ImageState.mk ⟨heap, live⟩ calls allocations).perform
      settings (.asymmetricAllocateIfPossible varSize) = some after) :
    SymmetricInvariant settings after := by
  obtain ⟨front, rest, upper⟩ := invariant.upper
  obtain ⟨rounds, fitsBelow⟩ := stays
  obtain ⟨heapCall, ⟨heap', allocation⟩, isCall, called, rfl⟩ := ImageState.perform_eq_some performs
  cases isCall
  rcases asymmetricAllocateIfPossible_eq_ok called with
    ⟨rfl, rfl⟩ | ⟨slot, memInfo, found, rfl, rfl⟩
  · exact invariant.of_upper ⟨front, rest, upper⟩
  · exact invariant.of_upper (upper.asymmetric atLeastOne rounds fitsBelow rfl found)

theorem SymmetricInvariant.performs_deallocate {allocation : Nat}
    (permitted : (ImageCall.deallocate allocation).Permitted settings
      ⟨⟨heap, live⟩, calls, allocations⟩)
    (stays : (ImageCall.deallocate allocation).Stays settings ⟨⟨heap, live⟩, calls, allocations⟩)
    (performs : (ImageState.mk ⟨heap, live⟩ calls allocations).perform
      settings (.deallocate allocation) = some after) :
    SymmetricInvariant settings after := by
  obtain ⟨⟨front, rest, upper⟩, same⟩ := invariant
  obtain ⟨address, isAddress, block, isLive, rfl, isAllocatable⟩ := permitted
  have soundly : DeallocatesSoundly settings heap block.addr := stays block.addr isAddress
  obtain ⟨heapCall, ⟨heap', _⟩, isCall, called, rfl⟩ := ImageState.perform_eq_some performs
  have known : allocations[allocation]?.map HeapCall.deallocate =
      some (.deallocate block.addr) := by
    rw [isAddress]
    rfl
  obtain rfl := Option.some.inj (isCall.symm.trans known)
  obtain ⟨heap', deallocated, isResult⟩ := map_eq_ok.mp called
  cases isResult
  obtain ⟨held, inFront, isFull, place⟩ := upper.allocatable block isLive isAllocatable
  have heldFull : heap.Full held := upper.arranged.full_iff.mpr
    ⟨List.mem_append_left _ inFront, isFull⟩
  obtain ⟨offset, isOffset, offsetPlace⟩ : ∃ offset,
      (symmetricArea settings calls).offsets[allocation]? = some offset ∧
        settings.segmentAddr + offset = block.addr := by
    rw [same, List.getElem?_map] at isAddress
    exact Option.map_eq_some_iff.mp isAddress
  have area : symmetricArea settings
      (calls ++ (ImageCall.deallocate allocation).collective.toList) = _ :=
    symmetricArea_concat
  rcases deallocate_eq_ok deallocated with
    ⟨notFound, _⟩ | ⟨slot, memInfo, list, found, empties, _⟩
  · exact absurd place (upper.arranged.ofFindSlot_none soundly.walked notFound heldFull)
  · obtain ⟨full, placed⟩ := upper.arranged.ofFindSlot soundly.walked found
    obtain rfl : slot = held :=
      upper.arranged.full_injective full heldFull (placed.trans place.symm)
    have booked : UpperPart settings (heap.books memInfo list) live
        (symmetricArea settings calls).blocks front rest := upper.books
    obtain ⟨result, front', rest', emptied, upper'⟩ :=
      booked.emptySlot_above inFront (placed.trans offsetPlace.symm) isFull
        (soundly.emptied slot found).books
    obtain rfl : result = heap' := Except.ok.inj (emptied.symm.trans empties)
    constructor
    · rw [area, SymmetricArea.perform, List.getD_eq_getElem?_getD, isOffset]
      exact ⟨front', rest', placed ▸ upper'⟩
    · rw [area, SymmetricArea.perform]
      exact same

theorem SymmetricInvariant.performs_asymmetricDeallocate {address : Nat}
    (stays : (ImageCall.asymmetricDeallocate address).Stays settings
      ⟨⟨heap, live⟩, calls, allocations⟩)
    (performs : (ImageState.mk ⟨heap, live⟩ calls allocations).perform
      settings (.asymmetricDeallocate address) = some after) :
    SymmetricInvariant settings after := by
  obtain ⟨front, rest, upper⟩ := invariant.upper
  obtain ⟨heapCall, ⟨heap', _⟩, isCall, called, rfl⟩ := ImageState.perform_eq_some performs
  cases isCall
  obtain ⟨heap', deallocated, isResult⟩ := map_eq_ok.mp called
  cases isResult
  have fewer : ∀ block ∈ live.filter fun block => block.addr ≠ address,
      block.allocatable = true → block ∈ live :=
    fun block member _ => List.mem_of_mem_filter member
  rcases asymmetricDeallocate_eq_ok deallocated with
    ⟨outside, rfl⟩ | ⟨slot, memInfo, found, empties⟩
  · exact invariant.of_upper ⟨front, rest, upper.live_subset fewer⟩
  · have inRest : slot ∈ rest ∧ heap.feb slot = true := by
      obtain ⟨full, _⟩ := upper.arranged.ofFindSlotBelow found
      rw [upper.arranged.findSlotBelow_eq] at found
      exact ⟨List.mem_of_find?_eq_some (Except.ok.inj found), full.2⟩
    have booked : UpperPart settings
        (heap.books memInfo heap.allocatedList) live
        (symmetricArea settings calls).blocks front rest := upper.books
    obtain ⟨result, rest', emptied, upper'⟩ := booked.emptySlot_below
      inRest.1 inRest.2 (stays slot found).books
    obtain rfl : result = heap' := Except.ok.inj (emptied.symm.trans empties)
    exact invariant.of_upper ⟨front, rest', upper'.live_subset fewer⟩

end

/-- A call that meets the condition keeps an image and the area together. -/
theorem SymmetricInvariant.perform {before after : ImageState} {call : ImageCall}
    (invariant : SymmetricInvariant settings before) (permitted : call.Permitted settings before)
    (stays : call.Stays settings before) (performs : before.perform settings call = some after) :
    SymmetricInvariant settings after := by
  cases call with
  | allocate varSize dp =>
      exact invariant.performs_allocate permitted.1 stays performs
  | deallocate allocation =>
      exact invariant.performs_deallocate permitted stays performs
  | asymmetricAllocate varSize =>
      exact invariant.performs_asymmetricAllocate permitted.1 stays performs
  | asymmetricAllocateIfPossible varSize =>
      exact invariant.performs_asymmetricAllocateIfPossible permitted.1 stays performs
  | asymmetricDeallocate address =>
      exact invariant.performs_asymmetricDeallocate stays performs

/-- The image returns the offsets of the area. -/
theorem SymmetricInvariant.offsets_eq {state : ImageState}
    (invariant : SymmetricInvariant settings state) :
    state.offsets settings = (symmetricArea settings state.calls).offsets := by
  rw [ImageState.offsets, invariant.allocations_eq, List.map_map]
  conv_rhs => rw [← List.map_id (symmetricArea settings state.calls).offsets]
  apply List.map_congr_left
  intro offset _
  exact Nat.add_sub_cancel_left ..

end Steps

/-! ## Runs -/

theorem getElem?_of_prefix {α : Type} {list list' : List α} {index : Nat}
    {element : α} (continued : list <+: list')
    (known : list[index]? = some element) : list'[index]? = some element := by
  obtain ⟨more, rfl⟩ := continued
  obtain ⟨inside, _⟩ := List.getElem?_eq_some_iff.mp known
  rwa [List.getElem?_append_left inside]

/-- Where both images have served an allocation, they returned one offset. -/
def OffsetsAgree (settings settings' : HeapSettings) (state state' : ImageState) : Prop :=
  ∀ allocation offset offset' : Nat,
    (state.offsets settings)[allocation]? = some offset →
      (state'.offsets settings')[allocation]? = some offset' → offset = offset'

theorem SymmetricInvariant.reached {settings : HeapSettings} {state : ImageState}
    (reached : Reachable (ImageState.Initial settings) (StayingImageStep settings) state) :
    SymmetricInvariant settings state := by
  refine reached.invariant (fun _ initial => initial.invariant) ?_
  rintro before after invariant ⟨call, permitted, stays, performs⟩
  exact invariant.perform permitted stays performs

/--
Two images in the middle of one program return the same offsets, as long as
no call of either reaches past its common slot.
-/
theorem offsets_agree_of_staying_calls {settings settings' : HeapSettings}
    (same : settings.SameLayout settings') {program : List CollectiveCall}
    {state state' : ImageState}
    (reached : Reachable (ImageState.Initial settings)
      (StayingImageStep settings) state)
    (reached' : Reachable (ImageState.Initial settings')
      (StayingImageStep settings') state')
    (within : state.calls <+: program) (within' : state'.calls <+: program) :
    OffsetsAgree settings settings' state state' := by
  intro allocation offset offset' isOffset isOffset'
  rw [(SymmetricInvariant.reached reached).offsets_eq] at isOffset
  rw [(SymmetricInvariant.reached reached').offsets_eq,
    ← symmetricArea_sameLayout same] at isOffset'
  have known := getElem?_of_prefix (offsets_grow within) isOffset
  have known' := getElem?_of_prefix (offsets_grow within') isOffset'
  exact Option.some.inj (known.symm.trans known')

/-! ## Fixed runs -/

instance (settings : HeapSettings) (state : ImageState) (call : ImageCall) :
    Decidable (call.Permitted settings state) :=
  match call with
  | .allocate _ _ => inferInstanceAs (Decidable (_ ∧ _))
  | .asymmetricAllocate _ => inferInstanceAs (Decidable (_ ∧ _))
  | .asymmetricAllocateIfPossible _ => inferInstanceAs (Decidable (_ ∧ _))
  | .deallocate allocation =>
      match isAddress : state.allocations[allocation]? with
      | none => .isFalse (by
          rintro ⟨address, known, _⟩
          rw [isAddress] at known
          cases known)
      | some address =>
          decidable_of_iff
            (∃ block ∈ state.heapState.live,
              block.addr = address ∧ block.allocatable = true) (by
            constructor
            · exact fun isLive => ⟨address, isAddress, isLive⟩
            · rintro ⟨other, known, isLive⟩
              rw [isAddress] at known
              cases known
              exact isLive)
  | .asymmetricDeallocate _ =>
      inferInstanceAs (Decidable (HeapCall.Permitted _ _ _ ∧ ∀ block ∈ state.heapState.live, _ → _))

/-- Perform a call if it is permitted and succeeds. -/
def ImageState.move (settings : HeapSettings) (state : ImageState)
    (call : ImageCall) : Option ImageState :=
  if call.Permitted settings state then
    state.perform settings call
  else
    none

theorem ImageState.step_of_move {settings : HeapSettings}
    (before : ImageState) (call : ImageCall) (after : ImageState)
    (moved : before.move settings call = some after) :
    ImageStep settings before after := by
  unfold ImageState.move at moved
  split at moved
  · rename_i permitted
    exact ⟨call, permitted, moved⟩
  · cases moved

/-- An image on the small heap. -/
def smallImage : ImageState where
  heapState := smallHeap
  calls := []
  allocations := []

theorem smallImage_initial : smallImage.Initial smallSegment :=
  ⟨smallHeap_initial, rfl, rfl⟩

/-- A coarray of 16 bytes, after asymmetric data or without it. -/
theorem smallImage_allocates :
    (smallImage.perform smallSegment (.allocate 16 none)).map
        (fun state => (state.calls, state.allocations)) =
      some ([.allocate 16], [4096]) ∧
    (smallImage.perform smallSegment (.asymmetricAllocate 16)).bind (fun state =>
          (state.perform smallSegment (.allocate 16 none)).map fun last =>
            ((state.heapState.heap.allocated 0,
              fitsEmpty state.heapState.heap 16 0,
              state.heapState.heap.commonSlot), last.calls,
              last.allocations)) =
      some ((true, true, 0), [.allocate 16], [4096]) := by
  decide

theorem offsets_agree_of_staying_calls_asymmetric :
    ∃ state state' : ImageState,
      state.offsets smallSegment = [0] ∧ state'.offsets smallSegment = [0] ∧
        OffsetsAgree smallSegment smallSegment state state' := by
  obtain ⟨alone, behind⟩ := smallImage_allocates
  obtain ⟨state, ran, facts⟩ := Option.map_eq_some_iff.mp alone
  obtain ⟨first, ranFirst, rest⟩ := Option.bind_eq_some_iff.mp behind
  obtain ⟨state', ran', facts'⟩ := Option.map_eq_some_iff.mp rest
  simp only [Prod.mk.injEq] at facts facts'
  obtain ⟨calls, allocations⟩ := facts
  obtain ⟨⟨listed, fits, common⟩, calls', allocations'⟩ := facts'
  have rounds : RoundsUp smallSegment 16 := fun unaligned => absurd rfl unaligned
  have start : Reachable (ImageState.Initial smallSegment)
      (StayingImageStep smallSegment) smallImage := .start smallImage_initial
  have fitsStart : FitsAbove smallImage.heapState.heap 16 := ⟨0, by decide, by decide, by decide⟩
  have fitsFirst : FitsAbove first.heapState.heap 16 :=
    ⟨0, listed, fits, Nat.le_of_eq (congrArg _ common.symm)⟩
  have fitsBelow : FitsBelow smallImage.heapState.heap 16 :=
    fun _ _ _ => ⟨0, by decide, by decide, by decide⟩
  have reached := start.tail
    ⟨.allocate 16 none, by decide, ⟨rounds, fitsStart⟩, ran⟩
  have reachedFirst := start.tail
    ⟨.asymmetricAllocate 16, by decide, ⟨rounds, fitsBelow⟩,
      ranFirst⟩
  have reached' := reachedFirst.tail
    ⟨.allocate 16 none, ⟨by decide, by decide⟩,
      ⟨rounds, fitsFirst⟩, ran'⟩
  have within : state.calls <+: [.allocate 16] := calls ▸ List.prefix_refl _
  have within' : state'.calls <+: [.allocate 16] := calls' ▸ List.prefix_refl _
  refine ⟨state, state', ?_, ?_, offsets_agree_of_staying_calls ⟨rfl, rfl⟩
    reached reached' within within'⟩
  · rw [ImageState.offsets, allocations]
    rfl
  · rw [ImageState.offsets, allocations']
    rfl

/-- An asymmetric hole, which the coarray of the second image does not take. -/
def holeCalls : List ImageCall :=
  [.asymmetricAllocate 32, .asymmetricAllocate 16,
    .asymmetricDeallocate 4128, .allocate 32 none]

theorem holeCalls_offsets :
    (runAll (ImageState.move smallSegment) smallImage holeCalls).map
        (fun state => (state.calls, state.offsets smallSegment)) =
      some ([.allocate 32], [32]) ∧
    (runAll (ImageState.move smallSegment) smallImage
        [.allocate 32 none]).map
        (fun state => (state.calls, state.offsets smallSegment)) =
      some ([.allocate 32], [0]) := by
  decide

/-- Two images of one program get different offsets for one coarray. -/
theorem offsets_not_agree :
    ¬ ∀ (settings settings' : HeapSettings) (program : List CollectiveCall)
        (state state' : ImageState),
      settings.SameLayout settings' →
      Reachable (ImageState.Initial settings) (ImageStep settings) state →
      Reachable (ImageState.Initial settings') (ImageStep settings') state' →
      state.calls <+: program → state'.calls <+: program →
        OffsetsAgree settings settings' state state' := by
  intro agree
  obtain ⟨intoHole, atTop⟩ := holeCalls_offsets
  obtain ⟨state, ran, facts⟩ := Option.map_eq_some_iff.mp intoHole
  obtain ⟨state', ran', facts'⟩ := Option.map_eq_some_iff.mp atTop
  simp only [Prod.mk.injEq] at facts facts'
  have reached := Reachable.runAll ImageState.step_of_move
    (.start smallImage_initial) ran
  have reached' := Reachable.runAll ImageState.step_of_move
    (.start smallImage_initial) ran'
  have within : state.calls <+: [.allocate 32] := facts.1 ▸ List.prefix_refl _
  have within' : state'.calls <+: [.allocate 32] := facts'.1 ▸ List.prefix_refl _
  have same := agree smallSegment smallSegment [.allocate 32] state state'
    ⟨rfl, rfl⟩ reached reached' within within' 0 32 0
  rw [facts.2, facts'.2] at same
  cases same rfl rfl

end OpenUH.Libcaf.SharedMemorySlots
