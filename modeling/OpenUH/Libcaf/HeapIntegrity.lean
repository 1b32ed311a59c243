import OpenUH.Libcaf.HeapSafety

/-!
# Integrity of the two lists

The links between the slots and the chain of the empty slots, over whole runs:
they stay intact where no slot with a successor is split from the top and no
isolated slot is emptied between two empty ones.  Once every block has been
deallocated, a single empty slot is left.
-/

namespace OpenUH.Libcaf.SharedMemorySlots

open Foundation.Fallible
open Foundation.Succession
open Foundation.Tiling
open Foundation.Transition

/-- Two links are inverse to each other on the slots of a list. -/
def MutuallyInverse (forward backward : Nat → Option Nat) (slots : List Nat) : Prop :=
  ∀ slot ∈ slots, ∀ other ∈ slots,
    forward slot = some other ↔ backward other = some slot

/-- Both lists are as the comments of `alloc.h` and `alloc.c` describe them. -/
structure Integrity (settings : HeapSettings) (heap : Heap)
    (slots : List Nat) : Prop where
  nodup : slots.Nodup
  listed : ∀ slot, heap.allocated slot = true ↔ slot ∈ slots
  next : ∀ slot ∈ slots, heap.next slot = after slots slot
  prev : ∀ slot ∈ slots, heap.prev slot = before slots slot
  inverse : MutuallyInverse heap.next heap.prev slots
  tiles : Tiles heap.addr heap.size settings.segmentAddr settings.segmentEnd
    slots
  separated : ∀ slot ∈ slots, ∀ other ∈ slots,
    heap.next slot = some other → heap.feb slot = true ∨ heap.feb other = true
  nextEmpty : ∀ slot ∈ slots, heap.nextEmpty slot =
    if heap.feb slot then none else after (emptySlots heap slots) slot
  prevEmpty : ∀ slot ∈ slots, heap.prevEmpty slot =
    if heap.feb slot then none else before (emptySlots heap slots) slot
  emptyInverse : MutuallyInverse heap.nextEmpty heap.prevEmpty slots
  common : heap.commonSlot ∈ emptySlots heap slots

/-- The heap as `comm_init` left it: one empty slot of the whole segment. -/
structure Restored (settings : HeapSettings) (heap : Heap) : Prop where
  only : ∀ slot, heap.allocated slot = true ↔ slot = heap.commonSlot
  isEmpty : heap.feb heap.commonSlot = false
  addr : heap.addr heap.commonSlot = settings.segmentAddr
  size : heap.size heap.commonSlot = settings.segmentSize
  next : heap.next heap.commonSlot = none
  prev : heap.prev heap.commonSlot = none
  nextEmpty : heap.nextEmpty heap.commonSlot = none
  prevEmpty : heap.prevEmpty heap.commonSlot = none

/-- A size that fits the segment can be allocated, in every way there is. -/
def Allocates (settings : HeapSettings) (heap : Heap) : Prop :=
  ∀ varSize, RoundsUp settings varSize →
    roundAsymmetric settings varSize ≤ settings.segmentSize →
      (∀ dp, ∃ heap' addr, allocatableAllocate settings heap varSize dp =
        .ok (heap', .inSegment addr)) ∧
      (heap.memInfo ≠ none →
        (∃ result, asymmetricAllocate settings heap varSize = .ok result) ∧
        ∃ heap' addr, asymmetricAllocateIfPossible settings heap varSize =
          .ok (heap', .inSegment addr))

/-- What a state keeps intact, and what it holds when nothing is live. -/
structure HeapState.Intact (settings : HeapSettings) (state : HeapState) :
    Prop where
  integrity : ∃ slots, Integrity settings state.heap slots
  restored : state.live = [] → Restored settings state.heap ∧ Allocates settings state.heap

/-! ## The calls of a program -/

/-- Allocatable data is not freed as asymmetric data. -/
def HeapCall.Matches (live : List LiveBlock) : HeapCall → Prop
  | .asymmetricDeallocate address =>
      ∀ block ∈ live, block.addr = address → block.allocatable = false
  | _ => True

/-- One call of a program that frees each block as what it is. -/
def MatchedHeapStep (settings : HeapSettings) (before after : HeapState) : Prop :=
  ∃ call : HeapCall, call.Permitted settings before.live ∧
    call.Matches before.live ∧ before.perform settings call = .ok after

/-- The condition on a call, in the state before it. -/
def HeapCall.KeepsLists (settings : HeapSettings) (heap : Heap) :
    HeapCall → Prop
  | .allocate varSize dp =>
      RoundsUp settings varSize ∧ SplitsAtEnd settings heap (.allocate varSize dp)
  | .asymmetricAllocate varSize => RoundsUp settings varSize
  | .asymmetricAllocateIfPossible varSize => RoundsUp settings varSize
  | .deallocate address => ∀ slot, heap.Full slot →
      heap.addr slot = address → Isolated (clearFeb heap slot) slot → OneSided heap slot
  | .asymmetricDeallocate address => ∀ slot, heap.Full slot →
      heap.addr slot = address → Isolated (clearFeb heap slot) slot → OneSided heap slot

/-- One matched call that meets the condition. -/
def IntactHeapStep (settings : HeapSettings) (before after : HeapState) : Prop :=
  ∃ call : HeapCall, call.Permitted settings before.live ∧
    call.Matches before.live ∧ call.KeepsLists settings before.heap ∧
    before.perform settings call = .ok after

/-! ## Exact arrangements have integrity -/

section Exact

variable {settings : HeapSettings} {heap : Heap} {slots : List Nat}

theorem HeapCall.KeepsLists.sound {call : HeapCall} (arranged : Arranged settings True heap slots)
    (keeps : call.KeepsLists settings heap) : call.Sound settings heap := by
  cases call with
  | allocate varSize dp => exact keeps.1
  | asymmetricAllocate | asymmetricAllocateIfPossible => exact keeps
  | deallocate address =>
      have walked : ∀ other ∈ passed heap.prev
          (stopsAbove settings heap address) heap.slotCount
          (some heap.commonSlot), PrevRight heap other :=
        fun other member => arranged.walked_of_exact member
      refine ⟨walked, ?_⟩
      intro slot found
      obtain ⟨full, place⟩ := arranged.ofFindSlot walked found
      exact arranged.emptiesSoundly_of_exact full (keeps slot full place)
  | asymmetricDeallocate address =>
      intro slot found
      obtain ⟨full, place⟩ := arranged.ofFindSlotBelow found
      exact arranged.emptiesSoundly_of_exact full (keeps slot full place)

theorem HeapCall.KeepsLists.splitsAtEnd {call : HeapCall} (keeps : call.KeepsLists settings heap) :
    SplitsAtEnd settings heap call := by
  cases call with
  | allocate varSize dp => exact keeps.2
  | asymmetricAllocate | asymmetricAllocateIfPossible | deallocate | asymmetricDeallocate => trivial

theorem Arranged.integrity (arranged : Arranged settings True heap slots) :
    Integrity settings heap slots where
  nodup := arranged.nodup
  listed := arranged.listed
  next slot member := arranged.next slot member trivial
  prev slot member := arranged.prev slot member (Or.inl trivial)
  inverse := by
    intro slot member other member'
    rw [arranged.next slot member trivial,
      arranged.prev other member' (Or.inl trivial),
      before_eq_some_iff arranged.nodup]
  tiles := arranged.tiles
  separated := by
    intro slot member other _ links
    obtain ⟨front, rest, rfl⟩ := List.append_of_mem member
    rw [arranged.next_middle] at links
    obtain ⟨behind, rfl⟩ := List.head?_eq_some_iff.mp links
    have separated := arranged.separated
    rw [List.isChain_append, List.isChain_cons_cons] at separated
    exact separated.2.1.1
  nextEmpty := by
    intro slot member
    split <;> rename_i full
    · exact (arranged.unchained slot member full).1
    · exact arranged.nextEmpty slot
        (Arranged.mem_emptySlots.mpr ⟨member, by simpa using full⟩) trivial
  prevEmpty := by
    intro slot member
    split <;> rename_i full
    · exact (arranged.unchained slot member full).2
    · exact arranged.prevEmpty slot
        (Arranged.mem_emptySlots.mpr ⟨member, by simpa using full⟩) trivial
  emptyInverse := by
    intro slot member other member'
    have nodup := arranged.nodup_emptySlots
    have inverse := @before_eq_some_iff _ _ _ slot other nodup
    constructor
    · intro links
      have notFull : heap.feb slot = false := by
        by_contra full
        rw [(arranged.unchained slot member (by simpa using full)).1] at links
        cases links
      rw [arranged.nextEmpty slot
        (Arranged.mem_emptySlots.mpr ⟨member, notFull⟩) trivial,
        ← inverse] at links
      rwa [arranged.prevEmpty other (List.mem_reverse.mp (mem_of_after_eq_some links)) trivial]
    · intro links
      have notFull : heap.feb other = false := by
        by_contra full
        rw [(arranged.unchained other member' (by simpa using full)).2]
          at links
        cases links
      rw [arranged.prevEmpty other
        (Arranged.mem_emptySlots.mpr ⟨member', notFull⟩) trivial,
        inverse] at links
      rwa [arranged.nextEmpty slot (mem_of_after_eq_some links) trivial]
  common := arranged.common_mem_emptySlots

/-- Without a full slot there is one slot only. -/
theorem Arranged.slots_eq_common (arranged : Arranged settings True heap slots)
    (noneFull : ∀ slot, ¬ heap.Full slot) : slots = [heap.commonSlot] := by
  obtain ⟨front, rest, rfl⟩ := List.append_of_mem arranged.commonListed
  obtain ⟨fullPrev, fullNext⟩ := arranged.neighbours_full arranged.commonEmpty
  have noPrev : front.getLast? = none := by
    by_contra isSome
    obtain ⟨prevSlot, isLast⟩ := Option.ne_none_iff_exists'.mp isSome
    exact noneFull prevSlot (arranged.full_iff.mpr
      ⟨by simp [List.mem_of_getLast? isLast], fullPrev prevSlot isLast⟩)
  have noNext : rest.head? = none := by
    by_contra isSome
    obtain ⟨nextSlot, isFirst⟩ := Option.ne_none_iff_exists'.mp isSome
    exact noneFull nextSlot (arranged.full_iff.mpr
      ⟨by simp [List.mem_of_head? isFirst], fullNext nextSlot isFirst⟩)
  rw [List.getLast?_eq_none_iff.mp noPrev, List.head?_eq_none_iff.mp noNext]
  rfl

theorem Arranged.isRestored (arranged : Arranged settings True heap [heap.commonSlot]) :
    Restored settings heap := by
  have alone : Arranged settings True heap ([] ++ heap.commonSlot :: []) := arranged
  have isEmpty := arranged.commonEmpty
  constructor
  · intro slot
    rw [arranged.listed, List.mem_singleton]
  · exact isEmpty
  · exact arranged.tiles.1
  · have spans := arranged.tiles.2
    exact Nat.add_left_cancel spans
  · exact alone.next_middle
  · exact alone.prev_middle_of_empty isEmpty
  · exact alone.nextEmpty_middle isEmpty
  · exact alone.prevEmpty_middle isEmpty

theorem Arranged.allocates (arranged : Arranged settings True heap [heap.commonSlot])
    (noEntries : heap.allocatedList = []) : Allocates settings heap := by
  intro varSize _ enough
  have fits : fitsEmpty heap (roundAsymmetric settings varSize) heap.commonSlot = true := by
    rw [Arranged.fitsEmpty_iff, arranged.isRestored.size]
    exact ⟨arranged.commonEmpty, enough⟩
  have foundAbove := arranged.findEmptySlotAbove_eq (roundAsymmetric settings varSize)
  have foundBelow := arranged.findEmptySlotBelow_eq (roundAsymmetric settings varSize)
  rw [List.find?_cons_of_pos fits] at foundAbove
  rw [List.reverse_singleton, List.find?_cons_of_pos fits] at foundBelow
  constructor
  · intro dp
    unfold allocatableAllocate
    dsimp only
    rw [roundAllocatable_eq, foundAbove, Except.bind]
    dsimp only
    rw [takeFromTop_books, noEntries]
    exact ⟨_, _, rfl⟩
  · intro hasInfo
    obtain ⟨info, isInfo⟩ := Option.ne_none_iff_exists'.mp hasInfo
    constructor
    · unfold asymmetricAllocate
      dsimp only
      rw [foundBelow, Except.bind]
      simp only [isInfo, takeAsymmetric]
      split
      · exact ⟨_, rfl⟩
      · exact ⟨_, rfl⟩
    · unfold asymmetricAllocateIfPossible
      dsimp only
      rw [foundBelow, Except.bind]
      simp only [isInfo, takeAsymmetric]
      exact ⟨_, _, rfl⟩

end Exact

/-! ## The list of allocated addresses -/

/-- Every entry of the list belongs to a live block of allocatable data. -/
def Booked (heap : Heap) (live : List LiveBlock) : Prop :=
  ∀ entry ∈ heap.allocatedList, ∃ block ∈ live,
    block.addr = entry.addr ∧ block.allocatable = true

theorem emptySlot_allocatedList {heap heap' : Heap} {slot : Nat}
    (empties : emptySlot heap slot = .ok heap') :
    heap'.allocatedList = heap.allocatedList := by
  unfold emptySlot at empties
  dsimp only at empties
  split at empties
  · cases empties
    rfl
  · cases empties
    rfl
  · cases empties
    rfl
  · unfold emptyIsolated at empties
    obtain ⟨ahead, _, linked⟩ := bind_eq_ok.mp empties
    cases ahead with
    | some nextSlot =>
        cases linked
        rfl
    | none =>
        obtain ⟨behind, _, same⟩ := map_eq_ok.mp linked
        cases behind with
        | some | none =>
            cases same
            rfl

section Booked

variable {settings : HeapSettings} {heap heap' : Heap} {live : List LiveBlock}

/-- A block more is live. -/
theorem Booked.cons {block : LiveBlock} (booked : Booked heap live)
    (same : heap'.allocatedList = heap.allocatedList) :
    Booked heap' (block :: live) := by
  intro entry member
  rw [same] at member
  obtain ⟨old, isLive, place⟩ := booked entry member
  exact ⟨old, List.mem_cons_of_mem _ isLive, place⟩

/-- A block that no entry belongs to goes away. -/
theorem Booked.filter {address : Nat} (booked : Booked heap live)
    (entries : ∀ entry ∈ heap'.allocatedList, entry ∈ heap.allocatedList)
    (apart : ∀ entry ∈ heap'.allocatedList, entry.addr ≠ address) :
    Booked heap' (live.filter fun block => block.addr ≠ address) := by
  intro entry member
  obtain ⟨block, isLive, place, allocatable⟩ := booked entry (entries entry member)
  refine ⟨block, List.mem_filter.mpr ⟨isLive, ?_⟩, place, allocatable⟩
  exact decide_eq_true (place ▸ apart entry member)

theorem Booked.perform_allocate {varSize : Nat} {dp : Option Nat}
    {after : HeapState} (booked : Booked heap live)
    (performed : (HeapState.mk heap live).perform settings (.allocate varSize dp) = .ok after) :
    Booked after.heap after.live := by
  obtain ⟨⟨result, allocation⟩, called, rfl⟩ := map_eq_ok.mp performed
  obtain ⟨slot, memInfo, list, _, rfl, rfl, entries⟩ := allocatableAllocate_eq_ok called
  intro entry member
  rcases entries entry member with new | ⟨old, isOld, same⟩
  · exact ⟨_, List.mem_cons_self, new.symm, rfl⟩
  · obtain ⟨block, isLive, place, allocatable⟩ := booked old isOld
    exact ⟨block, List.mem_cons_of_mem _ isLive, place.trans same, allocatable⟩

theorem Booked.perform_deallocate {address : Nat} {after : HeapState}
    (invariant : HeapInvariant settings True ⟨heap, live⟩) (booked : Booked heap live)
    (isLive : ∃ block ∈ live, block.addr = address)
    (performed : (HeapState.mk heap live).perform settings (.deallocate address) = .ok after) :
    Booked after.heap after.live := by
  obtain ⟨⟨result, allocation⟩, called, rfl⟩ := map_eq_ok.mp performed
  obtain ⟨result, deallocated, same⟩ := map_eq_ok.mp called
  cases same
  obtain ⟨slots, arranged⟩ := invariant.arranged
  have walked : ∀ other ∈ passed heap.prev
      (stopsAbove settings heap address) heap.slotCount
      (some heap.commonSlot), PrevRight heap other :=
    fun other member => arranged.walked_of_exact member
  rcases deallocate_eq_ok deallocated with
    ⟨notFound, rfl⟩ | ⟨slot, memInfo, list, found, empties, entries⟩
  · obtain ⟨block, member, rfl⟩ := isLive
    obtain ⟨slot, full, place, _⟩ := invariant.backed.liveFull block member
    exact absurd place (arranged.ofFindSlot_none walked notFound full)
  · obtain ⟨_, rfl⟩ := arranged.ofFindSlot walked found
    have sameList : result.allocatedList = list := emptySlot_allocatedList empties
    apply booked.filter
    · intro entry member
      rw [sameList] at member
      exact (entries entry member).1
    · intro entry member
      rw [sameList] at member
      exact (entries entry member).2

theorem Booked.perform_asymmetricDeallocate {address : Nat}
    {after : HeapState} (booked : Booked heap live)
    (isMatched : (HeapCall.asymmetricDeallocate address).Matches live)
    (performed : (HeapState.mk heap live).perform settings
      (.asymmetricDeallocate address) = .ok after) :
    Booked after.heap after.live := by
  obtain ⟨⟨result, allocation⟩, called, rfl⟩ := map_eq_ok.mp performed
  obtain ⟨result, deallocated, same⟩ := map_eq_ok.mp called
  cases same
  have sameList : result.allocatedList = heap.allocatedList := by
    rcases asymmetricDeallocate_eq_ok deallocated with
      ⟨_, rfl⟩ | ⟨slot, memInfo, _, empties⟩
    · rfl
    · have sameList := emptySlot_allocatedList empties
      exact sameList
  apply booked.filter
  · intro entry member
    rwa [sameList] at member
  · intro entry member
    rw [sameList] at member
    obtain ⟨block, isLive, place, allocatable⟩ := booked entry member
    intro here
    rw [isMatched block isLive (place.trans here)] at allocatable
    cases allocatable

theorem Booked.perform {before after : HeapState} {call : HeapCall}
    (invariant : HeapInvariant settings True before) (booked : Booked before.heap before.live)
    (permitted : call.Permitted settings before.live) (isMatched : call.Matches before.live)
    (performed : before.perform settings call = .ok after) :
    Booked after.heap after.live := by
  cases call with
  | allocate varSize dp => exact booked.perform_allocate performed
  | asymmetricAllocate varSize =>
      obtain ⟨⟨heap', allocation⟩, called, rfl⟩ := map_eq_ok.mp performed
      rcases asymmetricAllocate_eq_ok called with
        ⟨rfl, rfl⟩ | ⟨slot, memInfo, _, rfl, rfl⟩
      · exact booked
      · exact booked.cons rfl
  | asymmetricAllocateIfPossible varSize =>
      obtain ⟨⟨heap', allocation⟩, called, rfl⟩ := map_eq_ok.mp performed
      rcases asymmetricAllocateIfPossible_eq_ok called with
        ⟨rfl, rfl⟩ | ⟨slot, memInfo, _, rfl, rfl⟩
      · exact booked
      · exact booked.cons rfl
  | deallocate address =>
      exact Booked.perform_deallocate invariant booked permitted performed
  | asymmetricDeallocate address =>
      exact booked.perform_asymmetricDeallocate isMatched performed

end Booked

/-! ## Runs -/

/-- The heap is arranged without exception, and the list of addresses is right. -/
structure IntactInvariant (settings : HeapSettings) (state : HeapState) :
    Prop where
  exact : HeapInvariant settings True state
  booked : Booked state.heap state.live

theorem IntactInvariant.intact {settings : HeapSettings} {state : HeapState}
    (invariant : IntactInvariant settings state) : state.Intact settings := by
  obtain ⟨slots, arranged⟩ := invariant.exact.arranged
  refine ⟨⟨slots, arranged.integrity⟩, ?_⟩
  intro noneLive
  have noneFull : ∀ slot, ¬ state.heap.Full slot := by
    intro slot full
    obtain ⟨block, member, _⟩ := invariant.exact.backed.fullLive slot full
    rw [noneLive] at member
    cases member
  have noEntries : state.heap.allocatedList = [] := by
    refine List.eq_nil_iff_forall_not_mem.mpr fun entry member => ?_
    obtain ⟨block, isLive, _⟩ := invariant.booked entry member
    rw [noneLive] at isLive
    cases isLive
  have alone := arranged.slots_eq_common noneFull
  rw [alone] at arranged
  exact ⟨arranged.isRestored, arranged.allocates noEntries⟩

/--
In a run whose top splits are made at the end of the list, and whose isolated
slots are emptied at an end of the chain, both lists stay intact; with every
block deallocated, one empty slot of the whole segment is left.
-/
theorem heap_intact_of_kept_lists (settings : HeapSettings) {state : HeapState}
    (reached : Reachable (HeapState.Initial settings)
      (IntactHeapStep settings) state) :
    state.Intact settings := by
  have invariant : IntactInvariant settings state := by
    refine reached.invariant ?_ ?_
    · intro state initial
      refine ⟨initial.invariant, ?_⟩
      obtain ⟨memInfo, rfl⟩ := initial
      intro entry member
      cases member
    · rintro before after invariant ⟨call, permitted, isMatched, keeps, performed⟩
      obtain ⟨slots, arranged⟩ := invariant.exact.arranged
      exact ⟨invariant.exact.perform permitted (keeps.sound arranged)
        (fun _ => keeps.splitsAtEnd) performed,
        Booked.perform invariant.exact invariant.booked permitted isMatched
          performed⟩
  exact invariant.intact

/-- What the deallocation of the first block meets, and what it leaves. -/
theorem smallHeap_allocatable :
    ((smallHeap.perform smallSegment (.allocate 16 none)).toOption.map
      fun state =>
        ((state.heap.allocated 0, state.heap.feb 0, state.heap.addr 0),
          emptyNeighbour (clearFeb state.heap 0) (state.heap.next 0),
          state.live,
          (state.perform smallSegment (.deallocate 4096)).toOption.map HeapState.live)) =
      some ((true, true, 4096), some 1, [⟨4096, 16, true⟩], some []) := by
  decide

/-- A run that allocates the block at the top and frees it again. -/
theorem smallHeap_restored :
    ∃ state, Reachable (HeapState.Initial smallSegment)
        (IntactHeapStep smallSegment) state ∧ state.live = [] := by
  obtain ⟨first, ran, facts⟩ := Option.map_eq_some_iff.mp smallHeap_allocatable
  simp only [Prod.mk.injEq] at facts
  obtain ⟨⟨allocated, isFull, place⟩, neighbour, live, freed⟩ := facts
  obtain ⟨second, ranAgain, noneLive⟩ := Option.map_eq_some_iff.mp freed
  have performed := eq_ok_of_toOption ran
  have permitted : (HeapCall.allocate 16 none).Permitted smallSegment
      smallHeap.live := by decide
  have keeps : (HeapCall.allocate 16 none).KeepsLists smallSegment
      smallHeap.heap :=
    ⟨fun unaligned => absurd rfl unaligned, fun slot _ => Or.inr rfl⟩
  have invariant : HeapInvariant smallSegment True first :=
    smallHeap_initial.invariant.perform permitted keeps.1 (fun _ => keeps.splitsAtEnd) performed
  obtain ⟨slots, arranged⟩ := invariant.arranged
  have keepsAgain : (HeapCall.deallocate 4096).KeepsLists smallSegment
      first.heap := by
    intro slot full here isolated
    have same : slot = 0 := arranged.full_injective full ⟨allocated, isFull⟩ (here.trans place.symm)
    rw [same] at isolated
    cases neighbour.symm.trans isolated.2
  have permittedAgain : (HeapCall.deallocate 4096).Permitted smallSegment
      first.live := by
    rw [live]
    decide
  refine ⟨second, ?_, noneLive⟩
  exact .tail
    (.tail (.start smallHeap_initial) ⟨.allocate 16 none, permitted, trivial, keeps, performed⟩)
    ⟨.deallocate 4096, permittedAgain, trivial, keepsAgain, eq_ok_of_toOption ranAgain⟩

theorem heap_intact_of_kept_lists_restored :
    ∃ state : HeapState, state.live = [] ∧ state.Intact smallSegment := by
  obtain ⟨state, reached, noneLive⟩ := smallHeap_restored
  exact ⟨state, noneLive, heap_intact_of_kept_lists smallSegment reached⟩

/-- A slot in front of an asymmetric block, split from the top. -/
theorem smallHeap_topSplit :
    ((smallHeap.perform smallSegment (.asymmetricAllocate 16)).toOption.map
      fun state =>
        (state.perform smallSegment (.allocate 16 none)).toOption.map
          fun state =>
            (state.heap.allocated 1, state.heap.allocated 2,
              state.heap.next 2, state.heap.prev 1)) =
      some (some (true, true, some 1, some 0)) := by
  decide

/-- The link back from the asymmetric block names the split slot still. -/
theorem heap_not_intact :
    ¬ ∀ (settings : HeapSettings) (state : HeapState),
      Reachable (HeapState.Initial settings) (MatchedHeapStep settings)
          state →
        state.Intact settings := by
  intro intact
  obtain ⟨first, ran, second⟩ := Option.map_eq_some_iff.mp smallHeap_topSplit
  obtain ⟨last, ranAgain, links⟩ := Option.map_eq_some_iff.mp second
  simp only [Prod.mk.injEq] at links
  obtain ⟨listed, listed', next, prev⟩ := links
  have reached : Reachable (HeapState.Initial smallSegment)
      (MatchedHeapStep smallSegment) last :=
    .tail
      (.tail (.start smallHeap_initial)
        ⟨.asymmetricAllocate 16, by decide, trivial, eq_ok_of_toOption ran⟩)
      ⟨.allocate 16 none, ⟨by decide, by decide⟩, trivial,
        eq_ok_of_toOption ranAgain⟩
  obtain ⟨slots, integrity⟩ := (intact smallSegment last reached).integrity
  have inverse := integrity.inverse 2 ((integrity.listed 2).mp listed')
    1 ((integrity.listed 1).mp listed)
  rw [inverse, prev] at next
  cases next

end OpenUH.Libcaf.SharedMemorySlots
