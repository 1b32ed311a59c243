import OpenUH.Libcaf.HeapSteps

/-!
# The calls into the heap

What `empty_shared_memory_slot` does to an arranged heap, and with it each
allocation and deallocation: which slot is taken or freed, and that the heap
is arranged afterwards.
-/

namespace OpenUH.Libcaf.SharedMemorySlots

open Foundation.Fallible
open Foundation.Succession
open Foundation.Tiling

/-- The slots whose link to the previous slot the backward search follows. -/
def searchedBackward (heap : Heap) (slot : Nat) : List Nat :=
  passed heap.prev (fun other => !heap.feb other) heap.slotCount
    (heap.prev slot)

/-- No empty neighbour is found at the slot. -/
def Isolated (heap : Heap) (slot : Nat) : Prop :=
  emptyNeighbour heap (heap.prev slot) = none ∧ emptyNeighbour heap (heap.next slot) = none

/-- All empty slots lie on one side of the slot. -/
def OneSided (heap : Heap) (slot : Nat) : Prop :=
  (∀ other, heap.allocated other = true → heap.feb other = false →
      heap.addr slot ≤ heap.addr other) ∨
    ∀ other, heap.allocated other = true → heap.feb other = false → heap.addr other ≤ heap.addr slot

/-- The links that emptying the slot relies on are right. -/
structure EmptiesSoundly (heap : Heap) (slot : Nat) : Prop where
  right : PrevRight heap slot
  searched : Isolated (clearFeb heap slot) slot →
    heap.addr heap.commonSlot < heap.addr slot →
      ∀ other ∈ searchedBackward (clearFeb heap slot) slot,
        PrevRight heap other
  oneSided : Isolated (clearFeb heap slot) slot → OneSided heap slot

namespace Arranged

variable {settings : HeapSettings} {exact : Prop} {heap : Heap}
  {front rest slots : List Nat} {slot : Nat}

/-! ## Searching for an empty slot -/

theorem head?_emptySlots (list : List Nat) :
    (emptySlots heap list).head? = list.find? fun other => !heap.feb other :=
  List.head?_filter ..

theorem getLast?_emptySlots (list : List Nat) :
    (emptySlots heap list).getLast? = list.reverse.find? fun other => !heap.feb other := by
  rw [← List.head?_reverse, emptySlots_reverse, head?_emptySlots]

theorem walkFind_next (arranged : Arranged settings exact heap (front ++ slot :: rest))
    (test : Nat → Bool) :
    walkFind heap.next test heap.slotCount (heap.next slot) = .done (rest.find? test) := by
  have split : front ++ slot :: rest = (front ++ [slot]) ++ rest := by simp
  have enough : rest.length ≤ heap.slotCount := by
    have bound := arranged.length_le
    simp only [List.length_append, List.length_cons] at bound
    omega
  rw [arranged.next_middle]
  apply walkFind_eq_of_follows arranged.nodup _ split enough
  intro other member
  exact arranged.next other member trivial

theorem walkFind_prev (arranged : Arranged settings exact heap (front ++ slot :: rest))
    (test : Nat → Bool) (right : PrevRight heap slot)
    (searched : ∀ other ∈ passed heap.prev test heap.slotCount
      (heap.prev slot), PrevRight heap other) :
    walkFind heap.prev test heap.slotCount (heap.prev slot) = .done (front.reverse.find? test) := by
  have split : (front ++ slot :: rest).reverse =
      (rest.reverse ++ [slot]) ++ front.reverse := by simp
  have enough : front.reverse.length ≤ heap.slotCount := by
    have bound := arranged.length_le
    simp only [List.length_append, List.length_cons, List.length_reverse]
      at bound ⊢
    omega
  rw [arranged.prev_middle right, ← List.head?_reverse] at searched ⊢
  apply walkFind_eq (List.nodup_reverse.mpr arranged.nodup) split enough
  intro other member
  exact arranged.prev_eq_before (searched other member)

/-! ## Emptying a slot -/

theorem clearFeb_feb_of_ne {other : Nat} (different : other ≠ slot) :
    (clearFeb heap slot).feb other = heap.feb other :=
  Function.update_of_ne different ..

theorem clearFeb_feb : (clearFeb heap slot).feb slot = false :=
  Function.update_self ..

theorem emptyNeighbour_clearFeb {link : Option Nat} (outside : ∀ other ∈ link, other ≠ slot) :
    emptyNeighbour (clearFeb heap slot) link = emptyNeighbour heap link := by
  cases link with
  | none => rfl
  | some other =>
      simp [emptyNeighbour, Option.filter, clearFeb_feb_of_ne (outside other rfl)]

theorem emptyNeighbour_eq_some {link : Option Nat} {other : Nat} :
    emptyNeighbour heap link = some other ↔ link = some other ∧ heap.feb other = false := by
  simp [emptyNeighbour, Option.filter_eq_some_iff]

theorem emptyNeighbour_eq_none {link : Option Nat} :
    emptyNeighbour heap link = none ↔ ∀ other ∈ link, heap.feb other = true := by
  simp [emptyNeighbour, Option.filter_eq_none_iff]

section

variable (arranged : Arranged settings exact heap (front ++ slot :: rest))

include arranged

/-- Above an isolated slot, an empty slot starts at a lower address. -/
theorem addr_lt_of_mem_front {other : Nat}
    (fullPrev : ∀ prevSlot ∈ front.getLast?, heap.feb prevSlot = true)
    (member : other ∈ emptySlots heap front) :
    heap.addr other < heap.addr slot := by
  obtain ⟨inFront, isEmpty⟩ := mem_emptySlots.mp member
  obtain ⟨prevSlot, isLast⟩ := Option.isSome_iff_exists.mp
    (List.getLast?_isSome.mpr (List.ne_nil_of_mem inFront))
  obtain ⟨above, rfl⟩ := List.getLast?_eq_some_iff.mp isLast
  have full := fullPrev prevSlot isLast
  have inAbove : other ∈ above := by
    rcases List.mem_append.mp inFront with inAbove | same
    · exact inAbove
    · rw [List.mem_singleton.mp same, full] at isEmpty
      cases isEmpty
  have ordered := arranged.tiles.ordered
  rw [List.append_assoc] at ordered
  have first := (List.pairwise_append.mp ordered).2.2 other inAbove prevSlot (by simp)
  have second := (List.pairwise_append.mp ordered).2.1
  rw [List.singleton_append, List.pairwise_cons] at second
  have third := second.1 slot List.mem_cons_self
  have positive := arranged.positive prevSlot (by simp) (arranged.ne_common_of_full full)
  omega

/-- Below a full slot, a slot starts at a higher address. -/
theorem addr_lt_of_mem_rest {other : Nat} (full : heap.feb slot = true) (member : other ∈ rest) :
    heap.addr slot < heap.addr other := by
  have behind := arranged.tiles.le_of_split member
  have positive := arranged.positive slot (by simp) (arranged.ne_common_of_full full)
  omega

/-- The chain has an end at an isolated slot when the empty slots lie aside. -/
theorem one_side_empty
    (full : heap.feb slot = true) (fullPrev : ∀ prevSlot ∈ front.getLast?, heap.feb prevSlot = true)
    (oneSided : OneSided heap slot) :
    emptySlots heap front = [] ∨ emptySlots heap rest = [] := by
  rcases oneSided with below | above
  · left
    refine List.eq_nil_iff_forall_not_mem.mpr fun other member => ?_
    have lower := arranged.addr_lt_of_mem_front fullPrev member
    obtain ⟨inFront, isEmpty⟩ := mem_emptySlots.mp member
    have higher := below other ((arranged.listed other).mpr (by simp [inFront])) isEmpty
    omega
  · right
    refine List.eq_nil_iff_forall_not_mem.mpr fun other member => ?_
    obtain ⟨inRest, isEmpty⟩ := mem_emptySlots.mp member
    have higher := arranged.addr_lt_of_mem_rest full inRest
    have lower := above other ((arranged.listed other).mpr (by simp [inRest])) isEmpty
    omega

end

theorem find?_clearFeb {list : List Nat} (absent : slot ∉ list) :
    (list.find? fun other => !(clearFeb heap slot).feb other) =
      list.find? fun other => !heap.feb other := by
  apply List.find?_congr
  intro other member
  rw [clearFeb_feb_of_ne (ne_of_mem_of_not_mem member absent)]

section

variable (arranged : Arranged settings exact heap (front ++ slot :: rest))

include arranged

theorem searchForward_eq :
    searchForward (clearFeb heap slot) slot =
      .ok (if heap.addr heap.commonSlot ≥ heap.addr slot then
        (emptySlots heap rest).head? else none) := by
  have run := arranged.run
  have absent : slot ∉ rest := run.surroundings.middleRest slot (by simp)
  have walk := arranged.walkFind_next
    fun other => !(clearFeb heap slot).feb other
  rw [find?_clearFeb absent, ← head?_emptySlots] at walk
  change (if heap.addr heap.commonSlot ≥ heap.addr slot then
      ofWalk (walkFind heap.next (fun other => !(clearFeb heap slot).feb other)
        heap.slotCount (heap.next slot))
    else .ok none) = _
  rw [walk, ofWalk]
  split <;> rfl

theorem searchBackward_eq (right : PrevRight heap slot)
    (searched : ∀ other ∈ searchedBackward (clearFeb heap slot) slot, PrevRight heap other) :
    searchBackward (clearFeb heap slot) slot = .ok (emptySlots heap front).getLast? := by
  have run := arranged.run
  have absent : slot ∉ front.reverse := by
    rw [List.mem_reverse]
    intro member
    exact run.surroundings.frontMiddle slot member (by simp)
  have walk := arranged.walkFind_prev (fun other => !(clearFeb heap slot).feb other) right searched
  rw [find?_clearFeb absent, ← getLast?_emptySlots] at walk
  exact congrArg ofWalk walk

/-- An isolated slot enters the chain at one of its ends. -/
theorem emptyIsolated_replacement (full : heap.feb slot = true) (soundly : EmptiesSoundly heap slot)
    (isolated : Isolated (clearFeb heap slot) slot)
    (fullPrev : ∀ prevSlot ∈ front.getLast?, heap.feb prevSlot = true)
    (fullNext : ∀ nextSlot ∈ rest.head?, heap.feb nextSlot = true) :
    ∃ heap', emptyIsolated (clearFeb heap slot) slot = .ok heap' ∧
      heap'.feb slot = false ∧
      Replacement exact heap heap' front [slot] [slot] rest := by
  have sides := arranged.one_side_empty full fullPrev (soundly.oneSided isolated)
  have common := arranged.common_mem_emptySlots
  have skipped : emptySlots heap (front ++ slot :: rest) =
      emptySlots heap front ++ emptySlots heap rest := by
    simp [emptySlots, full]
  rw [skipped, List.mem_append] at common
  unfold emptyIsolated
  rw [arranged.searchForward_eq, Except.bind]
  by_cases ahead : heap.addr heap.commonSlot ≥ heap.addr slot
  · rw [if_pos ahead]
    have commonBelow : heap.commonSlot ∈ emptySlots heap rest := by
      refine common.resolve_left fun member => ?_
      have lower := arranged.addr_lt_of_mem_front fullPrev member
      omega
    obtain ⟨nextSlot, isFirst⟩ := Option.isSome_iff_exists.mp
      (List.isSome_head?.mpr (List.ne_nil_of_mem commonBelow))
    have noneAbove := sides.resolve_right (List.ne_nil_of_mem commonBelow)
    rw [isFirst]
    exact ⟨_, rfl, clearFeb_feb, arranged.linkBefore_replacement full soundly.right fullPrev
      fullNext isFirst noneAbove⟩
  · rw [if_neg ahead]
    have commonAbove : heap.commonSlot ∈ emptySlots heap front := by
      refine common.resolve_right fun member => ?_
      have higher := arranged.addr_lt_of_mem_rest full (mem_emptySlots.mp member).1
      omega
    obtain ⟨prevSlot, isLast⟩ := Option.isSome_iff_exists.mp
      (List.getLast?_isSome.mpr (List.ne_nil_of_mem commonAbove))
    have noneBelow := sides.resolve_left (List.ne_nil_of_mem commonAbove)
    have searched := soundly.searched isolated (Nat.lt_of_not_le ahead)
    rw [arranged.searchBackward_eq soundly.right searched, isLast, Except.map]
    exact ⟨_, rfl, clearFeb_feb, arranged.linkBehind_replacement full soundly.right fullPrev
      fullNext isLast noneBelow⟩

/-- Emptying a slot joins it with the empty slots next to it. -/
theorem emptySlot_replacement (full : heap.feb slot = true) (soundly : EmptiesSoundly heap slot) :
    ∃ heap' above below,
      emptySlot heap slot = .ok heap' ∧
      heap'.feb slot = false ∧
      front = above ++ (emptyNeighbour heap front.getLast?).toList ∧
      rest = (emptyNeighbour heap rest.head?).toList ++ below ∧
      Replacement exact heap heap' above
        ((emptyNeighbour heap front.getLast?).toList ++
          slot :: (emptyNeighbour heap rest.head?).toList)
        [slot] below := by
  have run := arranged.run
  have atPrev :
      emptyNeighbour (clearFeb heap slot) ((clearFeb heap slot).prev slot) =
        emptyNeighbour heap front.getLast? := by
    rw [show (clearFeb heap slot).prev slot = front.getLast? from
      arranged.prev_middle soundly.right]
    apply emptyNeighbour_clearFeb
    intro other isLast
    simpa using run.surroundings.frontMiddle other (List.mem_of_getLast? isLast)
  have atNext :
      emptyNeighbour (clearFeb heap slot) ((clearFeb heap slot).next slot) =
        emptyNeighbour heap rest.head? := by
    rw [show (clearFeb heap slot).next slot = rest.head? from
      arranged.next_middle]
    apply emptyNeighbour_clearFeb
    intro other isFirst
    exact ne_of_mem_of_not_mem (List.mem_of_head? isFirst)
      (run.surroundings.middleRest slot (by simp))
  unfold emptySlot
  dsimp only
  rw [atPrev, atNext]
  cases above : emptyNeighbour heap front.getLast? with
  | some prevSlot =>
      obtain ⟨isLast, prevIsEmpty⟩ := emptyNeighbour_eq_some.mp above
      obtain ⟨others, rfl⟩ := List.getLast?_eq_some_iff.mp isLast
      cases below : emptyNeighbour heap rest.head? with
      | some nextSlot =>
          obtain ⟨isFirst, nextIsEmpty⟩ := emptyNeighbour_eq_some.mp below
          obtain ⟨behind, rfl⟩ := List.head?_eq_some_iff.mp isFirst
          have threeSlots : Arranged settings exact heap
              (others ++ ([prevSlot, slot, nextSlot] ++ behind)) := by
            simpa using arranged
          exact ⟨_, others, behind, rfl, clearFeb_feb, rfl, rfl,
            threeSlots.join3_replacement full prevIsEmpty nextIsEmpty⟩
      | none =>
          have twoSlots : Arranged settings exact heap (others ++ ([prevSlot, slot] ++ rest)) := by
            simpa using arranged
          exact ⟨_, others, rest, rfl, clearFeb_feb, rfl, rfl,
            twoSlots.joinWithPrev_replacement full prevIsEmpty (emptyNeighbour_eq_none.mp below)⟩
  | none =>
      have fullPrev := emptyNeighbour_eq_none.mp above
      cases below : emptyNeighbour heap rest.head? with
      | some nextSlot =>
          obtain ⟨isFirst, nextIsEmpty⟩ := emptyNeighbour_eq_some.mp below
          obtain ⟨behind, rfl⟩ := List.head?_eq_some_iff.mp isFirst
          refine ⟨_, front, behind, rfl, clearFeb_feb, (List.append_nil _).symm, rfl, ?_⟩
          exact joinWithNext_replacement arranged full nextIsEmpty soundly.right fullPrev
      | none =>
          have isolated : Isolated (clearFeb heap slot) slot :=
            ⟨atPrev.trans above, atNext.trans below⟩
          obtain ⟨heap', emptied, isEmpty, replacement⟩ :=
            arranged.emptyIsolated_replacement full soundly isolated fullPrev
              (emptyNeighbour_eq_none.mp below)
          exact ⟨heap', front, rest, emptied, isEmpty, (List.append_nil _).symm, rfl, replacement⟩

end

/-! ## Taking a slot -/

theorem fitsEmpty_iff {varSize : Nat} :
    fitsEmpty heap varSize slot = true ↔ heap.feb slot = false ∧ varSize ≤ heap.size slot := by
  simp [fitsEmpty]

theorem takesWhole_iff {varSize : Nat} :
    takesWhole heap slot varSize = true ↔ slot ≠ heap.commonSlot ∧ heap.size slot = varSize := by
  simp [takesWhole]

/-- A slot that is not taken as it is leaves something behind. -/
theorem splits_of_not_whole {varSize : Nat} (fits : fitsEmpty heap varSize slot = true)
    (notWhole : ¬ takesWhole heap slot varSize = true) :
    slot = heap.commonSlot ∨ varSize < heap.size slot := by
  rw [takesWhole_iff] at notWhole
  rw [fitsEmpty_iff] at fits
  omega

theorem takeFromTop_replacement {varSize : Nat}
    (arranged : Arranged settings exact heap (front ++ slot :: rest))
    (fits : fitsEmpty heap varSize slot = true) (positive : 0 < varSize)
    (last : exact → takesWhole heap slot varSize = false → rest = []) :
    Replacement exact heap (takeFromTop heap slot varSize) front [slot]
      (if takesWhole heap slot varSize then
        [slot]
      else
        [slot, heap.slotCount])
      rest := by
  obtain ⟨isEmpty, enough⟩ := fitsEmpty_iff.mp fits
  unfold takeFromTop
  split <;> rename_i whole
  · exact arranged.takeWhole_replacement isEmpty (takesWhole_iff.mp whole).1
  · exact arranged.splitFromTop_replacement isEmpty positive enough
      (splits_of_not_whole fits whole)
      (fun isExact => last isExact (by simpa using whole))

theorem takeFromBottom_replacement {varSize : Nat}
    (arranged : Arranged settings exact heap (front ++ slot :: rest))
    (fits : fitsEmpty heap varSize slot = true) (positive : 0 < varSize) :
    Replacement exact heap (takeFromBottom heap slot varSize) front [slot]
      (if takesWhole heap slot varSize then
        [slot]
      else
        [slot, heap.slotCount])
      rest := by
  obtain ⟨isEmpty, enough⟩ := fitsEmpty_iff.mp fits
  unfold takeFromBottom
  split <;> rename_i whole
  · exact arranged.takeWhole_replacement isEmpty (takesWhole_iff.mp whole).1
  · exact arranged.splitFromBottom_replacement isEmpty positive enough
      (splits_of_not_whole fits whole)

end Arranged

/-! ## Full slots -/

/-- The slots that hold a block. -/
def Heap.Full (heap : Heap) (slot : Nat) : Prop :=
  heap.allocated slot = true ∧ heap.feb slot = true

/-- One block more is held, and all others as before. -/
structure Gains (heap heap' : Heap) (newSlot addr size : Nat) : Prop where
  isFull : heap'.Full newSlot
  isNew : ¬ heap.Full newSlot
  addr_eq : heap'.addr newSlot = addr
  size_eq : heap'.size newSlot = size
  kept : ∀ slot, heap.Full slot →
    heap'.Full slot ∧ heap'.addr slot = heap.addr slot ∧ heap'.size slot = heap.size slot
  onlyNew : ∀ slot, heap'.Full slot → slot = newSlot ∨ heap.Full slot

/-- One block less is held, and all others as before. -/
structure Loses (heap heap' : Heap) (oldSlot : Nat) : Prop where
  full_iff : ∀ slot, heap'.Full slot ↔ heap.Full slot ∧ slot ≠ oldSlot
  kept : ∀ slot, heap'.Full slot →
    heap'.addr slot = heap.addr slot ∧ heap'.size slot = heap.size slot

namespace Arranged

variable {settings : HeapSettings} {exact : Prop} {heap heap' : Heap}
  {front middle middle' rest slots : List Nat} {slot : Nat}

section

variable (arranged : Arranged settings exact heap slots)

include arranged

theorem full_iff :
    heap.Full slot ↔ slot ∈ slots ∧ heap.feb slot = true := by
  rw [Heap.Full, arranged.listed]

theorem not_allocated_slotCount :
    ¬ heap.allocated heap.slotCount = true := by
  rw [arranged.listed]
  exact arranged.fresh_notMem

section

variable (member : slot ∈ slots) (isEmpty : heap.feb slot = false)

include member isEmpty

theorem gains_takeWhole :
    Gains heap (takeWhole heap slot) slot (heap.addr slot) (heap.size slot) := by
  have allocated := (arranged.listed slot).mpr member
  constructor
  case addr_eq | size_eq => rfl
  all_goals
    simp only [Heap.Full, takeWhole, Function.update_apply]
    grind

theorem gains_splitFromTop {varSize : Nat} :
    Gains heap (splitFromTop heap slot varSize) slot (heap.addr slot)
      varSize := by
  have allocated := (arranged.listed slot).mpr member
  have fresh := arranged.not_allocated_slotCount
  constructor
  all_goals
    simp only [Heap.Full, splitFromTop, Function.update_apply]
    grind

theorem gains_splitFromBottom {varSize : Nat} :
    Gains heap (splitFromBottom heap slot varSize) heap.slotCount
      (heap.addr slot + heap.size slot - varSize) varSize := by
  have allocated := (arranged.listed slot).mpr member
  have fresh := arranged.not_allocated_slotCount
  constructor
  all_goals
    simp only [Heap.Full, splitFromBottom, Function.update_apply]
    grind

end

theorem gains_takeFromTop {varSize : Nat} (member : slot ∈ slots)
    (fits : fitsEmpty heap varSize slot = true) :
    Gains heap (takeFromTop heap slot varSize) slot (heap.addr slot)
      varSize := by
  have isEmpty := (fitsEmpty_iff.mp fits).1
  unfold takeFromTop
  split <;> rename_i whole
  · exact (takesWhole_iff.mp whole).2 ▸ arranged.gains_takeWhole member isEmpty
  · exact arranged.gains_splitFromTop member isEmpty

theorem gains_takeFromBottom {varSize : Nat} (member : slot ∈ slots)
    (fits : fitsEmpty heap varSize slot = true) :
    ∃ newSlot, Gains heap (takeFromBottom heap slot varSize) newSlot
      (if takesWhole heap slot varSize then
        heap.addr slot
      else
        heap.addr slot + heap.size slot - varSize)
      varSize := by
  have isEmpty := (fitsEmpty_iff.mp fits).1
  unfold takeFromBottom
  split <;> rename_i whole
  · exact ⟨slot, (takesWhole_iff.mp whole).2 ▸ arranged.gains_takeWhole member isEmpty⟩
  · exact ⟨heap.slotCount, arranged.gains_splitFromBottom member isEmpty⟩

end

/-- Where a full slot and its empty neighbours become one, its block goes. -/
theorem loses_of_replacement {absorbed absorbed' : List Nat}
    (arranged : Arranged settings exact heap (front ++ ((absorbed ++ slot :: absorbed') ++ rest)))
    (emptyAbove : ∀ other ∈ absorbed, heap.feb other = false)
    (emptyBelow : ∀ other ∈ absorbed', heap.feb other = false)
    (isEmpty : heap'.feb slot = false)
    (replaced : SlotsReplaced heap heap' front (absorbed ++ slot :: absorbed') [slot] rest) :
    Loses heap heap' slot := by
  have full_iff : ∀ other, heap'.Full other ↔ heap.Full other ∧ other ≠ slot := by
    intro other
    have nodup := arranged.nodup
    simp only [List.nodup_append, List.nodup_cons, List.mem_append, List.mem_cons] at nodup
    have outside := replaced.febOutside other
    have listed := arranged.listed other
    simp only [List.mem_append, List.mem_cons] at listed
    simp only [Heap.Full, replaced.allocated, List.mem_append, List.mem_cons]
    grind
  refine ⟨full_iff, ?_⟩
  intro other full
  obtain ⟨oldFull, different⟩ := (full_iff other).mp full
  have member := (arranged.full_iff.mp oldFull).1
  apply replaced.placeOutside
  have notAbsorbed : ∀ part : List Nat,
      (∀ other ∈ part, heap.feb other = false) → other ∉ part := by
    intro part areEmpty inside
    rw [Heap.Full, areEmpty other inside] at oldFull
    exact Bool.false_ne_true oldFull.2
  have notAbove := notAbsorbed absorbed emptyAbove
  have notBelow := notAbsorbed absorbed' emptyBelow
  simp only [List.mem_append, List.mem_cons] at member
  tauto

end Arranged

/-! ## Bookkeeping -/

section Books

variable {settings : HeapSettings} {exact : Prop} {heap heap' : Heap}
  {slots : List Nat} {memInfo : Option MemUsageInfo}
  {allocatedList : List AllocDpSlot}

theorem Arranged.books (arranged : Arranged settings exact heap slots) :
    Arranged settings exact (heap.books memInfo allocatedList) slots :=
  { arranged with }

theorem Gains.books {newSlot addr size : Nat} (gains : Gains heap heap' newSlot addr size) :
    Gains heap (heap'.books memInfo allocatedList) newSlot addr size :=
  { gains with }

/-- Storing adds the address to the list. -/
theorem storeSlotInfo_eq_ok {addr : Nat} {dp : Option Nat}
    (stored : storeSlotInfo heap addr dp = .ok heap') :
    ∃ allocatedList, heap' = heap.books heap.memInfo allocatedList ∧
      ∀ entry ∈ allocatedList, entry.addr = addr ∨
        ∃ old ∈ heap.allocatedList, old.addr = entry.addr := by
  unfold storeSlotInfo at stored
  split at stored
  · cases stored
    refine ⟨_, rfl, ?_⟩
    intro entry member
    rcases List.mem_append.mp member with old | new
    · exact Or.inr ⟨entry, old, rfl⟩
    · exact Or.inl (List.mem_singleton.mp new ▸ rfl)
  · split at stored
    · cases stored
      refine ⟨_, rfl, ?_⟩
      intro entry member
      obtain ⟨old, isOld, same⟩ := List.mem_map.mp member
      refine Or.inr ⟨old, isOld, ?_⟩
      rw [← same]
      split <;> rfl
    · cases stored

/-- Deleting takes the address off the list. -/
theorem deleteSlotInfo_eq_ok {addr : Nat} (deleted : deleteSlotInfo heap addr = .ok heap') :
    ∃ allocatedList, heap' = heap.books heap.memInfo allocatedList ∧
      ∀ entry ∈ allocatedList, entry ∈ heap.allocatedList ∧ entry.addr ≠ addr := by
  unfold deleteSlotInfo at deleted
  split at deleted
  · cases deleted
  · cases deleted
    refine ⟨_, rfl, ?_⟩
    intro entry member
    simpa using member

theorem takeFromTop_books {slot varSize : Nat} :
    takeFromTop (heap.books memInfo allocatedList) slot varSize =
      (takeFromTop heap slot varSize).books memInfo allocatedList := by
  have same : takesWhole (heap.books memInfo allocatedList) slot varSize =
      takesWhole heap slot varSize := rfl
  unfold takeFromTop
  rw [same]
  split <;> rfl

theorem takeFromBottom_books {slot varSize : Nat} :
    takeFromBottom (heap.books memInfo allocatedList) slot varSize =
      (takeFromBottom heap slot varSize).books memInfo allocatedList := by
  have same : takesWhole (heap.books memInfo allocatedList) slot varSize =
      takesWhole heap slot varSize := rfl
  unfold takeFromBottom
  rw [same]
  split <;> rfl

theorem EmptiesSoundly.books {slot : Nat} (soundly : EmptiesSoundly heap slot) :
    EmptiesSoundly (heap.books memInfo allocatedList) slot where
  right := soundly.right
  searched := soundly.searched
  oneSided := soundly.oneSided

/-! ## What a call does -/

/-- The address of the block taken from the bottom of a slot. -/
def bottomAddr (heap : Heap) (slot varSize : Nat) : Nat :=
  if takesWhole heap slot varSize then
    heap.addr slot
  else
    heap.addr slot + heap.size slot - varSize

variable {allocation : Allocation}

/-- An allocation takes the slot that its finder finds. -/
theorem allocatableAllocate_eq_ok {requested : Nat} {dp : Option Nat}
    (allocated : allocatableAllocate settings heap requested dp = .ok (heap', allocation)) :
    ∃ slot memInfo allocatedList,
      findEmptySlotAbove heap heap.commonSlot
        (roundAllocatable settings requested) = .ok (some slot) ∧
      heap' = (takeFromTop heap slot
        (roundAllocatable settings requested)).books memInfo allocatedList ∧
      allocation = .inSegment (heap.addr slot) ∧
      ∀ entry ∈ allocatedList, entry.addr = heap.addr slot ∨
        ∃ old ∈ heap.allocatedList, old.addr = entry.addr := by
  unfold allocatableAllocate at allocated
  obtain ⟨found, finds, took⟩ := bind_eq_ok.mp allocated
  cases found with
  | none => cases took
  | some slot =>
      obtain ⟨stored, stores, same⟩ := map_eq_ok.mp took
      rw [takeFromTop_books] at stores
      obtain ⟨list, rfl, entries⟩ := storeSlotInfo_eq_ok stores
      cases same
      exact ⟨slot, _, list, finds, rfl, rfl, entries⟩

theorem takeAsymmetric_eq_ok {slot varSize : Nat}
    (took : takeAsymmetric heap slot varSize = .ok (heap', allocation)) :
    ∃ memInfo,
      heap' = (takeFromBottom heap slot varSize).books memInfo heap.allocatedList ∧
      allocation = .inSegment (bottomAddr heap slot varSize) := by
  unfold takeAsymmetric at took
  split at took
  · cases took
  · dsimp only at took
    rw [takeFromBottom_books] at took
    cases took
    exact ⟨_, rfl, rfl⟩

/-- An asymmetric allocation takes the slot found, or leaves the heap alone. -/
theorem asymmetricAllocate_eq_ok {requested : Nat}
    (allocated : asymmetricAllocate settings heap requested = .ok (heap', allocation)) :
    (heap' = heap ∧ allocation = .systemMemory) ∨
      ∃ slot memInfo,
        findEmptySlotBelow heap heap.commonSlot
          (roundAsymmetric settings requested) = .ok (some slot) ∧
        heap' = (takeFromBottom heap slot
          (roundAsymmetric settings requested)).books memInfo heap.allocatedList ∧
        allocation = .inSegment (bottomAddr heap slot (roundAsymmetric settings requested)) := by
  unfold asymmetricAllocate at allocated
  obtain ⟨found, finds, took⟩ := bind_eq_ok.mp allocated
  split at took
  · split at took
    · cases took
    · cases took
      exact Or.inl ⟨rfl, rfl⟩
  · cases took
  · split at took
    · cases took
      exact Or.inl ⟨rfl, rfl⟩
    · obtain ⟨memInfo, same, address⟩ := takeAsymmetric_eq_ok took
      exact Or.inr ⟨_, memInfo, finds, same, address⟩

theorem asymmetricAllocateIfPossible_eq_ok {requested : Nat}
    (allocated : asymmetricAllocateIfPossible settings heap requested = .ok (heap', allocation)) :
    (heap' = heap ∧ allocation = .notPossible) ∨
      ∃ slot memInfo,
        findEmptySlotBelow heap heap.commonSlot
          (roundAsymmetric settings requested) = .ok (some slot) ∧
        heap' = (takeFromBottom heap slot
          (roundAsymmetric settings requested)).books memInfo heap.allocatedList ∧
        allocation = .inSegment (bottomAddr heap slot (roundAsymmetric settings requested)) := by
  unfold asymmetricAllocateIfPossible at allocated
  obtain ⟨found, finds, took⟩ := bind_eq_ok.mp allocated
  cases found with
  | none =>
      cases took
      exact Or.inl ⟨rfl, rfl⟩
  | some slot =>
      obtain ⟨memInfo, same, address⟩ := takeAsymmetric_eq_ok took
      exact Or.inr ⟨slot, memInfo, finds, same, address⟩

/-- A deallocation empties the slot found, or leaves the heap alone. -/
theorem deallocate_eq_ok {address : Nat}
    (deallocated : deallocate settings heap address = .ok heap') :
    (findSlot settings heap address = .ok none ∧ heap' = heap) ∨
      ∃ slot memInfo allocatedList,
        findSlot settings heap address = .ok (some slot) ∧
        emptySlot (heap.books memInfo allocatedList) slot = .ok heap' ∧
        ∀ entry ∈ allocatedList, entry ∈ heap.allocatedList ∧ entry.addr ≠ heap.addr slot := by
  unfold deallocate at deallocated
  obtain ⟨found, finds, empties⟩ := bind_eq_ok.mp deallocated
  cases found with
  | none =>
      cases empties
      exact Or.inl ⟨finds, rfl⟩
  | some slot =>
      obtain ⟨deleted, deletes, empties⟩ := bind_eq_ok.mp empties
      obtain ⟨list, rfl, entries⟩ := deleteSlotInfo_eq_ok deletes
      split at empties
      · cases empties
      · exact Or.inr ⟨slot, _, list, finds, empties, entries⟩

theorem asymmetricDeallocate_eq_ok {address : Nat}
    (deallocated : asymmetricDeallocate settings heap address = .ok heap') :
    (¬ (settings.segmentAddr ≤ address ∧ address < settings.segmentEnd) ∧
        heap' = heap) ∨
      ∃ slot memInfo,
        findSlotBelow heap heap.commonSlot address = .ok (some slot) ∧
        emptySlot (heap.books memInfo heap.allocatedList) slot = .ok heap' := by
  unfold asymmetricDeallocate at deallocated
  obtain ⟨found, finds, empties⟩ := bind_eq_ok.mp deallocated
  cases found with
  | none =>
      dsimp only at empties
      split at empties
      · cases empties
      · rename_i outside
        cases empties
        exact Or.inl ⟨outside, rfl⟩
  | some slot =>
      dsimp only at empties
      split at empties
      · cases empties
      · exact Or.inr ⟨slot, _, finds, empties⟩

end Books

/-! ## Rounding -/

/-- The size rounded up to the alignment fits the 64 bits of a size. -/
def RoundsUp (settings : HeapSettings) (varSize : Nat) : Prop :=
  varSize % settings.allocByteAlignment ≠ 0 →
    (varSize / settings.allocByteAlignment + 1) * settings.allocByteAlignment < 2 ^ 64

/-- Both kinds of allocation round in the same way. -/
theorem roundAllocatable_eq (settings : HeapSettings) (varSize : Nat) :
    roundAllocatable settings varSize = roundAsymmetric settings varSize := by
  unfold roundAllocatable roundAsymmetric
  split <;> rename_i unaligned
  · have same : (varSize - 1) / settings.allocByteAlignment =
        varSize / settings.allocByteAlignment := by
      cases varSize with
      | zero => rfl
      | succ smaller =>
          rw [Nat.succ_div, if_neg (mt Nat.mod_eq_zero_of_dvd unaligned)]
          rfl
    rw [same]
  · rfl

theorem le_roundAsymmetric {settings : HeapSettings} {varSize : Nat}
    (rounds : RoundsUp settings varSize) :
    varSize ≤ roundAsymmetric settings varSize := by
  unfold roundAsymmetric
  split <;> rename_i unaligned
  · rw [wrapSize, Nat.mod_eq_of_lt (rounds unaligned)]
    rw [Nat.add_mul, Nat.one_mul]
    exact Nat.le_of_lt (Nat.lt_div_mul_add settings.alignmentPositive)
  · exact Nat.le_refl _

/-! ## The calls keep the heap arranged -/

namespace Arranged

variable {settings : HeapSettings} {exact : Prop} {heap heap' : Heap}
  {slots : List Nat}

section

variable (arranged : Arranged settings exact heap slots)

include arranged

theorem ofFindEmptySlotAbove {varSize slot : Nat}
    (found : findEmptySlotAbove heap heap.commonSlot varSize = .ok (some slot)) :
    ∃ front rest, slots = front ++ slot :: rest ∧
      fitsEmpty heap varSize slot = true ∧
      ∀ other ∈ front, fitsEmpty heap varSize other = false := by
  rw [arranged.findEmptySlotAbove_eq] at found
  obtain ⟨fits, front, rest, split, notBefore⟩ :=
    List.find?_eq_some_iff_append.mp (Except.ok.inj found)
  exact ⟨front, rest, split, fits, by simpa using notBefore⟩

theorem ofFindEmptySlotBelow {varSize slot : Nat}
    (found : findEmptySlotBelow heap heap.commonSlot varSize = .ok (some slot)) :
    ∃ front rest, slots = front ++ slot :: rest ∧
      fitsEmpty heap varSize slot = true ∧
      ∀ other ∈ rest, fitsEmpty heap varSize other = false := by
  rw [arranged.findEmptySlotBelow_eq] at found
  obtain ⟨fits, behind, before, split, notBefore⟩ :=
    List.find?_eq_some_iff_append.mp (Except.ok.inj found)
  refine ⟨before.reverse, behind.reverse, ?_, fits, by simpa using notBefore⟩
  have turned := congrArg List.reverse split
  simpa using turned

/-- An allocation from the top keeps the heap arranged. -/
theorem takeFromTop_arranged {varSize slot : Nat}
    (member : slot ∈ slots) (fits : fitsEmpty heap varSize slot = true) (positive : 0 < varSize)
    (last : exact → takesWhole heap slot varSize = true ∨ heap.next slot = none) :
    ∃ slots', Arranged settings exact (takeFromTop heap slot varSize)
      slots' := by
  obtain ⟨front, rest, rfl⟩ := List.append_of_mem member
  have nextIs := arranged.next_middle
  have replacement := arranged.takeFromTop_replacement fits positive (by
    intro isExact notWhole
    rcases last isExact with whole | none
    · rw [notWhole] at whole
      cases whole
    · rwa [nextIs, List.head?_eq_none_iff] at none)
  exact ⟨_, replacement.arranged arranged (by split <;> simp)⟩

theorem takeFromBottom_arranged {varSize slot : Nat}
    (member : slot ∈ slots) (fits : fitsEmpty heap varSize slot = true) (positive : 0 < varSize) :
    ∃ slots', Arranged settings exact (takeFromBottom heap slot varSize)
      slots' := by
  obtain ⟨front, rest, rfl⟩ := List.append_of_mem member
  have replacement := arranged.takeFromBottom_replacement fits positive
  exact ⟨_, replacement.arranged arranged (by split <;> simp)⟩

end

/-- Emptying a full slot: what is joined, and how the heap looks after it. -/
theorem emptySlot_spec {front rest : List Nat} {slot : Nat}
    (arranged : Arranged settings exact heap (front ++ slot :: rest))
    (full : heap.feb slot = true) (soundly : EmptiesSoundly heap slot) :
    ∃ heap' above below,
      emptySlot heap slot = .ok heap' ∧
      front = above ++ (emptyNeighbour heap front.getLast?).toList ∧
      rest = (emptyNeighbour heap rest.head?).toList ++ below ∧
      SlotsReplaced heap heap' above
        ((emptyNeighbour heap front.getLast?).toList ++
          slot :: (emptyNeighbour heap rest.head?).toList)
        [slot] below ∧
      (above ++ (((emptyNeighbour heap front.getLast?).toList ++
        slot :: (emptyNeighbour heap rest.head?).toList) ++ below)).Nodup ∧
      heap'.feb slot = false ∧
      Arranged settings exact heap' (above ++ slot :: below) ∧
      Loses heap heap' slot := by
  obtain ⟨heap', above, below, empties, isEmpty, isFront, isRest,
    replacement⟩ := arranged.emptySlot_replacement full soundly
  have run : Arranged settings exact heap
      (above ++ (((emptyNeighbour heap front.getLast?).toList ++
        slot :: (emptyNeighbour heap rest.head?).toList) ++ below)) := by
    have split : above ++ (((emptyNeighbour heap front.getLast?).toList ++
        slot :: (emptyNeighbour heap rest.head?).toList) ++ below) =
        (above ++ (emptyNeighbour heap front.getLast?).toList) ++
          slot :: ((emptyNeighbour heap rest.head?).toList ++ below) := by
      simp
    rw [split, ← isFront, ← isRest]
    exact arranged
  have absorbedEmpty : ∀ link : Option Nat,
      ∀ other ∈ (emptyNeighbour heap link).toList, heap.feb other = false := by
    intro link other member
    rw [Option.mem_toList] at member
    exact (emptyNeighbour_eq_some.mp member).2
  exact ⟨heap', above, below, empties, isFront, isRest,
    replacement.toSlotsReplaced, run.nodup, isEmpty,
    replacement.arranged run (List.cons_ne_nil _ _),
    run.loses_of_replacement (absorbedEmpty _) (absorbedEmpty _) isEmpty
      replacement.toSlotsReplaced⟩

/-- Emptying a full slot keeps the heap arranged. -/
theorem emptySlot_arranged {slot : Nat} (arranged : Arranged settings exact heap slots)
    (full : heap.Full slot) (soundly : EmptiesSoundly heap slot) :
    ∃ heap' slots', emptySlot heap slot = .ok heap' ∧
      Arranged settings exact heap' slots' ∧ Loses heap heap' slot := by
  obtain ⟨member, isFull⟩ := arranged.full_iff.mp full
  obtain ⟨front, rest, rfl⟩ := List.append_of_mem member
  obtain ⟨heap', above, below, empties, _, _, _, _, _, arranged', loses⟩ :=
    arranged.emptySlot_spec isFull soundly
  exact ⟨heap', _, empties, arranged', loses⟩

/-- The address of a slot found is the one asked for. -/
theorem full_of_holdsAddress {address slot : Nat} {part : List Nat}
    (arranged : Arranged settings exact heap slots) (inside : ∀ other ∈ part, other ∈ slots)
    (found : part.find? (holdsAddress heap address) = some slot) :
    heap.Full slot ∧ heap.addr slot = address := by
  have member := inside slot (List.mem_of_find?_eq_some found)
  have holds := List.find?_some found
  simp only [holdsAddress, Bool.and_eq_true, decide_eq_true_eq] at holds
  exact ⟨arranged.full_iff.mpr ⟨member, holds.1⟩, holds.2⟩

theorem ofFindSlotBelow {address slot : Nat} (arranged : Arranged settings exact heap slots)
    (found : findSlotBelow heap heap.commonSlot address = .ok (some slot)) :
    heap.Full slot ∧ heap.addr slot = address := by
  obtain ⟨front, rest, rfl⟩ := List.append_of_mem arranged.commonListed
  rw [arranged.findSlotBelow_eq] at found
  exact arranged.full_of_holdsAddress (fun other member => by simp [member]) (Except.ok.inj found)

section FindSlot

variable {address : Nat}
  (walked : ∀ other ∈ passed heap.prev (stopsAbove settings heap address)
    heap.slotCount (some heap.commonSlot), PrevRight heap other)

include walked

theorem findSlot_eq {front rest : List Nat}
    (arranged : Arranged settings exact heap (front ++ heap.commonSlot :: rest)) :
    findSlot settings heap address =
      .ok ((front.reverse.find? (holdsAddress heap address)).or
        (rest.find? (holdsAddress heap address))) := by
  unfold findSlot
  rw [arranged.findSlotAbove_eq address walked, Except.bind, arranged.findSlotBelow_eq]
  cases front.reverse.find? (holdsAddress heap address) <;> rfl

theorem ofFindSlot {slot : Nat} (arranged : Arranged settings exact heap slots)
    (found : findSlot settings heap address = .ok (some slot)) :
    heap.Full slot ∧ heap.addr slot = address := by
  obtain ⟨front, rest, rfl⟩ := List.append_of_mem arranged.commonListed
  rw [arranged.findSlot_eq walked] at found
  rcases Option.or_eq_some_iff.mp (Except.ok.inj found) with above | below
  · exact arranged.full_of_holdsAddress
      (fun other member => by simp [List.mem_reverse.mp member]) above
  · exact arranged.full_of_holdsAddress (fun other member => by simp [member]) below.2

/-- An address that is not found is not the address of a full slot. -/
theorem ofFindSlot_none {slot : Nat} (arranged : Arranged settings exact heap slots)
    (found : findSlot settings heap address = .ok none)
    (full : heap.Full slot) : heap.addr slot ≠ address := by
  obtain ⟨front, rest, rfl⟩ := List.append_of_mem arranged.commonListed
  rw [arranged.findSlot_eq walked] at found
  obtain ⟨above, below⟩ := Option.or_eq_none_iff.mp (Except.ok.inj found)
  rw [List.find?_eq_none] at above below
  obtain ⟨member, isFull⟩ := arranged.full_iff.mp full
  intro same
  have holds : holdsAddress heap address slot = true := by
    simp [holdsAddress, isFull, same]
  rcases List.mem_append.mp member with inFront | inRest
  · exact above slot (List.mem_reverse.mpr inFront) holds
  · rcases List.mem_cons.mp inRest with isCommon | behind
    · exact arranged.ne_common_of_full isFull isCommon
    · exact below slot behind holds

end FindSlot

/-! ## Exact arrangements -/

theorem prevRight_of_exact {slot : Nat}
    (arranged : Arranged settings True heap slots) (member : slot ∈ slots) :
    PrevRight heap slot :=
  arranged.prevRight_iff.mpr (arranged.prev slot member (Or.inl trivial))

/-- A walk upwards through an exact arrangement follows right links. -/
theorem passed_right_of_exact {front rest : List Nat} {test : Nat → Bool}
    (arranged : Arranged settings True heap (front ++ rest)) {other : Nat}
    (member : other ∈ passed heap.prev test heap.slotCount front.getLast?) :
    PrevRight heap other := by
  have split : (front ++ rest).reverse = rest.reverse ++ front.reverse := by
    simp
  have follows : ∀ slot ∈ (front ++ rest).reverse,
      heap.prev slot = after (front ++ rest).reverse slot := by
    intro slot listed
    exact arranged.prev slot (List.mem_reverse.mp listed) (Or.inl trivial)
  rw [← List.head?_reverse] at member
  have inFront := mem_of_mem_passed (List.nodup_reverse.mpr arranged.nodup) follows split member
  exact arranged.prevRight_of_exact (List.mem_append_left _ (List.mem_reverse.mp inFront))

theorem walked_of_exact {test : Nat → Bool}
    (arranged : Arranged settings True heap slots) {other : Nat}
    (member : other ∈ passed heap.prev test heap.slotCount (some heap.commonSlot)) :
    PrevRight heap other := by
  obtain ⟨front, rest, split⟩ := List.append_of_mem arranged.commonListed
  have cut : slots = (front ++ [heap.commonSlot]) ++ rest := by simp [split]
  rw [cut] at arranged
  apply arranged.passed_right_of_exact
  rwa [List.getLast?_concat]

theorem emptiesSoundly_of_exact {slot : Nat}
    (arranged : Arranged settings True heap slots) (full : heap.Full slot)
    (oneSided : Isolated (clearFeb heap slot) slot → OneSided heap slot) :
    EmptiesSoundly heap slot := by
  obtain ⟨member, isFull⟩ := arranged.full_iff.mp full
  obtain ⟨front, rest, rfl⟩ := List.append_of_mem member
  have right := arranged.prevRight_of_exact member
  refine ⟨right, ?_, oneSided⟩
  intro _ _ other searched
  apply arranged.passed_right_of_exact
  rw [← arranged.prev_middle right]
  exact searched

end Arranged

end OpenUH.Libcaf.SharedMemorySlots
