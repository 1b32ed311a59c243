import OpenUH.Foundation.Transition
import OpenUH.Libcaf.HeapAccounting

/-!
# Heap usage in every reachable state

The usage record of a heap is the sum of the sizes of its live slots.  The
record of the initial team's heap is that sum on top of what `comm_init`
charges for the teams heap and for the record, whose own slot is not counted
again.  A run keeps this up for a heap while END TEAM has nothing left to free
in it, and `deallocate_within` passes over its live slots only.
-/

namespace OpenUH.Libcaf.SharedMemorySlots

open Foundation.Fallible
open Foundation.Succession
open Foundation.Transition

/-! ## Arithmetic of `size_t` -/

theorem wrapSize_add (usage varSize : Nat) :
    wrapSize (wrapSize usage + varSize) = wrapSize (usage + varSize) :=
  Nat.mod_add_mod _ _ _

theorem wrapSize_sub {size : Nat} (small : size < 2 ^ 64) (rest : Nat) :
    wrapSize (wrapSize (rest + size) + 2 ^ 64 - size) = wrapSize rest := by
  unfold wrapSize
  omega

theorem wrapSize_lt (value : Nat) : wrapSize value < 2 ^ 64 :=
  Nat.mod_lt _ (by decide)

theorem roundAllocatable_lt {settings : HeapSettings} {varSize : Nat}
    (small : varSize < 2 ^ 64) : roundAllocatable settings varSize < 2 ^ 64 := by
  unfold roundAllocatable
  split
  · exact wrapSize_lt _
  · exact small

theorem roundAsymmetric_lt {settings : HeapSettings} {varSize : Nat}
    (small : varSize < 2 ^ 64) : roundAsymmetric settings varSize < 2 ^ 64 := by
  unfold roundAsymmetric
  split
  · exact wrapSize_lt _
  · exact small

/-! ## One heap -/

/--
The usage record is `ahead`, and the sizes of the live slots without those of
`apart`; these hold the block at the address `record`.
-/
structure Counts (heap : Heap) (apart : Finset Nat) (record ahead : Nat) :
    Prop where
  inside : Inside heap
  placed : ∀ slot ∈ apart, heap.feb slot = true ∧ heap.addr slot = record
  small : ∀ slot, heap.feb slot = true → heap.size slot < 2 ^ 64
  counted : ∃ info, heap.memInfo = some info ∧
    info.currentHeapUsage = wrapSize (ahead + liveSize heap apart)

section Calls

variable {settings : HeapSettings} {heap heap' : Heap} {apart : Finset Nat}
  {record ahead slot taken varSize : Nat} {allocation : Allocation}

section

variable (counts : Counts heap apart record ahead)

include counts

theorem Counts.allocatedList (allocatedList : List AllocDpSlot) :
    Counts (heap.books heap.memInfo allocatedList) apart record ahead :=
  { counts with inside := counts.inside.books }

/-- A slot elsewhere than the block set apart is counted. -/
theorem Counts.notMem (elsewhere : apart.Nonempty → heap.addr slot ≠ record) : slot ∉ apart :=
  fun member => elsewhere ⟨slot, member⟩ (counts.placed slot member).2

/-- An allocation adds to the record what it takes. -/
theorem Counts.grow (fills : Fills heap heap' taken varSize) (small : varSize < 2 ^ 64)
    (allocatedList : List AllocDpSlot) :
    Counts (heap'.books (heap.memInfo.map (·.grow varSize)) allocatedList)
      apart record ahead := by
  have spared : taken ∉ apart := by
    intro member
    have full := (counts.placed taken member).1
    rw [fills.wasEmpty] at full
    cases full
  obtain ⟨info, same, usage⟩ := counts.counted
  refine
    { inside := fills.inside.books
      placed := ?_
      small := ?_
      counted := ⟨info.grow varSize, by rw [same]; rfl, ?_⟩ }
  · intro slot member
    obtain ⟨full, addr⟩ := counts.placed slot member
    have different : slot ≠ taken := fun equal => spared (equal ▸ member)
    refine ⟨?_, (fills.kept slot full).1.trans addr⟩
    exact (congrFun fills.feb slot).trans ((Function.update_of_ne different _ _).trans full)
  · intro slot full
    by_cases here : slot = taken
    · subst here
      exact fills.size.trans_lt small
    · have before : heap.feb slot = true := by
        rw [← Function.update_of_ne here true heap.feb, ← fills.feb]
        exact full
      exact (fills.kept slot before).2.trans_lt (counts.small slot before)
  · calc wrapSize (info.currentHeapUsage + varSize)
        = wrapSize (ahead + liveSize heap apart + varSize) := by
          rw [usage, wrapSize_add]
      _ = wrapSize (ahead + liveSize heap' apart) := by
          rw [fills.liveSize_eq counts.inside spared, Nat.add_assoc]

/-- A deallocation takes off the record what the slot had. -/
theorem Counts.emptySlot {info : MemUsageInfo} (hasInfo : heap.memInfo = some info)
    (full : heap.feb slot = true) (spared : slot ∉ apart) {allocatedList : List AllocDpSlot}
    (emptied : emptySlot
      (heap.books (some (info.shrink (heap.size slot))) allocatedList) slot = .ok heap') :
    Counts heap' apart record ahead := by
  have frees : Frees
      (heap.books (some (info.shrink (heap.size slot))) allocatedList)
        heap' slot :=
    emptySlot_frees counts.inside.books (counts.inside.lt full) emptied
  have before : ∀ other, heap'.feb other = true → other ≠ slot ∧ heap.feb other = true := by
    intro other stillFull
    rw [frees.feb] at stillFull
    have different : other ≠ slot := by
      rintro rfl
      rw [Function.update_self] at stillFull
      cases stillFull
    rw [Function.update_of_ne different] at stillFull
    exact ⟨different, stillFull⟩
  refine
    { inside := frees.inside
      placed := ?_
      small := ?_
      counted := ⟨_, frees.memInfo, ?_⟩ }
  · intro other member
    obtain ⟨otherFull, addr⟩ := counts.placed other member
    have different : other ≠ slot := fun equal => spared (equal ▸ member)
    refine ⟨?_, (frees.kept other different otherFull).1.trans addr⟩
    exact (congrFun frees.feb other).trans ((Function.update_of_ne different _ _).trans otherFull)
  · intro other stillFull
    obtain ⟨different, otherFull⟩ := before other stillFull
    exact (frees.kept other different otherFull).2.trans_lt (counts.small other otherFull)
  · obtain ⟨counted, same, usage⟩ := counts.counted
    obtain rfl : counted = info := Option.some.inj (same.symm.trans hasInfo)
    have sizes : liveSize heap' apart + heap.size slot = liveSize heap apart :=
      frees.liveSize_eq counts.inside.books full spared
    calc wrapSize (counted.currentHeapUsage + 2 ^ 64 - heap.size slot)
        = wrapSize (wrapSize (ahead + liveSize heap' apart + heap.size slot) +
            2 ^ 64 - heap.size slot) := by
          rw [usage, Nat.add_assoc, sizes]
      _ = wrapSize (ahead + liveSize heap' apart) := wrapSize_sub (counts.small slot full) _

end

/-! ## The slots that are found -/

theorem Inside.findEmptySlotAbove (inside : Inside heap)
    (found : findEmptySlotAbove heap heap.commonSlot varSize = .ok (some slot)) :
    heap.feb slot = false ∧ slot < heap.slotCount := by
  obtain ⟨first, walked, finds⟩ := bind_eq_ok.mp found
  have firstLt : first < heap.slotCount :=
    walkToEnd_holds inside.prevEmpty inside.commonSlot (ofWalk_eq_ok walked)
  obtain ⟨lt, fits⟩ := walkFind_holds inside.nextEmpty
    (fun _ same => Option.some.inj same ▸ firstLt) (ofWalk_eq_ok finds)
  exact ⟨(Arranged.fitsEmpty_iff.mp fits).1, lt⟩

theorem Inside.findEmptySlotBelow (inside : Inside heap)
    (found : findEmptySlotBelow heap heap.commonSlot varSize = .ok (some slot)) :
    heap.feb slot = false ∧ slot < heap.slotCount := by
  obtain ⟨last, walked, finds⟩ := bind_eq_ok.mp found
  have lastLt : last < heap.slotCount :=
    walkToEnd_holds inside.nextEmpty inside.commonSlot (ofWalk_eq_ok walked)
  obtain ⟨lt, fits⟩ := walkFind_holds inside.prevEmpty
    (fun _ same => Option.some.inj same ▸ lastLt) (ofWalk_eq_ok finds)
  exact ⟨(Arranged.fitsEmpty_iff.mp fits).1, lt⟩

theorem holdsAddress_iff {address : Nat} :
    holdsAddress heap address slot = true ↔ heap.feb slot = true ∧ heap.addr slot = address := by
  simp [holdsAddress]

theorem findSlotBelow_holds {address start : Nat}
    (found : findSlotBelow heap start address = .ok (some slot)) :
    heap.feb slot = true ∧ heap.addr slot = address :=
  holdsAddress_iff.mp (walkFind_passes (ofWalk_eq_ok found))

theorem findSlotAbove_holds {address start : Nat}
    (found : findSlotAbove settings heap start address = .ok (some slot)) :
    heap.feb slot = true ∧ heap.addr slot = address := by
  obtain ⟨stopped, walked, same⟩ := map_eq_ok.mp found
  cases stopped with
  | none => cases same
  | some stoppedAt =>
      dsimp only [Option.bind_some] at same
      split at same
      · cases same
      · rename_i notBefore
        cases same
        have stops := walkFind_passes (ofWalk_eq_ok walked)
        simp only [stopsAbove, Bool.or_eq_true, decide_eq_true_eq] at stops
        exact holdsAddress_iff.mp (stops.resolve_left notBefore)

theorem findSlot_holds {address : Nat} (found : findSlot settings heap address = .ok (some slot)) :
    heap.feb slot = true ∧ heap.addr slot = address := by
  obtain ⟨above, finds, rest⟩ := bind_eq_ok.mp found
  cases above with
  | some other =>
      cases rest
      exact findSlotAbove_holds finds
  | none => exact findSlotBelow_holds rest

/-! ## The calls -/

section

variable (counts : Counts heap apart record ahead)

include counts

theorem Counts.allocatableAllocate {requested : Nat} {dp : Option Nat} (small : requested < 2 ^ 64)
    (allocated : allocatableAllocate settings heap requested dp = .ok (heap', allocation)) :
    Counts heap' apart record ahead := by
  unfold SharedMemorySlots.allocatableAllocate at allocated
  obtain ⟨found, finds, took⟩ := bind_eq_ok.mp allocated
  cases found with
  | none => cases took
  | some slot =>
      obtain ⟨isEmpty, lt⟩ := counts.inside.findEmptySlotAbove finds
      obtain ⟨stored, stores, same⟩ := map_eq_ok.mp took
      rw [takeFromTop_books] at stores
      obtain ⟨list, rfl, -⟩ := storeSlotInfo_eq_ok stores
      cases same
      exact counts.grow (takeFromTop_fills counts.inside isEmpty lt)
        (roundAllocatable_lt small) list

theorem Counts.takeAsymmetric
    (small : varSize < 2 ^ 64) (isEmpty : heap.feb slot = false) (lt : slot < heap.slotCount)
    (took : takeAsymmetric heap slot varSize = .ok (heap', allocation)) :
    Counts heap' apart record ahead := by
  unfold SharedMemorySlots.takeAsymmetric at took
  split at took
  · cases took
  · rename_i info hasInfo
    dsimp only at took
    rw [takeFromBottom_books] at took
    cases took
    obtain ⟨taken, fills⟩ : ∃ taken, Fills heap (takeFromBottom heap slot varSize) taken varSize :=
      takeFromBottom_fills counts.inside isEmpty lt
    have grown := counts.grow fills small heap.allocatedList
    rw [hasInfo] at grown
    exact grown

theorem Counts.asymmetricAllocate {requested : Nat} (small : requested < 2 ^ 64)
    (allocated : asymmetricAllocate settings heap requested = .ok (heap', allocation)) :
    Counts heap' apart record ahead := by
  unfold SharedMemorySlots.asymmetricAllocate at allocated
  obtain ⟨found, finds, took⟩ := bind_eq_ok.mp allocated
  split at took
  · split at took
    · cases took
    · cases took
      exact counts
  · cases took
  · split at took
    · cases took
      exact counts
    · obtain ⟨isEmpty, lt⟩ := counts.inside.findEmptySlotBelow finds
      exact counts.takeAsymmetric (roundAsymmetric_lt small) isEmpty lt took

theorem Counts.asymmetricAllocateIfPossible {requested : Nat} (small : requested < 2 ^ 64)
    (allocated : asymmetricAllocateIfPossible settings heap requested = .ok (heap', allocation)) :
    Counts heap' apart record ahead := by
  unfold SharedMemorySlots.asymmetricAllocateIfPossible at allocated
  obtain ⟨found, finds, took⟩ := bind_eq_ok.mp allocated
  cases found with
  | none =>
      cases took
      exact counts
  | some slot =>
      obtain ⟨isEmpty, lt⟩ := counts.inside.findEmptySlotBelow finds
      exact counts.takeAsymmetric (roundAsymmetric_lt small) isEmpty lt took

theorem Counts.deallocate {address : Nat} (spares : apart.Nonempty → address ≠ record)
    (deallocated : deallocate settings heap address = .ok heap') :
    Counts heap' apart record ahead := by
  unfold SharedMemorySlots.deallocate at deallocated
  obtain ⟨found, finds, empties⟩ := bind_eq_ok.mp deallocated
  cases found with
  | none =>
      cases empties
      exact counts
  | some slot =>
      obtain ⟨full, addr⟩ := findSlot_holds finds
      obtain ⟨deleted, deletes, empties⟩ := bind_eq_ok.mp empties
      obtain ⟨list, rfl, -⟩ := deleteSlotInfo_eq_ok deletes
      split at empties
      · cases empties
      · rename_i info hasInfo
        exact counts.emptySlot hasInfo full (counts.notMem (addr.symm ▸ spares)) empties

theorem Counts.asymmetricDeallocate {address : Nat} (spares : apart.Nonempty → address ≠ record)
    (deallocated : asymmetricDeallocate settings heap address = .ok heap') :
    Counts heap' apart record ahead := by
  unfold SharedMemorySlots.asymmetricDeallocate at deallocated
  obtain ⟨found, finds, empties⟩ := bind_eq_ok.mp deallocated
  cases found with
  | none =>
      dsimp only at empties
      split at empties
      · cases empties
      · cases empties
        exact counts
  | some slot =>
      obtain ⟨full, addr⟩ := findSlotBelow_holds finds
      dsimp only at empties
      split at empties
      · cases empties
      · rename_i info hasInfo
        exact counts.emptySlot hasInfo full (counts.notMem (addr.symm ▸ spares)) empties

/-- Every call keeps the record true. -/
theorem Counts.call {call : HeapCall} (sized : call.Sized)
    (spares : apart.Nonempty → call.Spares record)
    (called : heap.call settings call = .ok (heap', allocation)) :
    Counts heap' apart record ahead := by
  cases call with
  | allocate requested dp => exact counts.allocatableAllocate sized called
  | asymmetricAllocate requested =>
      exact counts.asymmetricAllocate sized called
  | asymmetricAllocateIfPossible requested =>
      exact counts.asymmetricAllocateIfPossible sized called
  | deallocate address =>
      obtain ⟨after, deallocated, same⟩ := map_eq_ok.mp called
      cases same
      exact counts.deallocate spares deallocated
  | asymmetricDeallocate address =>
      obtain ⟨after, deallocated, same⟩ := map_eq_ok.mp called
      cases same
      exact counts.asymmetricDeallocate spares deallocated

end

end Calls

/-! ## The two heaps -/

/-- The heap of the initial team, and that of all other teams. -/
inductive TeamHeap where
  | initial
  | child
deriving DecidableEq, Repr

namespace TeamHeap

/-- The slot of `mem_info` is charged by `comm_init`, and not counted again. -/
def apart : TeamHeap → Finset Nat
  | initial => {0}
  | child => ∅

/-- What `comm_init` charges a heap before it counts. -/
def ahead (teamsHeapSize : Nat) : TeamHeap → Nat
  | initial => teamsHeapSize + sizeofMemUsageInfo
  | child => 0

theorem eq_initial_of_nonempty {which : TeamHeap}
    (nonempty : which.apart.Nonempty) : which = initial := by
  cases which with
  | initial => rfl
  | child => exact absurd nonempty Finset.not_nonempty_empty

end TeamHeap

namespace TeamHeaps

/-- One of the heaps. -/
def heapOf (state : TeamHeaps) : TeamHeap → Heap
  | .initial => state.initHeap
  | .child => state.childHeap

/-- The heap that `MEMORY_SLOT_SELECT` chooses. -/
def selects (state : TeamHeaps) : TeamHeap :=
  if state.current.depth = 0 then .initial else .child

theorem selects_eq_initial {state : TeamHeaps} :
    state.selects = .initial ↔ state.current.depth = 0 := by
  unfold selects
  split <;> simp [*]

theorem selected_eq (state : TeamHeaps) :
    state.selected =
      (state.heapOf state.selects).books (state.heapOf state.selects).memInfo
        state.current.allocatedList := by
  unfold selected selects
  split <;> rfl

theorem heapOf_save (state : TeamHeaps) (heap : Heap) (which : TeamHeap) :
    (state.save heap).heapOf which =
      if state.selects = which then heap else state.heapOf which := by
  unfold save selects
  cases which <;> split <;> simp [heapOf]

end TeamHeaps

/-! ## The condition on the calls -/

/--
For one heap: END TEAM finds nothing to free in it, and `deallocate_within`
frees a live slot that does not hold a usage record.
-/
def TeamCall.Counted (settings : HeapSettings) (which : TeamHeap)
    (state : TeamHeaps) : TeamCall → Prop
  | .endTeam => state.selects = which → state.current.allocatedList = []
  | .withinIteration =>
      state.selects = which →
        ∀ slot ∈ state.withinSlot, state.selected.feb slot = true ∧
          (which = .initial → state.selected.addr slot ∉ recordAddrs settings)
  | _ => True

/-- One call that meets the condition. -/
def TeamHeaps.CountedStep (settings : HeapSettings) (which : TeamHeap)
    (before after : TeamHeaps) : Prop :=
  ∃ call : TeamCall, call.Permitted settings before ∧
    call.Counted settings which before ∧ before.perform settings call = .ok after

/-! ## One of the heaps -/

/-- The record of a heap is true. -/
def TeamHeaps.Counting (settings : HeapSettings) (teamsHeapSize : Nat)
    (which : TeamHeap) (state : TeamHeaps) : Prop :=
  Counts (state.heapOf which) which.apart settings.segmentAddr
    (which.ahead teamsHeapSize)

namespace TeamHeaps

variable {settings : HeapSettings} {teamsHeapSize : Nat} {which : TeamHeap}
  {state after : TeamHeaps} {heap heap' : Heap}

section

variable (counting : state.Counting settings teamsHeapSize which)

include counting

/-- What keeps the record of the selected heap true may be saved. -/
theorem Counting.save
    (keeps : state.selects = which →
      Counts state.selected which.apart settings.segmentAddr
          (which.ahead teamsHeapSize) →
        Counts heap' which.apart settings.segmentAddr (which.ahead teamsHeapSize)) :
    (state.save heap').Counting settings teamsHeapSize which := by
  unfold Counting
  rw [heapOf_save]
  split
  · rename_i isSelected
    apply keeps isSelected
    rw [selected_eq, isSelected]
    exact counting.allocatedList _
  · exact counting

/-- A call into a heap keeps the record of either heap true. -/
theorem Counting.callHeap {call : HeapCall} {allocation : Allocation}
    (permitted : (TeamCall.heap call).Permitted settings state)
    (called : state.callHeap settings call = .ok (after, allocation)) :
    after.Counting settings teamsHeapSize which := by
  obtain ⟨-, sized, spares⟩ := permitted
  unfold TeamHeaps.callHeap at called
  split at called
  · obtain ⟨⟨heap', given⟩, runs, same⟩ := map_eq_ok.mp called
    cases same
    apply counting.save
    intro isSelected counts
    refine counts.call sized (fun nonempty => ?_) runs
    have isInitial : state.current.depth = 0 :=
      selects_eq_initial.mp (isSelected.trans (TeamHeap.eq_initial_of_nonempty nonempty))
    exact spares (Or.inr isInitial) _ List.mem_cons_self
  · rename_i notCollective
    obtain ⟨⟨heap', given⟩, runs, same⟩ := map_eq_ok.mp called
    cases same
    cases which with
    | initial =>
        have notCollective : call.collective = false := Bool.eq_false_of_not_eq_true notCollective
        exact Counts.call counting sized
          (fun _ => spares (Or.inl notCollective) _ List.mem_cons_self) runs
    | child => exact counting

theorem Counting.changeTeam {team : Nat} (changed : state.changeTeam team = .ok after) :
    after.Counting settings teamsHeapSize which := by
  unfold TeamHeaps.changeTeam at changed
  split at changed
  · cases changed
  · split at changed
    · cases changed
    · split at changed
      · cases changed
      · cases changed
        cases which <;> split <;> exact counting

theorem Counting.restoreList :
    state.restoreList.Counting settings teamsHeapSize which := by
  unfold TeamHeaps.restoreList
  split
  · cases which <;> exact counting
  · exact counting

/-- END TEAM frees nothing where nothing is left in the list. -/
theorem Counting.endTeam (nothing : state.selects = which → state.current.allocatedList = [])
    (ended : state.endTeam settings = .ok after) :
    after.Counting settings teamsHeapSize which := by
  unfold TeamHeaps.endTeam at ended
  split at ended
  · cases ended
  · obtain ⟨freed, frees, ended⟩ := bind_eq_ok.mp ended
    split at ended
    · cases ended
    · cases ended
      have saved : (state.save freed).Counting settings teamsHeapSize which := by
        apply counting.save
        intro isSelected counts
        have listed : state.selected.allocatedList = [] := by
          rw [selected_eq]
          exact nothing isSelected
        unfold deallocateTeamAll at frees
        rw [listed] at frees
        cases frees
        exact counts
      cases which <;> exact saved.restoreList

theorem Counting.deallocateWithin
    {startAddr endAddr : Nat} (entered : state.deallocateWithin startAddr endAddr = .ok after) :
    after.Counting settings teamsHeapSize which := by
  unfold TeamHeaps.deallocateWithin at entered
  split at entered
  · cases entered
    exact counting
  · obtain ⟨found, -, entered⟩ := bind_eq_ok.mp entered
    cases found with
    | none => cases entered
    | some slot =>
        cases entered
        cases which <;> exact counting

/-- An iteration that frees a live slot takes its size off the record. -/
theorem Counting.withinIteration (counted : TeamCall.withinIteration.Counted settings which state)
    (iterated : state.withinIteration = .ok after) :
    after.Counting settings teamsHeapSize which := by
  unfold TeamHeaps.withinIteration at iterated
  split at iterated
  · cases iterated
    cases which <;> exact counting
  · cases iterated
  · rename_i slot info next hasInfo
    obtain ⟨emptied, empties, same⟩ := map_eq_ok.mp iterated
    cases same
    have saved : (state.save emptied).Counting settings teamsHeapSize which := by
      apply counting.save
      intro isSelected counts
      obtain ⟨full, elsewhere⟩ := counted isSelected slot next
      refine counts.emptySlot hasInfo full (counts.notMem ?_) empties
      intro nonempty same
      exact elsewhere (TeamHeap.eq_initial_of_nonempty nonempty) (same ▸ List.mem_cons_self)
    cases which <;> exact saved

/-- A call that meets the condition keeps the record of the heap true. -/
theorem Counting.perform {call : TeamCall} (permitted : call.Permitted settings state)
    (counted : call.Counted settings which state)
    (performed : state.perform settings call = .ok after) :
    after.Counting settings teamsHeapSize which := by
  cases call with
  | heap call =>
      obtain ⟨⟨next, given⟩, called, same⟩ := map_eq_ok.mp performed
      cases same
      exact counting.callHeap permitted called
  | formTeam reused =>
      cases performed
      cases which <;> exact counting
  | changeTeam team => exact counting.changeTeam performed
  | endTeam => exact counting.endTeam counted performed
  | deallocateWithin startAddr endAddr =>
      exact counting.deallocateWithin performed
  | withinIteration => exact counting.withinIteration counted performed

end

end TeamHeaps

/-! ## Set-up -/

theorem inside_initialHeap (settings : HeapSettings)
    (memInfo : Option MemUsageInfo) : Inside (initialHeap settings memInfo) where
  next := fun _ _ linked => nomatch linked
  prev := fun _ _ linked => nomatch linked
  nextEmpty := fun _ _ linked => nomatch linked
  prevEmpty := fun _ _ linked => nomatch linked
  commonSlot := Nat.zero_lt_one
  beyond := fun _ _ => rfl

theorem liveSlots_initialHeap (settings : HeapSettings) (memInfo : Option MemUsageInfo) :
    liveSlots (initialHeap settings memInfo) = ∅ :=
  Finset.filter_false_of_mem fun _ _ => Bool.false_ne_true

theorem counts_initialHeap (settings : HeapSettings) (record : Nat)
    {info : MemUsageInfo} (unused : info.currentHeapUsage = 0) :
    Counts (initialHeap settings (some info)) ∅ record 0 where
  inside := inside_initialHeap settings _
  placed := fun _ member => absurd member (Finset.notMem_empty _)
  small := fun _ full => absurd full Bool.false_ne_true
  counted := by
    refine ⟨info, rfl, ?_⟩
    rw [unused, liveSize, liveSlots_initialHeap]
    rfl

/-- The first allocation makes the slot of `mem_info`. -/
theorem counts_memInfo {settings : HeapSettings} {heap : Heap}
    {allocation : Allocation} {info : MemUsageInfo} {ahead : Nat}
    (allocated : allocatableAllocate settings (initialHeap settings none)
      sizeofMemUsageInfo none = .ok (heap, allocation))
    (charged : info.currentHeapUsage = wrapSize ahead) :
    Counts (heap.books (some info) heap.allocatedList) {0}
      settings.segmentAddr ahead := by
  have inside := inside_initialHeap settings none
  obtain ⟨slot, memInfo, list, finds, rfl, -, -⟩ := allocatableAllocate_eq_ok allocated
  obtain ⟨isEmpty, lt⟩ := inside.findEmptySlotAbove finds
  obtain rfl : slot = 0 := Nat.lt_one_iff.mp lt
  have fills : Fills (initialHeap settings none)
      (takeFromTop (initialHeap settings none) 0 (roundAllocatable settings sizeofMemUsageInfo)) 0
      (roundAllocatable settings sizeofMemUsageInfo) :=
    takeFromTop_fills inside isEmpty lt
  have onlyFull : ∀ other,
      (takeFromTop (initialHeap settings none) 0
        (roundAllocatable settings sizeofMemUsageInfo)).feb other = true → other = 0 := by
    intro other full
    rw [fills.feb] at full
    by_contra different
    rw [Function.update_of_ne different] at full
    cases full
  refine
    { inside := fills.inside.books
      placed := ?_
      small := ?_
      counted := ⟨info, rfl, ?_⟩ }
  · intro other member
    obtain rfl := Finset.mem_singleton.mp member
    exact ⟨(congrFun fills.feb 0).trans (Function.update_self _ _ _), rfl⟩
  · intro other full
    obtain rfl := onlyFull other full
    exact fills.size.trans_lt (roundAllocatable_lt (by decide))
  · have single := fills.liveSlots_eq inside
    rw [liveSlots_initialHeap] at single
    have nothing : liveSize
        ((takeFromTop (initialHeap settings none) 0
          (roundAllocatable settings sizeofMemUsageInfo)).books (some info) list)
        {0} = 0 := by
      change ∑ live ∈ liveSlots (takeFromTop (initialHeap settings none) 0
          (roundAllocatable settings sizeofMemUsageInfo)) \ {0}, _ = 0
      rw [single]
      simp
    exact charged.trans (congrArg (fun size => wrapSize (ahead + size)) nothing.symm)

theorem TeamHeaps.Initial.counting {settings : HeapSettings}
    {teamsHeapSize : Nat} {state : TeamHeaps}
    (initial : state.Initial settings teamsHeapSize) (which : TeamHeap) :
    state.Counting settings teamsHeapSize which := by
  obtain ⟨⟨first, firstAddr⟩, allocatesFirst, rest⟩ := bind_eq_ok.mp initial
  obtain ⟨⟨second, secondAddr⟩, allocatesSecond, rfl⟩ := map_eq_ok.mp rest
  cases which with
  | initial =>
      have counts : Counts
          (first.books (some (initialMemInfo settings teamsHeapSize))
            first.allocatedList) {0} settings.segmentAddr (teamsHeapSize + sizeofMemUsageInfo) :=
        counts_memInfo allocatesFirst rfl
      exact counts.allocatableAllocate (by decide) allocatesSecond
  | child => exact counts_initialHeap _ _ rfl

/-! ## Runs -/

/--
The record of a heap is, in `size_t`, what its live slots add up to on top of
`ahead`.  As long as so much fits, it is that number, and the size of any live
slot can be taken off it.
-/
def Accounted (heap : Heap) (apart : Finset Nat) (ahead : Nat) : Prop :=
  ∃ info, heap.memInfo = some info ∧
    info.currentHeapUsage = wrapSize (ahead + liveSize heap apart) ∧
    (ahead + liveSize heap apart < 2 ^ 64 →
      info.currentHeapUsage = ahead + liveSize heap apart ∧
        ∀ slot ∈ liveSlots heap \ apart,
          heap.size slot ≤ info.currentHeapUsage)

theorem Counts.accounted {heap : Heap} {apart : Finset Nat}
    {record ahead : Nat} (counts : Counts heap apart record ahead) :
    Accounted heap apart ahead := by
  obtain ⟨info, same, usage⟩ := counts.counted
  refine ⟨info, same, usage, ?_⟩
  intro fits
  have exactUsage : info.currentHeapUsage = ahead + liveSize heap apart :=
    usage.trans (Nat.mod_eq_of_lt fits)
  refine ⟨exactUsage, ?_⟩
  intro slot live
  calc heap.size slot
      ≤ liveSize heap apart := Finset.single_le_sum (fun _ _ => Nat.zero_le _) live
    _ ≤ ahead + liveSize heap apart := Nat.le_add_left _ _
    _ = info.currentHeapUsage := exactUsage.symm

/-- The record of one of the heaps, with the slot of `mem_info` in place. -/
structure TeamHeaps.Accounted (settings : HeapSettings) (teamsHeapSize : Nat)
    (which : TeamHeap) (state : TeamHeaps) : Prop where
  memInfoSlot : ∀ slot ∈ which.apart,
    slot ∈ liveSlots (state.heapOf which) ∧ (state.heapOf which).addr slot = settings.segmentAddr
  usage : SharedMemorySlots.Accounted (state.heapOf which) which.apart
    (which.ahead teamsHeapSize)

/--
In a run whose END TEAM statements have nothing left to free in a heap, and
whose calls of `deallocate_within` pass over its live slots only, the usage
record of that heap is what its live slots add up to.
-/
theorem heapUsage_accounts_for_live_slots (settings : HeapSettings)
    (teamsHeapSize : Nat) (which : TeamHeap) {state : TeamHeaps}
    (reached : Reachable (TeamHeaps.Initial settings teamsHeapSize)
      (TeamHeaps.CountedStep settings which) state) :
    state.Accounted settings teamsHeapSize which := by
  have counting : state.Counting settings teamsHeapSize which := by
    refine reached.invariant (fun _ initial => initial.counting which) ?_
    rintro before after counting ⟨call, permitted, counted, performed⟩
    exact counting.perform permitted counted performed
  refine { memInfoSlot := ?_, usage := Counts.accounted counting }
  intro slot member
  obtain ⟨full, addr⟩ := Counts.placed counting slot member
  exact ⟨(Counts.inside counting).mem_liveSlots.mpr full, addr⟩

/-! ## Fixed runs -/

instance HeapCall.decidableSized (call : HeapCall) : Decidable call.Sized :=
  match call with
  | .allocate _ _ => inferInstanceAs (Decidable (_ < _))
  | .asymmetricAllocate _ => inferInstanceAs (Decidable (_ < _))
  | .asymmetricAllocateIfPossible _ => inferInstanceAs (Decidable (_ < _))
  | .deallocate _ => inferInstanceAs (Decidable True)
  | .asymmetricDeallocate _ => inferInstanceAs (Decidable True)

instance HeapCall.decidableSpares (address : Nat) (call : HeapCall) :
    Decidable (call.Spares address) :=
  match call with
  | .allocate _ _ => inferInstanceAs (Decidable True)
  | .asymmetricAllocate _ => inferInstanceAs (Decidable True)
  | .asymmetricAllocateIfPossible _ => inferInstanceAs (Decidable True)
  | .deallocate _ => inferInstanceAs (Decidable (_ ≠ _))
  | .asymmetricDeallocate _ => inferInstanceAs (Decidable (_ ≠ _))

instance TeamCall.decidablePermitted (settings : HeapSettings)
    (state : TeamHeaps) (call : TeamCall) :
    Decidable (call.Permitted settings state) :=
  match call with
  | .heap _ => inferInstanceAs (Decidable (_ ∧ _ ∧ _))
  | .formTeam _ => inferInstanceAs (Decidable (_ ∧ ∀ team ∈ _, _))
  | .changeTeam _ => inferInstanceAs (Decidable (_ = _))
  | .endTeam => inferInstanceAs (Decidable (_ = _))
  | .deallocateWithin _ _ => inferInstanceAs (Decidable (_ = _))
  | .withinIteration => inferInstanceAs (Decidable (_ ≠ _))

instance TeamCall.decidableCounted (settings : HeapSettings)
    (which : TeamHeap) (state : TeamHeaps) (call : TeamCall) :
    Decidable (call.Counted settings which state) :=
  match call with
  | .heap _ => inferInstanceAs (Decidable True)
  | .formTeam _ => inferInstanceAs (Decidable True)
  | .changeTeam _ => inferInstanceAs (Decidable True)
  | .endTeam => inferInstanceAs (Decidable (_ = _ → _))
  | .deallocateWithin _ _ => inferInstanceAs (Decidable True)
  | .withinIteration =>
      inferInstanceAs (Decidable (_ = _ → ∀ slot ∈ _, _))

namespace TeamHeaps

/-- Perform a call if it is permitted and succeeds. -/
def move (settings : HeapSettings) (state : TeamHeaps) (call : TeamCall) : Option TeamHeaps :=
  if call.Permitted settings state then
    (state.perform settings call).toOption
  else
    none

theorem move_eq_some {settings : HeapSettings} {before after : TeamHeaps}
    {call : TeamCall} (moved : before.move settings call = some after) :
    call.Permitted settings before ∧ before.perform settings call = .ok after := by
  unfold move at moved
  split at moved
  · rename_i permitted
    exact ⟨permitted, eq_ok_of_toOption moved⟩
  · cases moved

theorem step_of_move {settings : HeapSettings} (before : TeamHeaps)
    (call : TeamCall) (after : TeamHeaps) (moved : before.move settings call = some after) :
    Step settings before after :=
  ⟨call, move_eq_some moved⟩

/-- Perform a call if it also meets the condition. -/
def countedMove (settings : HeapSettings) (which : TeamHeap)
    (state : TeamHeaps) (call : TeamCall) : Option TeamHeaps :=
  if call.Counted settings which state then state.move settings call else none

theorem countedStep_of_countedMove {settings : HeapSettings}
    {which : TeamHeap} (before : TeamHeaps) (call : TeamCall) (after : TeamHeaps)
    (moved : before.countedMove settings which call = some after) :
    CountedStep settings which before after := by
  unfold countedMove at moved
  split at moved
  · rename_i counted
    obtain ⟨permitted, performed⟩ := move_eq_some moved
    exact ⟨call, permitted, counted, performed⟩
  · cases moved

end TeamHeaps

theorem wordAlignment_pos : 0 < 8 := by decide

/-- A heap of 1024 bytes behind a teams heap of 128. -/
def twoHeaps : HeapSettings where
  allocByteAlignment := 8
  alignmentPositive := wordAlignment_pos
  outOfSegmentRmaEnabled := 0
  restricts := fun _ _ => false
  segmentAddr := 4096
  segmentSize := 1024

/-- Usage and live size of the initial team's heap, and of the teams heap. -/
def TeamHeaps.usages (state : TeamHeaps) : Option Nat × Nat × Option Nat × Nat :=
  (state.initHeap.memInfo.map MemUsageInfo.currentHeapUsage,
    liveSize state.initHeap ∅,
    state.childHeap.memInfo.map MemUsageInfo.currentHeapUsage,
    liveSize state.childHeap ∅)

/-- A run of calls from the state `comm_init` leaves. -/
def TeamHeaps.runFrom (move : TeamHeaps → TeamCall → Option TeamHeaps) (calls : List TeamCall) :
    Option TeamHeaps :=
  (commInit twoHeaps 128).toOption.bind fun first => runAll move first calls

theorem TeamHeaps.reached_of_runFrom {step : TeamHeaps → TeamHeaps → Prop}
    {move : TeamHeaps → TeamCall → Option TeamHeaps}
    (moves : ∀ before call after, move before call = some after → step before after)
    {calls : List TeamCall} {last : TeamHeaps}
    (ran : runFrom move calls = some last) :
    Reachable (Initial twoHeaps 128) step last := by
  obtain ⟨first, initial, runs⟩ := Option.bind_eq_some_iff.mp ran
  exact Reachable.runAll moves (.start (eq_ok_of_toOption initial)) runs

/-- Blocks in both heaps, freed by address or with `deallocate_within`. -/
def countedCalls : List TeamCall :=
  [.heap (.allocate 30 none), .heap (.asymmetricAllocate 10),
    .heap (.allocate 8 none), .deallocateWithin 4144 4176, .withinIteration,
    .withinIteration, .formTeam none, .changeTeam 1, .heap (.allocate 20 none),
    .heap (.deallocate 3968), .endTeam, .changeTeam 1,
    .heap (.allocate 16 none)]

/-- A block that END TEAM frees. -/
def implicitlyFreedCalls : List TeamCall :=
  [.formTeam none, .changeTeam 1, .heap (.allocate 30 none), .endTeam]

theorem countedCalls_usages (which : TeamHeap) :
    (TeamHeaps.runFrom (TeamHeaps.countedMove twoHeaps which)
      countedCalls).map TeamHeaps.usages = some (some 200, 72, some 16, 16) := by
  cases which <;> decide +kernel

theorem implicitlyFreedCalls_usages :
    (TeamHeaps.runFrom (TeamHeaps.move twoHeaps)
      implicitlyFreedCalls).map TeamHeaps.usages = some (some 176, 48, some 32, 0) := by
  decide +kernel

theorem heapUsage_accounts_for_live_slots_twoHeaps :
    ∃ initial child : TeamHeaps,
      initial.usages = (some 200, 72, some 16, 16) ∧
        initial.Accounted twoHeaps 128 .initial ∧
      child.usages = (some 200, 72, some 16, 16) ∧ child.Accounted twoHeaps 128 .child := by
  obtain ⟨initial, ranInitial, initialUsages⟩ :=
    Option.map_eq_some_iff.mp (countedCalls_usages .initial)
  obtain ⟨child, ranChild, childUsages⟩ := Option.map_eq_some_iff.mp (countedCalls_usages .child)
  have reachedInitial :=
    TeamHeaps.reached_of_runFrom TeamHeaps.countedStep_of_countedMove ranInitial
  have reachedChild := TeamHeaps.reached_of_runFrom TeamHeaps.countedStep_of_countedMove ranChild
  exact ⟨initial, child, initialUsages,
    heapUsage_accounts_for_live_slots twoHeaps 128 .initial reachedInitial,
    childUsages,
    heapUsage_accounts_for_live_slots twoHeaps 128 .child reachedChild⟩

/-- Neither record is the sum of the sizes of all live slots. -/
theorem heapUsage_not_liveSize :
    (¬ ∀ (settings : HeapSettings) (teamsHeapSize : Nat) (state : TeamHeaps),
      Reachable (TeamHeaps.Initial settings teamsHeapSize)
          (TeamHeaps.Step settings) state →
        state.initHeap.memInfo.map MemUsageInfo.currentHeapUsage =
          some (liveSize state.initHeap ∅)) ∧
    ¬ ∀ (settings : HeapSettings) (teamsHeapSize : Nat) (state : TeamHeaps),
      Reachable (TeamHeaps.Initial settings teamsHeapSize)
          (TeamHeaps.Step settings) state →
        state.childHeap.memInfo.map MemUsageInfo.currentHeapUsage =
          some (liveSize state.childHeap ∅) := by
  obtain ⟨state, ran, usages⟩ := Option.map_eq_some_iff.mp implicitlyFreedCalls_usages
  simp only [TeamHeaps.usages, Prod.mk.injEq] at usages
  obtain ⟨initUsage, initLive, childUsage, childLive⟩ := usages
  have reached : Reachable (TeamHeaps.Initial twoHeaps 128)
      (TeamHeaps.Step twoHeaps) state :=
    TeamHeaps.reached_of_runFrom TeamHeaps.step_of_move ran
  constructor
  · intro equal
    have same := equal twoHeaps 128 state reached
    rw [initUsage, initLive] at same
    revert same
    decide
  · intro equal
    have same := equal twoHeaps 128 state reached
    rw [childUsage, childLive] at same
    revert same
    decide

end OpenUH.Libcaf.SharedMemorySlots
