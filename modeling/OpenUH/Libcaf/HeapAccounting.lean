import OpenUH.Libcaf.HeapCalls
import OpenUH.Libcaf.TeamHeaps
import Mathlib.Algebra.Order.BigOperators.Group.Finset

/-!
# What the usage records count

What an allocation adds to the live slots of a heap, and what emptying a slot
takes away.  Nothing here needs the links to be right: a link that leads to
some slot of the heap is enough.
-/

namespace OpenUH.Libcaf.SharedMemorySlots

open Foundation.Fallible
open Foundation.Succession
open Function (update_eq_self update_of_ne update_self)

/-! ## Links inside the heap -/

/-- The links of a field lead to numbers below a bound. -/
def LinksBelow (bound : Nat) (link : Nat → Option Nat) : Prop :=
  ∀ slot other, link slot = some other → other < bound

namespace LinksBelow

variable {bound : Nat} {link source : Nat → Option Nat}

theorem mono {larger : Nat} (below : LinksBelow bound link)
    (le : bound ≤ larger) : LinksBelow larger link := by
  intro slot other linked
  exact Nat.lt_of_lt_of_le (below slot other linked) le

theorem update (below : LinksBelow bound link) (slot : Nat)
    {target : Option Nat} (lt : ∀ other, target = some other → other < bound) :
    LinksBelow bound (Function.update link slot target) := by
  intro element other linked
  by_cases here : element = slot
  · rw [here, update_self] at linked
    exact lt other linked
  · rw [update_of_ne here] at linked
    exact below element other linked

theorem assignThrough (below : LinksBelow bound link) (pointer : Option Nat)
    {target : Option Nat} (lt : ∀ other, target = some other → other < bound) :
    LinksBelow bound (assignThrough link pointer target) := by
  cases pointer with
  | none => exact below
  | some slot => exact below.update slot lt

end LinksBelow

/-- Every link leads to a slot of the heap, and only slots are full. -/
structure Inside (heap : Heap) : Prop where
  next : LinksBelow heap.slotCount heap.next
  prev : LinksBelow heap.slotCount heap.prev
  nextEmpty : LinksBelow heap.slotCount heap.nextEmpty
  prevEmpty : LinksBelow heap.slotCount heap.prevEmpty
  commonSlot : heap.commonSlot < heap.slotCount
  beyond : ∀ slot, heap.slotCount ≤ slot → heap.feb slot = false

theorem Inside.lt {heap : Heap} (inside : Inside heap) {slot : Nat}
    (full : heap.feb slot = true) : slot < heap.slotCount := by
  by_contra outside
  rw [inside.beyond slot (Nat.le_of_not_lt outside)] at full
  cases full

/-! ## What changes -/

/-- A slot becomes full, and the other full slots stay as they are. -/
structure Fills (heap heap' : Heap) (taken varSize : Nat) : Prop where
  inside : Inside heap'
  feb : heap'.feb = Function.update heap.feb taken true
  wasEmpty : heap.feb taken = false
  size : heap'.size taken = varSize
  kept : ∀ slot, heap.feb slot = true →
    heap'.addr slot = heap.addr slot ∧ heap'.size slot = heap.size slot
  memInfo : heap'.memInfo = heap.memInfo

/-- A slot becomes empty, and the other full slots stay as they are. -/
structure Frees (heap heap' : Heap) (freed : Nat) : Prop where
  inside : Inside heap'
  feb : heap'.feb = Function.update heap.feb freed false
  kept : ∀ slot, slot ≠ freed → heap.feb slot = true →
    heap'.addr slot = heap.addr slot ∧ heap'.size slot = heap.size slot
  memInfo : heap'.memInfo = heap.memInfo

section Slots

variable {heap heap' : Heap} {slot varSize : Nat}
  {memInfo : Option MemUsageInfo} {allocatedList : List AllocDpSlot}

theorem Inside.books (inside : Inside heap) : Inside (heap.books memInfo allocatedList) :=
  { inside with }

/-! ## Taking a slot -/

theorem points_lt {bound : Nat} (lt : slot < bound) :
    ∀ other, some slot = some other → other < bound := by
  rintro other ⟨⟩
  exact lt

/-- A full slot is not the empty one that is taken. -/
theorem ne_of_full {other : Nat} (isEmpty : heap.feb slot = false)
    (full : heap.feb other = true) : other ≠ slot := by
  rintro rfl
  rw [isEmpty] at full
  cases full

section

variable (inside : Inside heap) (isEmpty : heap.feb slot = false) (lt : slot < heap.slotCount)

include inside isEmpty lt

theorem takeWhole_fills :
    Fills heap (takeWhole heap slot) slot (heap.size slot) where
  inside :=
    { next := inside.next
      prev := inside.prev
      nextEmpty :=
        (inside.nextEmpty.assignThrough _ (inside.nextEmpty slot)).update slot
          nofun
      prevEmpty :=
        (inside.prevEmpty.assignThrough _ (inside.prevEmpty slot)).update slot
          nofun
      commonSlot := inside.commonSlot
      beyond := by
        intro other outside
        have different : other ≠ slot := (Nat.lt_of_lt_of_le lt outside).ne'
        exact (update_of_ne different _ _).trans (inside.beyond other outside) }
  feb := rfl
  wasEmpty := isEmpty
  size := rfl
  kept := fun _ _ => ⟨rfl, rfl⟩
  memInfo := rfl

theorem splitFromTop_fills :
    Fills heap (splitFromTop heap slot varSize) slot varSize := by
  have fresh : heap.feb heap.slotCount = false := inside.beyond _ (Nat.le_refl _)
  have grown : heap.slotCount ≤ heap.slotCount + 1 := Nat.le_succ _
  have freshLink := points_lt (Nat.lt_succ_self heap.slotCount)
  have sameFeb : Function.update
      (Function.update heap.feb heap.slotCount false) slot true =
        Function.update heap.feb slot true := by
    rw [← fresh, update_eq_self]
  refine
    { inside :=
        { next :=
            ((inside.next.mono grown).update _ (inside.next.mono grown slot)).update slot freshLink
          prev := (inside.prev.mono grown).update _ ?_
          nextEmpty :=
            (((inside.nextEmpty.mono grown).update _
              (inside.nextEmpty.mono grown slot)).assignThrough _
                freshLink).update slot nofun
          prevEmpty :=
            (((inside.prevEmpty.mono grown).update _
              (inside.prevEmpty.mono grown slot)).assignThrough _
                freshLink).update slot nofun
          commonSlot := ?_
          beyond := ?_ }
      feb := sameFeb
      wasEmpty := isEmpty
      size := update_self _ _ _
      kept := ?_
      memInfo := rfl }
  · exact points_lt (Nat.lt_succ_of_lt lt)
  · dsimp only [splitFromTop]
    split
    · exact Nat.lt_succ_self _
    · exact Nat.lt_succ_of_lt inside.commonSlot
  · intro other outside
    have later : heap.slotCount ≤ other := Nat.le_of_succ_le outside
    have different : other ≠ slot := (Nat.lt_of_lt_of_le lt later).ne'
    exact (congrFun sameFeb other).trans
      ((update_of_ne different _ _).trans (inside.beyond other later))
  · intro other full
    have notTaken : other ≠ slot := ne_of_full isEmpty full
    have notFresh : other ≠ heap.slotCount := (inside.lt full).ne
    refine ⟨update_of_ne notFresh _ _, ?_⟩
    exact (update_of_ne notTaken _ _).trans (update_of_ne notFresh _ _)

theorem splitFromBottom_fills :
    Fills heap (splitFromBottom heap slot varSize) heap.slotCount varSize := by
  have grown : heap.slotCount ≤ heap.slotCount + 1 := Nat.le_succ _
  have freshLink := points_lt (Nat.lt_succ_self heap.slotCount)
  refine
    { inside :=
        { next :=
            ((inside.next.mono grown).update _ (inside.next.mono grown slot)).update slot freshLink
          prev := ((inside.prev.mono grown).update _ ?_).assignThrough _ freshLink
          nextEmpty :=
            (inside.nextEmpty.mono grown).update _ nofun
          prevEmpty :=
            (inside.prevEmpty.mono grown).update _ nofun
          commonSlot := Nat.lt_succ_of_lt inside.commonSlot
          beyond := ?_ }
      feb := rfl
      wasEmpty := inside.beyond _ (Nat.le_refl _)
      size := ?_
      kept := ?_
      memInfo := rfl }
  · exact points_lt (Nat.lt_succ_of_lt lt)
  · intro other outside
    have different : other ≠ heap.slotCount := (Nat.lt_of_succ_le outside).ne'
    exact (update_of_ne different _ _).trans
      (inside.beyond other (Nat.le_of_succ_le outside))
  · exact (update_of_ne lt.ne' _ _).trans (update_self _ _ _)
  · intro other full
    have notTaken : other ≠ slot := ne_of_full isEmpty full
    have notFresh : other ≠ heap.slotCount := (inside.lt full).ne
    refine ⟨update_of_ne notFresh _ _, ?_⟩
    exact (update_of_ne notTaken _ _).trans (update_of_ne notFresh _ _)

/-- An allocation for allocatable data makes the slot found full. -/
theorem takeFromTop_fills :
    Fills heap (takeFromTop heap slot varSize) slot varSize := by
  unfold takeFromTop
  split
  · rename_i whole
    exact (Arranged.takesWhole_iff.mp whole).2 ▸ takeWhole_fills inside isEmpty lt
  · exact splitFromTop_fills inside isEmpty lt

/-- An allocation for asymmetric data makes that slot or a new one full. -/
theorem takeFromBottom_fills :
    ∃ taken, Fills heap (takeFromBottom heap slot varSize) taken varSize := by
  unfold takeFromBottom
  split
  · rename_i whole
    exact ⟨slot, (Arranged.takesWhole_iff.mp whole).2 ▸ takeWhole_fills inside isEmpty lt⟩
  · exact ⟨_, splitFromBottom_fills inside isEmpty lt⟩

end

/-! ## Emptying a slot -/

/-- Once a slot is cleared, changes to the empty slots free it. -/
theorem frees_of_cleared (inside : Inside heap') (feb : heap'.feb = (clearFeb heap slot).feb)
    (kept : ∀ other, other ≠ slot →
      heap'.addr other = heap.addr other ∧ heap'.size other = heap.size other)
    (memInfo : heap'.memInfo = heap.memInfo) : Frees heap heap' slot where
  inside := inside
  feb := feb
  kept := fun other different _ => kept other different
  memInfo := memInfo

theorem Inside.clearFeb (inside : Inside heap) : Inside (clearFeb heap slot) :=
  { inside with
    beyond := by
      intro other outside
      by_cases here : other = slot
      · exact here ▸ update_self _ _ _
      · exact (update_of_ne here _ _).trans (inside.beyond other outside) }

section

variable (inside : Inside heap) (lt : slot < heap.slotCount)

include inside lt

theorem Inside.join3 {prevSlot nextSlot : Nat} :
    Inside (join3 heap slot prevSlot nextSlot) := by
  refine
    { next := (inside.next.update _ (inside.next _)).assignThrough _ (points_lt lt)
      prev := (inside.prev.update _ (inside.prev _)).assignThrough _ (points_lt lt)
      nextEmpty := (inside.nextEmpty.update _ (inside.nextEmpty _)).assignThrough _ (points_lt lt)
      prevEmpty := (inside.prevEmpty.update _ (inside.prevEmpty _)).assignThrough _ (points_lt lt)
      commonSlot := ?_
      beyond := inside.beyond }
  dsimp only [SharedMemorySlots.join3]
  split
  · exact lt
  · exact inside.commonSlot

theorem Inside.joinWithPrev {prevSlot : Nat} :
    Inside (joinWithPrev heap slot prevSlot) := by
  refine
    { next := inside.next.assignThrough _ (points_lt lt)
      prev := inside.prev.update _ (inside.prev _)
      nextEmpty := (inside.nextEmpty.assignThrough _ (points_lt lt)).update _ (inside.nextEmpty _)
      prevEmpty := (inside.prevEmpty.update _ (inside.prevEmpty _)).assignThrough _ (points_lt lt)
      commonSlot := ?_
      beyond := inside.beyond }
  dsimp only [SharedMemorySlots.joinWithPrev]
  split
  · exact lt
  · exact inside.commonSlot

theorem Inside.joinWithNext {nextSlot : Nat} :
    Inside (joinWithNext heap slot nextSlot) := by
  refine
    { next := inside.next.update _ (inside.next _)
      prev := inside.prev.assignThrough _ (points_lt lt)
      nextEmpty := (inside.nextEmpty.update _ (inside.nextEmpty _)).assignThrough _ (points_lt lt)
      prevEmpty := (inside.prevEmpty.assignThrough _ (points_lt lt)).update _ (inside.prevEmpty _)
      commonSlot := ?_
      beyond := inside.beyond }
  dsimp only [SharedMemorySlots.joinWithNext]
  split
  · exact lt
  · exact inside.commonSlot

theorem Inside.linkBefore {nextSlot : Nat} (nextLt : nextSlot < heap.slotCount) :
    Inside (linkBefore heap slot nextSlot) :=
  { inside with
    nextEmpty := inside.nextEmpty.update _ (points_lt nextLt)
    prevEmpty := (inside.prevEmpty.update _ (inside.prevEmpty _)).update _ (points_lt lt) }

theorem Inside.linkBehind {prevSlot : Nat} (prevLt : prevSlot < heap.slotCount) :
    Inside (linkBehind heap slot prevSlot) :=
  { inside with
    prevEmpty := inside.prevEmpty.update _ (points_lt prevLt)
    nextEmpty := (inside.nextEmpty.update _ (inside.nextEmpty _)).update _ (points_lt lt) }

end

theorem ofWalk_eq_ok {β : Type} {walk : Walk β} {result : β}
    (walked : ofWalk walk = .ok result) : walk = .done result := by
  cases walk with
  | done value =>
      cases walked
      rfl
  | endless => cases walked

theorem searchForward_lt {found : Nat} (inside : Inside heap)
    (finds : searchForward heap slot = .ok (some found)) :
    found < heap.slotCount := by
  unfold searchForward at finds
  split at finds
  · exact (walkFind_holds inside.next (inside.next slot) (ofWalk_eq_ok finds)).1
  · cases finds

theorem searchBackward_lt {found : Nat} (inside : Inside heap)
    (finds : searchBackward heap slot = .ok (some found)) :
    found < heap.slotCount :=
  (walkFind_holds inside.prev (inside.prev slot) (ofWalk_eq_ok finds)).1

theorem emptyIsolated_frees (inside : Inside heap) (lt : slot < heap.slotCount)
    (emptied : emptyIsolated (clearFeb heap slot) slot = .ok heap') :
    Frees heap heap' slot := by
  have cleared : Inside (clearFeb heap slot) := inside.clearFeb
  unfold emptyIsolated at emptied
  obtain ⟨ahead, searches, emptied⟩ := bind_eq_ok.mp emptied
  cases ahead with
  | some nextSlot =>
      cases emptied
      have inside' := cleared.linkBefore lt (searchForward_lt cleared searches)
      exact frees_of_cleared inside' rfl (fun _ _ => ⟨rfl, rfl⟩) rfl
  | none =>
      obtain ⟨behind, searches, rfl⟩ := map_eq_ok.mp emptied
      cases behind with
      | some prevSlot =>
          have inside' := cleared.linkBehind lt (searchBackward_lt cleared searches)
          exact frees_of_cleared inside' rfl (fun _ _ => ⟨rfl, rfl⟩) rfl
      | none => exact frees_of_cleared cleared rfl (fun _ _ => ⟨rfl, rfl⟩) rfl

/-- Whatever the neighbours are, emptying a slot frees this slot alone. -/
theorem emptySlot_frees (inside : Inside heap) (lt : slot < heap.slotCount)
    (emptied : emptySlot heap slot = .ok heap') : Frees heap heap' slot := by
  have cleared : Inside (clearFeb heap slot) := inside.clearFeb
  unfold emptySlot at emptied
  dsimp only at emptied
  split at emptied
  · cases emptied
    refine frees_of_cleared (cleared.join3 lt) rfl ?_ rfl
    intro other different
    exact ⟨update_of_ne different _ _, update_of_ne different _ _⟩
  · cases emptied
    refine frees_of_cleared (cleared.joinWithPrev lt) rfl ?_ rfl
    intro other different
    exact ⟨update_of_ne different _ _, update_of_ne different _ _⟩
  · cases emptied
    refine frees_of_cleared (cleared.joinWithNext lt) rfl ?_ rfl
    intro other different
    exact ⟨rfl, update_of_ne different _ _⟩
  · exact emptyIsolated_frees inside lt emptied

/-! ## The size of the live slots -/

/-- The slots whose full-empty bit is set. -/
def liveSlots (heap : Heap) : Finset Nat :=
  (Finset.range heap.slotCount).filter fun slot => heap.feb slot = true

/-- What the live slots without those of `apart` add up to. -/
def liveSize (heap : Heap) (apart : Finset Nat) : Nat :=
  ∑ live ∈ liveSlots heap \ apart, heap.size live

theorem Inside.mem_liveSlots (inside : Inside heap) :
    slot ∈ liveSlots heap ↔ heap.feb slot = true := by
  simp only [liveSlots, Finset.mem_filter, Finset.mem_range, and_iff_right_iff_imp]
  exact inside.lt

variable {apart : Finset Nat} {taken freed : Nat}

theorem Fills.liveSlots_eq (fills : Fills heap heap' taken varSize) (inside : Inside heap) :
    liveSlots heap' = insert taken (liveSlots heap) := by
  ext other
  rw [fills.inside.mem_liveSlots, Finset.mem_insert, inside.mem_liveSlots, fills.feb]
  by_cases here : other = taken <;> simp [here]

theorem Frees.liveSlots_eq (frees : Frees heap heap' freed) (inside : Inside heap) :
    liveSlots heap' = (liveSlots heap).erase freed := by
  ext other
  rw [frees.inside.mem_liveSlots, Finset.mem_erase, inside.mem_liveSlots, frees.feb]
  by_cases here : other = freed <;> simp [here]

/-- An allocation adds what it takes. -/
theorem Fills.liveSize_eq (fills : Fills heap heap' taken varSize)
    (inside : Inside heap) (spared : taken ∉ apart) :
    liveSize heap' apart = liveSize heap apart + varSize := by
  have notLive : taken ∉ liveSlots heap \ apart := by
    simp [inside.mem_liveSlots, fills.wasEmpty]
  have same : ∀ live ∈ liveSlots heap \ apart, heap'.size live = heap.size live := by
    intro live member
    rw [Finset.mem_sdiff, inside.mem_liveSlots] at member
    exact (fills.kept live member.1).2
  unfold liveSize
  rw [fills.liveSlots_eq inside, Finset.insert_sdiff_of_notMem _ spared,
    Finset.sum_insert notLive, fills.size, Finset.sum_congr rfl same,
    Nat.add_comm]

/-- Emptying a live slot takes its size away. -/
theorem Frees.liveSize_eq (frees : Frees heap heap' freed)
    (inside : Inside heap) (full : heap.feb freed = true) (spared : freed ∉ apart) :
    liveSize heap' apart + heap.size freed = liveSize heap apart := by
  have live : freed ∈ liveSlots heap \ apart :=
    Finset.mem_sdiff.mpr ⟨inside.mem_liveSlots.mpr full, spared⟩
  have same : ∀ other ∈ (liveSlots heap \ apart).erase freed,
      heap'.size other = heap.size other := by
    intro other member
    rw [Finset.mem_erase, Finset.mem_sdiff, inside.mem_liveSlots] at member
    exact (frees.kept other member.1 member.2.1).2
  unfold liveSize
  rw [frees.liveSlots_eq inside, Finset.erase_sdiff_comm, Finset.sum_congr rfl same]
  exact Finset.sum_erase_add _ _ live

end Slots

end OpenUH.Libcaf.SharedMemorySlots
