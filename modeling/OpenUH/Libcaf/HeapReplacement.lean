import OpenUH.Libcaf.HeapInvariant

/-!
# Replacing a run of slots

Each routine that rearranges the heap replaces a few neighbouring slots by
others and leaves the rest of the list alone.  `Replacement` says so field by
field; a heap changed in this way is arranged again.
-/

namespace OpenUH.Libcaf.SharedMemorySlots

open Foundation.Succession
open Foundation.Tiling

/-- One of two neighbours is full. -/
def OneFull (heap : Heap) (left right : Nat) : Prop :=
  heap.feb left = true ∨ heap.feb right = true

/-- The slots `middle` between `front` and `rest` have become `middle'`. -/
structure SlotsReplaced (heap heap' : Heap)
    (front middle middle' rest : List Nat) : Prop where
  nodup : (front ++ (middle' ++ rest)).Nodup
  allocated : ∀ slot, heap'.allocated slot = true ↔
    slot ∈ middle' ∨ heap.allocated slot = true ∧ slot ∉ middle
  numbered : heap.slotCount ≤ heap'.slotCount
  numberedMiddle : ∀ slot ∈ middle', slot < heap'.slotCount
  commonKept : heap.commonSlot ∉ middle → heap'.commonSlot = heap.commonSlot
  commonMoved : heap.commonSlot ∈ middle →
    heap'.commonSlot ∈ middle' ∧ heap'.feb heap'.commonSlot = false
  febOutside : ∀ slot, slot ∈ front ∨ slot ∈ rest → heap'.feb slot = heap.feb slot
  placeOutside : ∀ slot, slot ∈ front ∨ slot ∈ rest →
    heap'.addr slot = heap.addr slot ∧ heap'.size slot = heap.size slot
  tilesMiddle : ∀ low high, Tiles heap.addr heap.size low high middle →
    Tiles heap'.addr heap'.size low high middle'
  positiveMiddle : ∀ slot ∈ middle', slot ≠ heap'.commonSlot → 0 < heap'.size slot
  separatedMiddle : middle'.IsChain (OneFull heap')
  separatedFront : ∀ left ∈ front.getLast?, ∀ right ∈ middle'.head?,
    OneFull heap' left right
  separatedRest : ∀ left ∈ middle'.getLast?, ∀ right ∈ rest.head?,
    OneFull heap' left right

/-- The slots are replaced, and both pairs of links follow. -/
structure Replacement (exact : Prop) (heap heap' : Heap)
    (front middle middle' rest : List Nat) : Prop
    extends SlotsReplaced heap heap' front middle middle' rest where
  links : Relinked (fun slot => exact ∨ heap'.feb slot = false)
    heap.next heap.prev heap'.next heap'.prev front middle' rest
  chain : Relinked (fun _ => True)
    heap.nextEmpty heap.prevEmpty heap'.nextEmpty heap'.prevEmpty
    (emptySlots heap front) (emptySlots heap' middle') (emptySlots heap rest)
  unchainedOutside : ∀ slot, slot ∈ front ∨ slot ∈ rest →
    heap.feb slot = true →
      heap'.nextEmpty slot = heap.nextEmpty slot ∧ heap'.prevEmpty slot = heap.prevEmpty slot
  unchainedMiddle : ∀ slot ∈ middle', heap'.feb slot = true →
    heap'.nextEmpty slot = none ∧ heap'.prevEmpty slot = none

namespace Replacement

variable {settings : HeapSettings} {exact : Prop} {heap heap' : Heap}
  {front middle middle' rest : List Nat}

theorem emptySlots_same {part : List Nat} (same : ∀ slot ∈ part, heap'.feb slot = heap.feb slot) :
    emptySlots heap' part = emptySlots heap part := by
  apply List.filter_congr
  intro slot member
  rw [same slot member]

section

variable (replacement : Replacement exact heap heap' front middle middle' rest)

include replacement

theorem emptySlots_eq :
    emptySlots heap' (front ++ (middle' ++ rest)) =
      emptySlots heap front ++ (emptySlots heap' middle' ++ emptySlots heap rest) := by
  rw [Arranged.emptySlots_append, Arranged.emptySlots_append, emptySlots_same (fun slot member =>
      replacement.febOutside slot (Or.inl member)),
    emptySlots_same (fun slot member =>
      replacement.febOutside slot (Or.inr member))]

section

variable (arranged : Arranged settings exact heap (front ++ (middle ++ rest)))

include arranged

theorem listed (slot : Nat) :
    heap'.allocated slot = true ↔ slot ∈ front ++ (middle' ++ rest) := by
  have nodup := arranged.nodup
  simp only [List.nodup_append, List.mem_append] at nodup
  rw [replacement.allocated, arranged.listed]
  simp only [List.mem_append]
  grind

theorem common :
    heap'.commonSlot ∈ front ++ (middle' ++ rest) ∧ heap'.feb heap'.commonSlot = false := by
  by_cases inside : heap.commonSlot ∈ middle
  · obtain ⟨member, isEmpty⟩ := replacement.commonMoved inside
    exact ⟨by simp [member], isEmpty⟩
  · have outside : heap.commonSlot ∈ front ∨ heap.commonSlot ∈ rest := by
      have member := arranged.commonListed
      simp only [List.mem_append] at member
      tauto
    rw [replacement.commonKept inside, replacement.febOutside _ outside]
    refine ⟨?_, arranged.commonEmpty⟩
    simp only [List.mem_append]
    tauto

theorem positive (slot : Nat) (member : slot ∈ front ++ (middle' ++ rest))
    (notCommon : slot ≠ heap'.commonSlot) : 0 < heap'.size slot := by
  by_cases inside : slot ∈ middle'
  · exact replacement.positiveMiddle slot inside notCommon
  · have outside : slot ∈ front ∨ slot ∈ rest := by
      simp only [List.mem_append] at member
      tauto
    have notOld : slot ≠ heap.commonSlot := by
      rintro rfl
      have kept : heap.commonSlot ∉ middle := by
        have nodup := arranged.nodup
        simp only [List.nodup_append, List.mem_append] at nodup
        grind
      exact notCommon (replacement.commonKept kept).symm
    rw [(replacement.placeOutside slot outside).2]
    apply arranged.positive slot _ notOld
    simp only [List.mem_append]
    tauto

theorem separated (notEmpty : middle' ≠ []) :
    (front ++ (middle' ++ rest)).IsChain (OneFull heap') := by
  have old : (front ++ (middle ++ rest)).IsChain (OneFull heap) := arranged.separated
  rw [List.isChain_append, List.isChain_append] at old
  have same : ∀ part : List Nat,
      (∀ slot ∈ part, slot ∈ front ∨ slot ∈ rest) →
        part.IsChain (OneFull heap) → part.IsChain (OneFull heap') := by
    intro part outside chain
    apply List.IsChain.imp_of_mem_imp _ chain
    intro left right inLeft inRight full
    unfold OneFull at full ⊢
    rwa [replacement.febOutside left (outside left inLeft),
      replacement.febOutside right (outside right inRight)]
  rw [List.isChain_append, List.isChain_append]
  refine ⟨same front (fun _ member => Or.inl member) old.1,
    ⟨replacement.separatedMiddle,
      same rest (fun _ member => Or.inr member) old.2.1.2.1,
      replacement.separatedRest⟩, ?_⟩
  rw [List.head?_append_of_ne_nil _ notEmpty]
  exact replacement.separatedFront

theorem nodup_chain :
    (emptySlots heap front ++
        (emptySlots heap middle ++ emptySlots heap rest)).Nodup ∧
      (emptySlots heap front ++ (emptySlots heap' middle' ++ emptySlots heap rest)).Nodup := by
  constructor
  · rw [← Arranged.emptySlots_append, ← Arranged.emptySlots_append]
    exact arranged.nodup_emptySlots
  · rw [← replacement.emptySlots_eq]
    exact replacement.nodup.filter _

end

/-- A heap whose middle has been replaced is arranged again. -/
theorem arranged
    (old : Arranged settings exact heap (front ++ (middle ++ rest))) (notEmpty : middle' ≠ []) :
    Arranged settings exact heap' (front ++ (middle' ++ rest)) where
  nodup := replacement.nodup
  listed := replacement.listed old
  numbered := by
    intro slot member
    by_cases inside : slot ∈ middle'
    · exact replacement.numberedMiddle slot inside
    · apply Nat.lt_of_lt_of_le (old.numbered slot _) replacement.numbered
      simp only [List.mem_append] at member ⊢
      tauto
  commonListed := (replacement.common old).1
  commonEmpty := (replacement.common old).2
  next := replacement.links.follows old.next old.nodup replacement.nodup
  prev := by
    apply replacement.links.precedes old.prev _ old.nodup replacement.nodup
    intro slot outside trusted
    rwa [replacement.febOutside slot outside] at trusted
  nextEmpty := by
    have nodup := replacement.nodup_chain old
    rw [replacement.emptySlots_eq]
    apply replacement.chain.follows _ nodup.1 nodup.2
    rw [← Arranged.emptySlots_append, ← Arranged.emptySlots_append]
    exact old.nextEmpty
  prevEmpty := by
    have nodup := replacement.nodup_chain old
    rw [replacement.emptySlots_eq]
    apply replacement.chain.precedes _ (fun _ _ _ => trivial) nodup.1 nodup.2
    rw [← Arranged.emptySlots_append, ← Arranged.emptySlots_append]
    exact old.prevEmpty
  unchained := by
    intro slot member full
    by_cases inside : slot ∈ middle'
    · exact replacement.unchainedMiddle slot inside full
    · have outside : slot ∈ front ∨ slot ∈ rest := by
        simp only [List.mem_append] at member
        tauto
      rw [replacement.febOutside slot outside] at full
      obtain ⟨sameNext, samePrev⟩ := replacement.unchainedOutside slot outside full
      rw [sameNext, samePrev]
      apply old.unchained slot _ full
      simp only [List.mem_append]
      tauto
  tiles := old.tiles.splice
    (fun slot member => replacement.placeOutside slot (Or.inl member))
    (fun slot member => replacement.placeOutside slot (Or.inr member))
    replacement.tilesMiddle
  positive := replacement.positive old
  separated := replacement.separated old notEmpty

end

end Replacement

end OpenUH.Libcaf.SharedMemorySlots
