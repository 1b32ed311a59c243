import OpenUH.Foundation.FirstFit
import OpenUH.Libcaf.HeapSafety

/-!
# The symmetric part of the heap

The slots above the common slot, seen as a first-fit area whose free memory is
the common slot.  Where allocatable data is served at or above the common slot
and asymmetric data at or below it, this area changes with the collective
calls only, so that two images which make the same collective calls get the
same offsets.
-/

namespace OpenUH.Libcaf.SharedMemorySlots

open Foundation
open Foundation.Fallible
open Foundation.Succession
open Foundation.Tiling
open Foundation.Transition

/-- A slot as a block of the area. -/
def blockOf (heap : Heap) (slot : Nat) : FirstFit.Block :=
  ⟨heap.size slot, heap.feb slot⟩

/-- The slots above the common slot, as blocks. -/
structure UpperPart (settings : HeapSettings) (heap : Heap)
    (live : List LiveBlock) (blocks : List FirstFit.Block)
    (front rest : List Nat) : Prop where
  arranged : Arranged settings False heap (front ++ heap.commonSlot :: rest)
  blocks_eq : front.map (blockOf heap) = blocks
  allocatable : ∀ block ∈ live, block.allocatable = true →
    ∃ slot ∈ front, heap.feb slot = true ∧ heap.addr slot = block.addr

/-- Some slot at or above the common slot is large enough. -/
def FitsAbove (heap : Heap) (varSize : Nat) : Prop :=
  ∃ slot, heap.allocated slot = true ∧ fitsEmpty heap varSize slot = true ∧
    heap.addr slot ≤ heap.addr heap.commonSlot

/-- Some slot at or below the common slot is large enough, if any is. -/
def FitsBelow (heap : Heap) (varSize : Nat) : Prop :=
  ∀ slot, heap.allocated slot = true → fitsEmpty heap varSize slot = true →
    ∃ slot, heap.allocated slot = true ∧
      fitsEmpty heap varSize slot = true ∧
      heap.addr heap.commonSlot ≤ heap.addr slot

section Position

variable {settings : HeapSettings} {exact : Prop} {heap : Heap}
  {front rest : List Nat} {slot varSize : Nat}

theorem fits_blockOf : (blockOf heap slot).fits varSize = fitsEmpty heap varSize slot :=
  rfl

section

variable (arranged : Arranged settings exact heap (front ++ heap.commonSlot :: rest))

include arranged

/-- The slots above the common slot have lower addresses. -/
theorem Arranged.addr_lt_common
    (member : slot ∈ front) : heap.addr slot < heap.addr heap.commonSlot := by
  have notCommon : slot ≠ heap.commonSlot := by
    rintro rfl
    have nodup := arranged.nodup
    rw [List.nodup_append] at nodup
    exact nodup.2.2 _ member _ List.mem_cons_self rfl
  have positive := arranged.positive slot (by simp [member]) notCommon
  have ordered := (List.pairwise_append.mp arranged.tiles.ordered).2.2
    slot member heap.commonSlot List.mem_cons_self
  omega

/-- The empty slots below the common slot have higher addresses. -/
theorem Arranged.common_lt_addr (member : slot ∈ rest) (isEmpty : heap.feb slot = false) :
    heap.addr heap.commonSlot < heap.addr slot := by
  obtain ⟨_, fullNext⟩ := arranged.neighbours_full arranged.commonEmpty
  cases rest with
  | nil => cases member
  | cons nextSlot behind =>
      have full := fullNext nextSlot rfl
      have later : slot ∈ behind := by
        rcases List.mem_cons.mp member with rfl | later
        · rw [isEmpty] at full
          cases full
        · exact later
      have first := arranged.tiles.le_of_split (List.mem_cons_self)
      have shifted : Arranged settings exact heap
          ((front ++ [heap.commonSlot]) ++ nextSlot :: behind) := by
        simpa using arranged
      have second := shifted.tiles.le_of_split later
      have positive := shifted.positive nextSlot (by simp) (shifted.ne_common_of_full full)
      omega

/-- Allocatable data goes to a slot above the common slot, or to it. -/
theorem Arranged.found_above (fitsAbove : FitsAbove heap varSize)
    (found : findEmptySlotAbove heap heap.commonSlot varSize = .ok (some slot)) :
    fitsEmpty heap varSize slot = true ∧
      ((∃ left right, front = left ++ slot :: right ∧
          ∀ other ∈ left, fitsEmpty heap varSize other = false) ∨
        slot = heap.commonSlot ∧ ∀ other ∈ front, fitsEmpty heap varSize other = false) := by
  rw [arranged.findEmptySlotAbove_eq, List.find?_append] at found
  have finds := Except.ok.inj found
  cases inFront : front.find? (fitsEmpty heap varSize) with
  | some other =>
      rw [inFront, Option.some_or] at finds
      cases finds
      obtain ⟨fits, left, right, split, notBefore⟩ := List.find?_eq_some_iff_append.mp inFront
      exact ⟨fits, Or.inl ⟨left, right, split, by simpa using notBefore⟩⟩
  | none =>
      rw [inFront, Option.none_or] at finds
      have noneAbove : ∀ other ∈ front, fitsEmpty heap varSize other = false := by
        simpa using inFront
      by_cases fits : fitsEmpty heap varSize heap.commonSlot = true
      · rw [List.find?_cons_of_pos fits] at finds
        cases finds
        exact ⟨fits, Or.inr ⟨rfl, noneAbove⟩⟩
      · obtain ⟨other, listed, otherFits, above⟩ := fitsAbove
        rw [arranged.listed, List.mem_append, List.mem_cons] at listed
        rcases listed with inFront' | rfl | inRest
        · rw [noneAbove other inFront'] at otherFits
          cases otherFits
        · exact absurd otherFits fits
        · have below := arranged.common_lt_addr inRest (Arranged.fitsEmpty_iff.mp otherFits).1
          omega

/-- Asymmetric data goes to a slot below the common slot, or to it. -/
theorem Arranged.found_below (fitsBelow : FitsBelow heap varSize)
    (found : findEmptySlotBelow heap heap.commonSlot varSize = .ok (some slot)) :
    fitsEmpty heap varSize slot = true ∧ (slot ∈ rest ∨ slot = heap.commonSlot) := by
  rw [arranged.findEmptySlotBelow_eq] at found
  have finds := Except.ok.inj found
  have fits := List.find?_some finds
  refine ⟨fits, ?_⟩
  have split : (front ++ heap.commonSlot :: rest).reverse =
      (heap.commonSlot :: rest).reverse ++ front.reverse := by simp
  have member := List.mem_of_find?_eq_some finds
  have listed : slot ∈ front ++ heap.commonSlot :: rest := List.mem_reverse.mp member
  obtain ⟨other, listed', otherFits, below⟩ := fitsBelow slot
    ((arranged.listed slot).mpr listed) fits
  have inTail : other ∈ (heap.commonSlot :: rest).reverse := by
    rw [arranged.listed, List.mem_append] at listed'
    rcases listed' with inFront | inTail
    · have above := arranged.addr_lt_common inFront
      omega
    · exact List.mem_reverse.mpr inTail
  rw [split, List.find?_append] at finds
  cases tail : (heap.commonSlot :: rest).reverse.find? (fitsEmpty heap varSize) with
  | some first =>
      rw [tail, Option.some_or] at finds
      cases finds
      have inside := List.mem_reverse.mp (List.mem_of_find?_eq_some tail)
      exact (List.mem_cons.mp inside).symm
  | none =>
      rw [List.find?_eq_none] at tail
      exact absurd otherFits (tail other inTail)

end

end Position

section Parts

variable {settings : HeapSettings} {exact : Prop} {heap heap' : Heap}
  {live : List LiveBlock} {blocks : List FirstFit.Block}
  {front middle middle' rest left right : List Nat} {slot varSize : Nat}

theorem SlotsReplaced.blocks_front (replaced : SlotsReplaced heap heap' front middle middle' rest)
    {part : List Nat} (inside : ∀ other ∈ part, other ∈ front) :
    part.map (blockOf heap') = part.map (blockOf heap) := by
  apply List.map_congr_left
  intro other member
  have outside : other ∈ front ∨ other ∈ rest := Or.inl (inside other member)
  rw [blockOf, blockOf, replaced.febOutside other outside, (replaced.placeOutside other outside).2]

theorem SlotsReplaced.blocks_rest (replaced : SlotsReplaced heap heap' front middle middle' rest)
    {part : List Nat} (inside : ∀ other ∈ part, other ∈ rest) :
    part.map (blockOf heap') = part.map (blockOf heap) := by
  apply List.map_congr_left
  intro other member
  have outside : other ∈ front ∨ other ∈ rest := Or.inr (inside other member)
  rw [blockOf, blockOf, replaced.febOutside other outside, (replaced.placeOutside other outside).2]

/-- The offset of a slot is the space in front of it. -/
theorem Arranged.addr_eq_total (arranged : Arranged settings exact heap (front ++ slot :: rest)) :
    heap.addr slot = settings.segmentAddr + FirstFit.total (front.map (blockOf heap)) := by
  have sizes : (front.map (blockOf heap)).map FirstFit.Block.size = front.map heap.size := by
    simp [blockOf]
  rw [FirstFit.total, sizes]
  exact arranged.tiles.start_eq_sum

/-- What a top split makes of the block it is made in. -/
theorem blocks_takeFromTop (different : slot ≠ heap.slotCount) :
    (if takesWhole heap slot varSize then
        [slot]
      else
        [slot, heap.slotCount]).map
        (blockOf (takeFromTop heap slot varSize)) =
      if takesWhole heap slot varSize then
        [⟨heap.size slot, true⟩]
      else
        [⟨varSize, true⟩, ⟨heap.size slot - varSize, false⟩] := by
  unfold takeFromTop
  split
  · simp [blockOf, takeWhole]
  · simp [blockOf, splitFromTop, different.symm]

/-- A block stays above where the full slots above stay as they are. -/
theorem allocatable_kept {front' : List Nat} {block : LiveBlock}
    (held : ∃ slot ∈ front, heap.feb slot = true ∧ heap.addr slot = block.addr)
    (kept : ∀ other ∈ front, heap.feb other = true → other ∈ front' ∧
      heap'.feb other = true ∧ heap'.addr other = heap.addr other) :
    ∃ slot ∈ front', heap'.feb slot = true ∧ heap'.addr slot = block.addr := by
  obtain ⟨slot, inFront, full, place⟩ := held
  obtain ⟨inFront', full', same⟩ := kept slot inFront full
  exact ⟨slot, inFront', full', same.trans place⟩

section

variable (upper : UpperPart settings heap live blocks front rest)

include upper

theorem UpperPart.takeFromTop_front {requested : Nat} (split : front = left ++ slot :: right)
    (fits : fitsEmpty heap varSize slot = true)
    (notBefore : ∀ other ∈ left, fitsEmpty heap varSize other = false) (positive : 0 < varSize) :
    (∃ front', UpperPart settings (takeFromTop heap slot varSize)
        (⟨heap.addr slot, requested, true⟩ :: live)
        (FirstFit.allocate varSize blocks).2 front' rest) ∧
      heap.addr slot = settings.segmentAddr + (FirstFit.allocate varSize blocks).1 := by
  subst split
  obtain ⟨arranged, rfl, allocatable⟩ := upper
  have isEmpty := (Arranged.fitsEmpty_iff.mp fits).1
  have atSlot : Arranged settings False heap
      (left ++ slot :: (right ++ heap.commonSlot :: rest)) := by
    simpa using arranged
  have run : Arranged settings False heap
      (left ++ ([slot] ++ (right ++ heap.commonSlot :: rest))) := atSlot
  have notCommon : slot ≠ heap.commonSlot := by
    rintro rfl
    have nodup := arranged.nodup
    simp [List.nodup_append] at nodup
  have different : slot ≠ heap.slotCount := by
    simpa using Ne.symm (List.ne_of_not_mem_cons run.surroundings.fresh.2.1)
  have replacement := atSlot.takeFromTop_replacement fits positive False.elim
  have sameCommon := replacement.commonKept (by simpa using notCommon.symm)
  have arranged' := replacement.arranged atSlot (by split <;> simp)
  have gains := atSlot.gains_takeFromTop (by simp) fits
  have served : FirstFit.allocate varSize
      (left.map (blockOf heap) ++ blockOf heap slot :: right.map (blockOf heap)) = _ :=
    FirstFit.allocate_of_fits (by simpa [fits_blockOf] using notBefore) fits
  rw [List.map_append, List.map_cons, served]
  refine ⟨⟨left ++ ((if takesWhole heap slot varSize then
      [slot]
    else
      [slot, heap.slotCount]) ++ right), ?_, ?_, ?_⟩,
    atSlot.addr_eq_total⟩
  · rw [sameCommon]
    simpa using arranged'
  · have taken : (blockOf heap slot).take varSize =
        if takesWhole heap slot varSize then
          [⟨heap.size slot, true⟩]
        else
          [⟨varSize, true⟩, ⟨heap.size slot - varSize, false⟩] := by
      by_cases same : heap.size slot = varSize
      · simp [FirstFit.Block.take, blockOf, takesWhole, notCommon, same]
      · simp [FirstFit.Block.take, blockOf, takesWhole, same]
    rw [List.map_append, List.map_append, blocks_takeFromTop different,
      replacement.blocks_front (fun _ member => member),
      replacement.blocks_rest (fun _ member => List.mem_append_left _ member),
      taken]
  · intro block member isAllocatable
    have kept : ∀ other ∈ left ++ slot :: right, heap.feb other = true →
        other ∈ left ++ ((if takesWhole heap slot varSize then
            [slot]
          else
            [slot, heap.slotCount]) ++ right) ∧
          (takeFromTop heap slot varSize).feb other = true ∧
          (takeFromTop heap slot varSize).addr other = heap.addr other := by
      intro other inFront full
      have listed : heap.allocated other = true :=
        (arranged.listed other).mpr (List.mem_append_left _ inFront)
      obtain ⟨⟨_, full'⟩, sameAddr, _⟩ := gains.kept other ⟨listed, full⟩
      refine ⟨?_, full', sameAddr⟩
      have notSlot : other ≠ slot := by
        rintro rfl
        rw [isEmpty] at full
        cases full
      simp only [List.mem_append, List.mem_cons] at inFront ⊢
      tauto
    rcases List.mem_cons.mp member with rfl | old
    · refine ⟨slot, ?_, gains.isFull.2, gains.addr_eq⟩
      split <;> simp
    · exact allocatable_kept (allocatable block old isAllocatable) kept

theorem UpperPart.takeFromTop_common {requested : Nat}
    (fits : fitsEmpty heap varSize heap.commonSlot = true)
    (notBefore : ∀ other ∈ front, fitsEmpty heap varSize other = false) (positive : 0 < varSize) :
    (∃ front', UpperPart settings (takeFromTop heap heap.commonSlot varSize)
        (⟨heap.addr heap.commonSlot, requested, true⟩ :: live)
        (FirstFit.allocate varSize blocks).2 front' rest) ∧
      heap.addr heap.commonSlot = settings.segmentAddr + (FirstFit.allocate varSize blocks).1 := by
  obtain ⟨arranged, rfl, allocatable⟩ := upper
  have run : Arranged settings False heap (front ++ ([heap.commonSlot] ++ rest)) := arranged
  have different : heap.commonSlot ≠ heap.slotCount := by
    simpa using Ne.symm (List.ne_of_not_mem_cons run.surroundings.fresh.2.1)
  have notWhole : takesWhole heap heap.commonSlot varSize = false := by
    simp [takesWhole]
  have replacement := arranged.takeFromTop_replacement fits positive False.elim
  have arranged' := replacement.arranged arranged (by split <;> simp)
  have gains := arranged.gains_takeFromTop (by simp) fits
  have made : List.map _ _ = ite (takesWhole heap heap.commonSlot varSize) _ _ :=
    blocks_takeFromTop different
  rw [notWhole, if_neg Bool.false_ne_true] at made arranged' replacement
  have served : FirstFit.allocate varSize (front.map (blockOf heap)) = _ :=
    FirstFit.allocate_of_not_fits (by simpa [fits_blockOf] using notBefore)
  have newCommon : (takeFromTop heap heap.commonSlot varSize).commonSlot = heap.slotCount := by
    rw [takeFromTop, if_neg (by simp [notWhole])]
    simp [splitFromTop]
  rw [served]
  refine ⟨⟨front ++ [heap.commonSlot], ?_, ?_, ?_⟩, arranged.addr_eq_total⟩
  · rw [newCommon]
    simpa using arranged'
  · rw [List.map_append, replacement.blocks_front (fun _ member => member)]
    rw [if_neg (by simp), List.map_cons, List.cons.injEq] at made
    rw [List.map_singleton, made.1]
  · intro block member isAllocatable
    rcases List.mem_cons.mp member with rfl | old
    · exact ⟨heap.commonSlot, by simp, gains.isFull.2, gains.addr_eq⟩
    · apply allocatable_kept (allocatable block old isAllocatable)
      intro other inFront full
      have listed : heap.allocated other = true :=
        (arranged.listed other).mpr (List.mem_append_left _ inFront)
      obtain ⟨⟨_, full'⟩, sameAddr, _⟩ := gains.kept other ⟨listed, full⟩
      exact ⟨List.mem_append_left _ inFront, full', sameAddr⟩

/-- Where the slots above stay as they are, so does the symmetric part. -/
theorem UpperPart.of_same_front {rest' : List Nat}
    (arranged' : Arranged settings False heap' (front ++ heap'.commonSlot :: rest'))
    (same : ∀ other ∈ front, heap'.feb other = heap.feb other ∧
      heap'.addr other = heap.addr other ∧
      heap'.size other = heap.size other) :
    UpperPart settings heap' live blocks front rest' where
  arranged := arranged'
  blocks_eq := by
    rw [← upper.blocks_eq]
    apply List.map_congr_left
    intro other member
    rw [blockOf, blockOf, (same other member).1, (same other member).2.2]
  allocatable block member isAllocatable := by
    apply allocatable_kept (upper.allocatable block member isAllocatable)
    intro other inFront full
    obtain ⟨sameFeb, sameAddr, _⟩ := same other inFront
    exact ⟨inFront, sameFeb.trans full, sameAddr⟩

/-- Asymmetric data taken at or below the common slot leaves the rest alone. -/
theorem UpperPart.takeFromBottom
    (fits : fitsEmpty heap varSize slot = true) (below : slot ∈ rest ∨ slot = heap.commonSlot)
    (positive : 0 < varSize) :
    ∃ rest', UpperPart settings (takeFromBottom heap slot varSize) live blocks
      front rest' := by
  have arranged := upper.arranged
  rcases below with inRest | rfl
  · obtain ⟨left, right, rfl⟩ := List.append_of_mem inRest
    have atSlot : Arranged settings False heap
        ((front ++ heap.commonSlot :: left) ++ slot :: right) := by
      simpa using arranged
    have notCommon : heap.commonSlot ≠ slot := by
      have nodup := arranged.nodup
      simp only [List.nodup_append, List.nodup_cons, List.mem_append, List.mem_cons] at nodup
      grind
    have replacement := atSlot.takeFromBottom_replacement fits positive
    have sameCommon := replacement.commonKept (by simpa using notCommon)
    have arranged' := replacement.arranged atSlot (by split <;> simp)
    refine ⟨left ++ ((if takesWhole heap slot varSize then
        [slot]
      else
        [slot, heap.slotCount]) ++ right), upper.of_same_front ?_ ?_⟩
    · rw [sameCommon]
      simpa using arranged'
    · intro other inFront
      have outside : other ∈ front ++ heap.commonSlot :: left ∨
          other ∈ right := Or.inl (List.mem_append_left _ inFront)
      exact ⟨replacement.febOutside other outside, replacement.placeOutside other outside⟩
  · have notWhole : ¬ takesWhole heap heap.commonSlot varSize = true := by
      simp [takesWhole]
    have replacement := arranged.takeFromBottom_replacement fits positive
    have arranged' := replacement.arranged arranged (by split <;> simp)
    have sameCommon :
        (SharedMemorySlots.takeFromBottom heap heap.commonSlot
          varSize).commonSlot = heap.commonSlot := by
      rw [SharedMemorySlots.takeFromBottom, if_neg notWhole]
      rfl
    rw [if_neg notWhole] at arranged' replacement
    refine ⟨heap.slotCount :: rest, upper.of_same_front ?_ ?_⟩
    · rw [sameCommon]
      simpa using arranged'
    · intro other inFront
      exact ⟨replacement.febOutside other (Or.inl inFront),
        replacement.placeOutside other (Or.inl inFront)⟩

/-- Emptying a slot below the common slot leaves the symmetric part alone. -/
theorem UpperPart.emptySlot_below
    (inRest : slot ∈ rest) (full : heap.feb slot = true) (soundly : EmptiesSoundly heap slot) :
    ∃ heap' rest', emptySlot heap slot = .ok heap' ∧
      UpperPart settings heap' live blocks front rest' := by
  have arranged := upper.arranged
  obtain ⟨left, right, rfl⟩ := List.append_of_mem inRest
  have atSlot : Arranged settings False heap
      ((front ++ heap.commonSlot :: left) ++ slot :: right) := by
    simpa using arranged
  obtain ⟨heap', above, below, empties, isFront, isRest, replaced, nodup, _,
    arranged', _⟩ := atSlot.emptySlot_spec full soundly
  have sameFront : (∀ other ∈ front, other ∈ above) →
      ∀ other ∈ front, heap'.feb other = heap.feb other ∧
        heap'.addr other = heap.addr other ∧
        heap'.size other = heap.size other := by
    intro inside other member
    exact ⟨replaced.febOutside other (Or.inl (inside other member)),
      replaced.placeOutside other (Or.inl (inside other member))⟩
  refine ⟨heap', ?_⟩
  rcases List.eq_nil_or_concat' left with rfl | ⟨others, last, rfl⟩
  · have absorbed : emptyNeighbour heap
        (front ++ [heap.commonSlot]).getLast? = some heap.commonSlot := by
      rw [List.getLast?_concat, Arranged.emptyNeighbour_eq_some]
      exact ⟨rfl, arranged.commonEmpty⟩
    rw [absorbed] at isFront replaced
    obtain rfl : front = above := List.append_cancel_right isFront
    have newCommon := (replaced.commonMoved (by simp)).1
    rw [List.mem_singleton] at newCommon
    exact ⟨below, empties, upper.of_same_front (newCommon ▸ arranged')
      (sameFront fun _ member => member)⟩
  · have isLast : (front ++ heap.commonSlot :: (others ++ [last])).getLast? = some last := by
      rw [← List.cons_append, ← List.append_assoc, List.getLast?_concat]
    rw [isLast] at isFront replaced nodup
    have keptCommon : ∃ left', above = front ++ heap.commonSlot :: left' := by
      cases isEmpty : heap.feb last with
      | false =>
          rw [Arranged.emptyNeighbour_eq_some.mpr ⟨rfl, isEmpty⟩,
            ← List.cons_append, ← List.append_assoc] at isFront
          exact ⟨others, (List.append_cancel_right isFront).symm⟩
      | true =>
          have none : emptyNeighbour heap (some last) = none :=
            Arranged.emptyNeighbour_eq_none.mpr (by simpa using isEmpty)
          rw [none] at isFront
          exact ⟨others ++ [last], by simpa using isFront.symm⟩
    obtain ⟨left', rfl⟩ := keptCommon
    have outside : heap.commonSlot ∉
        (emptyNeighbour heap (some last)).toList ++
          slot :: (emptyNeighbour heap right.head?).toList := by
      intro member
      rw [List.nodup_append] at nodup
      exact nodup.2.2 heap.commonSlot (by simp) heap.commonSlot (List.mem_append_left _ member) rfl
    rw [← replaced.commonKept outside] at arranged'
    exact ⟨left' ++ slot :: below, empties,
      upper.of_same_front (by simpa using arranged')
        (sameFront fun _ member => List.mem_append_left _ member)⟩

end

/-- The one slot that replaces others is as large as they are together. -/
theorem SlotsReplaced.size_eq_total (replaced : SlotsReplaced heap heap' front middle [slot] rest)
    (arranged : Arranged settings exact heap (front ++ (middle ++ rest))) :
    heap'.size slot = FirstFit.total (middle.map (blockOf heap)) := by
  obtain ⟨_, _, tilesTail⟩ := tiles_append.mp arranged.tiles
  obtain ⟨_, tilesMiddle, _⟩ := tiles_append.mp tilesTail
  have before := tilesMiddle.last_eq_sum
  have after := (replaced.tilesMiddle _ _ tilesMiddle).last_eq_sum
  have sizes : (middle.map (blockOf heap)).map FirstFit.Block.size = middle.map heap.size := by
    simp [blockOf]
  rw [List.map_singleton, List.sum_singleton] at after
  rw [FirstFit.total, sizes]
  omega

section

variable (upper : UpperPart settings heap live blocks front rest)

include upper

/-- The blocks kept by a release stay above the common slot. -/
theorem UpperPart.allocatable_filter {front' : List Nat}
    (kept : ∀ other ∈ front, heap.feb other = true → other ≠ slot →
      other ∈ front' ∧ heap'.feb other = true ∧ heap'.addr other = heap.addr other) :
    ∀ block ∈ live.filter fun block => block.addr ≠ heap.addr slot,
      block.allocatable = true →
        ∃ other ∈ front', heap'.feb other = true ∧ heap'.addr other = block.addr := by
  intro block member isAllocatable
  rw [List.mem_filter, decide_eq_true_eq] at member
  obtain ⟨isLive, elsewhere⟩ := member
  obtain ⟨other, inFront, full, place⟩ := upper.allocatable block isLive isAllocatable
  have different : other ≠ slot := by
    rintro rfl
    exact elsewhere place.symm
  obtain ⟨inFront', full', same⟩ := kept other inFront full different
  exact ⟨other, inFront', full', same.trans place⟩

/-- The slots above the common slot are not empty blocks of size zero. -/
theorem UpperPart.positive :
    ∀ block ∈ front.map (blockOf heap), 0 < block.size := by
  intro block member
  obtain ⟨slot, inFront, rfl⟩ := List.mem_map.mp member
  apply upper.arranged.positive slot (List.mem_append_left _ inFront)
  rintro rfl
  have different := (List.nodup_append.mp upper.arranged.nodup).2.2
  exact different _ inFront _ List.mem_cons_self rfl

theorem UpperPart.separated :
    (front.map (blockOf heap)).IsChain FirstFit.OneFull := by
  rw [List.isChain_map]
  exact (List.isChain_append.mp upper.arranged.separated).1

end

/-- The flags of blocks are those of their slots. -/
theorem full_of_mem_map {link : Option Nat} {flag : Bool}
    (flags : ∀ other ∈ link, heap.feb other = flag) :
    ∀ block ∈ link.map (blockOf heap), block.full = flag := by
  intro block member
  obtain ⟨other, linked, rfl⟩ := Option.map_eq_some_iff.mp member
  exact flags other linked

section

variable (replaced : SlotsReplaced heap heap' front middle middle' rest)
  (arranged' : Arranged settings exact heap' (front ++ slot :: rest))
  (isEmpty : heap'.feb slot = false)

include replaced arranged' isEmpty

/-- The slots around the one that has become empty are full. -/
theorem SlotsReplaced.fullAbove :
    ∀ last ∈ front.getLast?, heap.feb last = true := by
  intro last isLast
  rw [← replaced.febOutside last (Or.inl (List.mem_of_getLast? isLast))]
  exact (arranged'.neighbours_full isEmpty).1 last isLast

theorem SlotsReplaced.fullBelow :
    ∀ first ∈ rest.head?, heap.feb first = true := by
  intro first isFirst
  rw [← replaced.febOutside first (Or.inr (List.mem_of_head? isFirst))]
  exact (arranged'.neighbours_full isEmpty).2 first isFirst

end

theorem empty_of_emptyNeighbour (heap : Heap) (link : Option Nat) :
    ∀ other ∈ emptyNeighbour heap link, heap.feb other = false :=
  fun _ joins => (Arranged.emptyNeighbour_eq_some.mp joins).2

/-- Emptying the last slot above the common slot hands it to the latter. -/
theorem UpperPart.emptySlot_last (upper : UpperPart settings heap live blocks (left ++ [slot]) rest)
    (full : heap.feb slot = true) (soundly : EmptiesSoundly heap slot) :
    ∃ heap' front' rest', emptySlot heap slot = .ok heap' ∧
      UpperPart settings heap'
        (live.filter fun block => block.addr ≠ heap.addr slot)
        (FirstFit.release (FirstFit.total (left.map (blockOf heap))) blocks)
        front' rest' := by
  have arranged := upper.arranged
  have positive := upper.positive
  have separated := upper.separated
  have atSlot : Arranged settings False heap (left ++ slot :: (heap.commonSlot :: rest)) := by
    simpa using arranged
  obtain ⟨heap', above, below, empties, isFront, isRest, replaced, nodup,
    isEmpty, arranged', _⟩ := atSlot.emptySlot_spec full soundly
  have absorbed : emptyNeighbour heap (heap.commonSlot :: rest).head? = some heap.commonSlot :=
    Arranged.emptyNeighbour_eq_some.mpr ⟨rfl, arranged.commonEmpty⟩
  rw [absorbed] at isRest replaced
  obtain rfl : rest = below := (List.cons.inj isRest).2
  have newCommon := (replaced.commonMoved (by simp)).1
  rw [List.mem_singleton] at newCommon
  have fullAbove := replaced.fullAbove arranged' isEmpty
  have emptyJoined := empty_of_emptyNeighbour heap left.getLast?
  generalize emptyNeighbour heap left.getLast? = joined at *
  subst isFront
  refine ⟨heap', above, rest, empties, newCommon ▸ arranged', ?_, upper.allocatable_filter ?_⟩
  · simp only [List.map_append, ← Option.toList_map] at positive separated
    have released : FirstFit.release
        (FirstFit.total (above.map (blockOf heap) ++ (joined.map (blockOf heap)).toList))
        ((above.map (blockOf heap) ++ (joined.map (blockOf heap)).toList) ++
          [blockOf heap slot]) = above.map (blockOf heap) := by
      apply FirstFit.release_last
      case positive =>
        exact fun block member => positive block (List.mem_append_left _ member)
      case separatedAbove =>
        exact (List.isChain_append.mp (List.isChain_append.mp separated).1).1
      case fullAbove =>
        rw [List.getLast?_map]
        exact full_of_mem_map fullAbove
      case emptyAbove => exact full_of_mem_map emptyJoined
    rw [← upper.blocks_eq, replaced.blocks_front (fun _ member => member)]
    simpa only [List.map_append, List.map_cons, List.map_nil,
      ← Option.toList_map] using released.symm
  · intro other inFront fullOther different
    have inAbove : other ∈ above := by
      simp only [List.mem_append, Option.mem_toList, List.mem_singleton]
        at inFront
      rcases inFront with (inAbove | isJoined) | same
      · exact inAbove
      · rw [emptyJoined other isJoined] at fullOther
        cases fullOther
      · exact absurd same different
    exact ⟨inAbove, (replaced.febOutside other (Or.inl inAbove)).trans
      fullOther, (replaced.placeOutside other (Or.inl inAbove)).1⟩

/-- The empty neighbour is the first of the slots below, or there is none. -/
theorem split_emptyNeighbour {below tail : List Nat} (notLast : right ≠ [])
    (split : right ++ tail = (emptyNeighbour heap right.head?).toList ++ below) :
    ∃ under, right = (emptyNeighbour heap right.head?).toList ++ under ∧ below = under ++ tail := by
  cases right with
  | nil => exact absurd rfl notLast
  | cons first others =>
      cases isEmpty : heap.feb first with
      | true =>
          have alone : emptyNeighbour heap (first :: others).head? = none :=
            Arranged.emptyNeighbour_eq_none.mpr (by simpa using isEmpty)
          rw [alone] at split ⊢
          exact ⟨first :: others, rfl, split.symm⟩
      | false =>
          have joins : emptyNeighbour heap (first :: others).head? = some first :=
            Arranged.emptyNeighbour_eq_some.mpr ⟨rfl, isEmpty⟩
          rw [joins] at split ⊢
          exact ⟨others, rfl, (List.cons.inj split).2.symm⟩

/-- Emptying another slot above the common slot leaves the latter alone. -/
theorem UpperPart.emptySlot_inside
    (upper : UpperPart settings heap live blocks (left ++ slot :: right) rest)
    (notLast : right ≠ []) (full : heap.feb slot = true) (soundly : EmptiesSoundly heap slot) :
    ∃ heap' front' rest', emptySlot heap slot = .ok heap' ∧
      UpperPart settings heap'
        (live.filter fun block => block.addr ≠ heap.addr slot)
        (FirstFit.release (FirstFit.total (left.map (blockOf heap))) blocks)
        front' rest' := by
  have arranged := upper.arranged
  have positive := upper.positive
  have separated := upper.separated
  have fullLast : ∀ last ∈ right.getLast?, heap.feb last = true := by
    intro last isLast
    apply (arranged.neighbours_full arranged.commonEmpty).1
    rw [Option.mem_def] at isLast ⊢
    rw [List.getLast?_append, List.getLast?_cons, isLast]
    rfl
  have atSlot : Arranged settings False heap
      (left ++ slot :: (right ++ heap.commonSlot :: rest)) := by
    simpa using arranged
  obtain ⟨heap', above, below, empties, isFront, isRest, replaced, nodup,
    isEmpty, arranged', _⟩ := atSlot.emptySlot_spec full soundly
  have run : Arranged settings False heap (above ++
      (((emptyNeighbour heap left.getLast?).toList ++ slot ::
        (emptyNeighbour heap (right ++ heap.commonSlot :: rest).head?).toList)
        ++ below)) := by
    rw [List.append_assoc, List.cons_append, ← isRest, ← List.append_assoc, ← isFront]
    exact atSlot
  have nextSlot : (right ++ heap.commonSlot :: rest).head? = right.head? :=
    List.head?_append_of_ne_nil _ notLast
  rw [nextSlot] at isRest replaced nodup run
  have fullAbove := replaced.fullAbove arranged' isEmpty
  have fullBelow := replaced.fullBelow arranged' isEmpty
  have sizeTotal := replaced.size_eq_total run
  obtain ⟨under, isBelow, rfl⟩ := split_emptyNeighbour notLast isRest
  have emptyAbove := empty_of_emptyNeighbour heap left.getLast?
  have emptyBelow := empty_of_emptyNeighbour heap right.head?
  generalize emptyNeighbour heap left.getLast? = joined at *
  generalize emptyNeighbour heap right.head? = joined' at *
  subst isFront isBelow
  have outside : heap.commonSlot ∉ joined.toList ++ slot :: joined'.toList := by
    intro member
    rw [List.nodup_append, List.nodup_append] at nodup
    exact nodup.2.1.2.2 heap.commonSlot member heap.commonSlot (by simp) rfl
  have sameCommon := replaced.commonKept outside
  refine ⟨heap', above ++ slot :: under, rest, empties, ?_, ?_, upper.allocatable_filter ?_⟩
  · rw [sameCommon]
    simpa using arranged'
  · simp only [List.map_append, List.map_cons, ← Option.toList_map]
      at positive separated sizeTotal
    have flag : blockOf heap' slot = ⟨FirstFit.total
        ((joined.map (blockOf heap)).toList) + ((blockOf heap slot).size +
          FirstFit.total ((joined'.map (blockOf heap)).toList)), false⟩ := by
      rw [blockOf, isEmpty, sizeTotal]
      simp [FirstFit.total]
    have released : FirstFit.release
        (FirstFit.total (above.map (blockOf heap) ++ (joined.map (blockOf heap)).toList))
        ((above.map (blockOf heap) ++ (joined.map (blockOf heap)).toList) ++
          blockOf heap slot :: ((joined'.map (blockOf heap)).toList ++ under.map (blockOf heap))) =
        above.map (blockOf heap) ++
          ⟨FirstFit.total ((joined.map (blockOf heap)).toList) +
            ((blockOf heap slot).size +
              FirstFit.total ((joined'.map (blockOf heap)).toList)), false⟩ ::
            under.map (blockOf heap) := by
      apply FirstFit.release_inside
      case positive =>
        exact fun block member => positive block (List.mem_append_left _ member)
      case separatedAbove =>
        exact (List.isChain_append.mp (List.isChain_append.mp separated).1).1
      case fullAbove =>
        rw [List.getLast?_map]
        exact full_of_mem_map fullAbove
      case emptyAbove => exact full_of_mem_map emptyAbove
      case emptyBelow => exact full_of_mem_map emptyBelow
      case fullBelow =>
        rw [List.head?_map]
        apply full_of_mem_map
        intro first isFirst
        exact fullBelow first (List.mem_head?_append_of_mem_head? isFirst)
      case separated =>
        exact (List.isChain_append.mp separated).2.1.tail
      case lastFull =>
        rw [Option.toList_map, ← List.map_append, List.getLast?_map]
        exact full_of_mem_map fullLast
      case notLast =>
        rw [Option.toList_map, ← List.map_append]
        exact fun isNil => notLast (List.map_eq_nil_iff.mp isNil)
    rw [← upper.blocks_eq, List.map_append, List.map_cons, flag,
      replaced.blocks_front (fun _ member => member),
      replaced.blocks_rest (fun _ member => List.mem_append_left _ member)]
    simpa only [List.map_append, List.map_cons, ← Option.toList_map] using released.symm
  · intro other inFront fullOther different
    have inside : other ∈ above ∨ other ∈ under := by
      simp only [List.mem_append, List.mem_cons, Option.mem_toList] at inFront
      rcases inFront with (inAbove | isJoined) | same | isJoined | inUnder
      · exact Or.inl inAbove
      · rw [emptyAbove other isJoined] at fullOther
        cases fullOther
      · exact absurd same different
      · rw [emptyBelow other isJoined] at fullOther
        cases fullOther
      · exact Or.inr inUnder
    have outside : other ∈ above ∨ other ∈ under ++ heap.commonSlot :: rest :=
      inside.imp_right (List.mem_append_left _)
    refine ⟨?_, (replaced.febOutside other outside).trans fullOther,
      (replaced.placeOutside other outside).1⟩
    rw [List.mem_append, List.mem_cons]
    tauto

/-- Emptying a slot above the common slot releases its block. -/
theorem UpperPart.emptySlot_above {offset : Nat}
    (upper : UpperPart settings heap live blocks front rest) (inFront : slot ∈ front)
    (place : heap.addr slot = settings.segmentAddr + offset)
    (full : heap.feb slot = true) (soundly : EmptiesSoundly heap slot) :
    ∃ heap' front' rest', emptySlot heap slot = .ok heap' ∧
      UpperPart settings heap'
        (live.filter fun block => block.addr ≠ heap.addr slot)
        (FirstFit.release offset blocks) front' rest' := by
  obtain ⟨left, right, rfl⟩ := List.append_of_mem inFront
  have atSlot : Arranged settings False heap
      (left ++ slot :: (right ++ heap.commonSlot :: rest)) := by
    simpa using upper.arranged
  obtain rfl : offset = FirstFit.total (left.map (blockOf heap)) := by
    have placed := atSlot.addr_eq_total
    omega
  by_cases last : right = []
  · subst last
    exact upper.emptySlot_last full soundly
  · exact upper.emptySlot_inside last full soundly

end Parts

end OpenUH.Libcaf.SharedMemorySlots
