import OpenUH.Foundation.Tiling
import OpenUH.Libcaf.SharedMemorySlots
import Mathlib.Data.List.Chain
import Mathlib.Data.List.Find

/-!
# The shape of the coarray heap

The slots in the order of their addresses, and what the links say about that
order.  The link to the previous slot is trusted at the empty slots only, or
everywhere where the arrangement is exact: a split from the top leaves the
link of the slot behind as it was.  What the finders find is then read off the
order.
-/

namespace OpenUH.Libcaf.SharedMemorySlots

open Foundation.Succession
open Foundation.Tiling

/-- The empty slots of an ordered list of slots. -/
def emptySlots (heap : Heap) (slots : List Nat) : List Nat :=
  slots.filter fun slot => !heap.feb slot

/-- The first address behind the segment. -/
def HeapSettings.segmentEnd (settings : HeapSettings) : Nat :=
  settings.segmentAddr + settings.segmentSize

/-- A list holds the slots of a heap in order, linked and tiling the segment. -/
structure Arranged (settings : HeapSettings) (exact : Prop) (heap : Heap)
    (slots : List Nat) : Prop where
  nodup : slots.Nodup
  listed : ∀ slot, heap.allocated slot = true ↔ slot ∈ slots
  numbered : ∀ slot ∈ slots, slot < heap.slotCount
  commonListed : heap.commonSlot ∈ slots
  commonEmpty : heap.feb heap.commonSlot = false
  next : Follows (fun _ => True) heap.next slots
  prev : Precedes (fun slot => exact ∨ heap.feb slot = false) heap.prev slots
  nextEmpty : Follows (fun _ => True) heap.nextEmpty (emptySlots heap slots)
  prevEmpty : Precedes (fun _ => True) heap.prevEmpty (emptySlots heap slots)
  unchained : ∀ slot ∈ slots, heap.feb slot = true →
    heap.nextEmpty slot = none ∧ heap.prevEmpty slot = none
  tiles : Tiles heap.addr heap.size settings.segmentAddr settings.segmentEnd
    slots
  positive : ∀ slot ∈ slots, slot ≠ heap.commonSlot → 0 < heap.size slot
  separated : slots.IsChain fun left right =>
    heap.feb left = true ∨ heap.feb right = true

/-- The link names the slot that links to this one, and none if there is none. -/
def PrevRight (heap : Heap) (slot : Nat) : Prop :=
  ∀ prevSlot, heap.prev slot = some prevSlot ↔
    heap.allocated prevSlot = true ∧ heap.next prevSlot = some slot

namespace Arranged

variable {settings : HeapSettings} {exact : Prop} {heap : Heap}
  {slots : List Nat}

/-! ## The links of one slot -/

theorem mem_emptySlots {slot : Nat} :
    slot ∈ emptySlots heap slots ↔ slot ∈ slots ∧ heap.feb slot = false := by
  simp [emptySlots]

theorem emptySlots_append {left right : List Nat} :
    emptySlots heap (left ++ right) = emptySlots heap left ++ emptySlots heap right :=
  List.filter_append ..

section

variable (arranged : Arranged settings exact heap slots)

include arranged

theorem fresh_notMem : heap.slotCount ∉ slots := by
  intro member
  exact Nat.lt_irrefl _ (arranged.numbered _ member)

theorem nodup_emptySlots :
    (emptySlots heap slots).Nodup :=
  arranged.nodup.filter _

theorem length_le :
    slots.length ≤ heap.slotCount := by
  have inside : slots ⊆ List.range heap.slotCount := by
    intro slot member
    exact List.mem_range.mpr (arranged.numbered slot member)
  simpa using arranged.nodup.length_le_of_subset inside

theorem length_emptySlots_le :
    (emptySlots heap slots).length ≤ heap.slotCount :=
  Nat.le_trans (List.length_filter_le ..) arranged.length_le

/-- A right link to the previous slot agrees with the order. -/
theorem prev_eq_before {slot : Nat}
    (right : PrevRight heap slot) : heap.prev slot = before slots slot := by
  apply Option.ext
  intro prevSlot
  rw [before_eq_some_iff arranged.nodup, right]
  constructor
  · rintro ⟨allocated, links⟩
    rw [← arranged.next _ ((arranged.listed _).mp allocated) trivial]
    exact links
  · intro follows
    have member : prevSlot ∈ slots := mem_of_after_eq_some follows
    exact ⟨(arranged.listed _).mpr member, (arranged.next _ member trivial).trans follows⟩

theorem prevRight_iff {slot : Nat} :
    PrevRight heap slot ↔ heap.prev slot = before slots slot := by
  refine ⟨arranged.prev_eq_before, ?_⟩
  intro agrees prevSlot
  rw [agrees, before_eq_some_iff arranged.nodup, arranged.listed]
  constructor
  · intro follows
    have member : prevSlot ∈ slots := mem_of_after_eq_some follows
    exact ⟨member, (arranged.next _ member trivial).trans follows⟩
  · rintro ⟨member, links⟩
    exact (arranged.next _ member trivial).symm.trans links

end

section Middle

variable {front rest : List Nat} {slot : Nat}

section

variable (arranged : Arranged settings exact heap (front ++ slot :: rest))

include arranged

theorem next_middle :
    heap.next slot = rest.head? := by
  rw [arranged.next slot (by simp) trivial, after_middle arranged.nodup]

theorem prev_middle (right : PrevRight heap slot) : heap.prev slot = front.getLast? := by
  rw [arranged.prev_eq_before right, before_middle arranged.nodup]

theorem prev_middle_of_empty
    (isEmpty : heap.feb slot = false) : heap.prev slot = front.getLast? := by
  rw [arranged.prev slot (by simp) (Or.inr isEmpty), before_middle arranged.nodup]

end

theorem emptySlots_middle (isEmpty : heap.feb slot = false) :
    emptySlots heap (front ++ slot :: rest) =
      emptySlots heap front ++ slot :: emptySlots heap rest := by
  simp [emptySlots, isEmpty]

section

variable (arranged : Arranged settings exact heap (front ++ slot :: rest))
  (isEmpty : heap.feb slot = false)

include arranged isEmpty

theorem nextEmpty_middle :
    heap.nextEmpty slot = (emptySlots heap rest).head? := by
  have nodup := arranged.nodup_emptySlots
  rw [arranged.nextEmpty slot (mem_emptySlots.mpr ⟨by simp, isEmpty⟩) trivial]
  rw [emptySlots_middle isEmpty] at nodup ⊢
  exact after_middle nodup

theorem prevEmpty_middle :
    heap.prevEmpty slot = (emptySlots heap front).getLast? := by
  have nodup := arranged.nodup_emptySlots
  rw [arranged.prevEmpty slot (mem_emptySlots.mpr ⟨by simp, isEmpty⟩) trivial]
  rw [emptySlots_middle isEmpty] at nodup ⊢
  exact before_middle nodup

/-- The neighbours of an empty slot are full. -/
theorem neighbours_full :
    (∀ prevSlot ∈ front.getLast?, heap.feb prevSlot = true) ∧
      ∀ nextSlot ∈ rest.head?, heap.feb nextSlot = true := by
  have separated := arranged.separated
  rw [List.isChain_append, List.isChain_cons] at separated
  constructor
  · intro prevSlot last
    rcases separated.2.2 prevSlot last slot (by simp) with full | full
    · exact full
    · rw [isEmpty] at full
      cases full
  · intro nextSlot first
    rcases separated.2.1.1 nextSlot first with full | full
    · rw [isEmpty] at full
      cases full
    · exact full

end

end Middle

/-! ## What the finders find -/

theorem common_mem_emptySlots (arranged : Arranged settings exact heap slots) :
    heap.commonSlot ∈ emptySlots heap slots :=
  mem_emptySlots.mpr ⟨arranged.commonListed, arranged.commonEmpty⟩

theorem find?_emptySlots (varSize : Nat) (list : List Nat) :
    (emptySlots heap list).find? (fitsEmpty heap varSize) =
      list.find? (fitsEmpty heap varSize) := by
  rw [emptySlots, List.find?_filter]
  congr 1
  funext slot
  simp [fitsEmpty]

theorem emptySlots_reverse (list : List Nat) :
    (emptySlots heap list).reverse = emptySlots heap list.reverse := by
  simp [emptySlots]

section

variable (arranged : Arranged settings exact heap slots)

include arranged

/-- From the common slot the chain leads back to the first empty slot. -/
theorem walkToEnd_prevEmpty {first : Nat} (isFirst : (emptySlots heap slots).head? = some first) :
    walkToEnd heap.prevEmpty heap.slotCount heap.commonSlot = .done first := by
  have nodup : (emptySlots heap slots).reverse.Nodup :=
    List.nodup_reverse.mpr arranged.nodup_emptySlots
  apply walkToEnd_eq_last nodup
  · intro slot member
    exact arranged.prevEmpty slot (List.mem_reverse.mp member) trivial
  · exact List.mem_reverse.mpr arranged.common_mem_emptySlots
  · rwa [List.getLast?_reverse]
  · simpa using arranged.length_emptySlots_le

theorem walkToEnd_nextEmpty {last : Nat} (isLast : (emptySlots heap slots).getLast? = some last) :
    walkToEnd heap.nextEmpty heap.slotCount heap.commonSlot = .done last := by
  apply walkToEnd_eq_last arranged.nodup_emptySlots _
    arranged.common_mem_emptySlots isLast arranged.length_emptySlots_le
  intro slot member
  exact arranged.nextEmpty slot member trivial

/-- The finder for allocatable data takes the first slot that fits. -/
theorem findEmptySlotAbove_eq (varSize : Nat) :
    findEmptySlotAbove heap heap.commonSlot varSize =
      .ok (slots.find? (fitsEmpty heap varSize)) := by
  obtain ⟨first, isFirst⟩ := Option.isSome_iff_exists.mp
    (List.isSome_head?.mpr (List.ne_nil_of_mem arranged.common_mem_emptySlots))
  have follows : ∀ slot ∈ emptySlots heap slots,
      heap.nextEmpty slot = after (emptySlots heap slots) slot := by
    intro slot member
    exact arranged.nextEmpty slot member trivial
  rw [findEmptySlotAbove, arranged.walkToEnd_prevEmpty isFirst, ofWalk,
    Except.bind, ← isFirst,
    walkFind_eq_of_follows arranged.nodup_emptySlots follows
      (List.nil_append _).symm arranged.length_emptySlots_le,
    ofWalk, find?_emptySlots]

/-- The finder for asymmetric data takes the last slot that fits. -/
theorem findEmptySlotBelow_eq (varSize : Nat) :
    findEmptySlotBelow heap heap.commonSlot varSize =
      .ok (slots.reverse.find? (fitsEmpty heap varSize)) := by
  obtain ⟨last, isLast⟩ := Option.isSome_iff_exists.mp
    (List.getLast?_isSome.mpr (List.ne_nil_of_mem arranged.common_mem_emptySlots))
  have follows : ∀ slot ∈ (emptySlots heap slots).reverse,
      heap.prevEmpty slot = after (emptySlots heap slots).reverse slot := by
    intro slot member
    exact arranged.prevEmpty slot (List.mem_reverse.mp member) trivial
  have nodup : (emptySlots heap slots).reverse.Nodup :=
    List.nodup_reverse.mpr arranged.nodup_emptySlots
  have enough : (emptySlots heap slots).reverse.length ≤ heap.slotCount := by
    simpa using arranged.length_emptySlots_le
  rw [findEmptySlotBelow, arranged.walkToEnd_nextEmpty isLast, ofWalk,
    Except.bind, ← isLast, ← List.head?_reverse,
    walkFind_eq_of_follows nodup follows (List.nil_append _).symm enough,
    ofWalk, emptySlots_reverse, find?_emptySlots]

end

section Finders

variable {front rest : List Nat}

/-- The finder upwards reads the links it passes, and finds what is above. -/
theorem findSlotAbove_eq
    (arranged : Arranged settings exact heap (front ++ heap.commonSlot :: rest)) (address : Nat)
    (right : ∀ slot ∈ passed heap.prev (stopsAbove settings heap address)
      heap.slotCount (some heap.commonSlot), PrevRight heap slot) :
    findSlotAbove settings heap heap.commonSlot address =
      .ok (front.reverse.find? (holdsAddress heap address)) := by
  have inSegment : ∀ slot ∈ front ++ heap.commonSlot :: rest,
      ¬ heap.addr slot < settings.startAddr := by
    intro slot member
    exact Nat.not_lt.mpr (arranged.tiles.bounds member).1
  have split : (front ++ heap.commonSlot :: rest).reverse =
      rest.reverse ++ (heap.commonSlot :: front.reverse) := by simp
  have enough : (heap.commonSlot :: front.reverse).length ≤ heap.slotCount := by
    have bound := arranged.length_le
    simp only [List.length_append, List.length_cons, List.length_reverse]
      at bound ⊢
    omega
  have walk : walkFind heap.prev (stopsAbove settings heap address)
      heap.slotCount (some heap.commonSlot) =
        .done ((heap.commonSlot :: front.reverse).find? (stopsAbove settings heap address)) :=
    walkFind_eq (List.nodup_reverse.mpr arranged.nodup) split enough
      (fun slot member => arranged.prev_eq_before (right slot member))
  have sameTest : ∀ slot ∈ heap.commonSlot :: front.reverse,
      stopsAbove settings heap address slot = holdsAddress heap address slot := by
    intro slot member
    have listed : slot ∈ front ++ heap.commonSlot :: rest := by
      simp only [List.mem_cons, List.mem_reverse] at member
      simp only [List.mem_append, List.mem_cons]
      tauto
    rw [stopsAbove, decide_eq_false (inSegment slot listed), Bool.false_or]
  have skipped : holdsAddress heap address heap.commonSlot = false := by
    rw [holdsAddress, arranged.commonEmpty, Bool.false_and]
  rw [List.find?_congr sameTest, List.find?_cons_of_neg (by simp [skipped])] at walk
  rw [findSlotAbove, walk, ofWalk, Except.map]
  cases found : front.reverse.find? (holdsAddress heap address) with
  | none => rfl
  | some slot =>
      have member := List.mem_reverse.mp (List.mem_of_find?_eq_some found)
      rw [Option.bind_some, if_neg (inSegment slot (List.mem_append_left _ member))]

/-- The finder downwards finds what is below. -/
theorem findSlotBelow_eq
    (arranged : Arranged settings exact heap (front ++ heap.commonSlot :: rest)) (address : Nat) :
    findSlotBelow heap heap.commonSlot address = .ok (rest.find? (holdsAddress heap address)) := by
  have enough : (heap.commonSlot :: rest).length ≤ heap.slotCount := by
    have bound := arranged.length_le
    rw [List.length_append] at bound
    omega
  have follows : ∀ slot ∈ front ++ heap.commonSlot :: rest,
      heap.next slot = after (front ++ heap.commonSlot :: rest) slot := by
    intro slot member
    exact arranged.next slot member trivial
  have skipped : holdsAddress heap address heap.commonSlot = false := by
    rw [holdsAddress, arranged.commonEmpty, Bool.false_and]
  have walk : walkFind heap.next (holdsAddress heap address)
      heap.slotCount (some heap.commonSlot) =
        .done ((heap.commonSlot :: rest).find? (holdsAddress heap address)) :=
    walkFind_eq_of_follows arranged.nodup follows rfl enough
  rw [List.find?_cons_of_neg (by simp [skipped])] at walk
  rw [findSlotBelow, walk, ofWalk]

end Finders

end Arranged

end OpenUH.Libcaf.SharedMemorySlots
