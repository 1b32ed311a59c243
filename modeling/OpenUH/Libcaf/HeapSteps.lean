import OpenUH.Libcaf.HeapReplacement

/-!
# The routines that rearrange the heap

Each routine of `alloc.c` that splits, fills, joins or empties a slot replaces
a run of neighbouring slots, and so keeps the heap arranged.
-/

namespace OpenUH.Libcaf.SharedMemorySlots

open Foundation.Succession
open Foundation.Tiling
open Function (update_apply)

theorem assignThrough_apply {β : Type} (field : Nat → β)
    (pointer : Option Nat) (value : β) (slot : Nat) :
    assignThrough field pointer value slot =
      if pointer = some slot then value else field slot := by
  cases pointer with
  | none => simp [assignThrough]
  | some target =>
      by_cases same : slot = target
      · simp [assignThrough, same]
      · simp [assignThrough, same, Ne.symm same]

/-- What surrounds a run of slots, as far as the routines rely on it. -/
structure Surroundings (heap : Heap) (front middle rest : List Nat) :
    Prop where
  nodupFront : front.Nodup
  nodupMiddle : middle.Nodup
  nodupRest : rest.Nodup
  frontMiddle : ∀ slot ∈ front, slot ∉ middle
  frontRest : ∀ slot ∈ front, slot ∉ rest
  middleRest : ∀ slot ∈ middle, slot ∉ rest
  listed : ∀ slot, heap.allocated slot = true ↔ slot ∈ front ∨ slot ∈ middle ∨ slot ∈ rest
  fresh : heap.slotCount ∉ front ∧ heap.slotCount ∉ middle ∧ heap.slotCount ∉ rest
  numbered : ∀ slot ∈ middle, slot < heap.slotCount
  lastFront : ∀ slot ∈ front.getLast?, slot ∈ front
  firstRest : ∀ slot ∈ rest.head?, slot ∈ rest

namespace Arranged

variable {settings : HeapSettings} {exact : Prop} {heap : Heap}
  {slots front middle rest : List Nat} {slot : Nat}

/-- A slot is a run of one. -/
theorem run (arranged : Arranged settings exact heap (front ++ slot :: rest)) :
    Arranged settings exact heap (front ++ ([slot] ++ rest)) :=
  arranged

theorem surroundings (arranged : Arranged settings exact heap (front ++ (middle ++ rest))) :
    Surroundings heap front middle rest := by
  have nodup := arranged.nodup
  have listed := arranged.listed
  have fresh := arranged.fresh_notMem
  have numbered := arranged.numbered
  simp only [List.nodup_append, List.mem_append] at nodup listed fresh numbered
  constructor
  case lastFront => exact fun _ isLast => List.mem_of_getLast? isLast
  case firstRest => exact fun _ isFirst => List.mem_of_head? isFirst
  all_goals grind

/-- What surrounds the run in the chain of the empty slots. -/
structure EmptySurroundings (heap : Heap) (front middle rest : List Nat) :
    Prop where
  frontMiddle : ∀ slot ∈ emptySlots heap front, slot ∉ middle
  frontRest : ∀ slot ∈ emptySlots heap front, slot ∉ emptySlots heap rest
  middleRest : ∀ slot ∈ middle, slot ∉ emptySlots heap rest
  fresh : heap.slotCount ∉ emptySlots heap front ∧
    heap.slotCount ∉ middle ∧ heap.slotCount ∉ emptySlots heap rest
  lastFront : ∀ slot, (emptySlots heap front).getLast? = some slot → slot ∈ emptySlots heap front
  firstRest : ∀ slot, (emptySlots heap rest).head? = some slot → slot ∈ emptySlots heap rest

theorem emptySurroundings (arranged : Arranged settings exact heap (front ++ (middle ++ rest))) :
    EmptySurroundings heap front middle rest where
  frontMiddle slot member := arranged.surroundings.frontMiddle slot (mem_emptySlots.mp member).1
  frontRest slot member member' :=
    arranged.surroundings.frontRest slot (mem_emptySlots.mp member).1 (mem_emptySlots.mp member').1
  middleRest slot member member' :=
    arranged.surroundings.middleRest slot member (mem_emptySlots.mp member').1
  fresh := by
    obtain ⟨inFront, inMiddle, inRest⟩ := arranged.surroundings.fresh
    exact ⟨fun member => inFront (mem_emptySlots.mp member).1, inMiddle,
      fun member => inRest (mem_emptySlots.mp member).1⟩
  lastFront slot isLast := List.mem_of_getLast? isLast
  firstRest slot isFirst := List.mem_of_head? isFirst

/-- A full slot outside the run is at no end of the chain. -/
theorem ends_empty {other : Nat}
    (arranged : Arranged settings exact heap (front ++ (middle ++ rest)))
    (outside : other ∈ front ∨ other ∈ rest) (full : heap.feb other = true) :
    other ∉ middle ∧ other ≠ heap.slotCount ∧
      (emptySlots heap front).getLast? ≠ some other ∧
      (emptySlots heap rest).head? ≠ some other := by
  have surroundings := arranged.surroundings
  have notEmpty : ∀ part, other ∉ emptySlots heap part := by
    intro part member
    rw [(mem_emptySlots.mp member).2] at full
    cases full
  refine ⟨?_, ?_, ?_, ?_⟩
  · intro member
    rcases outside with inFront | inRest
    · exact surroundings.frontMiddle other inFront member
    · exact surroundings.middleRest other member inRest
  · rintro rfl
    rcases outside with inFront | inRest
    · exact surroundings.fresh.1 inFront
    · exact surroundings.fresh.2.2 inRest
  · intro isLast
    exact notEmpty front (List.mem_of_getLast? isLast)
  · intro isFirst
    exact notEmpty rest (List.mem_of_head? isFirst)

/-- No slot of the run is at an end of the chain around it. -/
theorem ends_outside (arranged : Arranged settings exact heap (front ++ (middle ++ rest)))
    (inside : slot ∈ middle) :
    (emptySlots heap front).getLast? ≠ some slot ∧ (emptySlots heap rest).head? ≠ some slot := by
  have around := arranged.emptySurroundings
  exact ⟨fun isLast => around.frontMiddle slot (around.lastFront slot isLast) inside,
    fun isFirst => around.middleRest slot inside (around.firstRest slot isFirst)⟩

theorem emptySlots_singleton (isEmpty : heap.feb slot = false) :
    emptySlots heap [slot] = [slot] := by
  simp [emptySlots, isEmpty]

/-! ## Links that stay -/

section

variable (arranged : Arranged settings exact heap (front ++ (middle ++ rest)))

include arranged

theorem next_front (notEmpty : middle ≠ []) (slot : Nat) (member : slot ∈ front) :
    heap.next slot =
      if front.getLast? = some slot then middle.head? else heap.next slot := by
  split
  · rename_i isLast
    rw [arranged.next slot (by simp [member]) trivial,
      after_append_left (List.nodup_append.mp arranged.nodup).1 member,
      if_pos isLast, List.head?_append_of_ne_nil _ notEmpty]
  · rfl

theorem prev_rest (notEmpty : middle ≠ []) (slot : Nat) (member : slot ∈ rest)
    (trusted : exact ∨ heap.feb slot = false) :
    heap.prev slot =
      if rest.head? = some slot then middle.getLast? else heap.prev slot := by
  split
  · rename_i isFirst
    obtain ⟨others, shape⟩ := List.head?_eq_some_iff.mp isFirst
    have split : front ++ (middle ++ rest) = (front ++ middle) ++ slot :: others := by simp [shape]
    rw [arranged.prev slot (by simp [member]) trusted, split,
      before_middle (split ▸ arranged.nodup),
      List.getLast?_append_of_ne_nil _ notEmpty]
  · rfl

theorem nextEmpty_front (slot : Nat) (member : slot ∈ emptySlots heap front) :
    heap.nextEmpty slot =
      if (emptySlots heap front).getLast? = some slot then
        (emptySlots heap middle ++ emptySlots heap rest).head?
      else
        heap.nextEmpty slot := by
  split
  · rename_i isLast
    have nodup := arranged.nodup_emptySlots
    rw [arranged.nextEmpty slot (by simp [emptySlots_append, member]) trivial]
    rw [emptySlots_append, emptySlots_append] at nodup ⊢
    rw [after_append_left (List.nodup_append.mp nodup).1 member, if_pos isLast]
  · rfl

theorem prevEmpty_rest (slot : Nat) (member : slot ∈ emptySlots heap rest) :
    heap.prevEmpty slot =
      if (emptySlots heap rest).head? = some slot then
        (emptySlots heap front ++ emptySlots heap middle).getLast?
      else
        heap.prevEmpty slot := by
  split
  · rename_i isFirst
    have nodup := arranged.nodup_emptySlots
    obtain ⟨others, shape⟩ := List.head?_eq_some_iff.mp isFirst
    have split : emptySlots heap (front ++ (middle ++ rest)) =
        (emptySlots heap front ++ emptySlots heap middle) ++ slot :: others := by
      simp [emptySlots_append, shape]
    rw [arranged.prevEmpty slot (by simp [emptySlots_append, member]) trivial,
      split, before_middle (split ▸ nodup)]
  · rfl

end

/-! ## Splitting -/

variable {varSize : Nat}

section

variable (arranged : Arranged settings exact heap (front ++ slot :: rest))
  (isEmpty : heap.feb slot = false)

include arranged isEmpty

theorem splitFromTop_slots (positive : 0 < varSize) (fits : varSize ≤ heap.size slot)
    (split : slot = heap.commonSlot ∨ varSize < heap.size slot) :
    SlotsReplaced heap (splitFromTop heap slot varSize)
      front [slot] [slot, heap.slotCount] rest := by
  have run := arranged.run
  have fullNext := (arranged.neighbours_full isEmpty).2
  obtain ⟨nodupFront, nodupMiddle, nodupRest, frontMiddle, frontRest, middleRest, listed, fresh,
    numbered, lastFront, firstRest⟩ := run.surroundings
  simp only [List.mem_singleton] at *
  constructor
  case nodup =>
    simp only [List.nodup_append, List.mem_append, List.nodup_cons]
    grind
  case numbered => simp [splitFromTop]
  case separatedMiddle => simp [OneFull, splitFromTop]
  case separatedFront => simp [OneFull, splitFromTop]
  case tilesMiddle =>
    simp only [splitFromTop, Tiles, update_apply]
    grind
  all_goals
    simp only [OneFull, splitFromTop, update_apply]
    grind

theorem splitFromTop_links (last : exact → rest = []) :
    Relinked
      (fun other => exact ∨ (splitFromTop heap slot varSize).feb other = false)
      heap.next heap.prev (splitFromTop heap slot varSize).next
      (splitFromTop heap slot varSize).prev front [slot, heap.slotCount]
      rest := by
  have run := arranged.run
  have nextFront := run.next_front (List.cons_ne_nil _ _)
  have nextIs := arranged.next_middle
  have prevIs := arranged.prev_middle_of_empty isEmpty
  have fullNext := (arranged.neighbours_full isEmpty).2
  have apart := run.surroundings.frontMiddle
  have apart' := run.surroundings.middleRest
  have fresh := run.surroundings.fresh
  rw [List.head?_cons] at nextFront
  simp only [List.mem_singleton] at apart apart' fresh
  apply Relinked.pair
  case different => exact Ne.symm fresh.2.1
  all_goals
    generalize front.getLast? = lastFront at *
    generalize rest.head? = firstRest at *
    simp only [splitFromTop, update_apply]
    grind

theorem splitFromTop_chain :
    Relinked (fun _ => True)
      heap.nextEmpty heap.prevEmpty (splitFromTop heap slot varSize).nextEmpty
      (splitFromTop heap slot varSize).prevEmpty (emptySlots heap front)
      [heap.slotCount] (emptySlots heap rest) := by
  have run := arranged.run
  have nextEmptyIs := arranged.nextEmpty_middle isEmpty
  have prevEmptyIs := arranged.prevEmpty_middle isEmpty
  obtain ⟨frontMiddle, frontRest, middleRest, fresh, lastFront, firstRest⟩ := run.emptySurroundings
  simp only [List.mem_singleton] at frontMiddle middleRest fresh
  apply Relinked.single
  all_goals
    generalize (emptySlots heap front).getLast? = lastFront at *
    generalize (emptySlots heap rest).head? = firstRest at *
    simp only [splitFromTop, update_apply, assignThrough_apply]
    grind

theorem splitFromTop_replacement (positive : 0 < varSize) (fits : varSize ≤ heap.size slot)
    (split : slot = heap.commonSlot ∨ varSize < heap.size slot) (last : exact → rest = []) :
    Replacement exact heap (splitFromTop heap slot varSize)
      front [slot] [slot, heap.slotCount] rest := by
  have run := arranged.run
  have different : heap.slotCount ≠ slot := by
    simpa using run.surroundings.fresh.2.1
  have chained : emptySlots (splitFromTop heap slot varSize)
      [slot, heap.slotCount] = [heap.slotCount] := by
    simp [emptySlots, splitFromTop, different]
  refine
    { arranged.splitFromTop_slots isEmpty positive fits split with
      links := arranged.splitFromTop_links isEmpty last
      chain := by
        rw [chained]
        exact arranged.splitFromTop_chain isEmpty
      unchainedOutside := ?_
      unchainedMiddle := ?_ }
  · intro other outside full
    have atOther := run.ends_empty outside full
    have nextEmptyIs := arranged.nextEmpty_middle isEmpty
    have prevEmptyIs := arranged.prevEmpty_middle isEmpty
    simp only [splitFromTop, update_apply, assignThrough_apply]
    grind
  · simp only [splitFromTop, update_apply]
    grind

theorem splitFromBottom_slots (positive : 0 < varSize) (fits : varSize ≤ heap.size slot)
    (split : slot = heap.commonSlot ∨ varSize < heap.size slot) :
    SlotsReplaced heap (splitFromBottom heap slot varSize)
      front [slot] [slot, heap.slotCount] rest := by
  have run := arranged.run
  have fullPrev := (arranged.neighbours_full isEmpty).1
  obtain ⟨nodupFront, nodupMiddle, nodupRest, frontMiddle, frontRest, middleRest, listed, fresh,
    numbered, lastFront, firstRest⟩ := run.surroundings
  simp only [List.mem_singleton] at *
  constructor
  case nodup =>
    simp only [List.nodup_append, List.mem_append, List.nodup_cons]
    grind
  case numbered => simp [splitFromBottom]
  case separatedMiddle => simp [OneFull, splitFromBottom]
  case separatedRest => simp [OneFull, splitFromBottom]
  case tilesMiddle =>
    simp only [splitFromBottom, Tiles, update_apply]
    grind
  case separatedFront =>
    generalize front.getLast? = last at *
    simp only [OneFull, splitFromBottom, update_apply]
    grind
  all_goals
    simp only [splitFromBottom, update_apply]
    grind

theorem splitFromBottom_links :
    Relinked (fun other =>
        exact ∨ (splitFromBottom heap slot varSize).feb other = false)
      heap.next heap.prev (splitFromBottom heap slot varSize).next
      (splitFromBottom heap slot varSize).prev front [slot, heap.slotCount]
      rest := by
  have run := arranged.run
  have nextFront := run.next_front (List.cons_ne_nil _ _)
  have nextIs := arranged.next_middle
  have prevIs := arranged.prev_middle_of_empty isEmpty
  obtain ⟨-, -, -, frontMiddle, frontRest, middleRest, -, fresh, -, lastFront, firstRest⟩ :=
    run.surroundings
  rw [List.head?_cons] at nextFront
  simp only [List.mem_singleton] at frontMiddle middleRest fresh
  apply Relinked.pair
  case different => exact Ne.symm fresh.2.1
  all_goals
    generalize front.getLast? = lastFront at *
    generalize rest.head? = firstRest at *
    simp only [splitFromBottom, update_apply, assignThrough_apply]
    grind

theorem splitFromBottom_chain :
    Relinked (fun _ => True) heap.nextEmpty heap.prevEmpty
      (splitFromBottom heap slot varSize).nextEmpty
      (splitFromBottom heap slot varSize).prevEmpty (emptySlots heap front)
      [slot] (emptySlots heap rest) := by
  have run := arranged.run
  have nextEmptyFront := run.nextEmpty_front
  have prevEmptyRest := run.prevEmpty_rest
  have nextEmptyIs := arranged.nextEmpty_middle isEmpty
  have prevEmptyIs := arranged.prevEmpty_middle isEmpty
  rw [emptySlots_singleton isEmpty] at nextEmptyFront prevEmptyRest
  rw [List.singleton_append, List.head?_cons] at nextEmptyFront
  rw [List.getLast?_concat] at prevEmptyRest
  obtain ⟨frontMiddle, frontRest, middleRest, fresh, lastFront, firstRest⟩ := run.emptySurroundings
  simp only [List.mem_singleton] at frontMiddle middleRest fresh
  apply Relinked.single
  all_goals
    generalize (emptySlots heap front).getLast? = lastFront at *
    generalize (emptySlots heap rest).head? = firstRest at *
    simp only [splitFromBottom, update_apply]
    grind

theorem splitFromBottom_replacement (positive : 0 < varSize) (fits : varSize ≤ heap.size slot)
    (split : slot = heap.commonSlot ∨ varSize < heap.size slot) :
    Replacement exact heap (splitFromBottom heap slot varSize)
      front [slot] [slot, heap.slotCount] rest := by
  have run := arranged.run
  have fresh := run.surroundings.fresh
  have different : heap.slotCount ≠ slot := by
    simpa using fresh.2.1
  have chained : emptySlots (splitFromBottom heap slot varSize)
      [slot, heap.slotCount] = [slot] := by
    simp [emptySlots, splitFromBottom, different.symm, isEmpty]
  refine
    { arranged.splitFromBottom_slots isEmpty positive fits split with
      links := arranged.splitFromBottom_links isEmpty
      chain := by
        rw [chained]
        exact arranged.splitFromBottom_chain isEmpty
      unchainedOutside := ?_
      unchainedMiddle := ?_ }
  · intro other outside full
    simp only [splitFromBottom, update_apply]
    grind
  · simp only [splitFromBottom, update_apply]
    grind

end

/-! ## Filling -/

section

variable (arranged : Arranged settings exact heap (front ++ slot :: rest))

include arranged

theorem takeWhole_slots (notCommon : slot ≠ heap.commonSlot) :
    SlotsReplaced heap (takeWhole heap slot) front [slot] [slot] rest := by
  have run := arranged.run
  have positive := arranged.positive slot (by simp) notCommon
  obtain ⟨nodupFront, nodupMiddle, nodupRest, frontMiddle, frontRest, middleRest, listed, fresh,
    numbered, lastFront, firstRest⟩ := run.surroundings
  simp only [List.mem_singleton] at *
  constructor
  case nodup => exact run.nodup
  case numbered => exact Nat.le_refl _
  case separatedMiddle => simp
  case separatedFront => simp [OneFull, takeWhole]
  case separatedRest => simp [OneFull, takeWhole]
  all_goals
    simp only [takeWhole, update_apply]
    grind

theorem takeWhole_links (isEmpty : heap.feb slot = false) :
    Relinked
      (fun other => exact ∨ (takeWhole heap slot).feb other = false)
      heap.next heap.prev (takeWhole heap slot).next
      (takeWhole heap slot).prev front [slot] rest := by
  have run := arranged.run
  have prevRest := run.prev_rest (List.cons_ne_nil _ _)
  have middleRest := run.surroundings.middleRest
  apply Relinked.single
  case nextFront => exact run.next_front (List.cons_ne_nil _ _)
  case nextHere => exact arranged.next_middle
  case nextRest => exact fun _ _ => rfl
  case prevFront => exact fun _ _ => rfl
  case prevHere => exact fun _ => arranged.prev_middle_of_empty isEmpty
  case prevRest =>
    intro other member trusted
    apply prevRest other member
    have different : other ≠ slot := ne_of_mem_of_not_mem member (middleRest slot (by simp))
    simpa [takeWhole, different] using trusted

theorem takeWhole_chain (isEmpty : heap.feb slot = false) :
    Relinked (fun _ => True) heap.nextEmpty heap.prevEmpty
      (takeWhole heap slot).nextEmpty (takeWhole heap slot).prevEmpty
      (emptySlots heap front) [] (emptySlots heap rest) := by
  have run := arranged.run
  have nextEmptyIs := arranged.nextEmpty_middle isEmpty
  have prevEmptyIs := arranged.prevEmpty_middle isEmpty
  obtain ⟨frontMiddle, frontRest, middleRest, fresh, lastFront, firstRest⟩ := run.emptySurroundings
  simp only [List.mem_singleton] at frontMiddle middleRest fresh
  apply Relinked.gone
  all_goals
    generalize (emptySlots heap front).getLast? = lastFront at *
    generalize (emptySlots heap rest).head? = firstRest at *
    simp only [takeWhole, update_apply, assignThrough_apply]
    grind

theorem takeWhole_replacement
    (isEmpty : heap.feb slot = false) (notCommon : slot ≠ heap.commonSlot) :
    Replacement exact heap (takeWhole heap slot) front [slot] [slot] rest := by
  have run := arranged.run
  have chained : emptySlots (takeWhole heap slot) [slot] = [] := by
    simp [emptySlots, takeWhole]
  refine
    { arranged.takeWhole_slots notCommon with
      links := arranged.takeWhole_links isEmpty
      chain := by
        rw [chained]
        exact arranged.takeWhole_chain isEmpty
      unchainedOutside := ?_
      unchainedMiddle := ?_ }
  · intro other outside full
    have atOther := run.ends_empty outside full
    have nextEmptyIs := arranged.nextEmpty_middle isEmpty
    have prevEmptyIs := arranged.prevEmpty_middle isEmpty
    simp only [takeWhole, update_apply, assignThrough_apply]
    grind
  · simp [takeWhole]

end

/-! ## Joining -/

theorem ne_common_of_full (arranged : Arranged settings exact heap slots)
    (full : heap.feb slot = true) : slot ≠ heap.commonSlot := by
  rintro rfl
  rw [arranged.commonEmpty] at full
  cases full

/-- A run of two slots, seen from the second. -/
theorem at_second {second : Nat}
    (arranged : Arranged settings exact heap (front ++ ([slot, second] ++ rest))) :
    Arranged settings exact heap ((front ++ [slot]) ++ second :: rest) := by
  simpa using arranged

/-- A run of three slots, seen from the third. -/
theorem at_third {second third : Nat}
    (arranged : Arranged settings exact heap (front ++ ([slot, second, third] ++ rest))) :
    Arranged settings exact heap ((front ++ [slot, second]) ++ third :: rest) := by
  simpa using arranged

/-- A run becomes one of its full slots, which is empty then. -/
theorem joined_slots {heap' : Heap}
    (arranged : Arranged settings exact heap (front ++ (middle ++ rest)))
    (inside : slot ∈ middle) (full : heap.feb slot = true)
    (fullPrev : ∀ prevSlot ∈ front.getLast?, heap.feb prevSlot = true)
    (fullNext : ∀ nextSlot ∈ rest.head?, heap.feb nextSlot = true)
    (feb : heap'.feb = (clearFeb heap slot).feb)
    (allocated : ∀ other, heap'.allocated other = true ↔
      other = slot ∨ heap.allocated other = true ∧ other ∉ middle)
    (slotCount : heap'.slotCount = heap.slotCount)
    (commonSlot : heap'.commonSlot = if heap.commonSlot ∈ middle then slot else heap.commonSlot)
    (place : ∀ other ∉ middle, heap'.addr other = heap.addr other ∧
      heap'.size other = heap.size other)
    (larger : heap.size slot ≤ heap'.size slot)
    (tiles : ∀ low high, Tiles heap.addr heap.size low high middle →
      Tiles heap'.addr heap'.size low high [slot]) :
    SlotsReplaced heap heap' front middle [slot] rest := by
  have positive := arranged.positive slot (by simp [inside]) (arranged.ne_common_of_full full)
  obtain ⟨nodupFront, nodupMiddle, nodupRest, frontMiddle, frontRest, middleRest, listed, fresh,
    numbered, lastFront, firstRest⟩ := arranged.surroundings
  constructor
  case nodup =>
    simp only [List.nodup_append, List.mem_append, List.mem_singleton]
    grind
  case allocated => simpa using allocated
  case numbered => exact slotCount.ge
  case tilesMiddle => exact tiles
  case placeOutside => grind
  case separatedMiddle => simp
  case separatedFront | separatedRest =>
    generalize front.getLast? = last at *
    generalize rest.head? = first at *
    simp only [OneFull, feb, clearFeb, update_apply]
    grind
  all_goals
    simp only [feb, slotCount, commonSlot, clearFeb, update_apply]
    grind

/-- A run becomes one of its slots, which takes the place of the run in the chain. -/
theorem joined_replacement {heap' : Heap}
    (arranged : Arranged settings exact heap (front ++ (middle ++ rest)))
    (replaced : SlotsReplaced heap heap' front middle [slot] rest)
    (links : Relinked (fun other => exact ∨ heap'.feb other = false)
      heap.next heap.prev heap'.next heap'.prev front [slot] rest)
    (inside : slot ∈ middle) (isEmpty : heap'.feb slot = false)
    (nextEmpty : ∀ other, heap'.nextEmpty other =
      if (emptySlots heap front).getLast? = some other then some slot
      else if other = slot then (emptySlots heap rest).head? else heap.nextEmpty other)
    (prevEmpty : ∀ other, heap'.prevEmpty other =
      if (emptySlots heap rest).head? = some other then some slot
      else if other = slot then (emptySlots heap front).getLast? else heap.prevEmpty other) :
    Replacement exact heap heap' front middle [slot] rest := by
  refine
    { replaced with
      links := links
      chain := ?_
      unchainedOutside := ?_
      unchainedMiddle := ?_ }
  · obtain ⟨frontMiddle, frontRest, middleRest, fresh, lastFront, firstRest⟩ :=
      arranged.emptySurroundings
    rw [emptySlots_singleton isEmpty]
    apply Relinked.single
    all_goals
      generalize (emptySlots heap front).getLast? = last at *
      generalize (emptySlots heap rest).head? = first at *
      grind
  · intro other outside full
    have atOther := arranged.ends_empty outside full
    grind
  · simp [isEmpty]

section Join3

variable {prevSlot nextSlot : Nat}

section

variable (arranged : Arranged settings exact heap (front ++ ([prevSlot, slot, nextSlot] ++ rest)))

include arranged

theorem join3_slots (full : heap.feb slot = true) (prevIsEmpty : heap.feb prevSlot = false)
    (nextIsEmpty : heap.feb nextSlot = false) :
    SlotsReplaced heap (join3 (clearFeb heap slot) slot prevSlot nextSlot)
      front [prevSlot, slot, nextSlot] [slot] rest := by
  have fullPrev := (arranged.neighbours_full prevIsEmpty).1
  have fullNext := (arranged.at_third.neighbours_full nextIsEmpty).2
  obtain ⟨-, nodupMiddle, -, -, -, -, listed, -⟩ := arranged.surroundings
  simp only [List.nodup_cons, List.mem_cons, List.not_mem_nil] at nodupMiddle listed
  refine arranged.joined_slots (by simp) full fullPrev fullNext rfl ?_ rfl ?_ ?_ ?_ ?_
  all_goals
    simp only [join3, clearFeb, Tiles, update_apply, List.mem_cons, List.not_mem_nil]
    grind

theorem join3_links (prevIsEmpty : heap.feb prevSlot = false) :
    Relinked
      (fun other => exact ∨ (join3 (clearFeb heap slot) slot prevSlot nextSlot).feb other = false)
      heap.next heap.prev
      (join3 (clearFeb heap slot) slot prevSlot nextSlot).next
      (join3 (clearFeb heap slot) slot prevSlot nextSlot).prev
      front [slot] rest := by
  have atNext := arranged.at_third
  have nextIs := atNext.next_middle
  have prevIs := arranged.prev_middle_of_empty prevIsEmpty
  obtain ⟨-, -, -, frontMiddle, frontRest, middleRest, -, fresh, -, lastFront, firstRest⟩ :=
    arranged.surroundings
  simp only [List.mem_cons, List.not_mem_nil] at frontMiddle middleRest
  apply Relinked.single
  all_goals
    generalize front.getLast? = last at *
    generalize rest.head? = first at *
    simp only [join3, clearFeb, update_apply, assignThrough_apply]
    grind

theorem join3_replacement (full : heap.feb slot = true) (prevIsEmpty : heap.feb prevSlot = false)
    (nextIsEmpty : heap.feb nextSlot = false) :
    Replacement exact heap (join3 (clearFeb heap slot) slot prevSlot nextSlot)
      front [prevSlot, slot, nextSlot] [slot] rest := by
  have nextEmptyIs := arranged.at_third.nextEmpty_middle nextIsEmpty
  have prevEmptyIs := arranged.prevEmpty_middle prevIsEmpty
  apply arranged.joined_replacement (arranged.join3_slots full prevIsEmpty nextIsEmpty)
    (arranged.join3_links prevIsEmpty) (by simp) (by simp [join3, clearFeb])
  all_goals
    intro other
    simp only [join3, clearFeb, update_apply, assignThrough_apply]
    grind

end

end Join3

section JoinWithPrev

variable {prevSlot : Nat}

section

variable (arranged : Arranged settings exact heap (front ++ ([prevSlot, slot] ++ rest)))

include arranged

theorem joinWithPrev_slots (full : heap.feb slot = true) (prevIsEmpty : heap.feb prevSlot = false)
    (fullNext : ∀ nextSlot ∈ rest.head?, heap.feb nextSlot = true) :
    SlotsReplaced heap (joinWithPrev (clearFeb heap slot) slot prevSlot)
      front [prevSlot, slot] [slot] rest := by
  have fullPrev := (arranged.neighbours_full prevIsEmpty).1
  obtain ⟨-, nodupMiddle, -, -, -, -, listed, -⟩ := arranged.surroundings
  simp only [List.nodup_cons, List.mem_cons, List.not_mem_nil] at nodupMiddle listed
  refine arranged.joined_slots (by simp) full fullPrev fullNext rfl ?_ rfl ?_ ?_ ?_ ?_
  all_goals
    simp only [joinWithPrev, clearFeb, Tiles, update_apply, List.mem_cons,
      List.not_mem_nil]
    grind

theorem joinWithPrev_links (prevIsEmpty : heap.feb prevSlot = false) :
    Relinked
      (fun other => exact ∨ (joinWithPrev (clearFeb heap slot) slot prevSlot).feb other = false)
      heap.next heap.prev
      (joinWithPrev (clearFeb heap slot) slot prevSlot).next
      (joinWithPrev (clearFeb heap slot) slot prevSlot).prev
      front [slot] rest := by
  have atSlot := arranged.at_second
  have prevRest := arranged.prev_rest (List.cons_ne_nil _ _)
  have nextIs := atSlot.next_middle
  have prevIs := arranged.prev_middle_of_empty prevIsEmpty
  obtain ⟨-, -, -, frontMiddle, frontRest, middleRest, -, fresh, -, lastFront, firstRest⟩ :=
    arranged.surroundings
  simp only [List.mem_cons, List.not_mem_nil] at frontMiddle middleRest
  rw [List.getLast?_cons_cons, List.getLast?_singleton] at prevRest
  apply Relinked.single
  all_goals
    generalize front.getLast? = last at *
    generalize rest.head? = first at *
    simp only [joinWithPrev, clearFeb, update_apply, assignThrough_apply]
    grind

theorem joinWithPrev_replacement
    (full : heap.feb slot = true) (prevIsEmpty : heap.feb prevSlot = false)
    (fullNext : ∀ nextSlot ∈ rest.head?, heap.feb nextSlot = true) :
    Replacement exact heap (joinWithPrev (clearFeb heap slot) slot prevSlot)
      front [prevSlot, slot] [slot] rest := by
  have nextEmptyIs : heap.nextEmpty prevSlot = (emptySlots heap rest).head? := by
    rw [arranged.nextEmpty_middle prevIsEmpty]
    simp [emptySlots, full]
  have prevEmptyIs := arranged.prevEmpty_middle prevIsEmpty
  have inside : slot ∈ [prevSlot, slot] := by simp
  have notEnd := arranged.ends_outside inside
  apply arranged.joined_replacement (arranged.joinWithPrev_slots full prevIsEmpty fullNext)
    (arranged.joinWithPrev_links prevIsEmpty) inside (by simp [joinWithPrev, clearFeb])
  all_goals
    intro other
    simp only [joinWithPrev, clearFeb, update_apply, assignThrough_apply]
    grind

end

end JoinWithPrev

section JoinWithNext

variable {nextSlot : Nat}

section

variable (arranged : Arranged settings exact heap (front ++ ([slot, nextSlot] ++ rest)))

include arranged

theorem joinWithNext_slots (full : heap.feb slot = true) (nextIsEmpty : heap.feb nextSlot = false)
    (fullPrev : ∀ prevSlot ∈ front.getLast?, heap.feb prevSlot = true) :
    SlotsReplaced heap (joinWithNext (clearFeb heap slot) slot nextSlot)
      front [slot, nextSlot] [slot] rest := by
  have fullNext := (arranged.at_second.neighbours_full nextIsEmpty).2
  obtain ⟨-, nodupMiddle, -, -, -, -, listed, -⟩ := arranged.surroundings
  simp only [List.nodup_cons, List.mem_cons, List.not_mem_nil] at nodupMiddle listed
  refine arranged.joined_slots (by simp) full fullPrev fullNext rfl ?_ rfl ?_ ?_ ?_ ?_
  all_goals
    simp only [joinWithNext, clearFeb, Tiles, update_apply, List.mem_cons,
      List.not_mem_nil]
    grind

theorem joinWithNext_links (right : PrevRight heap slot) :
    Relinked
      (fun other => exact ∨ (joinWithNext (clearFeb heap slot) slot nextSlot).feb other = false)
      heap.next heap.prev
      (joinWithNext (clearFeb heap slot) slot nextSlot).next
      (joinWithNext (clearFeb heap slot) slot nextSlot).prev
      front [slot] rest := by
  have atNext := arranged.at_second
  have nextFront := arranged.next_front (List.cons_ne_nil _ _)
  have nextIs := atNext.next_middle
  have prevIs := arranged.prev_middle right
  obtain ⟨-, -, -, frontMiddle, frontRest, middleRest, -, fresh, -, lastFront, firstRest⟩ :=
    arranged.surroundings
  simp only [List.mem_cons, List.not_mem_nil] at frontMiddle middleRest
  rw [List.head?_cons] at nextFront
  apply Relinked.single
  all_goals
    generalize front.getLast? = last at *
    generalize rest.head? = first at *
    simp only [joinWithNext, clearFeb, update_apply, assignThrough_apply]
    grind

theorem joinWithNext_replacement
    (full : heap.feb slot = true) (nextIsEmpty : heap.feb nextSlot = false)
    (right : PrevRight heap slot)
    (fullPrev : ∀ prevSlot ∈ front.getLast?, heap.feb prevSlot = true) :
    Replacement exact heap (joinWithNext (clearFeb heap slot) slot nextSlot)
      front [slot, nextSlot] [slot] rest := by
  have atNext := arranged.at_second
  have nextEmptyIs := atNext.nextEmpty_middle nextIsEmpty
  have prevEmptyIs : heap.prevEmpty nextSlot = (emptySlots heap front).getLast? := by
    rw [atNext.prevEmpty_middle nextIsEmpty]
    simp [emptySlots, full]
  have inside : slot ∈ [slot, nextSlot] := by simp
  have notEnd := arranged.ends_outside inside
  apply arranged.joined_replacement (arranged.joinWithNext_slots full nextIsEmpty fullPrev)
    (arranged.joinWithNext_links right) inside (by simp [joinWithNext, clearFeb])
  all_goals
    intro other
    simp only [joinWithNext, clearFeb, update_apply, assignThrough_apply]
    grind

end

end JoinWithNext

/-! ## Emptying an isolated slot -/

section Isolated

variable {heap' : Heap}

/-- Only the bit and the chain change when an isolated slot is emptied. -/
structure OnlyChained (heap heap' : Heap) : Prop where
  addr : heap'.addr = heap.addr
  size : heap'.size = heap.size
  feb : heap'.feb = heap.feb
  next : heap'.next = heap.next
  prev : heap'.prev = heap.prev
  allocated : heap'.allocated = heap.allocated
  slotCount : heap'.slotCount = heap.slotCount
  commonSlot : heap'.commonSlot = heap.commonSlot

section

variable (arranged : Arranged settings exact heap (front ++ slot :: rest))

include arranged

theorem emptied_slots
    (full : heap.feb slot = true) (fullPrev : ∀ prevSlot ∈ front.getLast?, heap.feb prevSlot = true)
    (fullNext : ∀ nextSlot ∈ rest.head?, heap.feb nextSlot = true)
    (chained : OnlyChained (clearFeb heap slot) heap') :
    SlotsReplaced heap heap' front [slot] [slot] rest := by
  have run := arranged.run
  have listed := arranged.listed slot
  have notCommon := arranged.ne_common_of_full full
  refine run.joined_slots (by simp) full fullPrev fullNext chained.feb ?_ chained.slotCount ?_ ?_
    ?_ ?_
  all_goals
    simp only [chained.allocated, chained.commonSlot, chained.addr, chained.size, clearFeb,
      List.mem_singleton]
    grind

theorem emptied_links
    (right : PrevRight heap slot) (chained : OnlyChained (clearFeb heap slot) heap') :
    Relinked (fun other => exact ∨ heap'.feb other = false)
      heap.next heap.prev heap'.next heap'.prev front [slot] rest := by
  have run := arranged.run
  have prevRest := run.prev_rest (List.cons_ne_nil _ _)
  have middleRest := run.surroundings.middleRest
  rw [chained.next, chained.prev, chained.feb]
  apply Relinked.single
  case nextFront => exact run.next_front (List.cons_ne_nil _ _)
  case nextHere => exact arranged.next_middle
  case nextRest => exact fun _ _ => rfl
  case prevFront => exact fun _ _ => rfl
  case prevHere => exact fun _ => arranged.prev_middle right
  case prevRest =>
    intro other member trusted
    apply prevRest other member
    have different : other ≠ slot := ne_of_mem_of_not_mem member (middleRest slot (by simp))
    simpa [clearFeb, different] using trusted

theorem linkBefore_replacement {nextSlot : Nat}
    (full : heap.feb slot = true) (right : PrevRight heap slot)
    (fullPrev : ∀ prevSlot ∈ front.getLast?, heap.feb prevSlot = true)
    (fullNext : ∀ nextSlot ∈ rest.head?, heap.feb nextSlot = true)
    (isFirst : (emptySlots heap rest).head? = some nextSlot)
    (noneAbove : emptySlots heap front = []) :
    Replacement exact heap (linkBefore (clearFeb heap slot) slot nextSlot)
      front [slot] [slot] rest := by
  have run := arranged.run
  have onlyChained : OnlyChained (clearFeb heap slot)
      (linkBefore (clearFeb heap slot) slot nextSlot) := by
    constructor <;> rfl
  have prevEmptyIs : heap.prevEmpty nextSlot = none := by
    have unchanged := run.prevEmpty_rest nextSlot (List.mem_of_head? isFirst)
    rw [if_pos isFirst, noneAbove] at unchanged
    simpa [emptySlots, full] using unchanged
  apply run.joined_replacement (arranged.emptied_slots full fullPrev fullNext onlyChained)
    (arranged.emptied_links right onlyChained) (by simp) (by simp [linkBefore, clearFeb])
  all_goals
    intro other
    simp only [linkBefore, clearFeb, update_apply, isFirst, noneAbove, List.getLast?_nil]
    grind

theorem linkBehind_replacement {prevSlot : Nat}
    (full : heap.feb slot = true) (right : PrevRight heap slot)
    (fullPrev : ∀ prevSlot ∈ front.getLast?, heap.feb prevSlot = true)
    (fullNext : ∀ nextSlot ∈ rest.head?, heap.feb nextSlot = true)
    (isLast : (emptySlots heap front).getLast? = some prevSlot)
    (noneBelow : emptySlots heap rest = []) :
    Replacement exact heap (linkBehind (clearFeb heap slot) slot prevSlot)
      front [slot] [slot] rest := by
  have run := arranged.run
  have onlyChained : OnlyChained (clearFeb heap slot)
      (linkBehind (clearFeb heap slot) slot prevSlot) := by
    constructor <;> rfl
  have nextEmptyIs : heap.nextEmpty prevSlot = none := by
    have unchanged := run.nextEmpty_front prevSlot (List.mem_of_getLast? isLast)
    rw [if_pos isLast, noneBelow] at unchanged
    simpa [emptySlots, full] using unchanged
  apply run.joined_replacement (arranged.emptied_slots full fullPrev fullNext onlyChained)
    (arranged.emptied_links right onlyChained) (by simp) (by simp [linkBehind, clearFeb])
  all_goals
    intro other
    simp only [linkBehind, clearFeb, update_apply, isLast, noneBelow, List.head?_nil]
    grind

end

end Isolated

end Arranged

end OpenUH.Libcaf.SharedMemorySlots
