import OpenUH.Libopenmp.ListQueue

/-!
# The list queue is a deque

Each call keeps the slots of a queue in one ring and returns what the call on
the items returns.  The links that the puts check are right, and a step to the
next or previous slot in memory stays inside its segment, because such a step
is made between neighbours of the ring only.
-/

namespace OpenUH.Libopenmp.Queue

open Foundation
open Foundation.Fallible
open Function (update_of_ne update_self)

variable {α : Type} {memory : SlotMemory α} {q : ListQueue α} {items : List α}
  {used unused : List SlotAddr} {slot other : SlotAddr}

/-- A call stops where as many slots as the queue has are not served. -/
def SlotsNotServed (memory : SlotMemory α) (items : List α) (fault : QueueFault) : Prop :=
  fault = .assertionFailed "couldn't resize the queue" ∧ memory.serves (items.length + 1) = false

/-! ## Steps between neighbours -/

theorem ListQueue.Linked.slotBehind (linked : q.Linked slot other) :
    q.slotBehind slot = .ok other := by
  unfold ListQueue.slotBehind
  cases linked with
  | links isNext isPrev => rw [isNext]
  | adjacent noNext noPrev inside =>
      rw [noNext]
      exact if_pos inside

theorem ListQueue.Linked.slotAhead (linked : q.Linked slot other) :
    q.slotAhead other = .ok slot := by
  unfold ListQueue.slotAhead
  cases linked with
  | links isNext isPrev => rw [isPrev]
  | adjacent noNext noPrev inside =>
      rw [noPrev]
      rfl

theorem ListQueue.Linked.newTail (linked : q.Linked q.tail other) : q.newTail = .ok other := by
  unfold ListQueue.newTail
  cases linked with
  | links isNext isPrev =>
      rw [isNext]
      exact if_pos isPrev
  | adjacent noNext noPrev inside =>
      rw [noNext]
      exact if_pos inside

theorem ListQueue.Linked.newHead (linked : q.Linked slot q.head) : q.newHead = .ok slot := by
  unfold ListQueue.newHead
  generalize head_eq : q.head = head at linked
  cases linked with
  | links isNext isPrev =>
      rw [isPrev]
      exact if_pos isNext
  | adjacent noNext noPrev inside =>
      rw [noPrev]
      rfl

/-! ## The slots of a segment -/

/-- The slots of a segment, in order. -/
def segmentSlots (segment size : Nat) : List SlotAddr :=
  (List.range size).map fun index => ⟨segment, index⟩

/-- A chain is kept where the links between its elements are. -/
theorem isChain_kept {β : Type} {R S : β → β → Prop} {first : β}
    {rest : List β} (nodup : (first :: rest).Nodup) (chain : List.IsChain R (first :: rest))
    (kept : ∀ left ∈ first :: rest, ∀ right ∈ first :: rest,
      (first :: rest).getLast? ≠ some left → right ≠ first → R left right → S left right) :
    List.IsChain S (first :: rest) := by
  rw [List.isChain_iff_forall_rel_of_append_cons_cons] at chain ⊢
  intro left right front behind split
  have apart : (front ++ left :: right :: behind).Nodup := split ▸ nodup
  apply kept
  case _ => simp [split]
  case _ => simp [split]
  case _ =>
    intro isLast
    rw [split, List.getLast?_append_cons, List.getLast?_cons_cons] at isLast
    have distinct := (List.nodup_append.mp apart).2.1
    exact (List.nodup_cons.mp distinct).1 (List.mem_of_getLast? isLast)
  case _ =>
    rintro rfl
    cases front with
    | nil =>
        obtain ⟨rfl, _⟩ := List.cons.inj split
        exact (List.nodup_cons.mp apart).1 List.mem_cons_self
    | cons other front =>
        obtain ⟨rfl, _⟩ := List.cons.inj split
        exact (List.nodup_cons.mp apart).1 (by simp)
  case _ => exact chain split

/-- A link is kept where its two ends keep their fields. -/
theorem SlotLink.congr {next prev next' prev' : SlotAddr → Option SlotAddr}
    {segmentSize segmentSize' : Nat → Nat} (link : SlotLink next prev segmentSize slot other)
    (sameNext : next' slot = next slot) (samePrev : prev' other = prev other)
    (sameSize : segmentSize' slot.segment = segmentSize slot.segment) :
    SlotLink next' prev' segmentSize' slot other := by
  cases link with
  | links isNext isPrev =>
      exact .links (sameNext.trans isNext) (samePrev.trans isPrev)
  | adjacent noNext noPrev inside =>
      exact .adjacent (sameNext.trans noNext) (samePrev.trans noPrev) (sameSize.symm ▸ inside)

/-- The slots of a new segment follow each other in memory. -/
theorem isChain_segmentSlots {next prev : SlotAddr → Option SlotAddr}
    {segmentSize : Nat → Nat} {segment size : Nat} (large : segmentSize segment = size)
    (noNext : ∀ index, index + 1 < size → next ⟨segment, index⟩ = none)
    (noPrev : ∀ index, index + 1 < size → prev ⟨segment, index + 1⟩ = none) :
    List.IsChain (SlotLink next prev segmentSize) (segmentSlots segment size) := by
  rw [segmentSlots, List.isChain_map, List.isChain_range]
  intro index inside
  have further : index + 1 < size := by omega
  exact .adjacent (noNext index further) (noPrev index further) (large.symm ▸ further)

theorem nodup_segmentSlots (segment size : Nat) : (segmentSlots segment size).Nodup := by
  apply List.nodup_range.map
  intro index index' same
  exact congrArg SlotAddr.index same

theorem head?_segmentSlots {segment size : Nat} (some : 1 ≤ size) :
    (segmentSlots segment size).head? = Option.some ⟨segment, 0⟩ := by
  rw [segmentSlots, List.head?_map, List.head?_range, if_neg (by omega)]
  rfl

theorem getLast?_segmentSlots {segment size : Nat} (some : 1 ≤ size) :
    (segmentSlots segment size).getLast? = Option.some ⟨segment, size - 1⟩ := by
  rw [segmentSlots, List.getLast?_map, List.getLast?_range, if_neg (by omega)]
  rfl

/-! ## The ring -/

namespace ListQueue.HoldsIn

section

variable (held : q.HoldsIn items used unused)

include held

/-- The ring, from the head around to the head. -/
theorem chain :
    List.IsChain q.Linked (q.head :: used ++ (unused ++ [q.head])) := by
  have ring := held.ring
  rw [Cycle.chain_coe_cons] at ring
  simpa using ring

theorem getLast?_eq :
    (q.head :: used).getLast? = some q.tail := by
  rw [held.tail_eq, List.getLast?_cons]

/-- The slot behind the tail is the first unused one, or the head. -/
theorem tail_linked {rest : List SlotAddr}
    (behind : unused ++ [q.head] = slot :: rest) : q.Linked q.tail slot := by
  have chain := held.chain
  rw [behind] at chain
  exact (List.isChain_append.mp chain).2.2 q.tail held.getLast?_eq slot rfl

theorem length_eq : used.length = items.length := by
  have same := congrArg List.length held.items_eq
  simpa using same

theorem isFull_iff :
    queueListIsFull q = true ↔ unused = [] := by
  have slots := held.numSlots_eq
  have small := held.small
  have usedLength := held.length_eq
  rw [queueListIsFull, decide_eq_true_eq, held.used_eq, ← List.length_eq_zero_iff]
  omega

/-- The head of a queue with an item is not its tail. -/
theorem head_ne_tail (notEmpty : items ≠ []) : q.head ≠ q.tail := by
  intro same
  have usedLength := held.length_eq
  have some : used ≠ [] := by
    rintro rfl
    exact notEmpty (List.length_eq_zero_iff.mp usedLength.symm)
  obtain ⟨last, isLast⟩ := Option.ne_none_iff_exists'.mp (mt List.getLast?_eq_none_iff.mp some)
  have inUsed : q.head ∈ used := by
    rw [same, held.tail_eq, isLast]
    exact List.mem_of_getLast? isLast
  exact (List.nodup_cons.mp held.nodup).1 (List.mem_append_left _ inUsed)

end

/-! ## Takes -/

/-- A take that leaves the items it should succeeds. -/
theorem finishListTake_eq {item : Option α} (left : q.oneLess.HoldsIn items used unused) :
    finishListTake q item = .ok (q.oneLess, item) ∧ q.oneLess.HoldsIn items used unused := by
  refine ⟨?_, left⟩
  unfold finishListTake
  apply if_neg
  rintro ⟨some, same⟩
  refine left.head_ne_tail ?_ same
  rintro rfl
  exact some left.used_eq

theorem getHead (held : q.HoldsIn items used unused) :
    ∃ next used unused, queueListGetHead q = .ok (next, items.head?) ∧
      next.HoldsIn items.tail used unused := by
  cases items with
  | nil =>
      refine ⟨q, used, unused, ?_, held⟩
      rw [queueListGetHead, held.isEmpty_eq]
      rfl
  | cons item rest =>
      have usedLength := held.length_eq
      cases used with
      | nil => cases usedLength
      | cons first used =>
          have small := held.small
          have slots := held.numSlots_eq
          have read := held.items_eq
          rw [List.map_cons, List.map_cons, List.cons.injEq] at read
          simp only [List.length_cons] at slots usedLength
          have oneLess : (q.usedSlots + (2 ^ 32 - 1)) % 2 ^ 32 = rest.length := by
            rw [held.used_eq, List.length_cons]
            omega
          have linked : q.Linked q.head first := (List.isChain_cons_cons.mp held.chain).1
          have ring : Cycle.Chain q.Linked
              (first :: (used ++ (unused ++ [q.head])) : List SlotAddr) := by
            have ring := held.ring
            rw [Cycle.coe_cons_eq_coe_append] at ring
            simpa using ring
          have turned : (q.head :: (first :: used ++ unused) : List SlotAddr).Perm
              (first :: (used ++ (unused ++ [q.head]))) := by
            simpa using (List.perm_append_singleton q.head (first :: used ++ unused)).symm
          rw [queueListGetHead, if_neg (by simp [held.isEmpty_eq]),
            linked.slotBehind, Except.bind, read.1]
          refine ⟨_, used, unused ++ [q.head], finishListTake_eq ?_⟩
          exact
            { ring := ring
              nodup := turned.nodup_iff.mp held.nodup
              known := fun slot member =>
                held.known slot (turned.mem_iff.mpr member)
              tail_eq := by
                rw [held.tail_eq, List.getLast?_cons]
                rfl
              items_eq := read.2
              numSlots_eq := by
                rw [List.length_append, List.length_singleton]
                exact slots.trans (by omega)
              small := held.small
              used_eq := oneLess
              isEmpty_eq := by
                dsimp only [ListQueue.oneLess]
                rw [oneLess, held.isEmpty_eq]
                cases rest <;> rfl }

theorem getTail (held : q.HoldsIn items used unused) :
    ∃ next used unused, queueListGetTail q = .ok (next, items.getLast?) ∧
      next.HoldsIn items.dropLast used unused := by
  rcases List.eq_nil_or_concat' items with rfl | ⟨rest, item, rfl⟩
  · refine ⟨q, used, unused, ?_, held⟩
    rw [queueListGetTail, held.isEmpty_eq]
    rfl
  · have usedLength := held.length_eq
    rcases List.eq_nil_or_concat' used with rfl | ⟨used, last, rfl⟩
    · rw [List.length_append] at usedLength
      cases usedLength
    · have small := held.small
      have slots := held.numSlots_eq
      have read := held.items_eq
      have tail := held.tail_eq
      rw [List.getLast?_concat, Option.getD_some] at tail
      rw [List.map_append, List.map_append] at read
      obtain ⟨readRest, readItem⟩ := List.append_inj' read rfl
      simp only [List.length_append, List.length_singleton] at slots usedLength
      have oneLess : (q.usedSlots + (2 ^ 32 - 1)) % 2 ^ 32 = rest.length := by
        rw [held.used_eq, List.length_append, List.length_singleton]
        omega
      have joined : used ++ [last] ++ unused = used ++ (last :: unused) := List.append_assoc ..
      have ring := held.ring
      have nodup := held.nodup
      have known := held.known
      rw [joined] at ring nodup known
      have linked : q.Linked (used.getLast?.getD q.head) last := by
        have chain := held.chain
        rw [← List.cons_append, List.append_assoc] at chain
        refine (List.isChain_append.mp chain).2.2 _ ?_ last rfl
        rw [List.getLast?_cons]
        rfl
      have itemRead : q.item q.tail = some item := by
        rw [tail]
        exact (List.cons.inj readItem).1
      rw [queueListGetTail, if_neg (by simp [held.isEmpty_eq]), tail,
        linked.slotAhead, Except.bind, ← tail, itemRead,
        List.getLast?_concat, List.dropLast_concat]
      refine ⟨_, used, last :: unused, finishListTake_eq ?_⟩
      exact
        { ring := ring
          nodup := nodup
          known := known
          tail_eq := rfl
          items_eq := readRest
          numSlots_eq := by
            rw [List.length_cons]
            exact slots.trans (by omega)
          small := held.small
          used_eq := oneLess
          isEmpty_eq := by
            dsimp only [ListQueue.oneLess]
            rw [oneLess, held.isEmpty_eq]
            cases rest <;> simp }

/-! ## Puts -/

theorem putTail (held : q.HoldsIn items used (slot :: unused)) (item : α) :
    q.newTail = .ok slot ∧
      ({ q with
        item := Function.update q.item slot (some item)
        tail := slot
        usedSlots := (q.usedSlots + 1) % 2 ^ 32
        isEmpty := false } : ListQueue α).HoldsIn (items ++ [item]) (used ++ [slot]) unused := by
  have small := held.small
  have slots := held.numSlots_eq
  have usedLength := held.length_eq
  rw [List.length_cons] at slots
  have unread : slot ∉ used := by
    intro inUsed
    have nodup := (List.nodup_cons.mp held.nodup).2
    exact (List.nodup_append.mp nodup).2.2 slot inUsed slot List.mem_cons_self rfl
  have joined : used ++ slot :: unused = used ++ [slot] ++ unused := by simp
  have ring := held.ring
  have nodup := held.nodup
  have known := held.known
  rw [joined] at ring nodup known
  refine ⟨(held.tail_linked rfl).newTail, ?_⟩
  exact
    { ring := ring
      nodup := nodup
      known := known
      tail_eq := by
        rw [List.getLast?_concat]
        rfl
      items_eq := by
        dsimp only
        rw [List.map_append, List.map_append, ← held.items_eq,
          List.map_singleton, update_self, List.map_singleton]
        congr 1
        apply List.map_congr_left
        intro other member
        apply update_of_ne
        rintro rfl
        exact unread member
      numSlots_eq := by
        rw [List.length_append, List.length_singleton]
        exact slots.trans (by omega)
      small := held.small
      used_eq := by
        dsimp only
        rw [held.used_eq, List.length_append, List.length_singleton]
        omega
      isEmpty_eq := by simp }

theorem putHead (held : q.HoldsIn items used (unused ++ [slot])) (item : α) :
    q.newHead = .ok slot ∧
      ({ q with
        item := Function.update q.item q.head (some item)
        head := slot
        usedSlots := (q.usedSlots + 1) % 2 ^ 32
        isEmpty := false } : ListQueue α).HoldsIn (item :: items) (q.head :: used) unused := by
  have small := held.small
  have slots := held.numSlots_eq
  have usedLength := held.length_eq
  rw [List.length_append, List.length_singleton] at slots
  have linked : q.Linked slot q.head := by
    have chain := held.chain
    rw [← List.append_assoc, ← List.append_assoc] at chain
    refine (List.isChain_append.mp chain).2.2 slot ?_ q.head rfl
    rw [List.getLast?_concat]
    rfl
  have ring : Cycle.Chain q.Linked (slot :: (q.head :: used ++ unused) : List SlotAddr) := by
    rw [Cycle.coe_cons_eq_coe_append]
    simpa using held.ring
  have turned : (q.head :: (used ++ (unused ++ [slot]))).Perm
      (slot :: (q.head :: used ++ unused)) := by
    simpa using List.perm_append_singleton slot (q.head :: used ++ unused)
  refine ⟨linked.newHead, ?_⟩
  exact
    { ring := ring
      nodup := turned.nodup_iff.mp held.nodup
      known := fun slot member => held.known slot (turned.mem_iff.mpr member)
      tail_eq := by
        rw [List.getLast?_cons]
        exact held.tail_eq
      items_eq := by
        dsimp only
        rw [List.map_cons, update_self, List.map_cons, ← held.items_eq]
        congr 1
        apply List.map_congr_left
        intro other member
        apply update_of_ne
        rintro rfl
        exact (List.nodup_cons.mp held.nodup).1 (List.mem_append_left _ member)
      numSlots_eq := by
        rw [List.length_cons]
        exact slots.trans (by omega)
      small := held.small
      used_eq := by
        dsimp only
        rw [held.used_eq, List.length_cons]
        omega
      isEmpty_eq := rfl }

/-! ## New slots -/

/-- In a full ring, the cut between the tail and the head takes the links. -/
theorem addSlots_links (linked : q.Linked q.tail q.head) :
    assignAt (clearedIn q.prev q.segmentCount) (q.next q.tail) none q.head =
        none ∧
      assignAt (clearedIn q.next q.segmentCount)
          (assignAt (clearedIn q.prev q.segmentCount) (q.next q.tail) none q.head) none =
        clearedIn q.next q.segmentCount := by
  have cut : assignAt (clearedIn q.prev q.segmentCount) (q.next q.tail) none q.head = none := by
    generalize head_eq : q.head = head at linked
    cases linked with
    | links isNext isPrev =>
        rw [isNext]
        exact update_self ..
    | adjacent noNext noPrev inside =>
        rw [noNext]
        change (if _ then none else _) = none
        rw [noPrev, ite_self]
  refine ⟨cut, ?_⟩
  rw [cut]
  rfl

/-- A link from the tail goes nowhere but to the head. -/
theorem assignAt_prev (linked : q.Linked q.tail q.head) (different : slot ≠ q.head) :
    assignAt (clearedIn q.prev q.segmentCount) (q.next q.tail) none slot =
      clearedIn q.prev q.segmentCount slot := by
  generalize head_eq : q.head = head at linked different
  cases linked with
  | links isNext isPrev =>
      rw [isNext]
      exact update_of_ne different ..
  | adjacent noNext noPrev inside =>
      rw [noNext]
      rfl

/-- The old slots and the new segment form one ring. -/
theorem ring_addSlots (held : q.HoldsIn items used [])
    {next prev : SlotAddr → Option SlotAddr} {segmentSize : Nat → Nat}
    {size : Nat} (some : 1 ≤ size)
    (nextOld : ∀ slot, slot ≠ q.tail → slot.segment ≠ q.segmentCount → next slot = q.next slot)
    (prevOld : ∀ slot, slot ≠ q.head → slot.segment ≠ q.segmentCount → prev slot = q.prev slot)
    (sizeOld : ∀ segment, segment ≠ q.segmentCount → segmentSize segment = q.segmentSize segment)
    (sizeNew : segmentSize q.segmentCount = size)
    (nextNew : ∀ index, index + 1 < size → next ⟨q.segmentCount, index⟩ = none)
    (prevNew : ∀ index, index + 1 < size → prev ⟨q.segmentCount, index + 1⟩ = none)
    (nextTail : next q.tail = Option.some ⟨q.segmentCount, 0⟩)
    (prevFirst : prev ⟨q.segmentCount, 0⟩ = Option.some q.tail)
    (nextLast : next ⟨q.segmentCount, size - 1⟩ = Option.some q.head)
    (prevHead : prev q.head = Option.some ⟨q.segmentCount, size - 1⟩) :
    Cycle.Chain (SlotLink next prev segmentSize)
      (q.head :: (used ++ segmentSlots q.segmentCount size) : List SlotAddr) := by
  have nodup := held.nodup
  have known := held.known
  have chain := (List.isChain_append.mp held.chain).1
  rw [List.append_nil] at nodup known
  have oldRing : List.IsChain (SlotLink next prev segmentSize) (q.head :: used) := by
    apply isChain_kept nodup chain
    intro left inLeft right inRight notLast notFirst link
    have oldLeft := Nat.ne_of_lt (known left inLeft)
    have oldRight := Nat.ne_of_lt (known right inRight)
    apply SlotLink.congr link
    case sameNext =>
      apply nextOld left _ oldLeft
      rintro rfl
      exact notLast held.getLast?_eq
    case samePrev => exact prevOld right notFirst oldRight
    case sameSize => exact sizeOld _ oldLeft
  have newSlots := isChain_segmentSlots sizeNew nextNew prevNew
  rw [Cycle.chain_coe_cons, List.append_assoc, ← List.cons_append]
  refine List.isChain_append.mpr ⟨oldRing, List.isChain_append.mpr
    ⟨newSlots, List.isChain_singleton _, ?_⟩, ?_⟩
  · intro last isLast first isFirst
    rw [getLast?_segmentSlots some] at isLast
    cases isLast
    cases isFirst
    exact .links nextLast prevHead
  · intro last isLast first isFirst
    rw [held.getLast?_eq] at isLast
    rw [List.head?_append, head?_segmentSlots some] at isFirst
    cases isLast
    cases isFirst
    exact .links nextTail prevFirst

/-- A full ring is cut open behind its tail, and the new segment put there. -/
theorem listAddSlots (held : q.HoldsIn items used [])
    (limited : memory.Limited) (served : memory.serves q.numSlots = true) :
    ∃ next, Queue.listAddSlots memory q q.numSlots = .ok next ∧
      next.HoldsIn items used (segmentSlots q.segmentCount q.numSlots) := by
  obtain ⟨atLeastOne, isInt⟩ := limited.served held.small served
  have linked : q.Linked q.tail q.head := held.tail_linked rfl
  obtain ⟨cut, sameNext⟩ := addSlots_links linked
  have nodup := held.nodup
  have known := held.known
  have slots := held.numSlots_eq
  have small := held.small
  rw [List.append_nil] at nodup known
  rw [List.length_nil] at slots
  have oldTail := Nat.ne_of_lt (known q.tail (List.mem_of_getLast? held.getLast?_eq))
  have oldHead := Nat.ne_of_lt (known q.head List.mem_cons_self)
  have isNew : ∀ slot ∈ segmentSlots q.segmentCount q.numSlots, slot.segment = q.segmentCount := by
    intro slot member
    obtain ⟨index, _, rfl⟩ := List.mem_map.mp member
    rfl
  have newNodup := nodup_segmentSlots q.segmentCount q.numSlots
  have elsewhere : ∀ {slot : SlotAddr} {index : Nat},
      slot.segment ≠ q.segmentCount → slot ≠ ⟨q.segmentCount, index⟩ :=
    fun oldSlot same => oldSlot (congrArg SlotAddr.segment same)
  rw [Queue.listAddSlots, if_pos served]
  refine ⟨_, rfl, ?_⟩
  exact
    { ring := by
        apply ring_addSlots held atLeastOne
        case nextOld =>
          intro slot notTail oldSlot
          dsimp only
          rw [sameNext, update_of_ne (elsewhere oldSlot), update_of_ne notTail]
          exact if_neg oldSlot
        case prevOld =>
          intro slot notHead oldSlot
          dsimp only
          rw [update_of_ne notHead,
            update_of_ne (elsewhere oldSlot),
            assignAt_prev linked notHead]
          exact if_neg oldSlot
        case sizeOld =>
          intro segment oldSegment
          exact update_of_ne oldSegment ..
        case sizeNew => exact update_self ..
        case nextNew =>
          intro index further
          have notLast : (⟨q.segmentCount, index⟩ : SlotAddr) ≠
              ⟨q.segmentCount, q.numSlots - 1⟩ := by
            rw [Ne, SlotAddr.mk.injEq]
            omega
          dsimp only
          rw [sameNext, update_of_ne notLast,
            update_of_ne (elsewhere oldTail).symm]
          exact if_pos rfl
        case prevNew =>
          intro index further
          have notFirst : (⟨q.segmentCount, index + 1⟩ : SlotAddr) ≠ ⟨q.segmentCount, 0⟩ := by
            rw [Ne, SlotAddr.mk.injEq]
            omega
          dsimp only
          rw [update_of_ne (elsewhere oldHead).symm,
            update_of_ne notFirst,
            assignAt_prev linked (elsewhere oldHead).symm]
          exact if_pos rfl
        case nextTail =>
          dsimp only
          rw [update_of_ne (elsewhere oldTail), update_self]
        case prevFirst =>
          dsimp only
          rw [update_of_ne (elsewhere oldHead).symm, update_self]
        case nextLast => exact update_self ..
        case prevHead => exact update_self ..
      nodup := by
        rw [← List.cons_append]
        refine List.nodup_append.mpr ⟨nodup, newNodup, ?_⟩
        rintro slot inRing other inNew rfl
        exact Nat.ne_of_lt (known slot inRing) (isNew slot inNew)
      known := by
        intro slot member
        rw [← List.cons_append] at member
        rcases List.mem_append.mp member with inRing | inNew
        · exact Nat.lt_succ_of_lt (known slot inRing)
        · exact Nat.lt_succ_of_le (Nat.le_of_eq (isNew slot inNew))
      tail_eq := held.tail_eq
      items_eq := by
        rw [← held.items_eq]
        apply List.map_congr_left
        intro slot member
        exact if_neg (Nat.ne_of_lt (known slot (List.mem_cons_of_mem _ member)))
      numSlots_eq := by
        simp only [segmentSlots, List.length_map, List.length_range]
        omega
      small := Nat.mod_lt _ (by decide)
      used_eq := held.used_eq
      isEmpty_eq := held.isEmpty_eq }

/-- After the test for a full queue there is room, or memory has run out. -/
theorem addSlotsIfFull (held : q.HoldsIn items used unused) (limited : memory.Limited) :
    (∃ next unused, Queue.addSlotsIfFull memory q = .ok next ∧
      next.HoldsIn items used unused ∧ unused ≠ []) ∨
      ∃ fault, Queue.addSlotsIfFull memory q = .error fault ∧
        SlotsNotServed memory items fault := by
  by_cases full : queueListIsFull q = true
  · rw [Queue.addSlotsIfFull, if_pos full]
    obtain rfl := held.isFull_iff.mp full
    have slots := held.numSlots_eq
    rw [held.length_eq, List.length_nil] at slots
    cases served : memory.serves q.numSlots with
    | true =>
        obtain ⟨next, added, heldNext⟩ := held.listAddSlots limited served
        refine Or.inl ⟨next, _, added, heldNext, ?_⟩
        intro none
        have first : (segmentSlots q.segmentCount q.numSlots).head? = _ :=
          head?_segmentSlots (limited.served held.small served).1
        rw [none] at first
        cases first
    | false =>
        right
        refine ⟨_, if_neg (by rw [served]; exact Bool.false_ne_true), rfl, ?_⟩
        rw [← served, slots]
  · rw [Queue.addSlotsIfFull, if_neg full]
    exact Or.inl ⟨q, unused, rfl, held, mt held.isFull_iff.mpr full⟩

end ListQueue.HoldsIn

/-! ## Runs -/

/-- A queue holds some items, in some slots. -/
def ListQueue.Holds (q : ListQueue α) (items : List α) : Prop :=
  ∃ used unused, q.HoldsIn items used unused

theorem queueListInit_holds (limited : memory.Limited) {numSlots : Nat} (small : numSlots < 2 ^ 32)
    (made : queueListInit memory numSlots = .ok q) : q.Holds [] := by
  unfold queueListInit at made
  split at made
  · rename_i served
    cases made
    obtain ⟨some, isInt⟩ := limited.served small served
    have split : segmentSlots 0 numSlots = ⟨0, 0⟩ :: (segmentSlots 0 numSlots).tail :=
      List.eq_cons_of_mem_head? (head?_segmentSlots some)
    have length : (segmentSlots 0 numSlots).length = numSlots := by
      rw [segmentSlots, List.length_map, List.length_range]
    refine ⟨[], (segmentSlots 0 numSlots).tail, ?_⟩
    exact
      { ring := by
          dsimp only
          rw [List.nil_append, Cycle.chain_coe_cons, ← List.cons_append, ← split]
          refine List.isChain_append.mpr ⟨isChain_segmentSlots rfl ?_ ?_,
            List.isChain_singleton _, ?_⟩
          · intro index further
            dsimp only
            rw [update_of_ne]
            rw [Ne, SlotAddr.mk.injEq]
            omega
          · intro index further
            dsimp only
            rw [update_of_ne]
            rw [Ne, SlotAddr.mk.injEq]
            omega
          · intro last isLast first isFirst
            rw [getLast?_segmentSlots some] at isLast
            cases isLast
            cases isFirst
            refine .links ?_ ?_
            · dsimp only
              rw [update_self]
            · dsimp only
              rw [update_self]
        nodup := by
          dsimp only
          rw [List.nil_append, ← split]
          exact nodup_segmentSlots 0 numSlots
        known := by
          dsimp only
          rw [List.nil_append, ← split]
          intro slot member
          obtain ⟨index, _, rfl⟩ := List.mem_map.mp member
          exact Nat.zero_lt_one
        tail_eq := rfl
        items_eq := rfl
        numSlots_eq := by
          rw [List.length_tail, length, List.length_nil]
          dsimp only
          omega
        small := small
        used_eq := rfl
        isEmpty_eq := rfl }
  · cases made

/-- Each call of a list queue agrees with the call on the items. -/
theorem listCall_refines (limited : memory.Limited) :
    Deque.Refines (listCall memory) QueueCall.meaning ListQueue.Holds (SlotsNotServed memory) := by
  rintro q items call ⟨used, unused, held⟩
  cases call with
  | putHead item =>
      rw [listCall, queueListPutHead]
      rcases held.addSlotsIfFull limited with
        ⟨next, unused, added, heldNext, room⟩ | ⟨fault, stopped, notServed⟩
      · obtain ⟨others, slot, rfl⟩ :=
          (List.eq_nil_or_concat' unused).resolve_left room
        obtain ⟨newHead, put⟩ := heldNext.putHead item
        rw [added, Except.bind, newHead]
        exact ⟨⟨_, _, put⟩, rfl⟩
      · rw [stopped]
        exact notServed
  | putTail item =>
      rw [listCall, queueListPutTail]
      rcases held.addSlotsIfFull limited with
        ⟨next, unused, added, heldNext, room⟩ | ⟨fault, stopped, notServed⟩
      · obtain ⟨slot, others, rfl⟩ := List.exists_cons_of_ne_nil room
        obtain ⟨newTail, put⟩ := heldNext.putTail item
        rw [added, Except.bind, newTail]
        exact ⟨⟨_, _, put⟩, rfl⟩
      · rw [stopped]
        exact notServed
  | getHead =>
      obtain ⟨next, used, unused, took, left⟩ := held.getHead
      rw [listCall, took]
      exact ⟨⟨used, unused, left⟩, rfl⟩
  | stealHead =>
      obtain ⟨next, used, unused, took, left⟩ := held.getHead
      rw [listCall, queueListStealHead_free, took]
      exact ⟨⟨used, unused, left⟩, rfl⟩
  | getTail =>
      obtain ⟨next, used, unused, took, left⟩ := held.getTail
      rw [listCall, took]
      exact ⟨⟨used, unused, left⟩, rfl⟩
  | stealTail =>
      obtain ⟨next, used, unused, took, left⟩ := held.getTail
      rw [listCall, queueListStealTail_free, took]
      exact ⟨⟨used, unused, left⟩, rfl⟩

/-- A run of a queue that is made with some number of slots. -/
def listRun (memory : SlotMemory α) (numSlots : Nat) (calls : List (QueueCall α)) :
    Except QueueFault (ListQueue α × List (Deque.Result α)) :=
  (queueListInit memory numSlots).bind fun q =>
    Deque.runWith (listCall memory) q calls

end OpenUH.Libopenmp.Queue
