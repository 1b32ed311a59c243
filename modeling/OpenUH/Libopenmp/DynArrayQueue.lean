import OpenUH.Foundation.Ring
import OpenUH.Libopenmp.ArrayQueue

/-!
# The `dyn_array` queue is a deque

The items of a queue are the slice of its ring behind the head.  Each call
keeps this relation, also when it lays the ring out in twice the slots, and
returns what the call on the items returns.  A call stops only where memory
does not serve the slots of a larger ring.
-/

namespace OpenUH.Libopenmp.Queue

open Foundation
open Foundation.Fallible
open Foundation.Ring

variable {α : Type} {memory : SlotMemory α} {q : OmpQueue α} {items : List α}

/-- A queue holds some items, from its head to its tail. -/
structure OmpQueue.Holds (q : OmpQueue α) (items : List α) : Prop where
  small : q.numSlots < 2 ^ 31
  room : items.length < q.numSlots
  head_lt : q.headIndex < q.numSlots
  tail_eq : q.tailIndex = (q.headIndex + items.length) % q.numSlots
  used_eq : q.usedSlots = items.length
  isEmpty_eq : q.isEmpty = items.isEmpty
  items_eq : slice q.items q.numSlots (q.headIndex + 1) items.length = items.map some

/-- A call stops where twice the slots are not served. -/
def NotServed (memory : SlotMemory α) (items : List α) (fault : QueueFault) : Prop :=
  fault = .assertionFailed "Can not aligned malloc" ∧
    memory.serves (2 * (items.length + 1) % 2 ^ 32) = false

theorem queueArrayInit_holds (limited : memory.Limited) {numSlots : Nat} (small : numSlots < 2 ^ 32)
    (made : queueArrayInit memory numSlots = .ok q) : q.Holds [] := by
  unfold queueArrayInit at made
  split at made
  · rename_i served
    cases made
    obtain ⟨some, positive⟩ := limited.served small served
    exact
      { small := positive
        room := some
        head_lt := some
        tail_eq := rfl
        used_eq := rfl
        isEmpty_eq := rfl
        items_eq := rfl }
  · cases made

namespace OmpQueue.Holds

theorem positive (held : q.Holds items) : 0 < q.numSlots :=
  Nat.zero_lt_of_lt held.room

theorem isFull_iff (held : q.Holds items) :
    queueArrayIsFull q = true ↔ items.length + 1 = q.numSlots := by
  have some := held.positive
  rw [queueArrayIsFull, decide_eq_true_eq, held.used_eq]
  omega

/-! ## Takes -/

/-- The head index of a queue with an item is not its tail index. -/
theorem head_ne_tail (held : q.Holds items) (notEmpty : items ≠ []) :
    q.headIndex ≠ q.tailIndex := by
  rw [held.tail_eq]
  intro same
  apply position_ne (List.length_pos_iff.mpr notEmpty).ne' held.room
  exact same.symm.trans (Nat.mod_eq_of_lt held.head_lt).symm

/-- A take that leaves the items it should succeeds. -/
theorem finishTake_eq {item : Option α}
    (left : ({ q with
      usedSlots := q.usedSlots - 1
      isEmpty := q.isEmpty || decide (q.usedSlots - 1 = 0) } : OmpQueue α).Holds items) :
    ∃ next, finishTake q item = .ok (next, item) ∧ next.Holds items := by
  refine ⟨_, ?_, left⟩
  unfold finishTake
  apply if_neg
  rintro ⟨used, same⟩
  refine left.head_ne_tail ?_ same
  rintro rfl
  exact used left.used_eq

section

variable (held : q.Holds items)

include held

theorem getHead :
    ∃ next, queueArrayGetHead q = .ok (next, items.head?) ∧ next.Holds items.tail := by
  cases items with
  | nil =>
      refine ⟨q, ?_, held⟩
      rw [queueArrayGetHead, held.isEmpty_eq]
      rfl
  | cons item rest =>
      have read := held.items_eq
      rw [List.length_cons, slice_succ, List.map_cons, List.cons.injEq] at read
      have room := held.room
      rw [List.length_cons] at room
      have turned : (q.headIndex + 1) % q.numSlots ≡ q.headIndex + 1
          [MOD q.numSlots] := Nat.mod_modEq ..
      rw [queueArrayGetHead, if_neg (by simp [held.isEmpty_eq])]
      dsimp only
      rw [read.1]
      apply finishTake_eq
      exact
        { small := held.small
          room := Nat.lt_of_succ_lt room
          head_lt := Nat.mod_lt _ held.positive
          tail_eq := by
            rw [held.tail_eq, List.length_cons, Nat.add_comm rest.length, ← Nat.add_assoc]
            exact (turned.symm.add_right rest.length)
          used_eq := by
            rw [held.used_eq]
            rfl
          isEmpty_eq := by
            rw [held.isEmpty_eq, held.used_eq]
            cases rest <;> rfl
          items_eq := (slice_of_modEq (turned.add_right 1)).trans read.2 }

theorem getTail :
    ∃ next, queueArrayGetTail q = .ok (next, items.getLast?) ∧ next.Holds items.dropLast := by
  rcases List.eq_nil_or_concat' items with rfl | ⟨rest, item, rfl⟩
  · refine ⟨q, ?_, held⟩
    rw [queueArrayGetTail, held.isEmpty_eq]
    rfl
  · have read := held.items_eq
    have room := held.room
    have tailIndex := held.tail_eq
    rw [List.length_append, List.length_singleton] at read room tailIndex
    rw [slice_concat, List.map_append, List.map_singleton] at read
    obtain ⟨readRest, readItem⟩ := List.append_inj' read rfl
    have previous : q.tailIndex ≡ q.headIndex + rest.length + 1 [MOD q.numSlots] := by
      rw [tailIndex, ← Nat.add_assoc]
      exact Nat.mod_modEq ..
    have itemRead : q.items q.tailIndex = some item := by
      rw [tailIndex, ← Nat.add_assoc, Nat.add_right_comm]
      exact List.cons.inj readItem |>.1
    rw [queueArrayGetTail, if_neg (by simp [held.isEmpty_eq]), itemRead,
      List.getLast?_concat, List.dropLast_concat]
    apply finishTake_eq
    exact
      { small := held.small
        room := Nat.lt_of_succ_lt room
        head_lt := held.head_lt
        tail_eq := predecessor_eq held.positive previous
        used_eq := by
          rw [held.used_eq, List.length_append]
          rfl
        isEmpty_eq := by
          rw [held.isEmpty_eq, held.used_eq]
          cases rest <;> simp
        items_eq := readRest }

/-! ## Puts -/

/-- The ring is laid out in more slots without losing or moving an item. -/
theorem resize {newNumSlots : Nat}
    (small : newNumSlots < 2 ^ 31) (more : 2 * q.numSlots ≤ newNumSlots)
    (served : memory.serves newNumSlots = true) :
    ∃ next, dynArrayResize memory q newNumSlots = .ok next ∧
      next.Holds items ∧ next.numSlots = newNumSlots := by
  have room := held.room
  have headInside := held.head_lt
  have tailIndex := held.tail_eq
  rw [dynArrayResize, if_pos served]
  by_cases wraps : q.headIndex + items.length < q.numSlots
  · rw [Nat.mod_eq_of_lt wraps] at tailIndex
    rw [if_neg (by omega)]
    refine ⟨_, rfl, ?_, rfl⟩
    refine
      { small := small
        room := by
          dsimp only
          omega
        head_lt := by
          dsimp only
          omega
        tail_eq := by
          dsimp only
          rw [tailIndex, Nat.mod_eq_of_lt (by omega)]
        used_eq := held.used_eq
        isEmpty_eq := held.isEmpty_eq
        items_eq := ?_ }
    rw [← held.items_eq]
    dsimp only
    apply slice_larger (by omega)
    intro index above below
    rw [reallocated, if_pos (by omega), Nat.mod_eq_of_lt (by omega)]
  · rw [Nat.mod_eq_sub_mod (by omega), Nat.mod_eq_of_lt (by omega)]
      at tailIndex
    rw [if_pos (by omega)]
    refine ⟨_, rfl, ?_, rfl⟩
    refine
      { small := small
        room := by
          dsimp only
          omega
        head_lt := by
          dsimp only
          omega
        tail_eq := by
          dsimp only
          rw [tailIndex, Nat.mod_eq_of_lt (by omega)]
          omega
        used_eq := held.used_eq
        isEmpty_eq := held.isEmpty_eq
        items_eq := ?_ }
    rw [← held.items_eq]
    dsimp only
    apply slice_larger (by omega)
    intro index above below
    by_cases copied : q.numSlots ≤ index
    · rw [if_pos (by omega), reallocated, if_pos (by omega),
        Nat.mod_eq_sub_mod copied, Nat.mod_eq_of_lt (by omega)]
    · rw [if_neg (by omega), reallocated, if_pos (by omega), Nat.mod_eq_of_lt (by omega)]

/-- After the test for a full queue there is room, or memory has run out. -/
theorem resizeIfFull (limited : memory.Limited) :
    (∃ next, Queue.resizeIfFull memory q = .ok next ∧ next.Holds items ∧
      items.length + 1 < next.numSlots) ∨
      ∃ fault, Queue.resizeIfFull memory q = .error fault ∧ NotServed memory items fault := by
  have small := held.small
  have room := held.room
  by_cases full : queueArrayIsFull q = true
  · rw [Queue.resizeIfFull, if_pos full]
    have isLast := held.isFull_iff.mp full
    cases served : memory.serves (2 * q.numSlots % 2 ^ 32) with
    | true =>
        left
        have doubled : 2 * q.numSlots % 2 ^ 32 = 2 * q.numSlots := Nat.mod_eq_of_lt (by omega)
        rw [doubled] at served ⊢
        obtain ⟨_, positive⟩ := limited.served (by omega) served
        obtain ⟨next, resized, heldNext, slots⟩ := held.resize positive (Nat.le_refl _) served
        exact ⟨next, resized, heldNext, by omega⟩
    | false =>
        right
        refine ⟨_, if_neg (by rw [served]; exact Bool.false_ne_true), rfl, ?_⟩
        rw [isLast]
        exact served
  · rw [Queue.resizeIfFull, if_neg full]
    have notLast := mt held.isFull_iff.mpr full
    exact Or.inl ⟨q, rfl, held, by omega⟩

theorem putTail (item : α) (notFull : items.length + 1 < q.numSlots) :
    ({ q with
      tailIndex := (q.tailIndex + 1) % q.numSlots
      items := Function.update q.items ((q.tailIndex + 1) % q.numSlots) (some item)
      usedSlots := q.usedSlots + 1
      isEmpty := false } : OmpQueue α).Holds (items ++ [item]) := by
  have next : (q.tailIndex + 1) % q.numSlots = (q.headIndex + 1 + items.length) % q.numSlots := by
    rw [held.tail_eq, Nat.add_right_comm]
    exact (Nat.mod_modEq ..).add_right 1
  refine
    { small := held.small
      room := by simpa using notFull
      head_lt := held.head_lt
      tail_eq := by
        rw [List.length_append, List.length_singleton, ← Nat.add_assoc, Nat.add_right_comm]
        exact next
      used_eq := by
        rw [List.length_append, List.length_singleton, held.used_eq]
      isEmpty_eq := by simp
      items_eq := ?_ }
  dsimp only
  rw [List.length_append, List.length_singleton, slice_concat, next,
    slice_update_behind held.room, held.items_eq, Function.update_self,
    List.map_append, List.map_singleton]

theorem putHead (item : α) (notFull : items.length + 1 < q.numSlots) :
    ({ q with
      items := Function.update q.items q.headIndex (some item)
      headIndex := previousIndex q.numSlots q.headIndex
      usedSlots := q.usedSlots + 1
      isEmpty := false } : OmpQueue α).Holds (item :: items) := by
  have previous : previousIndex q.numSlots q.headIndex + 1 ≡ q.headIndex [MOD q.numSlots] := by
    have index : previousIndex q.numSlots q.headIndex =
        (q.headIndex + (q.numSlots - 1)) % q.numSlots := by
      apply predecessor_eq held.positive
      rw [Nat.add_assoc, Nat.sub_add_cancel held.positive]
      exact Nat.ModEq.symm (Nat.add_mod_right ..)
    rw [index]
    refine ((Nat.mod_modEq ..).add_right 1).trans ?_
    rw [Nat.add_assoc, Nat.sub_add_cancel held.positive]
    exact Nat.add_mod_right ..
  have written : (previousIndex q.numSlots q.headIndex + 1) % q.numSlots = q.headIndex := by
    rw [previous, Nat.mod_eq_of_lt held.head_lt]
  refine
    { small := held.small
      room := notFull
      head_lt := ?_
      tail_eq := ?_
      used_eq := by
        rw [List.length_cons, held.used_eq]
      isEmpty_eq := rfl
      items_eq := ?_ }
  · have positive := held.positive
    unfold previousIndex
    split
    · exact Nat.mod_lt _ positive
    · exact Nat.sub_one_lt_of_lt positive
  · rw [held.tail_eq, List.length_cons, Nat.add_comm items.length, ← Nat.add_assoc]
    exact previous.symm.add_right items.length
  · have kept : slice (Function.update q.items (q.headIndex % q.numSlots)
          (some item)) q.numSlots (q.headIndex + 1) items.length =
        slice q.items q.numSlots (q.headIndex + 1) items.length :=
      slice_update_front held.room
    rw [Nat.mod_eq_of_lt held.head_lt] at kept
    dsimp only
    rw [List.length_cons, slice_succ, written, Function.update_self,
      List.map_cons, ← held.items_eq, ← kept]
    exact congrArg _ (slice_of_modEq (previous.add_right 1))

end

end OmpQueue.Holds

/-! ## Runs -/

/-- Each call of a `dyn_array` queue agrees with the call on the items. -/
theorem dynArrayCall_refines (limited : memory.Limited) :
    Deque.Refines (dynArrayCall memory) QueueCall.meaning OmpQueue.Holds (NotServed memory) := by
  intro q items call held
  cases call with
  | putHead item =>
      rw [dynArrayCall, queueDynArrayPutHead]
      rcases held.resizeIfFull limited with
        ⟨room, resized, heldRoom, notFull⟩ | ⟨fault, stopped, notServed⟩
      · rw [resized]
        exact ⟨heldRoom.putHead item notFull, rfl⟩
      · rw [stopped]
        exact notServed
  | putTail item =>
      rw [dynArrayCall, queueDynArrayPutTail]
      rcases held.resizeIfFull limited with
        ⟨room, resized, heldRoom, notFull⟩ | ⟨fault, stopped, notServed⟩
      · rw [resized]
        exact ⟨heldRoom.putTail item notFull, rfl⟩
      · rw [stopped]
        exact notServed
  | getHead =>
      obtain ⟨next, took, left⟩ := held.getHead
      rw [dynArrayCall, took]
      exact ⟨left, rfl⟩
  | stealHead =>
      obtain ⟨next, took, left⟩ := held.getHead
      rw [dynArrayCall, queueArrayStealHead_free, took]
      exact ⟨left, rfl⟩
  | getTail =>
      obtain ⟨next, took, left⟩ := held.getTail
      rw [dynArrayCall, took]
      exact ⟨left, rfl⟩
  | stealTail =>
      obtain ⟨next, took, left⟩ := held.getTail
      rw [dynArrayCall, queueArrayStealTail_free, took]
      exact ⟨left, rfl⟩

/-- A run of a queue that is made with some number of slots. -/
def dynArrayRun (memory : SlotMemory α) (numSlots : Nat) (calls : List (QueueCall α)) :
    Except QueueFault (OmpQueue α × List (Deque.Result α)) :=
  (queueArrayInit memory numSlots).bind fun q =>
    Deque.runWith (dynArrayCall memory) q calls

end OpenUH.Libopenmp.Queue
