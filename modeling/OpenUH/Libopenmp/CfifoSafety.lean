import OpenUH.Libopenmp.CfifoQueue
import OpenUH.Libopenmp.DynArrayQueue

/-!
# What the concurrent FIFO keeps

As long as no put takes a full queue for one with room, the ring between the
two indices holds the items put and not yet taken, in their order, and the
queue is marked empty only when it is.
-/

namespace OpenUH.Libopenmp.Queue

open Foundation
open Foundation.Ring
open Foundation.Transition
open Function (update_of_ne update_self)

variable {α Thread : Type} {memory : SlotMemory α}
variable {q : OmpQueue α} {items : List α}

/-! ## The ring -/

/-- The ring of a queue holds some items, whatever its other fields say. -/
structure OmpQueue.RingHolds (q : OmpQueue α) (items : List α) : Prop where
  small : q.numSlots < 2 ^ 31
  room : items.length < q.numSlots
  head_lt : q.headIndex < q.numSlots
  tail_eq : q.tailIndex = (q.headIndex + items.length) % q.numSlots
  items_eq : slice q.items q.numSlots (q.headIndex + 1) items.length = items.map some

namespace OmpQueue.RingHolds

section

variable (held : q.RingHolds items)

include held

theorem positive : 0 < q.numSlots :=
  Nat.zero_lt_of_lt held.room

/-- With the fields that the other storages keep, it is a queue of theirs. -/
theorem counted :
    ({ q with
      usedSlots := items.length
      isEmpty := items.isEmpty } : OmpQueue α).Holds items where
  small := held.small
  room := held.room
  head_lt := held.head_lt
  tail_eq := held.tail_eq
  used_eq := rfl
  isEmpty_eq := rfl
  items_eq := held.items_eq

/-- The used slots are as many as the items. -/
theorem numUsedSlots_eq : cfifoNumUsedSlots q = items.length := by
  have room := held.room
  have inside := held.head_lt
  have tailIs := held.tail_eq
  unfold cfifoNumUsedSlots
  by_cases wraps : q.headIndex + items.length < q.numSlots
  · rw [Nat.mod_eq_of_lt wraps] at tailIs
    rw [tailIs]
    split
    · omega
    · split <;> omega
  · rw [Nat.mod_eq_sub_mod (by omega), Nat.mod_eq_of_lt (by omega)]
      at tailIs
    rw [tailIs]
    split
    · omega
    · split <;> omega

theorem contents_eq : cfifoContents q = items.map some := by
  rw [cfifoContents, held.numUsedSlots_eq, held.items_eq]

/-- The queue is full where the slot behind the tail is the head. -/
theorem newTail_eq_head_iff :
    q.newTailIndex = q.headIndex ↔ items.length + 1 = q.numSlots := by
  have room := held.room
  have inside := held.head_lt
  have next : q.newTailIndex = (q.headIndex + (items.length + 1)) % q.numSlots := by
    rw [OmpQueue.newTailIndex, held.tail_eq, Nat.mod_add_mod]
    rfl
  rw [next]
  constructor
  · intro same
    by_contra other
    apply position_ne (Nat.succ_ne_zero items.length) (Nat.lt_of_le_of_ne room other)
    rw [same, Nat.mod_eq_of_lt inside]
  · intro full
    rw [full, Nat.add_mod_right, Nat.mod_eq_of_lt inside]

/-- The indices meet where there is no item. -/
theorem head_eq_tail_iff : q.headIndex = q.tailIndex ↔ items = [] := by
  constructor
  · intro same
    by_contra notEmpty
    apply position_ne (List.length_pos_iff.mpr notEmpty).ne' held.room
    rw [← held.tail_eq, ← same, Nat.mod_eq_of_lt held.head_lt]
  · rintro rfl
    rw [held.tail_eq, List.length_nil, Nat.add_zero, Nat.mod_eq_of_lt held.head_lt]

/-- Marking a queue leaves its ring as it is. -/
theorem markEmpty (newHeadIndex : Nat) :
    (cfifoMarkEmpty q newHeadIndex).RingHolds items :=
  ⟨held.small, held.room, held.head_lt, held.tail_eq, held.items_eq⟩

/-- A put with room adds its item behind the others. -/
theorem store (item : α) (notFull : items.length + 1 < q.numSlots) :
    (cfifoStore q item).RingHolds (items ++ [item]) := by
  have after := held.counted.putTail item notFull
  exact
    { small := held.small
      room := after.room
      head_lt := held.head_lt
      tail_eq := after.tail_eq
      items_eq := after.items_eq }

/-- A larger ring holds the same items, and has room. -/
theorem resize {next : OmpQueue α} (limited : memory.Limited)
    (resized : dynArrayResize memory q (2 * q.numSlots % 2 ^ 32) = .ok next) :
    next.RingHolds items ∧ items.length + 1 < next.numSlots := by
  have small := held.small
  have room := held.room
  have doubled : 2 * q.numSlots % 2 ^ 32 = 2 * q.numSlots := Nat.mod_eq_of_lt (by omega)
  rw [doubled] at resized
  have served : memory.serves (2 * q.numSlots) = true := by
    unfold dynArrayResize at resized
    split at resized
    · assumption
    · cases resized
  obtain ⟨-, positive⟩ := limited.served (by omega) served
  obtain ⟨after, resizedCounted, held', slots⟩ :=
    held.counted.resize positive (Nat.le_refl _) served
  have same : after =
      { next with
        usedSlots := items.length
        isEmpty := items.isEmpty } := by
    unfold dynArrayResize at resized resizedCounted
    rw [if_pos served] at resized resizedCounted
    dsimp only at resizedCounted
    split at resized
    · rename_i wraps
      rw [if_pos wraps] at resizedCounted
      cases resized
      cases resizedCounted
      rfl
    · rename_i straight
      rw [if_neg straight] at resizedCounted
      cases resized
      cases resizedCounted
      rfl
  rw [same] at held' slots
  refine ⟨?_, ?_⟩
  · exact
      { small := held'.small
        room := held'.room
        head_lt := held'.head_lt
        tail_eq := held'.tail_eq
        items_eq := held'.items_eq }
  · dsimp only at slots
    omega

/-- The slots of the first items, and those of the others. -/
theorem items_split {count : Nat} (available : count ≤ items.length) :
    slice q.items q.numSlots (q.headIndex + 1) count =
        (items.take count).map some ∧
      slice q.items q.numSlots (q.headIndex + 1 + count)
          (items.length - count) =
        (items.drop count).map some := by
  have whole := held.items_eq
  have split : items.length = count + (items.length - count) := by omega
  rw [split, slice_add, ← List.take_append_drop count items,
    List.map_append, List.take_append_drop] at whole
  exact List.append_inj whole (by simp [available])

/-- Moving the head on takes the first items. -/
theorem advance {count : Nat} (available : count ≤ items.length) :
    ({ q with headIndex := (q.headIndex + count) % q.numSlots } :
      OmpQueue α).RingHolds (items.drop count) := by
  have room := held.room
  have tailIs := held.tail_eq
  refine
    { small := held.small
      room := ?_
      head_lt := Nat.mod_lt _ held.positive
      tail_eq := ?_
      items_eq := ?_ }
  · dsimp only
    rw [List.length_drop]
    omega
  · dsimp only
    rw [List.length_drop, Nat.mod_add_mod, tailIs]
    congr 1
    omega
  · dsimp only
    have turned : (q.headIndex + count) % q.numSlots + 1 ≡
        q.headIndex + 1 + count [MOD q.numSlots] := by
      rw [Nat.add_right_comm]
      exact (Nat.mod_modEq ..).add_right 1
    rw [slice_of_modEq turned, List.length_drop]
    exact (held.items_split available).2

/-- A transfer counts no more than there is, and at least one. -/
theorem actualChunkSize_le {dst : OmpQueue α} {chunkSize : Nat} :
    actualChunkSize q dst chunkSize ≤ items.length ∧
      actualChunkSize q dst chunkSize ≤ dst.numSlots := by
  unfold actualChunkSize
  rw [held.numUsedSlots_eq]
  dsimp only
  split <;> split <;> omega

theorem actualChunkSize_pos {dst : OmpQueue α} {chunkSize : Nat} (notEmpty : items ≠ [])
    (some : chunkSize ≠ 0) (positive : 0 < dst.numSlots) :
    0 < actualChunkSize q dst chunkSize := by
  have available := List.length_pos_iff.mpr notEmpty
  unfold actualChunkSize
  rw [held.numUsedSlots_eq]
  dsimp only
  split <;> split <;> omega

end

end OmpQueue.RingHolds

/-- A resize leaves the head where it is. -/
theorem dynArrayResize_headIndex {next : OmpQueue α} {newNumSlots : Nat}
    (resized : dynArrayResize memory q newNumSlots = .ok next) :
    next.headIndex = q.headIndex := by
  unfold dynArrayResize at resized
  split at resized
  · split at resized <;> cases resized <;> rfl
  · cases resized

/-! ## Transfers -/

/-- What the copy loops leave in a slot. -/
theorem copySlots_apply (source : Nat → Option α) (count : Nat) :
    ∀ (target : Nat → Option α) (start first index : Nat),
      copySlots source target start first count index =
        if first ≤ index ∧ index < first + count then
          source (start + (index - first))
        else
          target index := by
  induction count with
  | zero =>
      intro target start first index
      rw [copySlots, if_neg (by omega)]
  | succ count ih =>
      intro target start first index
      rw [copySlots, ih]
      by_cases here : index = first
      · subst here
        rw [if_neg (by omega), if_pos (by omega), update_self, Nat.sub_self, Nat.add_zero]
      · by_cases inside : first ≤ index ∧ index < first + (count + 1)
        · rw [if_pos (by omega), if_pos inside]
          congr 1
          omega
        · rw [if_neg (by omega), if_neg inside, update_of_ne here]

section Transfer

variable {dst : OmpQueue α} {chunkSize : Nat}

/-- A transfer writes the slots behind the head into the first slots. -/
theorem cfifoTransfer_items (held : q.RingHolds items)
    (some : 0 < actualChunkSize q dst chunkSize) (index : Nat) :
    (cfifoTransfer q dst chunkSize).2.1.items index =
      if 1 ≤ index ∧ index < actualChunkSize q dst chunkSize then
        q.items ((q.headIndex + 1 + index) % q.numSlots)
      else
        dst.items index := by
  have room := held.room
  have positive := held.positive
  have available : actualChunkSize q dst chunkSize ≤ items.length := held.actualChunkSize_le.1
  unfold cfifoTransfer
  dsimp only
  generalize actualChunkSize q dst chunkSize = actual at *
  have inside : (q.headIndex + 1) % q.numSlots < q.numSlots := Nat.mod_lt _ positive
  rw [← Nat.mod_add_mod (q.headIndex + 1)]
  generalize (q.headIndex + 1) % q.numSlots = first at *
  by_cases straight : first + actual - 1 < q.numSlots
  · have last : (first + actual - 1) % q.numSlots = first + actual - 1 :=
      Nat.mod_eq_of_lt straight
    rw [last, if_pos (by omega), copySlots_apply]
    by_cases written : 1 ≤ index ∧ index < actual
    · rw [if_pos (by omega), if_pos written, Nat.mod_eq_of_lt (by omega)]
      congr 1
      omega
    · rw [if_neg (by omega), if_neg written]
  · have last : (first + actual - 1) % q.numSlots = first + actual - 1 - q.numSlots := by
      rw [Nat.mod_eq_sub_mod (Nat.le_of_not_lt straight)]
      exact Nat.mod_eq_of_lt (by omega)
    rw [last, if_neg (by omega), copySlots_apply]
    by_cases behind : first + index < q.numSlots
    · rw [if_neg (by omega), copySlots_apply, Nat.mod_eq_of_lt behind]
      by_cases written : 1 ≤ index
      · rw [if_pos (by omega), if_pos (by omega)]
        congr 1
        omega
      · rw [if_neg (by omega), if_neg (by omega)]
    · by_cases written : index < actual
      · rw [if_pos (by omega), if_pos (by omega),
          Nat.mod_eq_sub_mod (Nat.le_of_not_lt behind), Nat.mod_eq_of_lt (by omega)]
        congr 1
        omega
      · rw [if_neg (by omega), copySlots_apply, if_neg (by omega), if_neg (by omega)]

/-- A transfer moves the head of the source on by the items it takes. -/
theorem cfifoTransfer_source (some : 0 < actualChunkSize q dst chunkSize) :
    (cfifoTransfer q dst chunkSize).1 =
      { q with
        headIndex :=
          (q.headIndex + actualChunkSize q dst chunkSize) % q.numSlots } := by
  have index : ((q.headIndex + 1) % q.numSlots +
      actualChunkSize q dst chunkSize - 1) % q.numSlots =
      (q.headIndex + actualChunkSize q dst chunkSize) % q.numSlots := by
    rw [Nat.add_sub_assoc some, Nat.mod_add_mod]
    congr 1
    omega
  unfold cfifoTransfer
  dsimp only
  rw [index]

section

variable (held : q.RingHolds items) (some : 0 < actualChunkSize q dst chunkSize)

include held some

/-- The destination of a transfer reads like the slots behind the first one. -/
theorem cfifoTransfer_slice :
    slice (cfifoTransfer q dst chunkSize).2.1.items dst.numSlots 1
        (actualChunkSize q dst chunkSize - 1) =
      slice q.items q.numSlots (q.headIndex + 1 + 1) (actualChunkSize q dst chunkSize - 1) := by
  have fits : actualChunkSize q dst chunkSize ≤ dst.numSlots := held.actualChunkSize_le.2
  apply slice_congr
  intro offset below
  rw [Nat.mod_eq_of_lt (by omega), cfifoTransfer_items held some,
    if_pos (by omega), ← Nat.add_assoc]

/--
The destination of a transfer holds, in order, the slots behind the one that
is returned.
-/
theorem cfifoContents_transfer :
    cfifoContents (cfifoTransfer q dst chunkSize).2.1 =
      slice q.items q.numSlots (q.headIndex + 1 + 1) (actualChunkSize q dst chunkSize - 1) := by
  have used : cfifoNumUsedSlots (cfifoTransfer q dst chunkSize).2.1 =
      actualChunkSize q dst chunkSize - 1 := by
    unfold cfifoTransfer cfifoNumUsedSlots
    dsimp only
    split
    · omega
    · rw [if_pos (by omega), Nat.sub_zero]
  rw [← cfifoTransfer_slice held some, cfifoContents, used]
  rfl

/-- The destination of a transfer is the ring of the items behind the first. -/
theorem cfifoTransfer_ringHolds (small : dst.numSlots < 2 ^ 31) :
    (cfifoTransfer q dst chunkSize).2.1.RingHolds
      ((items.drop 1).take (actualChunkSize q dst chunkSize - 1)) := by
  obtain ⟨available, fits⟩ : actualChunkSize q dst chunkSize ≤ items.length ∧
      actualChunkSize q dst chunkSize ≤ dst.numSlots :=
    held.actualChunkSize_le
  have length : ((items.drop 1).take
      (actualChunkSize q dst chunkSize - 1)).length = actualChunkSize q dst chunkSize - 1 := by
    rw [List.length_take, List.length_drop]
    omega
  refine ⟨small, ?_, Nat.lt_of_lt_of_le some fits, ?_, ?_⟩
  · rw [length]
    exact Nat.lt_of_lt_of_le (Nat.sub_one_lt_of_lt some) fits
  · rw [length]
    change actualChunkSize q dst chunkSize - 1 = (0 + _) % dst.numSlots
    rw [Nat.zero_add, Nat.mod_eq_of_lt (by omega)]
  · rw [length]
    refine (cfifoTransfer_slice held some).trans ?_
    have behind := (held.items_split (Nat.succ_le_of_lt (Nat.lt_of_lt_of_le some available))).2
    have split : items.length - 1 = (actualChunkSize q dst chunkSize - 1) +
        (items.length - actualChunkSize q dst chunkSize) := by
      omega
    rw [Nat.succ_eq_add_one, Nat.zero_add, split, slice_add,
      ← List.take_append_drop (actualChunkSize q dst chunkSize - 1) (items.drop 1),
      List.map_append] at behind
    refine (List.append_inj behind ?_).1
    rw [length_slice, List.length_map, length]

end

end Transfer

/-! ## The invariant -/

/-- The invariant, for the items of the queue. -/
structure CfifoKeeps (s : CfifoSystem α Thread) (items : List α) : Prop where
  ring : s.queue.RingHolds items
  accounted : s.puts.map some = s.gets ++ items.map some
  marked : s.lock1 = none → s.queue.isEmpty = items.isEmpty
  unmarked : ∀ thread, s.lock1 = some thread → s.queue.isEmpty = false
  holder : ∀ thread, s.lock1 = some thread → s.threads thread = .emptying s.queue.headIndex
  holds : ∀ thread headIndex, s.threads thread = .emptying headIndex → s.lock1 = some thread
  chunks : ∀ thread dst chunkSize,
    s.threads thread = .transferring dst chunkSize → chunkSize ≠ 0

/-- The states in which a thread neither holds `lock1` nor asks for nothing. -/
def CfifoState.Plain : CfifoState α → Prop
  | .emptying _ => False
  | .transferring _ chunkSize => chunkSize ≠ 0
  | _ => True

namespace CfifoKeeps

variable {s s' : CfifoSystem α Thread} {thread : Thread}

/-- A marked queue holds nothing. -/
theorem nil_of_isEmpty (keeps : CfifoKeeps s items) (marked : s.queue.isEmpty = true) :
    items = [] := by
  cases free : s.lock1 with
  | none =>
      rw [keeps.marked free] at marked
      exact List.isEmpty_iff.1 marked
  | some holder =>
      rw [keeps.unmarked holder free] at marked
      exact absurd marked Bool.false_ne_true

variable [DecidableEq Thread]

section

variable (keeps : CfifoKeeps s items)

include keeps

section

variable (notHolding : ∀ headIndex, s.threads thread ≠ .emptying headIndex)

include notHolding

/-- A thread that does not hold `lock1` goes on, and the queue is stored to. -/
theorem ofThread {items' : List α} {state : CfifoState α} (plain : state.Plain)
    (threads : s'.threads = Function.update s.threads thread state) (lock1 : s'.lock1 = s.lock1)
    (head : ∀ holder, s.lock1 = some holder → s'.queue.headIndex = s.queue.headIndex)
    (ring : s'.queue.RingHolds items') (accounted : s'.puts.map some = s'.gets ++ items'.map some)
    (isEmpty : s'.queue.isEmpty = s.queue.isEmpty ∧
        items'.isEmpty = items.isEmpty ∨
      s'.queue.isEmpty = false ∧ items'.isEmpty = false) :
    CfifoKeeps s' items' := by
  have other : ∀ holder, s.lock1 = some holder → holder ≠ thread := by
    rintro holder locked rfl
    exact notHolding _ (keeps.holder _ locked)
  exact {
    ring := ring
    accounted := accounted
    marked := by
      intro free
      rw [lock1] at free
      rcases isEmpty with ⟨same, sameItems⟩ | ⟨some, someItems⟩
      · rw [same, sameItems]
        exact keeps.marked free
      · rw [some, someItems]
    unmarked := by
      intro holder locked
      rw [lock1] at locked
      rcases isEmpty with same | some
      · rw [same.1]
        exact keeps.unmarked holder locked
      · exact some.1
    holder := by
      intro holder locked
      rw [lock1] at locked
      rw [threads, head holder locked, update_of_ne (other holder locked)]
      exact keeps.holder holder locked
    holds := by
      intro holder headIndex emptying
      rw [threads] at emptying
      rw [lock1]
      by_cases same : holder = thread
      · rw [same, update_self] at emptying
        rw [emptying] at plain
        exact plain.elim
      · rw [update_of_ne same] at emptying
        exact keeps.holds holder headIndex emptying
    chunks := by
      intro holder dst chunkSize transferring
      rw [threads] at transferring
      by_cases same : holder = thread
      · rw [same, update_self] at transferring
        rw [transferring] at plain
        exact plain
      · rw [update_of_ne same] at transferring
        exact keeps.chunks holder dst chunkSize transferring }

/-- A thread that does not hold `lock1` goes on. -/
theorem setThread {state : CfifoState α} (plain : state.Plain) :
    CfifoKeeps (s.setThread thread state) items :=
  keeps.ofThread notHolding plain rfl rfl (fun _ _ => rfl) keeps.ring
    keeps.accounted (Or.inl ⟨rfl, rfl⟩)

/-- A put writes its item behind the others. -/
theorem finishPut {next : OmpQueue α} {item : α}
    (head : next.headIndex = s.queue.headIndex) (ring : next.RingHolds items)
    (notFull : items.length + 1 < next.numSlots) :
    CfifoKeeps (s.finishPut thread (cfifoStore next item) item) (items ++ [item]) := by
  have plain : (CfifoState.idle : CfifoState α).Plain := trivial
  refine keeps.ofThread notHolding plain rfl rfl (fun _ _ => head)
    (ring.store item notFull) ?_ (Or.inr ⟨rfl, by simp⟩)
  dsimp only [CfifoSystem.finishPut, CfifoSystem.setThread]
  rw [List.map_append, List.map_append, keeps.accounted, List.append_assoc]

/-- A take of some first items. -/
theorem finishTake {next : OmpQueue α} {count : Nat} (free : s.lock1 = none)
    (available : count ≤ items.length)
    (nextIs : next =
      { s.queue with
        headIndex := (s.queue.headIndex + count) % s.queue.numSlots })
    (notEmpty : s.queue.isEmpty = false) :
    CfifoKeeps
      (s.finishTake thread next ((items.take count).map some))
      (items.drop count) := by
  have ring : next.RingHolds (items.drop count) := by
    rw [nextIs]
    exact keeps.ring.advance available
  have unmarked : next.isEmpty = false := by
    rw [nextIs]
    exact notEmpty
  have accounted : s.puts.map some =
      s.gets ++ (items.take count).map some ++ (items.drop count).map some := by
    rw [keeps.accounted, List.append_assoc, ← List.map_append, List.take_append_drop]
  unfold CfifoSystem.finishTake
  split
  case isTrue =>
    exact {
      ring := ring
      accounted := accounted
      marked := by
        intro none
        cases none
      unmarked := fun _ _ => unmarked
      holder := by
        intro holder locked
        have same : thread = holder := Option.some.inj locked
        subst same
        exact update_self _ _ _
      holds := by
        intro holder headIndex emptying
        by_cases same : holder = thread
        · rw [same]
        · dsimp only [CfifoSystem.setThread] at emptying
          rw [update_of_ne same] at emptying
          have locked := keeps.holds holder headIndex emptying
          rw [free] at locked
          cases locked
      chunks := by
        intro holder dst chunkSize transferring
        dsimp only [CfifoSystem.setThread] at transferring
        by_cases same : holder = thread
        · rw [same, update_self] at transferring
          cases transferring
        · rw [update_of_ne same] at transferring
          exact keeps.chunks holder dst chunkSize transferring }
  case isFalse apart =>
    have some : (items.drop count).isEmpty = false := by
      have differ := mt ring.head_eq_tail_iff.2 apart
      simpa using differ
    have plain : (CfifoState.idle : CfifoState α).Plain := trivial
    refine keeps.ofThread notHolding plain rfl rfl ?_ ring accounted (Or.inr ⟨unmarked, some⟩)
    intro holder locked
    rw [free] at locked
    cases locked

end

/-- The inner section of a take marks the queue where it is empty. -/
theorem markEmpty {newHeadIndex : Nat} (emptying : s.threads thread = .emptying newHeadIndex) :
    CfifoKeeps
      { s.setThread thread .idle with
        queue := cfifoMarkEmpty s.queue newHeadIndex
        lock1 := none }
      items := by
  have locked := keeps.holds thread newHeadIndex emptying
  have head : newHeadIndex = s.queue.headIndex := by
    have holding := keeps.holder thread locked
    rw [emptying] at holding
    exact CfifoState.emptying.inj holding
  subst head
  exact {
    ring := keeps.ring.markEmpty _
    accounted := keeps.accounted
    marked := by
      intro _
      dsimp only [cfifoMarkEmpty]
      by_cases none : items = []
      · rw [if_pos (keeps.ring.head_eq_tail_iff.2 none), none]
        rfl
      · rw [if_neg (mt keeps.ring.head_eq_tail_iff.1 none), keeps.unmarked thread locked]
        exact (List.isEmpty_eq_false_iff.2 none).symm
    unmarked := by
      intro holder none
      cases none
    holder := by
      intro holder none
      cases none
    holds := by
      intro holder headIndex emptying'
      dsimp only [CfifoSystem.setThread] at emptying'
      by_cases same : holder = thread
      · rw [same, update_self] at emptying'
        cases emptying'
      · rw [update_of_ne same] at emptying'
        have locked' := keeps.holds holder headIndex emptying'
        rw [locked] at locked'
        exact absurd (Option.some.inj locked').symm same
    chunks := by
      intro holder dst chunkSize transferring
      dsimp only [CfifoSystem.setThread] at transferring
      by_cases same : holder = thread
      · rw [same, update_self] at transferring
        cases transferring
      · rw [update_of_ne same] at transferring
        exact keeps.chunks holder dst chunkSize transferring }

/-! ## Steps -/

theorem startPut {item : α} (moved : s.startPut thread item = some s') :
    CfifoKeeps s' items := by
  unfold CfifoSystem.startPut at moved
  split at moved
  case h_2 => cases moved
  case h_1 idle =>
    cases moved
    exact keeps.setThread (by simp [idle]) trivial

theorem startTransfer {dst : EmptyQueue α} {chunkSize : Nat}
    (moved : s.startTransfer thread dst chunkSize = some s') :
    CfifoKeeps s' items := by
  unfold CfifoSystem.startTransfer at moved
  split at moved
  case h_2 => cases moved
  case h_1 idle =>
    split at moved
    case isTrue =>
      cases moved
      exact keeps
    case isFalse some =>
      cases moved
      have notZero : chunkSize ≠ 0 := by
        rintro rfl
        simp at some
      exact keeps.setThread (by simp [idle]) notZero

theorem get (moved : s.get thread = some s') :
    ∃ items', CfifoKeeps s' items' := by
  unfold CfifoSystem.get at moved
  split at moved
  case h_2 => cases moved
  case h_1 idle free =>
    split at moved
    case isTrue =>
      cases moved
      exact ⟨items, keeps⟩
    case isFalse some =>
      have notMarked : s.queue.isEmpty = false := by
        simpa using some
      have isEmpty := keeps.marked free
      rw [notMarked] at isEmpty
      have available : 1 ≤ items.length := by
        cases items with
        | nil => simp at isEmpty
        | cons item rest => exact Nat.succ_pos _
      have read := (keeps.ring.items_split available).1
      rw [slice_succ, slice_zero] at read
      have after : CfifoKeeps
          (s.finishTake thread (cfifoGet s.queue).1
            ((items.take 1).map Option.some)) (items.drop 1) :=
        keeps.finishTake (by simp [idle]) free available rfl notMarked
      rw [← read] at after
      cases moved
      exact ⟨_, after⟩

/-- The items that a transfer takes. -/
theorem transfer {dst : EmptyQueue α} {chunkSize : Nat}
    (transferring : s.threads thread = .transferring dst chunkSize) (free : s.lock1 = none)
    (notMarked : s.queue.isEmpty = false) :
    ∃ items', CfifoKeeps
      (s.finishTake thread (cfifoTransfer s.queue dst.queue chunkSize).1
        ((cfifoTransfer s.queue dst.queue chunkSize).2.2 ::
          cfifoContents (cfifoTransfer s.queue dst.queue chunkSize).2.1))
      items' := by
  have isEmpty := keeps.marked free
  rw [notMarked] at isEmpty
  have some := keeps.chunks thread dst chunkSize transferring
  have notEmpty : items ≠ [] := List.isEmpty_eq_false_iff.1 isEmpty.symm
  have positive : 0 < actualChunkSize s.queue dst.queue chunkSize :=
    keeps.ring.actualChunkSize_pos notEmpty some dst.positive
  have available : actualChunkSize s.queue dst.queue chunkSize ≤
      items.length := keeps.ring.actualChunkSize_le.1
  have taken := (keeps.ring.items_split available).1
  have split : actualChunkSize s.queue dst.queue chunkSize =
      actualChunkSize s.queue dst.queue chunkSize - 1 + 1 := by
    omega
  rw [split, slice_succ, ← cfifoContents_transfer keeps.ring positive, ← split] at taken
  have notHolding : ∀ headIndex, s.threads thread ≠ .emptying headIndex := by
    simp [transferring]
  have after := keeps.finishTake notHolding free available (cfifoTransfer_source positive) notMarked
  rw [← taken] at after
  exact ⟨_, after⟩

theorem proceed (limited : memory.Limited)
    (seesFull : SeesFull s (.proceed thread)) (moved : s.proceed memory thread = some s') :
    ∃ items', CfifoKeeps s' items' := by
  have room := keeps.ring.room
  unfold CfifoSystem.proceed at moved
  dsimp only [SeesFull] at seesFull
  cases point : s.threads thread with
  | idle =>
      rw [point] at moved
      cases moved
  | putSampled item headIndex =>
      rw [point] at moved seesFull
      have notHolding : ∀ headIndex, s.threads thread ≠ .emptying headIndex := by
        simp [point]
      dsimp only [cfifoPut] at moved seesFull
      by_cases looksFull : s.queue.newTailIndex = headIndex
      · rw [if_pos looksFull] at moved
        cases moved
        exact ⟨items, keeps.setThread notHolding trivial⟩
      · rw [if_neg looksFull] at moved
        cases moved
        have notFull : items.length + 1 ≠ s.queue.numSlots := by
          intro full
          have meets := keeps.ring.newTail_eq_head_iff.2 full
          exact looksFull (meets.trans (seesFull meets).symm)
        exact ⟨_, keeps.finishPut notHolding rfl keeps.ring (by omega)⟩
  | putFull item headIndex =>
      rw [point] at moved seesFull
      have notHolding : ∀ headIndex, s.threads thread ≠ .emptying headIndex := by
        simp [point]
      dsimp only [cfifoPutLocked] at moved seesFull
      split at moved
      case h_1 => cases moved
      case h_2 free =>
        by_cases looksFull : s.queue.newTailIndex = headIndex
        · rw [if_pos looksFull] at moved
          cases resized : dynArrayResize memory s.queue (2 * s.queue.numSlots % 2 ^ 32) with
          | error fault =>
              rw [resized] at moved
              cases moved
          | ok next =>
              rw [resized] at moved
              cases moved
              obtain ⟨ring, notFull⟩ := keeps.ring.resize limited resized
              have head := dynArrayResize_headIndex resized
              exact ⟨_, keeps.finishPut notHolding head ring notFull⟩
        · rw [if_neg looksFull] at moved
          cases moved
          have notFull : items.length + 1 ≠ s.queue.numSlots := by
            intro full
            have meets := keeps.ring.newTail_eq_head_iff.2 full
            exact looksFull (meets.trans (seesFull meets).symm)
          exact ⟨_, keeps.finishPut notHolding rfl keeps.ring (by omega)⟩
  | transferring dst chunkSize =>
      rw [point] at moved
      dsimp only at moved
      split at moved
      case h_1 => cases moved
      case h_2 free =>
        split at moved
        case isTrue =>
          cases moved
          exact ⟨items, keeps.setThread (by simp [point]) trivial⟩
        case isFalse some =>
          cases moved
          exact keeps.transfer point free (by simpa using some)
  | emptying newHeadIndex =>
      rw [point] at moved
      cases moved
      exact ⟨items, keeps.markEmpty point⟩

end

omit [DecidableEq Thread] in
/-- The invariant gives the items in their order. -/
theorem isFifo (keeps : CfifoKeeps s items) :
    IsFifo s where
  ordered := by
    rw [keeps.ring.contents_eq]
    exact keeps.accounted
  reports := by
    intro marked
    rw [keeps.ring.contents_eq, keeps.nil_of_isEmpty marked]
    rfl

end CfifoKeeps

/-! ## Runs -/

variable [DecidableEq Thread] {s s' : CfifoSystem α Thread}

omit [DecidableEq Thread] in
/-- A new queue keeps the invariant. -/
theorem CfifoInitial.keeps (limited : memory.Limited) (initial : CfifoInitial memory s) :
    CfifoKeeps s [] := by
  have held := queueArrayInit_holds limited initial.small initial.queue
  exact {
    ring := ⟨held.small, held.room, held.head_lt, held.tail_eq, held.items_eq⟩
    accounted := by rw [initial.puts, initial.gets]; rfl
    marked := fun _ => held.isEmpty_eq
    unmarked := by
      intro holder locked
      rw [initial.lock1] at locked
      cases locked
    holder := by
      intro holder locked
      rw [initial.lock1] at locked
      cases locked
    holds := by
      intro holder headIndex emptying
      rw [initial.threads] at emptying
      cases emptying
    chunks := by
      intro holder dst chunkSize transferring
      rw [initial.threads] at transferring
      cases transferring }

/-- One step of one thread, in which a put that meets a full queue sees it. -/
def SeeingStep (memory : SlotMemory α) (before after : CfifoSystem α Thread) : Prop :=
  ∃ step, SeesFull before step ∧ before.move memory step = some after

theorem CfifoKeeps.step (keeps : CfifoKeeps s items) (limited : memory.Limited)
    (moved : SeeingStep memory s s') :
    ∃ items', CfifoKeeps s' items' := by
  obtain ⟨step, seesFull, moved⟩ := moved
  cases step with
  | startPut thread item => exact ⟨items, keeps.startPut moved⟩
  | get thread => exact keeps.get moved
  | startTransfer thread dst chunkSize =>
      exact ⟨items, keeps.startTransfer moved⟩
  | proceed thread => exact keeps.proceed limited seesFull moved

/--
In a run of any number of producers and consumers in which every put that
meets a full queue has sampled the head as it is, the items come out once and
in the order in which their puts completed, and the queue is marked empty only
when it is.
-/
theorem isFifo_of_seeing (limited : memory.Limited)
    (reached : Reachable (CfifoInitial memory) (SeeingStep memory) s) :
    IsFifo s := by
  have kept : ∃ items, CfifoKeeps s items := by
    induction reached with
    | start initial => exact ⟨[], initial.keeps limited⟩
    | tail _ moved earlier =>
        obtain ⟨items, keeps⟩ := earlier
        exact keeps.step limited moved
  obtain ⟨items, keeps⟩ := kept
  exact keeps.isFifo

/-- A system of two slots that nobody has used. -/
def twoSlots : CfifoSystem Nat Nat where
  queue :=
    { items := fun _ => none
      numSlots := 2
      headIndex := 0
      tailIndex := 0
      isEmpty := true
      usedSlots := 0 }
  lock1 := none
  threads := fun _ => .idle
  puts := []
  gets := []

theorem twoSlots_initial : CfifoInitial smallMemory twoSlots where
  small := by decide
  queue := rfl
  lock1 := rfl
  threads := fun _ => rfl
  puts := rfl
  gets := rfl

/-- Two puts, the second of which enlarges the queue, and a get. -/
theorem isFifo_of_seeing_resize :
    ∃ s : CfifoSystem Nat Nat,
      s.puts = [1, 2] ∧ s.gets = [some 1] ∧ s.queue.numSlots = 4 ∧ IsFifo s := by
  have start : Reachable (CfifoInitial smallMemory) (SeeingStep smallMemory)
      twoSlots := .start twoSlots_initial
  have sampled := start.tail ⟨.startPut 0 1, trivial, rfl⟩
  have stored := sampled.tail ⟨.proceed 0, fun _ => rfl, rfl⟩
  have sampled' := stored.tail ⟨.startPut 1 2, trivial, rfl⟩
  have full := sampled'.tail ⟨.proceed 1, fun _ => rfl, rfl⟩
  have enlarged := full.tail ⟨.proceed 1, fun _ => rfl, rfl⟩
  have got := enlarged.tail ⟨.get 2, trivial, rfl⟩
  exact ⟨_, rfl, rfl, rfl, isFifo_of_seeing smallMemory_limited got⟩

/-- One step of one thread. -/
def CfifoAnyStep (memory : SlotMemory α) (before after : CfifoSystem α Thread) : Prop :=
  ∃ step, before.move memory step = some after

/--
Thread 0 samples the head of an empty queue of two slots and then waits while
an item goes through and a second one fills the queue.  Its own put does not
see that the queue is full, so that the next put overwrites the second item,
and in the end the queue reports itself empty with two items never returned.
-/
theorem not_isFifo :
    ∃ s : CfifoSystem Nat Nat,
      Reachable (CfifoInitial smallMemory) (CfifoAnyStep smallMemory) s ∧
        s.puts = [1, 2, 3, 4] ∧ s.gets = [some 1, some 4] ∧
        s.queue.isEmpty = true ∧ ¬ IsFifo s := by
  have start : Reachable (CfifoInitial smallMemory)
      (CfifoAnyStep smallMemory) twoSlots := .start twoSlots_initial
  have sampled := start.tail ⟨.startPut 0 3, rfl⟩
  have first := (sampled.tail ⟨.startPut 1 1, rfl⟩).tail ⟨.proceed 1, rfl⟩
  have emptied := (first.tail ⟨.get 2, rfl⟩).tail ⟨.proceed 2, rfl⟩
  have second := (emptied.tail ⟨.startPut 1 2, rfl⟩).tail ⟨.proceed 1, rfl⟩
  have hidden := second.tail ⟨.proceed 0, rfl⟩
  have overwritten := (hidden.tail ⟨.startPut 1 4, rfl⟩).tail ⟨.proceed 1, rfl⟩
  have last := (overwritten.tail ⟨.get 2, rfl⟩).tail ⟨.proceed 2, rfl⟩
  refine ⟨_, last, rfl, rfl, rfl, fun isFifo => ?_⟩
  have lengths := congrArg List.length isFifo.ordered
  exact absurd lengths (by decide)

end OpenUH.Libopenmp.Queue
