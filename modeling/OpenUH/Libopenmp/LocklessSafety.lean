import OpenUH.Foundation.Ring
import OpenUH.Libopenmp.LocklessQueue

/-!
# What the lockless task queue keeps

Two totals count how often the head was advanced and how far the tail has
come; the 32-bit indices are these totals without their upper part.  As long
as a put writes beside the items of the queue and a successful
compare-and-swap means that the head was not advanced, the items of the queue
are the slots between the two totals, and a thief that still sees the current
head has read the item it is about to take.
-/

namespace OpenUH.Libopenmp.Lockless

open Foundation
open Foundation.Transition
open Function (update_eq_self update_of_ne update_self)

variable {α Thief : Type}

/-! ## Counters and totals -/

/-- The index that stores a total. -/
def counter (total : Nat) : Counter :=
  BitVec.ofNat 32 total

theorem counter_succ (total : Nat) : counter (total + 1) = counter total + 1 := by
  unfold counter
  rw [BitVec.ofNat_add]
  rfl

theorem counter_add (total offset : Nat) :
    counter total + BitVec.ofNat 32 offset = counter (total + offset) := by
  unfold counter
  rw [BitVec.ofNat_add]

theorem counter_succ_sub_one (total : Nat) : counter (total + 1) - 1 = counter total := by
  rw [counter_succ]
  exact BitVec.add_sub_cancel _ _

theorem counter_sub {tail head : Nat} (ordered : head ≤ tail) :
    counter tail - counter head = BitVec.ofNat 32 (tail - head) := by
  have split : tail = (tail - head) + head := by omega
  unfold counter
  rw [split, BitVec.ofNat_add, BitVec.add_sub_cancel]
  congr 1
  omega

/-- The distance of two totals, when it is no more than an `int` holds. -/
theorem toNat_counter_sub {tail head : Nat} (ordered : head ≤ tail) (close : tail < head + 2 ^ 31) :
    (counter tail - counter head).toNat = tail - head := by
  rw [counter_sub ordered, BitVec.toNat_ofNat]
  exact Nat.mod_eq_of_lt (by omega)

theorem usedSlots_counter {tail head : Nat} (ordered : head ≤ tail) (close : tail < head + 2 ^ 31) :
    usedSlots (counter tail) (counter head) = (tail : Int) - head := by
  unfold usedSlots
  rw [BitVec.toInt_eq_toNat_of_lt, toNat_counter_sub ordered close]
  · omega
  · rw [toNat_counter_sub ordered close]
    omega

/-- The smaller tail of a get may lie one behind the head. -/
theorem usedSlots_counter_sub_one {tail head : Nat} (ordered : head ≤ tail)
    (close : tail < head + 2 ^ 31) :
    usedSlots (counter tail - 1) (counter head) = (tail : Int) - head - 1 := by
  rcases Nat.lt_or_ge head tail with below | reached
  · obtain ⟨previous, rfl⟩ : ∃ previous, tail = previous + 1 :=
      ⟨tail - 1, by omega⟩
    rw [counter_succ_sub_one, usedSlots_counter (by omega) (by omega)]
    omega
  · have same : tail = head := by omega
    subst same
    have back : counter tail - 1 - counter tail = -1 := by
      rw [BitVec.sub_eq_add_neg, BitVec.sub_eq_add_neg, BitVec.add_comm,
        ← BitVec.add_assoc, BitVec.add_comm (-counter tail),
        BitVec.add_right_neg, BitVec.zero_add]
    unfold usedSlots
    rw [back]
    have minusOne : (-1 : BitVec 32).toInt = -1 := by decide
    rw [minusOne]
    omega

/-! ## The invariant -/

/-- The item at a total. -/
def LocklessQueue.itemAt (q : LocklessQueue α) (total : Nat) : Option α :=
  q.slots (slotOf q.numSlots (counter total))

/-- The items between two totals. -/
def LocklessQueue.itemsBetween (q : LocklessQueue α) (head tail : Nat) : List (Option α) :=
  (List.range' head (tail - head)).map q.itemAt

/-- What the owner has taken out of the queue and not yet returned. -/
def OwnerState.held (q : LocklessQueue α) : OwnerState α → List (Option α)
  | .getSlot tailIndex headIndex =>
      if usedSlots tailIndex headIndex > 0 then
        [q.slots (slotOf q.numSlots tailIndex)]
      else
        []
  | .getRestoring item => item.toList.map some
  | .getRestore item _ => item.toList.map some
  | _ => []

/-- What holds at each point of the owner, for the totals of head and tail. -/
def OwnerKeeps (q : LocklessQueue α) (head tail : Nat) :
    OwnerState α → Prop
  | .idle => q.tailIndex = counter tail
  | .putHead _ headIndex =>
      q.tailIndex = counter tail ∧
        ∃ read ≤ head, headIndex = counter read ∧ tail < read + q.numSlots
  | .putFree _ =>
      q.tailIndex = counter tail ∧ tail + 1 < head + q.numSlots
  | .putTail _ tailIndex =>
      q.tailIndex = counter tail ∧ tail + 1 < head + q.numSlots ∧ tailIndex = counter tail
  | .putStored item =>
      q.tailIndex = counter tail ∧ tail + 1 < head + q.numSlots ∧ q.itemAt tail = some item
  | .putIncrement item tailIndex =>
      q.tailIndex = counter tail ∧ tail + 1 < head + q.numSlots ∧
        q.itemAt tail = some item ∧ tailIndex = counter tail
  | .getTail tailIndex =>
      q.tailIndex = counter tail ∧ tailIndex = counter tail
  | .getWritten tailIndex =>
      q.tailIndex = tailIndex ∧ tailIndex = counter tail - 1
  | .getSlot tailIndex headIndex =>
      q.tailIndex = tailIndex ∧
        ((usedSlots tailIndex headIndex > 0 ∧ tailIndex = counter tail ∧
            tail + 1 < head + q.numSlots) ∨
          (¬ usedSlots tailIndex headIndex > 0 ∧ headIndex = tailIndex ∧
            tailIndex = counter tail - 1 ∧ tail ≤ head + 1 ∧ 0 < tail))
  | .getLast headIndex item =>
      q.tailIndex = headIndex ∧ headIndex = counter tail - 1 ∧
        tail ≤ head + 1 ∧ 0 < tail ∧ (head < tail → item = q.itemAt head)
  | .getRestoring _ =>
      (q.tailIndex = counter tail ∨ q.tailIndex = counter tail - 1) ∧ head = tail
  | .getRestore _ headIndex =>
      (q.tailIndex = counter tail ∨ q.tailIndex = counter tail - 1) ∧
        head = tail ∧ headIndex = counter tail

/-- What holds at each point of a thief that read the head at a total. -/
def ThiefKeeps (q : LocklessQueue α) (head tail read : Nat) :
    ThiefState α → Prop
  | .idle => True
  | .headRead headIndex => read ≤ head ∧ headIndex = counter read
  | .tailRead headIndex tailIndex =>
      read ≤ head ∧ headIndex = counter read ∧
        (read = head → usedSlots tailIndex headIndex > 0 → head < tail)
  | .itemRead headIndex item =>
      read ≤ head ∧ headIndex = counter read ∧ (read = head → head < tail ∧ item = q.itemAt head)

/-- The invariant, for the total of the tail. -/
structure Keeps (s : LocklessSystem α Thief) (tail : Nat) : Prop where
  sized : s.queue.Sized
  headIndex : s.queue.headIndex = counter s.history.advances
  ordered : s.history.advances ≤ tail
  capacity : tail < s.history.advances + s.queue.numSlots
  owner : OwnerKeeps s.queue s.history.advances tail s.owner
  thieves : ∀ thief, ThiefKeeps s.queue s.history.advances tail
    (s.history.advancesAtRead thief) (s.thieves thief)
  items :
    (s.history.gets.map some ++ (s.owner.held s.queue ++
      s.queue.itemsBetween s.history.advances tail)).Perm
      (s.history.puts.map some)

theorem itemsBetween_self (q : LocklessQueue α) (head : Nat) : q.itemsBetween head head = [] := by
  simp [LocklessQueue.itemsBetween]

/-- The items from the head on. -/
theorem itemsBetween_head (q : LocklessQueue α) {head tail : Nat} (some : head < tail) :
    q.itemsBetween head tail = q.itemAt head :: q.itemsBetween (head + 1) tail := by
  unfold LocklessQueue.itemsBetween
  have split : tail - head = (tail - (head + 1)) + 1 := by omega
  rw [split, List.range'_succ, List.map_cons]

/-- The items up to the tail. -/
theorem itemsBetween_tail (q : LocklessQueue α) {head tail : Nat} (ordered : head ≤ tail) :
    q.itemsBetween head (tail + 1) = q.itemsBetween head tail ++ [q.itemAt tail] := by
  unfold LocklessQueue.itemsBetween
  have split : tail + 1 - head = (tail - head) + 1 := by omega
  have last : head + (tail - head) = tail := by omega
  rw [split, List.range'_1_concat, List.map_append, List.map_singleton, last]

/-- The queue as the totals see it is the queue as the indices see it. -/
theorem contents_eq_itemsBetween {q : LocklessQueue α} {head tail : Nat} (sized : q.Sized)
    (headIndex : q.headIndex = counter head) (tailIndex : q.tailIndex = counter tail)
    (ordered : head ≤ tail) (capacity : tail < head + q.numSlots) :
    q.contents = q.itemsBetween head tail := by
  have small := sized.lt_int
  unfold LocklessQueue.contents LocklessQueue.itemsBetween
  rw [headIndex, tailIndex, toNat_counter_sub ordered (by omega),
    List.range'_eq_map_range, List.map_map]
  apply List.map_congr_left
  intro offset _
  rw [counter_add]
  rfl

theorem counter_succ_ne (total : Nat) : counter (total + 1) ≠ counter total := by
  rw [counter_succ]
  intro same
  have shifted : (1 : BitVec 32) + counter total - counter total =
      counter total - counter total := by
    rw [BitVec.add_comm 1, same]
  rw [BitVec.add_sub_cancel, BitVec.sub_self] at shifted
  exact absurd shifted (by decide)

/-! ## What a thief keeps -/

theorem ThiefKeeps.mono {q q' : LocklessQueue α} {head tail tail' read : Nat} {state : ThiefState α}
    (keeps : ThiefKeeps q head tail read state)
    (items : head < tail → q'.itemAt head = q.itemAt head) (kept : head < tail → head < tail') :
    ThiefKeeps q' head tail' read state := by
  cases state with
  | idle => trivial
  | headRead headIndex => exact keeps
  | tailRead headIndex tailIndex =>
      exact ⟨keeps.1, keeps.2.1, fun current used =>
        kept (keeps.2.2 current used)⟩
  | itemRead headIndex item =>
      refine ⟨keeps.1, keeps.2.1, fun current => ?_⟩
      obtain ⟨some, same⟩ := keeps.2.2 current
      exact ⟨kept some, same.trans (items some).symm⟩

/-- A thief that read an earlier head promises nothing any more. -/
theorem ThiefKeeps.advance {q q' : LocklessQueue α} {head tail tail' read : Nat}
    {state : ThiefState α} (keeps : ThiefKeeps q head tail read state) :
    ThiefKeeps q' (head + 1) tail' read state := by
  cases state with
  | idle => trivial
  | headRead headIndex => exact ⟨Nat.le_succ_of_le keeps.1, keeps.2⟩
  | tailRead headIndex tailIndex | itemRead headIndex item =>
      have old := keeps.1
      exact ⟨Nat.le_succ_of_le old, keeps.2.1, fun current => by omega⟩

/-! ## Steps of the owner -/

variable {s s' : LocklessSystem α Thief} {tail tail' : Nat}

/-- A step of the owner that leaves the head and the slots as they are. -/
theorem Keeps.ofOwner (keeps : Keeps s tail)
    (queue : s'.queue =
      { s.queue with tailIndex := s'.queue.tailIndex })
    (thieves : s'.thieves = s.thieves)
    (advances : s'.history.advances = s.history.advances)
    (advancesAtRead : s'.history.advancesAtRead = s.history.advancesAtRead)
    (ordered : s.history.advances ≤ tail')
    (capacity : tail' < s.history.advances + s.queue.numSlots)
    (kept : s.history.advances < tail → s.history.advances < tail')
    (owner : OwnerKeeps s'.queue s.history.advances tail' s'.owner)
    (items :
      (s'.history.gets.map some ++ (s'.owner.held s.queue ++
        s.queue.itemsBetween s.history.advances tail')).Perm
        (s'.history.puts.map some)) :
    Keeps s' tail' where
  sized := by
    rw [queue]
    exact ⟨keeps.sized.two_le, keeps.sized.lt_int⟩
  headIndex := by
    rw [queue, advances]
    exact keeps.headIndex
  ordered := by
    rw [advances]
    exact ordered
  capacity := by
    rw [advances, queue]
    exact capacity
  owner := by
    rw [advances]
    exact owner
  thieves := by
    intro thief
    rw [advances, advancesAtRead, thieves]
    refine (keeps.thieves thief).mono (fun _ => ?_) kept
    rw [queue]
    rfl
  items := by
    rw [advances, queue]
    exact items

/-- The owner starts a put. -/
theorem Keeps.startPut {item : α} (keeps : Keeps s tail) (moved : s.startPut item = some s') :
    Keeps s' tail := by
  unfold LocklessSystem.startPut at moved
  split at moved
  case h_2 => cases moved
  case h_1 idle =>
    cases moved
    have owner := keeps.owner
    have items := keeps.items
    rw [idle] at owner items
    exact keeps.ofOwner rfl rfl rfl rfl keeps.ordered keeps.capacity id
      ⟨owner, s.history.advances, Nat.le_refl _, keeps.headIndex, keeps.capacity⟩ items

/-- The owner starts a get. -/
theorem Keeps.startGet (keeps : Keeps s tail) (moved : s.startGet = some s') : Keeps s' tail := by
  unfold LocklessSystem.startGet at moved
  split at moved
  case h_2 => cases moved
  case h_1 idle =>
    cases moved
    have owner := keeps.owner
    have items := keeps.items
    rw [idle] at owner items
    exact keeps.ofOwner rfl rfl rfl rfl keeps.ordered keeps.capacity id ⟨owner, owner⟩ items

/-- Writing a slot beside the items leaves the items as they are. -/
theorem itemAt_update {q : LocklessQueue α} {total slot : Nat} (item : Option α)
    (beside : slotOf q.numSlots (counter total) ≠ slot) :
    LocklessQueue.itemAt
        { q with slots := Function.update q.slots slot item } total =
      q.itemAt total :=
  update_of_ne beside _ _

/-- A put writes its slot. -/
theorem Keeps.store {item : α} {tailIndex : Counter} (keeps : Keeps s tail)
    (writing : s.owner = .putTail item tailIndex) (besides : PutsBesides s) :
    Keeps
      { s with
        queue :=
          { s.queue with
            slots := Function.update s.queue.slots (slotOf s.queue.numSlots tailIndex) (some item) }
        owner := .putStored item }
      tail := by
  have owner := keeps.owner
  rw [writing] at owner
  obtain ⟨tailIs, room, readIs⟩ := owner
  have small := keeps.sized.lt_int
  have ordered := keeps.ordered
  have others : ∀ total, s.history.advances ≤ total → total < tail →
      slotOf s.queue.numSlots (counter total) ≠ slotOf s.queue.numSlots tailIndex := by
    intro total least below
    unfold PutsBesides at besides
    rw [writing] at besides
    have offset := besides (total - s.history.advances) (by
      rw [readIs, keeps.headIndex, toNat_counter_sub ordered (by omega)]
      omega)
    rw [keeps.headIndex, counter_add, Nat.add_sub_cancel' least] at offset
    exact offset
  exact {
    sized := ⟨keeps.sized.two_le, keeps.sized.lt_int⟩
    headIndex := keeps.headIndex
    ordered := keeps.ordered
    capacity := keeps.capacity
    owner := by
      refine ⟨tailIs, room, ?_⟩
      subst readIs
      exact update_self _ _ _
    thieves := by
      intro thief
      refine (keeps.thieves thief).mono (fun some => ?_) id
      exact itemAt_update _ (others _ (Nat.le_refl _) some)
    items := by
      have same : LocklessQueue.itemsBetween
          { s.queue with
            slots := Function.update s.queue.slots (slotOf s.queue.numSlots tailIndex) (some item) }
          s.history.advances tail =
          s.queue.itemsBetween s.history.advances tail := by
        apply List.map_congr_left
        intro total member
        obtain ⟨least, below⟩ := List.mem_range'_1.1 member
        exact itemAt_update _ (others total least (by omega))
      have items := keeps.items
      rw [writing] at items
      dsimp only
      rw [same]
      exact items }

/-- A put publishes the item in its slot. -/
theorem Keeps.publish {item : α} {tailIndex : Counter} (keeps : Keeps s tail)
    (writing : s.owner = .putIncrement item tailIndex) :
    Keeps
      { s with
        queue := { s.queue with tailIndex := tailIndex + 1 }
        owner := .idle
        history := { s.history with puts := s.history.puts ++ [item] } }
      (tail + 1) := by
  have owner := keeps.owner
  have items := keeps.items
  have ordered := keeps.ordered
  rw [writing] at owner items
  obtain ⟨tailIs, room, stored, readIs⟩ := owner
  refine keeps.ofOwner rfl rfl rfl rfl (by omega) (by omega) (fun some => by omega) ?_ ?_
  · change tailIndex + 1 = counter (tail + 1)
    rw [readIs, counter_succ]
  · dsimp only
    rw [itemsBetween_tail _ ordered, stored, List.map_append]
    simp only [OwnerState.held, List.nil_append, ← List.append_assoc] at items ⊢
    exact items.append_right _

/-- A get that leaves the head alone takes the last item. -/
theorem Keeps.takeLast {tailIndex : Counter} (keeps : Keeps s tail)
    (reading : s.owner = .getWritten tailIndex)
    (several : usedSlots tailIndex s.queue.headIndex > 0) :
    ∃ tail', Keeps
      { s with owner := .getSlot tailIndex s.queue.headIndex } tail' := by
  have owner := keeps.owner
  have items := keeps.items
  have ordered := keeps.ordered
  have capacity := keeps.capacity
  have small := keeps.sized.lt_int
  rw [reading] at owner items
  obtain ⟨tailIs, readIs⟩ := owner
  have used := several
  rw [readIs, keeps.headIndex, usedSlots_counter_sub_one ordered (by omega)] at used
  obtain ⟨last, rfl⟩ : ∃ last, tail = last + 1 := ⟨tail - 1, by omega⟩
  rw [counter_succ_sub_one] at readIs
  refine ⟨last, keeps.ofOwner rfl rfl rfl rfl (by omega) (by omega)
    (fun some => by omega) ⟨tailIs, Or.inl ⟨several, readIs, by omega⟩⟩ ?_⟩
  rw [itemsBetween_tail _ (by omega)] at items
  dsimp only
  rw [OwnerState.held, if_pos several, readIs]
  refine List.Perm.trans ?_ items
  exact List.Perm.append_left _ List.perm_append_comm

/-- A step that advances the head takes the first item. -/
theorem Keeps.ofAdvance (keeps : Keeps s tail)
    (queue : s'.queue = { s.queue with headIndex := s.queue.headIndex + 1 })
    (advances : s'.history.advances = s.history.advances + 1)
    (advancesAtRead : s'.history.advancesAtRead = s.history.advancesAtRead)
    (some : s.history.advances < tail)
    (owner : OwnerKeeps s'.queue (s.history.advances + 1) tail s'.owner)
    (thieves : ∀ thief, s'.thieves thief = s.thieves thief ∨ s'.thieves thief = .idle)
    (items :
      (s'.history.gets.map Option.some ++ (s'.owner.held s.queue ++
        s.queue.itemsBetween (s.history.advances + 1) tail)).Perm
        (s'.history.puts.map Option.some)) :
    Keeps s' tail where
  sized := by
    rw [queue]
    exact ⟨keeps.sized.two_le, keeps.sized.lt_int⟩
  headIndex := by
    rw [queue, advances, counter_succ, ← keeps.headIndex]
  ordered := by
    rw [advances]
    exact some
  capacity := by
    have capacity := keeps.capacity
    rw [advances, queue]
    dsimp only
    omega
  owner := by
    rw [advances]
    exact owner
  thieves := by
    intro thief
    rw [advances, advancesAtRead]
    rcases thieves thief with same | idle
    · rw [same]
      exact (keeps.thieves thief).advance
    · rw [idle]
      trivial
  items := by
    rw [advances, queue]
    exact items

/-- The end of a get of the owner puts the tail at the head. -/
theorem Keeps.restore {item : Option α} {headIndex : Counter} (keeps : Keeps s tail)
    (writing : s.owner = .getRestore item headIndex) :
    Keeps
      (LocklessSystem.returns
        { s with
          queue := { s.queue with tailIndex := headIndex }
          owner := .idle } item)
      tail := by
  have owner := keeps.owner
  have items := keeps.items
  rw [writing] at owner items
  obtain ⟨-, empty, readIs⟩ := owner
  refine keeps.ofOwner rfl rfl rfl rfl keeps.ordered keeps.capacity id readIs ?_
  dsimp only [LocklessSystem.returns]
  rw [empty, itemsBetween_self] at items ⊢
  simpa only [List.map_append, OwnerState.held, List.append_nil, List.append_assoc] using items

/-- What the accounting lists is an item. -/
theorem some_of_perm {left rest : List (Option α)} {item : Option α} {puts : List α}
    (items : (left ++ item :: rest).Perm (puts.map some)) :
    ∃ value, item = some value := by
  have member : item ∈ puts.map some := items.subset (List.mem_append_right _ List.mem_cons_self)
  obtain ⟨value, -, same⟩ := List.mem_map.1 member
  exact ⟨value, same.symm⟩

/-- Every step of the owner that does not overwrite keeps the invariant. -/
theorem Keeps.ownerStep (keeps : Keeps s tail) (besides : PutsBesides s)
    (moved : s.ownerStep = some s') :
    ∃ tail', Keeps s' tail' := by
  have owner := keeps.owner
  have items := keeps.items
  have ordered := keeps.ordered
  have capacity := keeps.capacity
  have small := keeps.sized.lt_int
  unfold LocklessSystem.ownerStep at moved
  cases point : s.owner with
  | idle => rw [point] at moved; cases moved
  | putHead item headIndex =>
      rw [point] at moved owner items
      obtain ⟨tailIs, read, old, readIs, room⟩ := owner
      dsimp only at moved
      split at moved
      case isTrue =>
        cases moved
        exact ⟨tail, keeps.ofOwner rfl rfl rfl rfl ordered capacity id tailIs items⟩
      case isFalse notFull =>
        cases moved
        rw [tailIs, readIs, usedSlots_counter (by omega) (by omega)]
          at notFull
        have free : tail + 1 < s.history.advances + s.queue.numSlots := by
          omega
        exact ⟨tail, keeps.ofOwner rfl rfl rfl rfl ordered capacity id ⟨tailIs, free⟩ items⟩
  | putFree item =>
      rw [point] at moved owner items
      cases moved
      exact ⟨tail, keeps.ofOwner rfl rfl rfl rfl ordered capacity id
        ⟨owner.1, owner.2, owner.1⟩ items⟩
  | putTail item tailIndex =>
      rw [point] at moved
      cases moved
      exact ⟨tail, keeps.store point besides⟩
  | putStored item =>
      rw [point] at moved owner items
      cases moved
      exact ⟨tail, keeps.ofOwner rfl rfl rfl rfl ordered capacity id
        ⟨owner.1, owner.2.1, owner.2.2, owner.1⟩ items⟩
  | putIncrement item tailIndex =>
      rw [point] at moved
      cases moved
      exact ⟨tail + 1, keeps.publish point⟩
  | getTail tailIndex =>
      rw [point] at moved owner items
      cases moved
      have written : tailIndex - 1 = counter tail - 1 := by
        rw [owner.2]
      exact ⟨tail, keeps.ofOwner rfl rfl rfl rfl ordered capacity id ⟨rfl, written⟩ items⟩
  | getWritten tailIndex =>
      rw [point] at moved owner items
      obtain ⟨tailIs, readIs⟩ := owner
      have used : usedSlots tailIndex s.queue.headIndex =
          (tail : Int) - s.history.advances - 1 := by
        rw [readIs, keeps.headIndex, usedSlots_counter_sub_one ordered (by omega)]
      dsimp only at moved
      split at moved
      case isTrue negative =>
        cases moved
        exact ⟨tail, keeps.ofOwner rfl rfl rfl rfl ordered capacity id
          ⟨Or.inr (tailIs.trans readIs), by omega⟩ items⟩
      case isFalse =>
        cases moved
        by_cases several : usedSlots tailIndex s.queue.headIndex > 0
        · exact keeps.takeLast point several
        · have last : tail = s.history.advances + 1 := by omega
          have headIs : s.queue.headIndex = tailIndex := by
            rw [keeps.headIndex, readIs, last, counter_succ_sub_one]
          refine ⟨tail, keeps.ofOwner rfl rfl rfl rfl ordered capacity id
            ⟨tailIs, Or.inr ⟨several, headIs, readIs, by omega, by omega⟩⟩
            ?_⟩
          dsimp only
          rw [OwnerState.held, if_neg several]
          exact items
  | getSlot tailIndex headIndex =>
      rw [point] at moved owner items
      obtain ⟨tailIs, ⟨several, readIs, room⟩ |
        ⟨last, headIs, readIs, close, positive⟩⟩ := owner
      · dsimp only at moved
        rw [if_pos several] at moved
        cases moved
        refine ⟨tail, keeps.ofOwner rfl rfl rfl rfl ordered capacity id (tailIs.trans readIs) ?_⟩
        rw [OwnerState.held, if_pos several] at items
        obtain ⟨value, valueIs⟩ := some_of_perm items
        dsimp only [LocklessSystem.returns]
        rw [valueIs] at items ⊢
        simpa only [List.map_append, OwnerState.held, List.nil_append,
          List.append_assoc, Option.toList_some, List.map_singleton] using items
      · dsimp only at moved
        rw [if_neg last] at moved
        cases moved
        refine ⟨tail, keeps.ofOwner rfl rfl rfl rfl ordered capacity id
          ⟨tailIs.trans headIs.symm, headIs.trans readIs, close, positive,
            fun some => ?_⟩ ?_⟩
        · have lastIs : tail = s.history.advances + 1 := by omega
          rw [LocklessQueue.itemAt, readIs, lastIs, counter_succ_sub_one]
        · rw [OwnerState.held, if_neg last] at items
          exact items
  | getLast headIndex item =>
      rw [point] at moved owner items
      obtain ⟨tailIs, readIs, close, positive, current⟩ := owner
      obtain ⟨first, rfl⟩ : ∃ first, tail = first + 1 := ⟨tail - 1, by omega⟩
      rw [counter_succ_sub_one] at readIs
      have unchanged : s.queue.headIndex = headIndex ↔ s.history.advances = first := by
        rw [keeps.headIndex, readIs]
        refine ⟨fun same => ?_, fun same => by rw [same]⟩
        by_contra other
        have moved : s.history.advances = first + 1 := by omega
        rw [moved] at same
        exact counter_succ_ne first same
      dsimp only at moved
      split at moved
      case isTrue same =>
        cases moved
        have here := unchanged.1 same
        subst here
        rw [itemsBetween_head _ (by omega), ← current (by omega)] at items
        simp only [OwnerState.held, List.nil_append] at items
        obtain ⟨value, valueIs⟩ := some_of_perm items
        refine ⟨_, keeps.ofAdvance rfl rfl rfl (by omega) ⟨Or.inr ?_, rfl⟩
          (fun thief => Or.inl rfl) ?_⟩
        · dsimp only [LocklessSystem.advance]
          rw [tailIs, readIs, counter_succ_sub_one]
        · dsimp only [LocklessSystem.advance]
          rw [valueIs] at items ⊢
          simpa only [OwnerState.held, Option.toList_some,
            List.map_singleton, List.singleton_append] using items
      case isFalse other =>
        cases moved
        have advanced : s.history.advances = first + 1 := by
          have differs := mt unchanged.2 other
          omega
        refine ⟨_, keeps.ofOwner rfl rfl rfl rfl ordered capacity id ⟨Or.inr ?_, advanced⟩ items⟩
        dsimp only
        rw [tailIs, readIs, counter_succ_sub_one]
  | getRestoring item =>
      rw [point] at moved owner items
      cases moved
      refine ⟨tail, keeps.ofOwner rfl rfl rfl rfl ordered capacity id ⟨owner.1, owner.2, ?_⟩ items⟩
      rw [keeps.headIndex, owner.2]
  | getRestore item headIndex =>
      rw [point] at moved
      cases moved
      exact ⟨tail, keeps.restore point⟩

/-! ## Steps of a thief -/

variable [DecidableEq Thief]

/-- A step of a thief that leaves the queue as it is. -/
theorem Keeps.setThief (keeps : Keeps s tail) {thief : Thief} {state : ThiefState α}
    (reads : ThiefKeeps s.queue s.history.advances tail (s.history.advancesAtRead thief) state) :
    Keeps (s.setThief thief state) tail where
  sized := keeps.sized
  headIndex := keeps.headIndex
  ordered := keeps.ordered
  capacity := keeps.capacity
  owner := keeps.owner
  thieves := by
    intro other
    dsimp only [LocklessSystem.setThief]
    by_cases same : other = thief
    · rw [same, update_self]
      exact reads
    · rw [update_of_ne same]
      exact keeps.thieves other
  items := keeps.items

/-- A thief reads the head. -/
theorem Keeps.readHead (keeps : Keeps s tail) (thief : Thief) :
    Keeps
      { s.setThief thief (.headRead s.queue.headIndex) with
        history :=
          { s.history with
            advancesAtRead := Function.update s.history.advancesAtRead thief s.history.advances } }
      tail where
  sized := keeps.sized
  headIndex := keeps.headIndex
  ordered := keeps.ordered
  capacity := keeps.capacity
  owner := keeps.owner
  thieves := by
    intro other
    dsimp only [LocklessSystem.setThief]
    by_cases same : other = thief
    · rw [same, update_self, update_self]
      exact ⟨Nat.le_refl _, keeps.headIndex⟩
    · rw [update_of_ne same, update_of_ne same]
      exact keeps.thieves other
  items := keeps.items

/-- The tail that a thief can read never counts items that are not there. -/
theorem OwnerKeeps.used_le {q : LocklessQueue α} {head tail : Nat} {state : OwnerState α}
    (keeps : OwnerKeeps q head tail state) (ordered : head ≤ tail) (close : tail < head + 2 ^ 31)
    (used : usedSlots q.tailIndex (counter head) > 0) :
    head < tail := by
  have tailIs : q.tailIndex = counter tail ∨ q.tailIndex = counter tail - 1 := by
    cases state with
    | idle => exact Or.inl keeps
    | putHead | putFree | putTail | putStored | putIncrement | getTail => exact Or.inl keeps.1
    | getWritten tailIndex => exact Or.inr (keeps.1.trans keeps.2)
    | getSlot tailIndex headIndex =>
        rcases keeps.2 with several | last
        · exact Or.inl (keeps.1.trans several.2.1)
        · exact Or.inr (keeps.1.trans last.2.2.1)
    | getLast headIndex item => exact Or.inr (keeps.1.trans keeps.2.1)
    | getRestoring | getRestore => exact keeps.1
  rcases tailIs with whole | smaller
  · rw [whole, usedSlots_counter ordered close] at used
    omega
  · rw [smaller, usedSlots_counter_sub_one ordered close] at used
    omega

/-- The owner keeps what it knows when a thief takes the first item. -/
theorem OwnerKeeps.advance {q : LocklessQueue α} {head tail : Nat} {state : OwnerState α}
    {headIndex : Counter} (keeps : OwnerKeeps q head tail state) (some : head < tail) :
    OwnerKeeps { q with headIndex := headIndex } (head + 1) tail state := by
  have moreRoom : tail + 1 < head + q.numSlots → tail + 1 < head + 1 + q.numSlots := by
    intro room
    omega
  cases state with
  | idle | getTail tailIndex | getWritten tailIndex => exact keeps
  | putHead item headIndex =>
      obtain ⟨tailIs, read, old, readIs, room⟩ := keeps
      exact ⟨tailIs, read, Nat.le_succ_of_le old, readIs, room⟩
  | putFree item =>
      exact ⟨keeps.1, moreRoom keeps.2⟩
  | putTail item tailIndex | putStored item | putIncrement item tailIndex =>
      exact ⟨keeps.1, moreRoom keeps.2.1, keeps.2.2⟩
  | getSlot tailIndex headIndex =>
      obtain ⟨tailIs, ⟨several, readIs, room⟩ |
        ⟨last, headIs, readIs, close, positive⟩⟩ := keeps
      · exact ⟨tailIs, Or.inl ⟨several, readIs, moreRoom room⟩⟩
      · exact ⟨tailIs, Or.inr ⟨last, headIs, readIs, Nat.le_succ_of_le close, positive⟩⟩
  | getLast headIndex item =>
      obtain ⟨tailIs, readIs, close, positive, current⟩ := keeps
      exact ⟨tailIs, readIs, Nat.le_succ_of_le close, positive,
        fun more => absurd close (by omega)⟩
  | getRestoring item => exact absurd keeps.2 (Nat.ne_of_lt some)
  | getRestore item headIndex => exact absurd keeps.2.1 (Nat.ne_of_lt some)

/-- A thief whose compare-and-swap succeeds takes the first item. -/
theorem Keeps.steal {thief : Thief} {headIndex : Counter} {item : Option α} (keeps : Keeps s tail)
    (holding : s.thieves thief = .itemRead headIndex item)
    (current : s.history.advances = s.history.advancesAtRead thief) :
    Keeps (((s.setThief thief .idle).advance).returns item) tail := by
  have items := keeps.items
  have owner := keeps.owner
  have reads := keeps.thieves thief
  rw [holding] at reads
  obtain ⟨-, -, first⟩ := reads
  obtain ⟨some, itemIs⟩ := first current.symm
  rw [itemsBetween_head _ some, ← itemIs] at items
  have front : (s.history.gets.map Option.some ++ s.owner.held s.queue ++
      item :: s.queue.itemsBetween (s.history.advances + 1) tail).Perm
      (s.history.puts.map Option.some) := by
    rw [List.append_assoc]
    exact items
  obtain ⟨value, valueIs⟩ := some_of_perm front
  refine keeps.ofAdvance rfl rfl rfl some ?_ ?_ ?_
  · exact owner.advance some
  · intro other
    dsimp only [LocklessSystem.returns, LocklessSystem.advance, LocklessSystem.setThief]
    by_cases same : other = thief
    · rw [same, update_self]
      exact Or.inr rfl
    · rw [update_of_ne same]
      exact Or.inl rfl
  · dsimp only [LocklessSystem.returns, LocklessSystem.advance, LocklessSystem.setThief]
    rw [valueIs] at front ⊢
    refine List.Perm.trans ?_ front
    rw [Option.toList_some, List.map_append, List.map_singleton,
      List.append_assoc, List.append_assoc]
    apply List.Perm.append_left
    rw [List.singleton_append]
    exact List.perm_middle.symm

/-- A step of a thief that takes what it read keeps the invariant. -/
theorem Keeps.thiefStep {thief : Thief} (keeps : Keeps s tail) (takes : TakesWhatItRead s thief) :
    Keeps (s.thiefStep thief) tail := by
  have reads := keeps.thieves thief
  have small := keeps.sized.lt_int
  have capacity := keeps.capacity
  unfold LocklessSystem.thiefStep
  cases point : s.thieves thief with
  | idle => exact keeps.readHead thief
  | headRead headIndex =>
      rw [point] at reads
      refine keeps.setThief ⟨reads.1, reads.2, fun current used => ?_⟩
      rw [reads.2, current] at used
      exact keeps.owner.used_le keeps.ordered (by omega) used
  | tailRead headIndex tailIndex =>
      rw [point] at reads
      dsimp only
      split
      case isTrue => exact keeps.setThief trivial
      case isFalse some =>
        refine keeps.setThief ⟨reads.1, reads.2.1, fun current => ?_⟩
        refine ⟨reads.2.2 current (by omega), ?_⟩
        rw [reads.2.1, current]
        rfl
  | itemRead headIndex item =>
      dsimp only
      split
      case isTrue same =>
        unfold TakesWhatItRead at takes
        rw [point] at takes
        exact keeps.steal point (takes same)
      case isFalse => exact keeps.setThief trivial

/-! ## Runs -/

omit [DecidableEq Thief] in
/-- An unused queue keeps the invariant. -/
theorem Initial.keeps (initial : Initial s) : Keeps s 0 := by
  have two := initial.sized.two_le
  have headIs : s.queue.headIndex = 0 := by
    rw [initial.queue]
    rfl
  have tailIs : s.queue.tailIndex = 0 := by
    rw [initial.queue]
    rfl
  exact {
    sized := initial.sized
    headIndex := by
      rw [headIs, initial.advances]
      rfl
    ordered := by
      rw [initial.advances]
    capacity := by
      rw [initial.advances]
      omega
    owner := by
      rw [initial.owner]
      exact tailIs
    thieves := by
      intro thief
      rw [initial.thieves]
      trivial
    items := by
      rw [initial.advances, initial.owner, initial.puts, initial.gets, itemsBetween_self]
      exact List.Perm.refl _ }

/-- One step on which nothing depends on the counters having wrapped. -/
def UnwrappedStep (before after : LocklessSystem α Thief) : Prop :=
  ∃ actor, Unwrapped before actor ∧ before.move actor = some after

theorem Keeps.step (keeps : Keeps s tail) (moved : UnwrappedStep s s') :
    ∃ tail', Keeps s' tail' := by
  obtain ⟨actor, unwrapped, moved⟩ := moved
  cases actor with
  | startPut item => exact ⟨tail, keeps.startPut moved⟩
  | startGet => exact ⟨tail, keeps.startGet moved⟩
  | owner => exact keeps.ownerStep unwrapped moved
  | thief thief =>
      have stepped : s.thiefStep thief = s' := Option.some.inj moved
      rw [← stepped]
      exact ⟨tail, keeps.thiefStep unwrapped⟩

/-- Along unwrapped steps some total of the tail keeps the invariant. -/
theorem keeps_of_reachable (reached : Reachable Initial UnwrappedStep s) :
    ∃ tail, Keeps s tail := by
  induction reached with
  | start initial => exact ⟨0, initial.keeps⟩
  | tail _ moved earlier =>
      obtain ⟨tail, keeps⟩ := earlier
      exact keeps.step moved

omit [DecidableEq Thief] in
/-- The invariant accounts for every item. -/
theorem Keeps.conserves (keeps : Keeps s tail) :
    Conserves s where
  atMostOnce := by
    have some := keeps.items.filterMap id
    rw [List.filterMap_append] at some
    have getsOnly : (s.history.gets.map Option.some).filterMap id = s.history.gets := by
      rw [List.filterMap_map]
      exact List.filterMap_some
    have putsOnly : (s.history.puts.map Option.some).filterMap id = s.history.puts := by
      rw [List.filterMap_map]
      exact List.filterMap_some
    rw [getsOnly, putsOnly] at some
    exact (List.sublist_append_left _ _).subperm.trans some.subperm
  exact := by
    intro quiescent
    have items := keeps.items
    have owner := keeps.owner
    rw [quiescent.owner] at items owner
    rw [contents_eq_itemsBetween keeps.sized keeps.headIndex owner keeps.ordered keeps.capacity]
    exact items

/--
In a run of an owner and any number of thieves in which every put writes
beside the items of the queue and every successful compare-and-swap of a thief
finds the head not advanced since it was read, no item is lost or returned
twice.
-/
theorem conserves_of_unwrapped (reached : Reachable Initial UnwrappedStep s) : Conserves s := by
  obtain ⟨tail, keeps⟩ := keeps_of_reachable reached
  exact keeps.conserves

/-- A queue whose owner puts an item that a thief then takes. -/
theorem conserves_of_unwrapped_steal :
    ∃ s : LocklessSystem Nat Unit,
      s.history.puts = [7] ∧ s.history.gets = [7] ∧ Conserves s := by
  have start : Reachable Initial UnwrappedStep
      { queue := queueLocklessInit 2
        owner := .idle
        thieves := fun _ => .idle
        history :=
          { puts := [], gets := [], advances := 0
            advancesAtRead := fun _ => 0 } :
        LocklessSystem Nat Unit } :=
    .start ⟨⟨by decide, by decide⟩, rfl, rfl, fun _ => rfl, rfl, rfl, rfl⟩
  have putHead := start.tail ⟨.startPut 7, trivial, rfl⟩
  have putFree := putHead.tail ⟨.owner, trivial, rfl⟩
  have putTail := putFree.tail ⟨.owner, trivial, rfl⟩
  have putStored := putTail.tail
    ⟨.owner, fun _ below => absurd below (Nat.not_lt_zero _), rfl⟩
  have putIncrement := putStored.tail ⟨.owner, trivial, rfl⟩
  have put := putIncrement.tail ⟨.owner, trivial, rfl⟩
  have headRead := put.tail ⟨.thief (), trivial, rfl⟩
  have tailRead := headRead.tail ⟨.thief (), trivial, rfl⟩
  have itemRead := tailRead.tail ⟨.thief (), trivial, rfl⟩
  have taken := itemRead.tail ⟨.thief (), fun _ => rfl, rfl⟩
  exact ⟨_, rfl, rfl, conserves_of_unwrapped taken⟩

/-! ## Slots that divide the range of the counters -/

theorem slotOf_counter {numSlots : Nat} (divides : numSlots ∣ 2 ^ 32) (total : Nat) :
    slotOf numSlots (counter total) = total % numSlots := by
  unfold slotOf counter
  rw [BitVec.toNat_ofNat, Nat.mod_mod_of_dvd _ divides]

omit [DecidableEq Thief] in
/-- Where the number of slots divides `2 ^ 32`, no put overwrites an item. -/
theorem Keeps.putsBesides (keeps : Keeps s tail) (divides : s.queue.numSlots ∣ 2 ^ 32) :
    PutsBesides s := by
  have owner := keeps.owner
  have ordered := keeps.ordered
  have small := keeps.sized.lt_int
  unfold PutsBesides
  cases point : s.owner with
  | putTail item tailIndex =>
      rw [point] at owner
      obtain ⟨-, room, readIs⟩ := owner
      intro offset below
      rw [readIs, keeps.headIndex, toNat_counter_sub ordered (by omega)]
        at below
      rw [readIs, keeps.headIndex, counter_add, slotOf_counter divides, slotOf_counter divides]
      have distance : tail = s.history.advances + offset +
          (tail - (s.history.advances + offset)) := by
        omega
      rw [distance]
      exact (Ring.position_ne (by omega) (by omega)).symm
  | _ => trivial

/-- One step in which no thief takes what it did not read. -/
def TakingStep (before after : LocklessSystem α Thief) : Prop :=
  ∃ actor, (∀ thief, actor = .thief thief → TakesWhatItRead before thief) ∧
    before.move actor = some after

theorem LocklessSystem.move_numSlots {actor : Actor α Thief} (moved : s.move actor = some s') :
    s'.queue.numSlots = s.queue.numSlots := by
  cases actor with
  | startPut item =>
      simp only [move, startPut] at moved
      split at moved <;> cases moved
      rfl
  | startGet =>
      simp only [move, startGet] at moved
      split at moved <;> cases moved
      rfl
  | owner =>
      simp only [move, ownerStep] at moved
      split at moved
      all_goals first
        | cases moved; rfl
        | split at moved <;> cases moved <;> rfl
        | cases moved
  | thief thief =>
      cases moved
      unfold thiefStep
      split
      all_goals first
        | rfl
        | split <;> rfl

/-- A put of the owner from its first step to its last. -/
def putActors (item : α) : List (Actor α Thief) :=
  [.startPut item, .owner, .owner, .owner, .owner, .owner]

/-- A get of a thief from its first step to its last. -/
def stealActors (thief : Thief) : List (Actor α Thief) :=
  [.thief thief, .thief thief, .thief thief, .thief thief]

/-- What a put leaves behind. -/
def afterPut (s : LocklessSystem α Thief) (item : α) : LocklessSystem α Thief :=
  { s with
    queue :=
      { s.queue with
        tailIndex := s.queue.tailIndex + 1
        slots := Function.update s.queue.slots
          (slotOf s.queue.numSlots s.queue.tailIndex) (some item) }
    owner := .idle
    history := { s.history with puts := s.history.puts ++ [item] } }

/-- What a successful get of a thief leaves behind. -/
def afterSteal (s : LocklessSystem α Thief) (thief : Thief) : LocklessSystem α Thief :=
  { s with
    queue := { s.queue with headIndex := s.queue.headIndex + 1 }
    history :=
      { s.history with
        gets := s.history.gets ++
          (s.queue.slots
            (slotOf s.queue.numSlots s.queue.headIndex)).toList
        advances := s.history.advances + 1
        advancesAtRead := Function.update s.history.advancesAtRead thief
          s.history.advances } }

theorem runAll_put (item : α) (idle : s.owner = .idle)
    (room : usedSlots s.queue.tailIndex s.queue.headIndex ≠ s.queue.numSlots - 1) :
    runAll LocklessSystem.move s (putActors item) = some (afterPut s item) := by
  simp [runAll, putActors, LocklessSystem.move, LocklessSystem.startPut,
    LocklessSystem.ownerStep, idle, room, afterPut]

theorem runAll_steal (thief : Thief) (idle : s.thieves thief = .idle)
    (used : usedSlots s.queue.tailIndex s.queue.headIndex > 0) :
    runAll LocklessSystem.move s (stealActors thief) = some (afterSteal s thief) := by
  have some : ¬ usedSlots s.queue.tailIndex s.queue.headIndex ≤ 0 := Int.not_le.2 used
  have still : Function.update s.thieves thief .idle = s.thieves := by
    rw [← idle, update_eq_self]
  simp [runAll, stealActors, LocklessSystem.move, LocklessSystem.thiefStep,
    LocklessSystem.setThief, LocklessSystem.advance, LocklessSystem.returns,
    idle, some, still, afterSteal]

/-! ## Runs with and without the condition -/

/-- One step of one thread. -/
def Step (before after : LocklessSystem α Thief) : Prop :=
  ∃ actor, before.move actor = some after

theorem Reachable.put {item : α} (reached : Reachable Initial Step s) (idle : s.owner = .idle)
    (room : usedSlots s.queue.tailIndex s.queue.headIndex ≠ s.queue.numSlots - 1) :
    Reachable Initial Step (afterPut s item) :=
  Reachable.runAll (fun _ actor _ moved => ⟨actor, moved⟩) reached (runAll_put item idle room)

theorem Reachable.steal {thief : Thief} (reached : Reachable Initial Step s)
    (idle : s.thieves thief = .idle) (used : usedSlots s.queue.tailIndex s.queue.headIndex > 0) :
    Reachable Initial Step (afterSteal s thief) :=
  Reachable.runAll (fun _ actor _ moved => ⟨actor, moved⟩) reached (runAll_steal thief idle used)

/-- Three slots after some rounds of a put and a get. -/
def cycled (count : Nat) (slots : Nat → Option Nat) (atRead : Unit → Nat) :
    LocklessSystem Nat Unit where
  queue :=
    { numSlots := 3
      headIndex := counter count
      tailIndex := counter count
      slots := slots }
  owner := .idle
  thieves := fun _ => .idle
  history :=
    { puts := List.replicate count 0
      gets := List.replicate count 0
      advances := count
      advancesAtRead := atRead }

theorem usedSlots_zero (total : Nat) : usedSlots (counter total) (counter total) = 0 := by
  rw [usedSlots_counter (Nat.le_refl _) (by omega)]
  omega

theorem usedSlots_one (total : Nat) : usedSlots (counter total + 1) (counter total) = 1 := by
  rw [← counter_succ, usedSlots_counter (by omega) (by omega)]
  omega

theorem usedSlots_two (total : Nat) : usedSlots (counter total + 1 + 1) (counter total) = 2 := by
  rw [← counter_succ, ← counter_succ, usedSlots_counter (by omega) (by omega)]
  omega

theorem cycled_reachable (count : Nat) :
    ∃ slots atRead, Reachable Initial Step (cycled count slots atRead) := by
  induction count with
  | zero =>
      refine ⟨fun _ => none, fun _ => 0, .start ?_⟩
      exact ⟨⟨by decide, by decide⟩, rfl, rfl, fun _ => rfl, rfl, rfl, rfl⟩
  | succ count earlier =>
      obtain ⟨slots, atRead, reached⟩ := earlier
      have room : usedSlots (counter count) (counter count) ≠ ((3 : Nat) : Int) - 1 := by
        rw [usedSlots_zero]
        decide
      have put : Reachable Initial Step (afterPut (cycled count slots atRead) 0) :=
        Reachable.put reached rfl room
      have used : usedSlots (counter count + 1) (counter count) > 0 := by
        rw [usedSlots_one]
        decide
      have got : Reachable Initial Step (afterSteal (afterPut (cycled count slots atRead) 0) ()) :=
        Reachable.steal put rfl used
      refine ⟨Function.update slots (slotOf 3 (counter count)) (some 0),
        Function.update atRead () count, ?_⟩
      convert got using 1
      simp only [cycled, afterPut, afterSteal, counter_succ,
        update_self, Option.toList_some, List.replicate_succ']

/--
With three slots, after `2 ^ 32 - 1` rounds of a put and a get, two further
puts share a slot: the second item is returned twice and the first one never.
-/
theorem not_conserves :
    ∃ s : LocklessSystem Nat Unit,
      s.queue.numSlots = 3 ∧ Reachable Initial Step s ∧ ¬ Conserves s := by
  obtain ⟨slots, atRead, reached⟩ := cycled_reachable (2 ^ 32 - 1)
  have room : usedSlots (counter (2 ^ 32 - 1)) (counter (2 ^ 32 - 1)) ≠ ((3 : Nat) : Int) - 1 := by
    rw [usedSlots_zero]
    decide
  have first : Reachable Initial Step
      (afterPut (cycled (2 ^ 32 - 1) slots atRead) 1) :=
    Reachable.put reached rfl room
  have room' : usedSlots (counter (2 ^ 32 - 1) + 1) (counter (2 ^ 32 - 1)) ≠
      ((3 : Nat) : Int) - 1 := by
    rw [usedSlots_one]
    decide
  have second : Reachable Initial Step
      (afterPut (afterPut (cycled (2 ^ 32 - 1) slots atRead) 1) 2) :=
    Reachable.put first rfl room'
  have used : usedSlots (counter (2 ^ 32 - 1) + 1 + 1)
      (counter (2 ^ 32 - 1)) > 0 := by
    rw [usedSlots_two]
    decide
  have third : Reachable Initial Step
      (afterSteal
        (afterPut (afterPut (cycled (2 ^ 32 - 1) slots atRead) 1) 2) ()) :=
    Reachable.steal second rfl used
  have used' : usedSlots (counter (2 ^ 32 - 1) + 1 + 1)
      (counter (2 ^ 32 - 1) + 1) > 0 := by
    rw [← counter_succ, usedSlots_one]
    decide
  have fourth : Reachable Initial Step
      (afterSteal (afterSteal
        (afterPut (afterPut (cycled (2 ^ 32 - 1) slots atRead) 1) 2) ()) ()) :=
    Reachable.steal third rfl used'
  refine ⟨_, rfl, fourth, fun conserves => ?_⟩
  have twice := conserves.atMostOnce.count_le 2
  have slot : slotOf 3 (counter (2 ^ 32 - 1)) = 0 := by decide
  have slot' : slotOf 3 (counter (2 ^ 32 - 1) + 1) = 0 := by decide
  simp only [cycled, afterPut, afterSteal, slot, slot', Function.update_self,
    Option.toList_some, List.count_append, List.count_replicate,
    List.append_assoc] at twice
  exact absurd twice (by decide)

end OpenUH.Libopenmp.Lockless
