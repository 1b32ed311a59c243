import OpenUH.Foundation.Transition

/-!
# The lockless task queue

`omp_queue.c` keeps a deque whose owner works at the tail and whose thieves
take from the head with a compare-and-swap.  `head_index` and `tail_index`
are 32-bit counters that only wrap, and the slot of a counter is its
remainder by the number of slots.

A step of the system is one shared read, write or compare-and-swap of the
owner or of a thief.  The system carries a history that no step looks at: the
items put and returned, how often the head was advanced, and how often it had
been when a thief read it.
-/

namespace OpenUH.Libopenmp.Lockless

open Foundation.Transition

variable {α Thief : Type}

/-! ## The queue -/

/-- `head_index` and `tail_index`. -/
abbrev Counter := BitVec 32

/-- The fields of `struct omp_queue` that the lockless storage uses. -/
structure LocklessQueue (α : Type) where
  numSlots : Nat
  headIndex : Counter
  tailIndex : Counter
  slots : Nat → Option α

/-- The number of slots is a positive `int`, and at least two. -/
structure LocklessQueue.Sized (q : LocklessQueue α) : Prop where
  two_le : 2 ≤ q.numSlots
  lt_int : q.numSlots < 2 ^ 31

/-- `index % num_slots`. -/
def slotOf (numSlots : Nat) (index : Counter) : Nat :=
  index.toNat % numSlots

/-- `used_slots`, the difference of two counters as an `int`. -/
def usedSlots (tailIndex headIndex : Counter) : Int :=
  (tailIndex - headIndex).toInt

/-- `__ompc_queue_lockless_init`. -/
def queueLocklessInit (numSlots : Nat) : LocklessQueue α where
  numSlots := numSlots
  headIndex := 0
  tailIndex := 0
  slots := fun _ => none

/-- The items between `head_index` and `tail_index`. -/
def LocklessQueue.contents (q : LocklessQueue α) : List (Option α) :=
  (List.range (q.tailIndex - q.headIndex).toNat).map fun offset =>
    q.slots (slotOf q.numSlots (q.headIndex + BitVec.ofNat 32 offset))

/-! ## The threads -/

/-- How far the owner is in a call, with the local variables it still needs. -/
inductive OwnerState (α : Type) where
  /-- Between two calls. -/
  | idle
  /-- `is_full` of a put has read `head_index`. -/
  | putHead (item : α) (headIndex : Counter)
  /-- The queue was not full. -/
  | putFree (item : α)
  /-- The put has read `tail_index`. -/
  | putTail (item : α) (tailIndex : Counter)
  /-- The put has written the slot. -/
  | putStored (item : α)
  /-- `q->tail_index++` has read `tail_index`. -/
  | putIncrement (item : α) (tailIndex : Counter)
  /-- The get has read `tail_index`. -/
  | getTail (tailIndex : Counter)
  /-- The get has written the smaller `tail_index`. -/
  | getWritten (tailIndex : Counter)
  /-- The get has read `head_index`, and found `used_slots` not negative. -/
  | getSlot (tailIndex headIndex : Counter)
  /-- The get has read the last item and goes for the compare-and-swap. -/
  | getLast (headIndex : Counter) (item : Option α)
  /-- The get is about to read `head_index` for the tail. -/
  | getRestoring (item : Option α)
  /-- The get is about to write that to `tail_index` and to return. -/
  | getRestore (item : Option α) (headIndex : Counter)

/-- How far a thief is in a call, with the local variables it still needs. -/
inductive ThiefState (α : Type) where
  /-- Between two calls. -/
  | idle
  /-- `head_index` is read. -/
  | headRead (headIndex : Counter)
  /-- `tail_index` is read. -/
  | tailRead (headIndex tailIndex : Counter)
  /-- The slot is read, and `used_slots` was positive. -/
  | itemRead (headIndex : Counter) (item : Option α)

/-- What has happened, for no step to look at. -/
structure History (α Thief : Type) where
  puts : List α
  gets : List α
  advances : Nat
  advancesAtRead : Thief → Nat

/-- The queue, its owner, the thieves and the history. -/
structure LocklessSystem (α Thief : Type) where
  queue : LocklessQueue α
  owner : OwnerState α
  thieves : Thief → ThiefState α
  history : History α Thief

namespace LocklessSystem

/-- A get returns; NULL is no item. -/
def returns (s : LocklessSystem α Thief) (item : Option α) : LocklessSystem α Thief :=
  { s with history := { s.history with gets := s.history.gets ++ item.toList } }

/-- A successful compare-and-swap of `head_index`. -/
def advance (s : LocklessSystem α Thief) : LocklessSystem α Thief :=
  { s with
    queue := { s.queue with headIndex := s.queue.headIndex + 1 }
    history := { s.history with advances := s.history.advances + 1 } }

/-- The first step of `__ompc_queue_lockless_put_tail`. -/
def startPut (s : LocklessSystem α Thief) (item : α) : Option (LocklessSystem α Thief) :=
  match s.owner with
  | .idle => some { s with owner := .putHead item s.queue.headIndex }
  | _ => none

/-- The first step of `__ompc_queue_lockless_get_tail`. -/
def startGet (s : LocklessSystem α Thief) : Option (LocklessSystem α Thief) :=
  match s.owner with
  | .idle => some { s with owner := .getTail s.queue.tailIndex }
  | _ => none

/-- The next step of the owner's call. -/
def ownerStep (s : LocklessSystem α Thief) : Option (LocklessSystem α Thief) :=
  match s.owner with
  | .idle => none
  | .putHead item headIndex =>
      if usedSlots s.queue.tailIndex headIndex = s.queue.numSlots - 1 then
        some { s with owner := .idle }
      else
        some { s with owner := .putFree item }
  | .putFree item => some { s with owner := .putTail item s.queue.tailIndex }
  | .putTail item tailIndex =>
      let slot := slotOf s.queue.numSlots tailIndex
      some
        { s with
          queue :=
            { s.queue with
              slots := Function.update s.queue.slots slot (some item) }
          owner := .putStored item }
  | .putStored item =>
      some { s with owner := .putIncrement item s.queue.tailIndex }
  | .putIncrement item tailIndex =>
      some
        { s with
          queue := { s.queue with tailIndex := tailIndex + 1 }
          owner := .idle
          history := { s.history with puts := s.history.puts ++ [item] } }
  | .getTail tailIndex =>
      let tailIndex := tailIndex - 1
      some
        { s with
          queue := { s.queue with tailIndex := tailIndex }
          owner := .getWritten tailIndex }
  | .getWritten tailIndex =>
      let headIndex := s.queue.headIndex
      if usedSlots tailIndex headIndex < 0 then
        some { s with owner := .getRestoring none }
      else
        some { s with owner := .getSlot tailIndex headIndex }
  | .getSlot tailIndex headIndex =>
      let item := s.queue.slots (slotOf s.queue.numSlots tailIndex)
      if usedSlots tailIndex headIndex > 0 then
        some ({ s with owner := .idle }.returns item)
      else
        some { s with owner := .getLast headIndex item }
  | .getLast headIndex item =>
      if s.queue.headIndex = headIndex then
        some { s with owner := .getRestoring item }.advance
      else
        some { s with owner := .getRestoring none }
  | .getRestoring item =>
      some { s with owner := .getRestore item s.queue.headIndex }
  | .getRestore item headIndex =>
      some
        ({ s with
          queue := { s.queue with tailIndex := headIndex }
          owner := .idle }.returns item)

variable [DecidableEq Thief]

/-- A thief goes on to another state. -/
def setThief (s : LocklessSystem α Thief) (thief : Thief)
    (state : ThiefState α) : LocklessSystem α Thief :=
  { s with thieves := Function.update s.thieves thief state }

/-- The next step of `__ompc_queue_lockless_get_head` in a thief. -/
def thiefStep (s : LocklessSystem α Thief) (thief : Thief) : LocklessSystem α Thief :=
  match s.thieves thief with
  | .idle =>
      let read := s.setThief thief (.headRead s.queue.headIndex)
      { read with
        history :=
          { s.history with
            advancesAtRead := Function.update s.history.advancesAtRead thief
              s.history.advances } }
  | .headRead headIndex =>
      s.setThief thief (.tailRead headIndex s.queue.tailIndex)
  | .tailRead headIndex tailIndex =>
      let item := s.queue.slots (slotOf s.queue.numSlots headIndex)
      if usedSlots tailIndex headIndex ≤ 0 then
        s.setThief thief .idle
      else
        s.setThief thief (.itemRead headIndex item)
  | .itemRead headIndex item =>
      if s.queue.headIndex = headIndex then
        ((s.setThief thief .idle).advance).returns item
      else
        s.setThief thief .idle

end LocklessSystem

/-! ## Runs -/

/-- Who makes the next step; the owner chooses its calls. -/
inductive Actor (α Thief : Type) where
  | startPut (item : α)
  | startGet
  | owner
  | thief (thief : Thief)

variable [DecidableEq Thief]

/-- One step of one thread. -/
def LocklessSystem.move (s : LocklessSystem α Thief) :
    Actor α Thief → Option (LocklessSystem α Thief)
  | .startPut item => s.startPut item
  | .startGet => s.startGet
  | .owner => s.ownerStep
  | .thief thief => some (s.thiefStep thief)

/-- An empty queue that nobody has used. -/
structure Initial (s : LocklessSystem α Thief) : Prop where
  sized : s.queue.Sized
  queue : s.queue = queueLocklessInit s.queue.numSlots
  owner : s.owner = .idle
  thieves : ∀ thief, s.thieves thief = .idle
  puts : s.history.puts = []
  gets : s.history.gets = []
  advances : s.history.advances = 0

/-- No call is under way. -/
structure Quiescent (s : LocklessSystem α Thief) : Prop where
  owner : s.owner = .idle
  thieves : ∀ thief, s.thieves thief = .idle

/--
No item is returned more often than it was put, and between calls the items
returned and the items in the queue are the items put.
-/
structure Conserves (s : LocklessSystem α Thief) : Prop where
  atMostOnce : s.history.gets.Subperm s.history.puts
  exact : Quiescent s →
    (s.history.gets.map some ++ s.queue.contents).Perm
      (s.history.puts.map some)

/-- The slot that a put is about to write holds no item of the queue. -/
def PutsBesides (s : LocklessSystem α Thief) : Prop :=
  match s.owner with
  | .putTail _ tailIndex =>
      ∀ offset < (tailIndex - s.queue.headIndex).toNat,
        slotOf s.queue.numSlots
            (s.queue.headIndex + BitVec.ofNat 32 offset) ≠
          slotOf s.queue.numSlots tailIndex
  | _ => True

/--
When the compare-and-swap of a thief is about to succeed, the head was not
advanced since the thief read it.
-/
def TakesWhatItRead (s : LocklessSystem α Thief) (thief : Thief) : Prop :=
  match s.thieves thief with
  | .itemRead headIndex _ =>
      s.queue.headIndex = headIndex → s.history.advances = s.history.advancesAtRead thief
  | _ => True

/-- The steps on which nothing depends on the counters having wrapped. -/
def Unwrapped (s : LocklessSystem α Thief) : Actor α Thief → Prop
  | .owner => PutsBesides s
  | .thief thief => TakesWhatItRead s thief
  | _ => True

end OpenUH.Libopenmp.Lockless
