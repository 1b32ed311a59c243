import OpenUH.Libcaf.SharedMemorySlots

/-!
# The two coarray heaps

The heap of the initial team and the one that all other teams share, and what
chooses between them: FORM TEAM, CHANGE TEAM and END TEAM of `team.c`, with the
routines of `alloc.c` that free many slots at once.

The usage records are kept beside the heaps, not in the bytes of their own
slots.  The loop of `deallocate_within` is run one iteration at a time; its
place is part of the state.
-/

namespace OpenUH.Libcaf.SharedMemorySlots

open Foundation.Succession

/-- `team_type_t`, as far as the allocation routines and END TEAM use it. -/
structure TeamMemory where
  depth : Nat
  startAddr : Nat
  endAddr : Nat
  allocatedList : List AllocDpSlot
deriving DecidableEq, Repr

/-- Where the loop of `deallocate_within` stands. -/
structure WithinCursor where
  slot : Option Nat
  endAddr : Nat
deriving DecidableEq, Repr

/--
`init_common_slot` with `mem_info`, `child_common_slot` with `teams_mem_info`,
the teams formed so far, `current_team` and the team stack.
-/
structure TeamHeaps where
  initHeap : Heap
  childHeap : Heap
  teams : Nat → TeamMemory
  teamCount : Nat
  currentTeam : Nat
  stack : List Nat
  tmpAllocatedList : List AllocDpSlot
  within : Option WithinCursor

namespace TeamHeaps

/-- `*current_team`. -/
def current (state : TeamHeaps) : TeamMemory :=
  state.teams state.currentTeam

/-- `MEMORY_SLOT_SELECT`: the current team's heap, with the team's list. -/
def selected (state : TeamHeaps) : Heap :=
  if state.current.depth = 0 then
    state.initHeap.books state.initHeap.memInfo state.current.allocatedList
  else
    state.childHeap.books state.childHeap.memInfo state.current.allocatedList

/-- `MEMORY_SLOT_SAVE`, with the list of the current team. -/
def save (state : TeamHeaps) (heap : Heap) : TeamHeaps :=
  let teams :=
    Function.update state.teams state.currentTeam
      { state.current with allocatedList := heap.allocatedList }
  if state.current.depth = 0 then
    { state with initHeap := heap, teams := teams }
  else
    { state with childHeap := heap, teams := teams }

end TeamHeaps

/-- The settings, with the `symm_mem_slot.start_addr` of a team. -/
def HeapSettings.startingAt (settings : HeapSettings) (startAddr : Nat) : HeapSettings :=
  { settings with segmentAddr := startAddr }

/-! ## Freeing many slots -/

/-- Empty the slot found; without one there is a warning only. -/
def emptyFound (heap : Heap) : Option Nat → Except HeapFault Heap
  | none => .ok heap
  | some slot => emptySlot heap slot

/-- The loop of `deallocate_team_all` over the allocated list. -/
def deallocateListed (settings : HeapSettings) :
    Heap → List AllocDpSlot → Except HeapFault Heap
  | heap, [] => .ok heap
  | heap, item :: rest =>
      (findSlotAbove settings heap heap.commonSlot item.addr).bind fun found =>
        (emptyFound heap found).bind fun emptied =>
          (deleteSlotInfo emptied item.addr).bind fun deleted =>
            deallocateListed settings deleted rest

/-- `deallocate_team_all`. -/
def deallocateTeamAll (settings : HeapSettings) (heap : Heap) : Except HeapFault Heap :=
  deallocateListed settings heap heap.allocatedList

namespace TeamHeaps

/-- `deallocate_within`, up to its loop over the slots to free. -/
def deallocateWithin (state : TeamHeaps) (startAddr endAddr : Nat) : Except HeapFault TeamHeaps :=
  if startAddr = endAddr then
    .ok state
  else
    (ofWalk (walkFind state.selected.prev
      (fun slot => decide (state.selected.addr slot ≤ startAddr))
      state.selected.slotCount (some state.selected.commonSlot))).bind
        fun found =>
          match found with
          | none =>
              .error (.error "Could not locate starting allocation slot")
          | some slot =>
              .ok { state with within := some ⟨some slot, endAddr⟩ }

/-- The slot that the loop of `deallocate_within` frees next. -/
def withinSlot (state : TeamHeaps) : Option Nat :=
  state.within.bind fun cursor =>
    cursor.slot.filter fun slot =>
      decide (state.selected.addr slot < cursor.endAddr) &&
        decide (slot ≠ state.selected.commonSlot)

/-- One iteration of the loop of `deallocate_within`, or its end. -/
def withinIteration (state : TeamHeaps) : Except HeapFault TeamHeaps :=
  match state.withinSlot, state.selected.memInfo with
  | none, _ => .ok { state with within := none }
  | some _, none => .error .nullDereference
  | some slot, some info =>
      (emptySlot
        (state.selected.books
          (some (info.shrink (state.selected.size slot)))
          state.selected.allocatedList)
        slot).map fun emptied =>
          { state.save emptied with
            within :=
              state.within.map fun cursor =>
                { cursor with slot := emptied.next slot } }

/-! ## Teams -/

/-- `MAX_NUM_TEAM`. -/
def maxNumTeam : Nat := 256

/--
The record `_FORM_TEAM` fills in, a new one or that of an earlier team; its
allocations are calls of their own.
-/
def formTeam (state : TeamHeaps) (reused : Option Nat) : TeamHeaps :=
  { state with
    teams :=
      Function.update state.teams (reused.getD state.teamCount)
        { depth := state.current.depth + 1
          startAddr := 0
          endAddr := 0
          allocatedList := [] }
    teamCount :=
      if reused.isSome then state.teamCount else state.teamCount + 1 }

/-- The addresses `_CHANGE_TEAM` notes for a child team and its parent. -/
def enterChild (state : TeamHeaps) (team : Nat) : TeamHeaps :=
  let common := state.childHeap.commonSlot
  let started :=
    Function.update state.teams team
      { state.teams team with
        startAddr := state.childHeap.addr common
        endAddr := state.childHeap.addr common + state.childHeap.size common }
  { state with
    teams :=
      if state.current.depth ≠ 0 then
        Function.update started state.currentTeam
          { started state.currentTeam with
            endAddr := state.childHeap.addr common }
      else
        started }

/-- `_CHANGE_TEAM` to the initial team puts the allocated list aside. -/
def enterInitial (state : TeamHeaps) (team : Nat) : TeamHeaps :=
  { state with
    tmpAllocatedList := (state.teams team).allocatedList
    teams :=
      Function.update state.teams team
        { state.teams team with allocatedList := [] } }

/-- `_CHANGE_TEAM`, with `push_stack`. -/
def changeTeam (state : TeamHeaps) (team : Nat) : Except HeapFault TeamHeaps :=
  if state.teamCount ≤ team then
    .error .nullDereference
  else if maxNumTeam ≤ state.stack.length then
    .error (.error "TEAM TREE HAS BEEN TOO DEEP")
  else if state.stack = [] then
    .error (.error "NO TEAMS IN THE STACK")
  else
    let entered :=
      if (state.teams team).depth ≠ 0 then
        state.enterChild team
      else
        state.enterInitial team
    .ok { entered with currentTeam := team, stack := team :: state.stack }

/-- END TEAM in the initial team takes the list put aside back. -/
def restoreList (state : TeamHeaps) : TeamHeaps :=
  if state.current.depth = 0 then
    { state with
      teams :=
        Function.update state.teams state.currentTeam
          { state.current with allocatedList := state.tmpAllocatedList } }
  else
    state

/-- `_END_TEAM`, with `pop_stack` and `stack_top`. -/
def endTeam (settings : HeapSettings) (state : TeamHeaps) : Except HeapFault TeamHeaps :=
  match state.stack with
  | [] => .error (.error "NO TEAMS IN THE STACK")
  | _ :: below =>
      (deallocateTeamAll (settings.startingAt state.current.startAddr)
        state.selected).bind fun heap =>
          match below with
          | [] => .error (.error "NO TEAMS IN THE STACK")
          | top :: _ =>
              .ok
                { (state.save heap).restoreList with
                  currentTeam := top
                  stack := below }

end TeamHeaps

/-! ## Calls -/

/-- Whether a call is collective, and goes to the current team's heap. -/
def HeapCall.collective : HeapCall → Bool
  | .allocate _ _ => true
  | .deallocate _ => true
  | _ => false

/-- A call of the program, or an iteration of `deallocate_within`. -/
inductive TeamCall where
  | heap (call : HeapCall)
  | formTeam (reused : Option Nat)
  | changeTeam (team : Nat)
  | endTeam
  | deallocateWithin (startAddr endAddr : Nat)
  | withinIteration
deriving DecidableEq, Repr

namespace TeamHeaps

/-- Run a call into a heap; asymmetric data are in the initial team's heap. -/
def callHeap (settings : HeapSettings) (state : TeamHeaps)
    (call : HeapCall) : Except HeapFault (TeamHeaps × Allocation) :=
  if call.collective then
    (state.selected.call (settings.startingAt state.current.startAddr)
      call).map fun result => (state.save result.1, result.2)
  else
    (state.initHeap.call settings call).map fun result =>
      ({ state with initHeap := result.1 }, result.2)

/-- Run one call. -/
def perform (settings : HeapSettings) (state : TeamHeaps) :
    TeamCall → Except HeapFault TeamHeaps
  | .heap call => (state.callHeap settings call).map Prod.fst
  | .formTeam reused => .ok (state.formTeam reused)
  | .changeTeam team => state.changeTeam team
  | .endTeam => state.endTeam settings
  | .deallocateWithin startAddr endAddr =>
      state.deallocateWithin startAddr endAddr
  | .withinIteration => state.withinIteration

end TeamHeaps

/-! ## Set-up -/

/-- `sizeof(mem_usage_info_t)`. -/
def sizeofMemUsageInfo : Nat := 24

/-- The settings of the heap below the initial team's. -/
def HeapSettings.teamsHeap (settings : HeapSettings) (teamsHeapSize : Nat) : HeapSettings :=
  { settings with
    segmentAddr := settings.segmentAddr - teamsHeapSize
    segmentSize := teamsHeapSize }

/-- The usage records as `comm_init` fills them in. -/
def initialMemInfo (settings : HeapSettings) (teamsHeapSize : Nat) :
    MemUsageInfo where
  currentHeapUsage := wrapSize (teamsHeapSize + sizeofMemUsageInfo)
  maxHeapUsage := wrapSize (teamsHeapSize + sizeofMemUsageInfo)
  reservedHeapUsage := settings.segmentSize + teamsHeapSize

/--
`comm_init`, up to the allocation of both usage records; what it allocates
after them are calls of their own.
-/
def commInit (settings : HeapSettings) (teamsHeapSize : Nat) : Except HeapFault TeamHeaps :=
  (allocatableAllocate settings (initialHeap settings none)
    sizeofMemUsageInfo none).bind fun first =>
      (allocatableAllocate settings
        (first.1.books (some (initialMemInfo settings teamsHeapSize))
          first.1.allocatedList)
        sizeofMemUsageInfo none).map fun second =>
          { initHeap := second.1
            childHeap :=
              initialHeap (settings.teamsHeap teamsHeapSize)
                (some ⟨0, 0, teamsHeapSize⟩)
            teams := fun _ =>
              { depth := 0
                startAddr := settings.segmentAddr
                endAddr := settings.segmentAddr
                allocatedList := second.1.allocatedList }
            teamCount := 1
            currentTeam := 0
            stack := [0]
            tmpAllocatedList := []
            within := none }

/-- Where the usage records of the two heaps are. -/
def recordAddrs (settings : HeapSettings) : List Nat :=
  [settings.segmentAddr,
    settings.segmentAddr + roundAllocatable settings sizeofMemUsageInfo]

/-- The argument of an allocation is an `unsigned long`. -/
def HeapCall.Sized : HeapCall → Prop
  | .allocate varSize _ => varSize < 2 ^ 64
  | .asymmetricAllocate varSize => varSize < 2 ^ 64
  | .asymmetricAllocateIfPossible varSize => varSize < 2 ^ 64
  | _ => True

/-- A call that does not deallocate an address. -/
def HeapCall.Spares (address : Nat) : HeapCall → Prop
  | .deallocate freed => freed ≠ address
  | .asymmetricDeallocate freed => freed ≠ address
  | _ => True

/--
A program forms teams into team variables and does not deallocate the usage
records; a loop that has been entered runs to its end.
-/
def TeamCall.Permitted (settings : HeapSettings) (state : TeamHeaps) :
    TeamCall → Prop
  | .heap call =>
      state.within = none ∧ call.Sized ∧
        (call.collective = false ∨ state.current.depth = 0 →
          ∀ address ∈ recordAddrs settings, call.Spares address)
  | .formTeam reused =>
      state.within = none ∧ ∀ team ∈ reused, 0 < team ∧ team < state.teamCount
  | .withinIteration => state.within ≠ none
  | _ => state.within = none

/-- The state `comm_init` leaves. -/
def TeamHeaps.Initial (settings : HeapSettings) (teamsHeapSize : Nat) (state : TeamHeaps) : Prop :=
  commInit settings teamsHeapSize = .ok state

/-- One call of a program. -/
def TeamHeaps.Step (settings : HeapSettings) (before after : TeamHeaps) : Prop :=
  ∃ call : TeamCall, call.Permitted settings before ∧ before.perform settings call = .ok after

end OpenUH.Libcaf.SharedMemorySlots
