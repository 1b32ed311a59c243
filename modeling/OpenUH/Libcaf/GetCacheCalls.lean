import OpenUH.Libcaf.GetCacheInvariant
import OpenUH.Foundation.Fallible

/-!
# The calls on the get cache

Waits on pending puts, reads, writes and synchronisation keep the invariant,
each under its condition.
-/

namespace OpenUH.Libcaf.GetCache

open Foundation
open Foundation.Fallible

variable {job : Job} {dirty : List Nat} {limbo : Nat} {state after : State}

/-! ## Waiting for puts -/

/-- The lists of handles change. -/
theorem Invariant.relist (invariant : Invariant job dirty limbo state)
    {remaining : Nat} (handles : List HandleList) (least greatest : Nat) (gets : List Nat)
    (listed : ∀ byte ∈ state.flying, byte.handle = remaining ∨
      ∃ node ∈ handles, node.handle = byte.handle) :
    Invariant job dirty remaining
      { state with
        handles := handles
        minNbAddress := least
        maxNbAddress := greatest
        gets := gets } :=
  { invariant with listed := listed }

theorem deleteNode_eq (state : State) (node : HandleList) :
    ∃ least greatest, deleteNode state node =
      { state with
        handles := state.handles.erase node
        minNbAddress := least
        maxNbAddress := greatest } := by
  unfold deleteNode
  dsimp only
  split
  · exact ⟨0, 0, rfl⟩
  · obtain ⟨least, same⟩ : ∃ least,
        (if node.address = state.minNbAddress then
          resetMinNbAddress { state with handles := state.handles.erase node }
        else
          { state with handles := state.handles.erase node }) =
        { state with
          handles := state.handles.erase node, minNbAddress := least } := by
      split
      · exact ⟨_, rfl⟩
      · exact ⟨state.minNbAddress, rfl⟩
    rw [same]
    split
    · exact ⟨least, _, rfl⟩
    · exact ⟨least, state.maxNbAddress, rfl⟩

theorem deleteNode_spec (invariant : Invariant job dirty limbo state) (node : HandleList)
    (landed : ∀ byte ∈ state.flying, byte.handle ≠ node.handle) :
    Invariant job dirty limbo (deleteNode state node) ∧ Evolves state (deleteNode state node) := by
  obtain ⟨least, greatest, same⟩ := deleteNode_eq state node
  rw [same]
  refine ⟨invariant.relist _ _ _ _ fun byte member => ?_,
    { Evolves.refl state with }⟩
  refine (invariant.listed byte member).imp_right ?_
  rintro ⟨other, inside, handle⟩
  refine ⟨other, (List.mem_erase_of_ne ?_).mpr inside, handle⟩
  rintro rfl
  exact landed byte member handle.symm

/-- A put that has been waited for is not in flight. -/
theorem waitPut_landed {byte : PutByte} {handle : Nat}
    (member : byte ∈ (state.waitPut handle).flying) : byte.handle ≠ handle := by
  simpa using (List.mem_filter.mp member).2

section

variable (invariant : Invariant job dirty limbo state)

include invariant

theorem waitFrom_spec (address size : Nat) (nodes : List HandleList) :
    Invariant job dirty limbo (waitFrom address size nodes state) ∧
      Evolves state (waitFrom address size nodes state) ∧
      ∀ node, nodes.find? (·.overlaps address size) = some node →
        ∀ byte ∈ (waitFrom address size nodes state).flying, byte.handle ≠ node.handle := by
  induction nodes generalizing state with
  | nil => exact ⟨invariant, Evolves.refl state, fun _ found => by cases found⟩
  | cons node nodes ih =>
      unfold waitFrom
      split
      · rename_i overlaps
        obtain ⟨kept, evolves⟩ := deleteNode_spec
          (invariant.waitPut node.handle) node fun _ => waitPut_landed
        refine ⟨kept, (evolves_waitPut state _).trans evolves, ?_⟩
        intro first found byte member
        obtain rfl : node = first := by simpa [overlaps] using found
        exact waitPut_landed (evolves.flying member)
      · rename_i apart
        simp only [List.find?_cons, apart]
        split
        · rename_i completes
          have landed : ∀ byte ∈ state.flying, byte.handle ≠ node.handle := by
            simpa [State.trySyncnb] using completes
          obtain ⟨kept, evolves⟩ := deleteNode_spec invariant node landed
          obtain ⟨last, later, waited⟩ := ih kept
          exact ⟨last, evolves.trans later, waited⟩
        · exact ih invariant

/-- A wait on the puts of several handles. -/
theorem waitPuts_spec (nodes : List HandleList) :
    ∃ after, nodes.foldl (fun state node => state.waitPut node.handle) state =
        after ∧ Invariant job dirty limbo after ∧ Evolves state after ∧
      ∀ byte ∈ after.flying, ∀ node ∈ nodes, byte.handle ≠ node.handle := by
  induction nodes generalizing state with
  | nil =>
      exact ⟨state, rfl, invariant, Evolves.refl state,
        fun _ _ _ member => by cases member⟩
  | cons node nodes ih =>
      obtain ⟨after, ran, kept, evolves, waited⟩ :=
        ih (invariant.waitPut node.handle)
      refine ⟨after, ran, kept, (evolves_waitPut state _).trans evolves, ?_⟩
      intro byte member other inside
      rcases List.mem_cons.mp inside with rfl | later
      · exact waitPut_landed (evolves.flying member)
      · exact waited byte member other later

theorem waitOnAllPendingPutsToProc_spec :
    Invariant job dirty limbo (waitOnAllPendingPutsToProc state) ∧
      Evolves state (waitOnAllPendingPutsToProc state) ∧
      ∀ byte ∈ (waitOnAllPendingPutsToProc state).flying, byte.handle = limbo := by
  obtain ⟨after, ran, kept, evolves, waited⟩ := waitPuts_spec invariant state.handles
  have alone : ∀ byte ∈ after.flying, byte.handle = limbo := by
    intro byte member
    refine (invariant.listed byte (evolves.flying member)).resolve_right ?_
    rintro ⟨node, inside, handle⟩
    exact waited byte member node inside handle.symm
  unfold waitOnAllPendingPutsToProc
  rw [ran]
  exact ⟨kept.relist _ _ _ _ fun byte member => .inl (alone byte member),
    { evolves with }, alone⟩

theorem waitGets_spec (handles : List Nat) :
    Invariant job dirty limbo (handles.foldl State.waitGet state) ∧
      Evolves state (handles.foldl State.waitGet state) := by
  induction handles generalizing state with
  | nil => exact ⟨invariant, Evolves.refl state⟩
  | cons handle handles ih =>
      obtain ⟨kept, evolves⟩ := ih (invariant.waitGet handle)
      exact ⟨kept, (evolves_waitGet state handle).trans evolves⟩

theorem waitOnAllPendingAccesses_spec :
    Invariant job dirty limbo (waitOnAllPendingAccesses state) ∧
      Evolves state (waitOnAllPendingAccesses state) ∧
      ∀ byte ∈ (waitOnAllPendingAccesses state).flying, byte.handle = limbo := by
  obtain ⟨puts, first, alone⟩ := waitOnAllPendingPutsToProc_spec invariant
  obtain ⟨gets, second⟩ := waitGets_spec puts (waitOnAllPendingPutsToProc state).gets
  exact ⟨gets.relist _ _ _ _ gets.listed, { first.trans second with },
    fun byte member => alone byte (second.flying member)⟩

end

/-- The wait before an access leaves no put in flight at its addresses. -/
theorem awaitPuts_spec (invariant : Invariant job dirty 0 state)
    {address size : Nat} {addresses : List Nat}
    (clear : ClearAfter job state address size addresses) :
    Invariant job dirty 0 (awaitPuts job state address size) ∧
      Evolves state (awaitPuts job state address size) ∧
      ∀ byte ∈ (awaitPuts job state address size).flying, byte.address ∉ addresses := by
  unfold ClearAfter Awaits at clear
  have all : ∀ byte ∈ (waitOnAllPendingPutsToProc state).flying, byte.address ∉ addresses := by
    intro byte member
    obtain ⟨-, evolves, alone⟩ := waitOnAllPendingPutsToProc_spec invariant
    exact absurd (alone byte member) (invariant.numbered byte (evolves.flying member))
  unfold awaitPuts
  cases ordering : job.rmaOrdering <;> simp only [ordering] at clear ⊢
  case putOrdered =>
    obtain ⟨kept, evolves, -⟩ := waitOnAllPendingPutsToProc_spec invariant
    exact ⟨kept, evolves, all⟩
  case putImageOrdered =>
    obtain ⟨kept, evolves, -⟩ := waitOnAllPendingPutsToProc_spec invariant
    exact ⟨kept, evolves, all⟩
  case putAddressOrdered =>
    unfold waitOnPendingAccesses
    split
    · obtain ⟨kept, evolves, waited⟩ :=
        waitFrom_spec invariant address size state.handles
      refine ⟨kept, evolves, fun byte member inside => ?_⟩
      obtain ⟨-, first⟩ := clear byte (evolves.flying member) inside
      obtain ⟨node, found, handle⟩ := Option.map_eq_some_iff.mp first
      exact waited node found byte member handle.symm
    · rename_i unneeded
      refine ⟨invariant, Evolves.refl state, fun byte member inside => ?_⟩
      obtain ⟨inBlock, first⟩ := clear byte member inside
      refine unneeded ⟨fun empty => ?_, inBlock⟩
      rw [empty] at first
      cases first
  case blocking =>
    exact ⟨invariant, Evolves.refl state, clear⟩
  case relaxed =>
    exact ⟨invariant, Evolves.refl state, clear⟩

/-! ## Reading the line -/

theorem mapM_eq_ok {α β ε : Type} {list : List α} {step : α → Except ε β}
    {result : α → β} (steps : ∀ element ∈ list,
      step element = .ok (result element)) :
    list.mapM step = .ok (list.map result) := by
  induction list with
  | nil => rfl
  | cons element list ih =>
      rw [List.mapM_cons, steps element List.mem_cons_self, ok_bind, ih fun other member =>
          steps other (List.mem_cons_of_mem _ member)]
      rfl

/-- Bytes that agree with the segment are right answers. -/
theorem Invariant.answer (invariant : Invariant job dirty limbo state)
    {offsets : List Nat} {address : Nat} {content : Nat → UInt8}
    (right : ∀ offset ∈ offsets, content offset = state.written (address + offset)) :
    Invariant job dirty limbo (state.answer (offsets.map (address + ·)) (offsets.map content)) := by
  refine invariant.deliver (List.Sublist.refl _) fun answer member => ?_
  rcases List.mem_append.mp member with old | new
  · exact invariant.answers answer old
  · rw [List.map_map, List.zip_map', List.mem_map] at new
    obtain ⟨offset, inside, rfl⟩ := new
    exact right offset inside

/-- A read served from the line. -/
theorem copyFromLine_spec (invariant : Invariant job [] limbo state)
    (empty : state.filling = []) (cached : state.remoteAddress ≠ 0) {start : Nat} {shape : Shape}
    (inside : ∀ offset ∈ shape.offsets, start + offset < job.getcacheBlockSize) :
    ∃ after, copyFromLine job state start (state.remoteAddress + start) shape =
        .ok after ∧ Invariant job [] limbo after := by
  refine ⟨_, ?_, @Invariant.answer job [] limbo state invariant shape.offsets
    (state.remoteAddress + start) (fun offset => state.line (start + offset))
    fun offset member => ?_⟩
  · have reads : shape.offsets.mapM
        (fun offset => state.readLine job (start + offset)) =
        .ok (shape.offsets.map fun offset => state.line (start + offset)) :=
      mapM_eq_ok fun offset member => if_pos (inside offset member)
    unfold copyFromLine
    rw [Shape.copied_eq, reads, ok_bind]
    rfl
  · rw [Nat.add_assoc]
    refine invariant.line cached _ (inside offset member) List.not_mem_nil ?_
    rw [empty]
    nofun

/-- The line is read anew while no put to it is in flight. -/
theorem Invariant.fillLine (invariant : Invariant job [] limbo state)
    (empty : state.filling = []) {address : Nat} (enabled : job.enableGetCache = true)
    (clear : ∀ byte ∈ state.flying, byte.address ∉ lineAddresses job address) :
    Invariant job [] limbo (state.fillLine job address) := by
  have nothing : ∀ byte, byte ∉ state.filling := by
    simp [empty]
  refine { invariant with
    current := fun byte member => absurd member (nothing byte)
    placed := fun byte member => absurd member (nothing byte)
    fills := fun byte member => absurd member (nothing byte)
    line := ?_
    disabled := fun isDisabled => ?_ }
  · intro _ offset within _ _
    have landed : state.memory (address + offset) = state.written (address + offset) := by
      refine invariant.settled _ fun member => ?_
      obtain ⟨byte, inside, same⟩ := List.mem_map.mp member
      refine clear byte inside (same ▸ ?_)
      exact List.mem_map.mpr ⟨offset, List.mem_range.mpr within, rfl⟩
    refine store_eq ?_ fun absent => ?_
    · rintro pair member rfl
      obtain ⟨place, -, rfl⟩ := List.mem_map.mp member
      exact landed
    · exact absurd (by simpa using within) absent
  · rw [enabled] at isDisabled
    cases isDisabled

/-- The condition on a way to serve a read, once the wait is over. -/
def Served (job : Job) (state : State) (read : Read) : Service → Prop
  | .hit => ∀ offset ∈ read.shape.offsets,
      read.address - state.remoteAddress + offset < job.getcacheBlockSize
  | .fill =>
      (∀ offset ∈ read.shape.offsets, offset < job.getcacheBlockSize) ∧
        ∀ byte ∈ state.flying, byte.address ∉ lineAddresses job read.address
  | .bypass => ∀ byte ∈ state.flying,
      byte.address ∉ read.shape.addresses read.address

theorem cacheCheckAndGet_spec (invariant : Invariant job [] limbo state)
    {read : Read} (proper : read.Proper) (enabled : job.enableGetCache = true)
    (served : Served job state read
      (service job state.remoteAddress read.address read.shape.size)) :
    ∃ after completed, cacheCheckAndGet job state read.address read.shape =
        .ok (after, completed) ∧ Invariant job [] limbo after ∧
      (completed = false → ∀ byte ∈ after.flying,
        byte.address ∉ read.shape.addresses read.address) := by
  obtain ⟨kept, empty⟩ := invariant.waitLine
  obtain ⟨line, filling, same⟩ := waitLine_eq state
  have flying : state.waitLine.flying = state.flying := by rw [same]
  have address : state.waitLine.remoteAddress = state.remoteAddress := by
    rw [same]
  unfold cacheCheckAndGet
  dsimp only
  rw [address]
  cases way : service job state.remoteAddress read.address read.shape.size <;>
    rw [way] at served <;> dsimp only
  case hit =>
    have hits : state.remoteAddress ≠ 0 ∧ state.remoteAddress ≤ read.address := by
      unfold service at way
      split at way
      · rename_i tests
        exact ⟨tests.1, tests.2.1⟩
      · split at way <;> cases way
    obtain ⟨after, ran, last⟩ := @copyFromLine_spec job limbo state.waitLine kept
      empty (by rw [address]; exact hits.1)
      (read.address - state.remoteAddress) read.shape served
    rw [address, Nat.add_sub_cancel' hits.2] at ran
    exact ⟨after, true, by rw [ran]; rfl, last, fun failed => by cases failed⟩
  case fill =>
    obtain ⟨after, ran, last⟩ := @copyFromLine_spec job limbo _
      (kept.fillLine empty enabled (by rw [flying]; exact served.2)) empty
      (Nat.pos_iff_ne_zero.mp proper) 0 read.shape
      (by simpa using served.1)
    exact ⟨after, true, by rw [show copyFromLine job _ 0 read.address read.shape =
      .ok after from ran]; rfl, last, fun failed => by cases failed⟩
  case bypass =>
    exact ⟨_, false, rfl, kept, fun _ => by rw [flying]; exact served⟩

/-! ## Reads -/

/-- What a read finds once it has waited. -/
def Waited (job : Job) (state : State) (read : Read) : State :=
  (awaitPuts job state read.address read.shape.size).progresses read.progress

/-- How a read is served, also without a cache. -/
def Read.service (job : Job) (state : State) (read : Read) : Service :=
  if job.enableGetCache then
    GetCache.service job state.remoteAddress read.address read.shape.size
  else
    .bypass

theorem waited_spec (invariant : Invariant job [] 0 state) {read : Read}
    (meets : ReadMeets job state read) :
    Invariant job [] 0 (Waited job state read) ∧
      Served job (Waited job state read) read (read.service job (Waited job state read)) := by
  have way : ReadMeets job state read = (match read.service job state with
      | .hit => ∀ offset ∈ read.shape.offsets,
          read.address - state.remoteAddress + offset < job.getcacheBlockSize
      | .fill =>
          (∀ offset ∈ read.shape.offsets, offset < job.getcacheBlockSize) ∧
            ClearAfter job state read.address read.shape.size (lineAddresses job read.address)
      | .bypass =>
          ClearAfter job state read.address read.shape.size
            (read.shape.addresses read.address)) := rfl
  rw [way] at meets
  have waits : ∀ addresses,
      ClearAfter job state read.address read.shape.size addresses →
      Invariant job [] 0 (Waited job state read) ∧
        Evolves state (Waited job state read) ∧
        ∀ byte ∈ (Waited job state read).flying, byte.address ∉ addresses := by
    intro addresses clear
    obtain ⟨kept, first, gone⟩ := awaitPuts_spec invariant clear
    obtain ⟨last, second⟩ := kept.progresses read.progress
    exact ⟨last, first.trans second, fun byte member =>
      gone byte (second.flying member)⟩
  obtain ⟨kept, evolves, -⟩ := waits [] fun _ _ member => by cases member
  refine ⟨kept, ?_⟩
  unfold Read.service at meets ⊢
  rw [evolves.remoteAddress]
  cases served : (if job.enableGetCache = true then
      service job state.remoteAddress read.address read.shape.size
    else .bypass) <;> rw [served] at meets
  case hit =>
    unfold Served
    rw [evolves.remoteAddress]
    exact meets
  case fill => exact ⟨meets.1, (waits _ meets.2).2.2⟩
  case bypass => exact (waits _ meets).2.2

/-- What the cache makes of a read, where there is one. -/
theorem askCache_spec (invariant : Invariant job [] limbo state)
    {read : Read} (proper : read.Proper) (served : Served job state read (read.service job state)) :
    ∃ after completed,
      askCache job state read.address read.shape = .ok (after, completed) ∧
      Invariant job [] limbo after ∧
      (completed = false → ∀ byte ∈ after.flying,
        byte.address ∉ read.shape.addresses read.address) := by
  unfold Read.service at served
  unfold askCache
  split
  · rename_i enabled
    rw [if_pos enabled] at served
    exact cacheCheckAndGet_spec invariant proper enabled served
  · rename_i isDisabled
    rw [if_neg isDisabled] at served
    exact ⟨state, false, rfl, invariant, fun _ => served⟩

/-- A blocking get reads bytes that have landed. -/
theorem Invariant.getBulk (invariant : Invariant job dirty limbo state)
    {address : Nat} {shape : Shape}
    (clear : ∀ byte ∈ state.flying, byte.address ∉ shape.addresses address) :
    Invariant job dirty limbo (state.getBulk (shape.addresses address)) := by
  unfold State.getBulk Shape.addresses
  rw [List.map_map]
  refine invariant.answer fun offset member => invariant.settled _ fun flies => ?_
  obtain ⟨byte, inside, same⟩ := List.mem_map.mp flies
  exact clear byte inside (same ▸ List.mem_map_of_mem member)

theorem commRead_spec (invariant : Invariant job [] 0 state) {read : Read}
    (proper : read.Proper) (meets : ReadMeets job state read) :
    ∃ after, commRead job state read = .ok after ∧ Invariant job [] 0 after := by
  obtain ⟨waited, served⟩ := waited_spec invariant meets
  obtain ⟨after, completed, ran, kept, clear⟩ := askCache_spec waited proper served
  unfold Waited at ran
  unfold commRead
  dsimp only
  rw [ran, ok_bind]
  cases completed with
  | true => exact ⟨after, rfl, kept⟩
  | false => exact ⟨_, rfl, kept.getBulk (clear rfl)⟩

/-- A non-blocking get of bytes that have landed. -/
theorem Invariant.getNbBulk (invariant : Invariant job dirty limbo state) {addresses : List Nat}
    (clear : ∀ byte ∈ state.flying, byte.address ∉ addresses) :
    Invariant job dirty limbo (state.getNbBulk addresses) := by
  refine { invariant with gets := fun byte member => ?_ }
  rcases List.mem_append.mp member with old | new
  · exact invariant.gets byte old
  · obtain ⟨address, inside, rfl⟩ := List.mem_map.mp new
    refine ⟨fun _ isValue => absurd isValue.symm (Option.some_ne_none _),
      fun _ => ⟨rfl, fun flies => ?_⟩⟩
    obtain ⟨other, within, same⟩ := List.mem_map.mp flies
    exact clear other within (same ▸ inside)

theorem trackGet_spec (invariant : Invariant job dirty 0 state) (makesRoom : Bool) (handle : Nat) :
    Invariant job dirty 0 (trackGet state makesRoom handle) := by
  unfold trackGet
  cases makesRoom with
  | true =>
      obtain ⟨kept, -, -⟩ := waitOnAllPendingAccesses_spec invariant
      exact kept.relist _ _ _ _ kept.listed
  | false => exact invariant.relist _ _ _ _ invariant.listed

theorem commNbread_spec (invariant : Invariant job [] 0 state) {read : Read}
    (makesRoom : Bool) (proper : read.Proper) (meets : ReadMeets job state read) :
    ∃ after, commNbread job state read makesRoom = .ok after ∧ Invariant job [] 0 after := by
  obtain ⟨waited, served⟩ := waited_spec invariant meets
  obtain ⟨after, completed, ran, kept, clear⟩ := askCache_spec waited proper served
  unfold Waited at ran
  unfold commNbread
  dsimp only
  rw [ran, ok_bind]
  cases completed with
  | true => exact ⟨after, rfl, kept⟩
  | false =>
      refine ⟨_, rfl, ?_⟩
      dsimp only
      split
      · contradiction
      · split
        · exact kept.getBulk (clear rfl)
        · exact trackGet_spec (kept.getNbBulk (clear rfl)) makesRoom _

/-! ## Puts -/

/-- The addresses of a write have each their byte. -/
theorem Write.Proper.keys {write : Write} (proper : write.Proper) :
    write.bytes.map (·.1) = write.shape.addresses write.address := by
  unfold Write.bytes
  refine List.map_fst_zip (le_of_eq ?_)
  simp [Shape.addresses, proper.values]

theorem Write.Proper.nodup_keys {write : Write} (proper : write.Proper) :
    (write.bytes.map (·.1)).Nodup := by
  rw [proper.keys]
  exact proper.nodup.map fun first second same => Nat.add_left_cancel same

/-- Two memories that agree elsewhere agree once the bytes are stored. -/
theorem store_congr {memory other : Nat → UInt8} {bytes : List (Nat × UInt8)}
    (nodup : (bytes.map (·.1)).Nodup) {address : Nat}
    (same : address ∉ bytes.map (·.1) → memory address = other address) :
    store memory bytes address = store other bytes address := by
  by_cases inside : address ∈ bytes.map (·.1)
  · obtain ⟨byte, member, rfl⟩ := List.mem_map.mp inside
    rw [store_of_mem nodup member, store_of_mem nodup member]
  · rw [store_of_notMem inside, store_of_notMem inside, same inside]

/-- What a write finds: nothing in flight or wanted at its addresses. -/
structure Ready (write : Write) (state : State) : Prop where
  flying : ∀ byte ∈ state.flying,
    byte.address ∉ write.shape.addresses write.address
  getting : ∀ byte ∈ state.getting, byte.content = none →
    byte.address ∉ write.shape.addresses write.address

theorem Invariant.putBulk (invariant : Invariant job [] limbo state)
    {write : Write} (proper : write.Proper) (ready : Ready write state) :
    Invariant job (write.shape.addresses write.address) limbo (state.putBulk write.bytes) := by
  have other : ∀ address, address ∉ write.shape.addresses write.address →
      store state.written write.bytes address = state.written address :=
    fun address absent => store_of_notMem (by rwa [proper.keys])
  exact
    { invariant with
      flies := fun byte member =>
        (other _ (ready.flying byte member)).trans (invariant.flies byte member)
      settled := fun address absent =>
        store_congr proper.nodup_keys fun _ => invariant.settled address absent
      fills := fun byte member clean => by
        obtain ⟨known, unknown⟩ := invariant.fills byte member List.not_mem_nil
        exact ⟨fun value isValue =>
          (known value isValue).trans (other _ clean).symm, unknown⟩
      line := fun cached offset within clean free =>
        (invariant.line cached offset within List.not_mem_nil free).trans (other _ clean).symm
      gets := fun byte member => by
        obtain ⟨known, unknown⟩ := invariant.gets byte member
        refine ⟨known, fun isUnknown => ?_⟩
        exact ⟨(unknown isUnknown).1.trans
          (other _ (ready.getting byte member isUnknown)).symm,
          (unknown isUnknown).2⟩ }

theorem Invariant.putNb (invariant : Invariant job [] 0 state)
    {write : Write} (proper : write.Proper) (ready : Ready write state) :
    Invariant job (write.shape.addresses write.address) (state.issued + 1)
      (state.putNb write.bytes) := by
  have other : ∀ address, address ∉ write.shape.addresses write.address →
      store state.written write.bytes address = state.written address :=
    fun address absent => store_of_notMem (by rwa [proper.keys])
  have addresses : (state.putNb write.bytes).inFlight =
      state.inFlight ++ write.shape.addresses write.address := by
    rw [← proper.keys]
    simp [State.putNb, State.inFlight, Function.comp_def]
  have apart : ∀ address ∈ state.inFlight, address ∉ write.shape.addresses write.address := by
    intro address member
    obtain ⟨byte, inside, rfl⟩ := List.mem_map.mp member
    exact ready.flying byte inside
  have absent : ∀ address, address ∉ (state.putNb write.bytes).inFlight ↔
      address ∉ state.inFlight ∧ address ∉ write.shape.addresses write.address := by
    intro address
    rw [addresses, List.mem_append, not_or]
  refine { invariant with
    nodup := ?_, flies := ?_, settled := ?_, listed := ?_, numbered := ?_,
    fills := ?_, line := ?_, gets := ?_ }
  · rw [addresses, ← proper.keys]
    refine List.nodup_append.mpr ⟨invariant.nodup, proper.nodup_keys, ?_⟩
    rintro address member second inside rfl
    exact apart address member (proper.keys ▸ inside)
  · intro byte member
    rcases List.mem_append.mp member with old | new
    · exact (other _ (ready.flying byte old)).trans (invariant.flies byte old)
    · obtain ⟨cell, inside, rfl⟩ := List.mem_map.mp new
      exact store_of_mem proper.nodup_keys inside
  · intro address outside
    obtain ⟨notOld, notNew⟩ := (absent address).mp outside
    exact (invariant.settled address notOld).trans (other address notNew).symm
  · intro byte member
    rcases List.mem_append.mp member with old | new
    · refine .inr ((invariant.listed byte old).resolve_left ?_)
      exact invariant.numbered byte old
    · obtain ⟨cell, -, rfl⟩ := List.mem_map.mp new
      exact .inl rfl
  · intro byte member
    rcases List.mem_append.mp member with old | new
    · exact invariant.numbered byte old
    · obtain ⟨cell, -, rfl⟩ := List.mem_map.mp new
      exact Nat.succ_ne_zero _
  · intro byte member clean
    obtain ⟨known, unknown⟩ := invariant.fills byte member List.not_mem_nil
    exact ⟨fun value isValue =>
        (known value isValue).trans (other _ clean).symm,
      fun isUnknown => (absent _).mpr ⟨unknown isUnknown, clean⟩⟩
  · intro cached offset within clean free
    exact (invariant.line cached offset within List.not_mem_nil free).trans (other _ clean).symm
  · intro byte member
    obtain ⟨known, unknown⟩ := invariant.gets byte member
    refine ⟨known, fun isUnknown => ?_⟩
    have clean := ready.getting byte member isUnknown
    exact ⟨(unknown isUnknown).1.trans (other _ clean).symm,
      (absent _).mpr ⟨(unknown isUnknown).2, clean⟩⟩

theorem updateNbAddressBlock_eq (state : State) (address size : Nat) :
    ∃ least greatest, updateNbAddressBlock state address size =
      { state with minNbAddress := least, maxNbAddress := greatest } := by
  unfold updateNbAddressBlock
  split <;> exact ⟨_, _, rfl⟩

/-- The handle of the last put is listed. -/
theorem track_spec {handle : Nat} (invariant : Invariant job dirty handle state) (write : Write) :
    Invariant job dirty 0 (track job state write handle) ∧
      Evolves state (track job state write handle) := by
  obtain ⟨room, isRoom⟩ : ∃ room, room =
      if write.makesRoom then waitOnAllPendingAccesses state else state :=
    ⟨_, rfl⟩
  have roomy : Invariant job dirty handle room ∧ Evolves state room := by
    rw [isRoom]
    split
    · obtain ⟨kept, evolves, -⟩ := waitOnAllPendingAccesses_spec invariant
      exact ⟨kept, evolves⟩
    · exact ⟨invariant, Evolves.refl state⟩
  obtain ⟨least, greatest, handles, same, listed⟩ : ∃ least greatest handles,
      track job state write handle =
        { room with
          handles := handles
          minNbAddress := least
          maxNbAddress := greatest
          gets := room.gets } ∧
      ∀ byte ∈ room.flying, byte.handle = 0 ∨ ∃ node ∈ handles, node.handle = byte.handle := by
    have known : ∀ node : HandleList, node.handle = handle →
        ∀ byte ∈ room.flying, byte.handle = 0 ∨
          ∃ other ∈ room.handles ++ [node], other.handle = byte.handle := by
      intro node isNode byte member
      refine .inr ?_
      rcases roomy.1.listed byte member with last | ⟨other, inside, isByte⟩
      · exact ⟨node, by simp, isNode.trans last.symm⟩
      · exact ⟨other, List.mem_append_left _ inside, isByte⟩
    unfold track
    dsimp only
    rw [← isRoom]
    split
    · obtain ⟨least, greatest, same⟩ := updateNbAddressBlock_eq
        { room with
          handles := room.handles ++ [{
            handle := handle
            address := if write.isOrdered job = true then write.address else 0
            size := if write.isOrdered job = true then
              write.shape.putSize else 0 }] }
        (if write.isOrdered job = true then write.address else 0)
        (if write.isOrdered job = true then write.shape.putSize else 0)
      exact ⟨least, greatest, _, same, known _ rfl⟩
    · exact ⟨room.minNbAddress, room.maxNbAddress, _, rfl, known _ rfl⟩
  rw [same]
  exact ⟨roomy.1.relist _ _ _ _ listed, { roomy.2 with }⟩

/-- What a put leaves for the update of the line. -/
structure Written (write : Write) (before after : State) : Prop where
  remoteAddress : after.remoteAddress = before.remoteAddress
  written : ∀ byte ∈ write.bytes, after.written byte.1 = byte.2

theorem putWrite_spec (invariant : Invariant job [] 0 state) {write : Write}
    (proper : write.Proper) (ready : Ready write state) :
    Invariant job (write.shape.addresses write.address) 0
        (putWrite job state write) ∧
      Written write state (putWrite job state write) := by
  have stored : ∀ byte ∈ write.bytes, store state.written write.bytes byte.1 = byte.2 :=
    fun byte member => store_of_mem proper.nodup_keys member
  have written : ∀ {after : State}, Evolves (state.putNb write.bytes) after →
      Written write state after := fun {after} evolves =>
    ⟨evolves.remoteAddress, fun byte member => by
      rw [evolves.written]
      exact stored byte member⟩
  unfold putWrite
  dsimp only
  split
  · exact ⟨invariant.putBulk proper ready, rfl, stored⟩
  · have flies := invariant.putNb proper ready
    split
    · have landed := flies.waitPut (state.issued + 1)
      refine ⟨landed.relist _ _ _ _ fun byte member => ?_, written (evolves_waitPut _ _)⟩
      exact (landed.listed byte member).imp_left fun last =>
        absurd last (waitPut_landed member)
    · obtain ⟨kept, evolves⟩ := track_spec flies write
      exact ⟨kept, written evolves⟩

/-! ## Updating the line -/

theorem writeLine_eq {bytes : List (Nat × UInt8)}
    (inside : ∀ byte ∈ bytes, byte.1 < job.getcacheBlockSize) :
    writeLine job bytes state = .ok { state with line := store state.line bytes } := by
  induction bytes generalizing state with
  | nil => rfl
  | cons byte bytes ih =>
      unfold writeLine
      rw [if_pos (inside byte List.mem_cons_self), ih
        fun other member => inside other (List.mem_cons_of_mem _ member)]
      rfl

/-- The line agrees again once every dirty byte of it is written. -/
theorem Invariant.writeLine (invariant : Invariant job dirty limbo state)
    (empty : state.filling = []) {bytes : List (Nat × UInt8)}
    (right : ∀ byte ∈ bytes, state.written (state.remoteAddress + byte.1) = byte.2)
    (covers : state.remoteAddress ≠ 0 → ∀ offset < job.getcacheBlockSize,
      state.remoteAddress + offset ∈ dirty → offset ∈ bytes.map (·.1)) :
    Invariant job [] limbo
      { state with line := store state.line bytes } := by
  have nothing : ∀ byte, byte ∉ state.filling := by
    simp [empty]
  refine { invariant with
    fills := fun byte member => absurd member (nothing byte)
    line := fun cached offset within _ _ => ?_ }
  refine store_eq ?_ fun absent => ?_
  · rintro byte member rfl
    exact (right byte member).symm
  · refine invariant.line cached offset within (fun isDirty => ?_)
      fun byte member => absurd member (nothing byte)
    exact absent (covers cached offset within isDirty)

/-- Bytes of a write to go to the line. -/
structure Updates (job : Job) (cacheAddress : Nat) (write : Write)
    (bytes : List (Nat × UInt8)) : Prop where
  right : ∀ byte ∈ bytes, (cacheAddress + byte.1, byte.2) ∈ write.bytes
  inside : ∀ byte ∈ bytes, byte.1 < job.getcacheBlockSize
  covers : cacheAddress ≠ 0 → ∀ offset < job.getcacheBlockSize,
    cacheAddress + offset ∈ write.shape.addresses write.address → offset ∈ bytes.map (·.1)

theorem writeLine_spec {write : Write}
    (invariant : Invariant job (write.shape.addresses write.address) limbo state)
    (empty : state.filling = [])
    (written : ∀ byte ∈ write.bytes, state.written byte.1 = byte.2)
    {bytes : List (Nat × UInt8)}
    (updates : Updates job state.remoteAddress write bytes) :
    ∃ after, writeLine job bytes state = .ok after ∧ Invariant job [] limbo after :=
  ⟨_, writeLine_eq updates.inside, invariant.writeLine empty
    (fun byte member => written _ (updates.right byte member)) updates.covers⟩

/-- A run of bytes of a contiguous write that lies in the line. -/
theorem updates_of_run {cacheAddress nbytes start skipped amount : Nat}
    {write : Write} (proper : write.Proper) (contiguous : write.shape = .contiguous nbytes)
    (lands : amount ≠ 0 → cacheAddress + start = write.address + skipped)
    (fits : skipped + amount ≤ nbytes) (inside : start + amount ≤ job.getcacheBlockSize)
    (covers : cacheAddress ≠ 0 → ∀ offset < job.getcacheBlockSize,
      write.address ≤ cacheAddress + offset →
      cacheAddress + offset < write.address + nbytes →
      start ≤ offset ∧ offset < start + amount) :
    Updates job cacheAddress write
      (((List.range amount).map (start + ·)).zip (write.values.drop skipped)) := by
  have length : write.values.length = nbytes := by
    rw [proper.values, contiguous]
    exact List.length_range
  have keys : (((List.range amount).map (start + ·)).zip
      (write.values.drop skipped)).map (·.1) = (List.range amount).map (start + ·) := by
    refine List.map_fst_zip ?_
    simp only [List.length_map, List.length_range, List.length_drop, length]
    omega
  refine ⟨fun byte member => ?_, fun byte member => ?_, ?_⟩
  · obtain ⟨index, below, rfl⟩ := List.mem_iff_getElem.mp member
    have within : index < amount := by
      have := below
      simp only [List.length_zip, List.length_map, List.length_range] at this
      omega
    have address := lands (by omega)
    refine List.mem_iff_getElem.mpr ⟨skipped + index, ?_, ?_⟩
    · simp only [Write.bytes, contiguous, Shape.addresses, Shape.offsets,
        List.length_zip, List.length_map, List.length_range, length]
      omega
    · simp only [Write.bytes, contiguous, Shape.addresses, Shape.offsets,
        List.getElem_zip, List.getElem_map, List.getElem_range,
        List.getElem_drop, Prod.mk.injEq, and_true]
      omega
  · have key : byte.1 ∈ (List.range amount).map (start + ·) := by
      rw [← keys]
      exact List.mem_map_of_mem member
    obtain ⟨index, below, same⟩ := List.mem_map.mp key
    have within := List.mem_range.mp below
    omega
  · intro cached offset within touched
    rw [keys]
    simp only [contiguous, Shape.addresses, Shape.offsets, List.mem_map,
      List.mem_range] at touched ⊢
    obtain ⟨index, below, same⟩ := touched
    obtain ⟨low, high⟩ := covers cached offset within (by omega) (by omega)
    exact ⟨offset - start, by omega, by omega⟩

theorem updates_contiguous {cacheAddress nbytes : Nat} {write : Write}
    (proper : write.Proper) (contiguous : write.shape = .contiguous nbytes)
    (around : ¬(0 < cacheAddress ∧ write.address < cacheAddress ∧
      cacheAddress + job.getcacheBlockSize < write.address + nbytes)) :
    Updates job cacheAddress write
      (updateCacheBytes job cacheAddress write.address nbytes write.values) := by
  unfold updateCacheBytes
  split
  · have := @updates_of_run job cacheAddress nbytes
      (write.address - cacheAddress) 0 nbytes write proper contiguous
      (by omega) (by omega) (by omega) (by omega)
    rwa [List.drop_zero] at this
  · split
    · have := @updates_of_run job cacheAddress nbytes
        (write.address - cacheAddress) 0
        (job.getcacheBlockSize - (write.address - cacheAddress)) write proper
        contiguous (by omega) (by omega) (by omega) (by omega)
      rwa [List.drop_zero] at this
    · split
      · have := @updates_of_run job cacheAddress nbytes 0
          (cacheAddress - write.address)
          (nbytes - (cacheAddress - write.address)) write proper contiguous
          (by omega) (by omega) (by omega) (by omega)
        simpa using this
      · have := @updates_of_run job cacheAddress nbytes 0 0 0 write proper
          contiguous (by omega) (by omega) (by omega) (by omega)
        simpa using this

theorem updateCache_spec {write : Write} {nbytes : Nat} {released : Bool}
    (invariant : Invariant job (write.shape.addresses write.address) limbo state)
    (proper : write.Proper) (contiguous : write.shape = .contiguous nbytes)
    (written : ∀ byte ∈ write.bytes, state.written byte.1 = byte.2)
    (around : ¬(0 < state.remoteAddress ∧
      write.address < state.remoteAddress ∧
      state.remoteAddress + job.getcacheBlockSize < write.address + nbytes))
    (live : released = true → updateCacheBytes job state.remoteAddress
      write.address nbytes write.values = []) :
    ∃ after, updateCache job state write.address nbytes write.values released =
      .ok after ∧ Invariant job [] limbo after := by
  obtain ⟨kept, empty⟩ := invariant.waitLine
  obtain ⟨line, filling, same⟩ := waitLine_eq state
  have address : state.waitLine.remoteAddress = state.remoteAddress := by
    rw [same]
  have values : state.waitLine.written = state.written := by
    rw [same]
  have reads : readSource released (updateCacheBytes job state.remoteAddress
      write.address nbytes write.values) = .ok (updateCacheBytes job
        state.remoteAddress write.address nbytes write.values) :=
    if_neg fun lost => lost.2 (live lost.1)
  unfold updateCache
  dsimp only
  rw [address, reads, ok_bind]
  refine writeLine_spec kept empty (by rw [values]; exact written) ?_
  rw [address]
  exact updates_contiguous proper contiguous around

theorem updates_strided {cacheAddress : Nat} {write : Write}
    (proper : write.Proper) (above : cacheAddress ≤ write.address)
    (inside : ∀ offset ∈ write.shape.offsets,
      write.address - cacheAddress + offset < job.getcacheBlockSize) :
    Updates job cacheAddress write
      ((write.shape.offsets.map (write.address - cacheAddress + ·)).zip write.values) := by
  have length := proper.values
  have keys : ((write.shape.offsets.map
      (write.address - cacheAddress + ·)).zip write.values).map (·.1) =
        write.shape.offsets.map (write.address - cacheAddress + ·) := by
    refine List.map_fst_zip (le_of_eq ?_)
    rw [List.length_map, length]
  refine ⟨fun byte member => ?_, fun byte member => ?_, ?_⟩
  · obtain ⟨index, below, rfl⟩ := List.mem_iff_getElem.mp member
    refine List.mem_iff_getElem.mpr ⟨index, ?_, ?_⟩
    · simpa [Write.bytes, Shape.addresses] using below
    · simp only [Write.bytes, Shape.addresses, List.getElem_zip,
        List.getElem_map, Prod.mk.injEq, and_true]
      omega
  · have key : byte.1 ∈ write.shape.offsets.map (write.address - cacheAddress + ·) := by
      rw [← keys]
      exact List.mem_map_of_mem member
    obtain ⟨offset, member, same⟩ := List.mem_map.mp key
    exact same ▸ inside offset member
  · intro _ offset _ touched
    rw [keys]
    obtain ⟨own, member, same⟩ := List.mem_map.mp touched
    exact List.mem_map.mpr ⟨own, member, by omega⟩

theorem updateCacheStrided_spec {write : Write} {released : Bool}
    (invariant : Invariant job (write.shape.addresses write.address) limbo state)
    (proper : write.Proper)
    (written : ∀ byte ∈ write.bytes, state.written byte.1 = byte.2)
    (copies : stridedUpdate job state.remoteAddress write.address
        write.shape.size = .copy →
      (∀ offset ∈ write.shape.offsets,
        write.address - state.remoteAddress + offset < job.getcacheBlockSize) ∧
      (released = true → write.values = []))
    (leaves : stridedUpdate job state.remoteAddress write.address
        write.shape.size = .leave → 0 < state.remoteAddress →
      ∀ address ∈ write.shape.addresses write.address,
        address ∉ lineAddresses job state.remoteAddress) :
    ∃ after, updateCacheStrided job state write.address write.shape
        write.values released = .ok after ∧
      Invariant job [] limbo after := by
  obtain ⟨kept, empty⟩ := invariant.waitLine
  obtain ⟨line, filling, same⟩ := waitLine_eq state
  have address : state.waitLine.remoteAddress = state.remoteAddress := by
    rw [same]
  have values : state.waitLine.written = state.written := by
    rw [same]
  have nothing : ∀ byte, byte ∉ state.waitLine.filling := by
    simp [empty]
  unfold updateCacheStrided
  dsimp only
  rw [address, Shape.copied_eq]
  cases way : stridedUpdate job state.remoteAddress write.address write.shape.size <;> dsimp only
  case copy =>
    have above : state.remoteAddress ≤ write.address := by
      unfold stridedUpdate at way
      split at way
      · rename_i tests
        exact tests.2.1
      · split at way <;> cases way
    obtain ⟨inside, live⟩ := copies way
    have reads : readSource released
        ((write.shape.offsets.map (write.address - state.remoteAddress + ·)).zip write.values) =
        .ok ((write.shape.offsets.map
          (write.address - state.remoteAddress + ·)).zip write.values) := by
      refine if_neg fun lost => lost.2 ?_
      rw [live lost.1, List.zip_nil_right]
    rw [reads, ok_bind]
    refine writeLine_spec kept empty (by rw [values]; exact written) ?_
    rw [address]
    exact updates_strided proper above inside
  case invalidate =>
    refine ⟨_, rfl, { kept with
      placed := fun byte member => absurd member (nothing byte)
      fills := fun byte member => absurd member (nothing byte)
      line := fun cached => absurd rfl cached
      disabled := fun _ => ⟨rfl, empty⟩ }⟩
  case leave =>
    refine ⟨_, rfl, { kept with
      fills := fun byte member => absurd member (nothing byte)
      line := fun cached offset within _ free =>
        kept.line cached offset within (fun isDirty => ?_) free }⟩
    rw [address] at cached isDirty
    exact leaves way (Nat.pos_of_ne_zero cached) _ isDirty
      (List.mem_map.mpr ⟨offset, List.mem_range.mpr within, rfl⟩)

end OpenUH.Libcaf.GetCache
