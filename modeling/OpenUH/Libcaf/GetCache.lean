import OpenUH.Foundation.Transition

/-!
# The get cache

Reads from and writes to the segment of one remote image in the GASNet layer,
with the cache line kept for that image.  The network carries the bytes of a
transfer one by one: a put in flight is known by the bytes that have not
landed, a get by the bytes not yet fetched or not yet stored.
-/

namespace OpenUH.Libcaf.GetCache

open Foundation

/-- `rma_ordering_t`. -/
inductive RmaOrdering where
  | blocking
  | putOrdered
  | putImageOrdered
  | putAddressOrdered
  | relaxed
deriving DecidableEq, Repr

/-- A byte of a put that has not landed. -/
structure PutByte where
  handle : Nat
  address : Nat
  value : UInt8
deriving DecidableEq, Repr

/-- A byte of a get into the cache line. -/
structure FillByte where
  handle : Nat
  address : Nat
  place : Nat
  content : Option UInt8
deriving DecidableEq, Repr

/-- A byte of a get for the caller, and what the caller expects of it. -/
structure GetByte where
  handle : Nat
  address : Nat
  content : Option UInt8
  expected : UInt8
deriving DecidableEq, Repr

/-- `struct handle_list` of a put. -/
structure HandleList where
  handle : Nat
  address : Nat
  size : Nat
deriving DecidableEq, Repr

/-- The build and the environment of the image. -/
structure Job where
  rmaOrdering : RmaOrdering
  enableGetCache : Bool
  getcacheBlockSize : Nat
  getCacheSyncRefetch : Bool
  localPackNoncontigPut : Bool

/--
The segment of the remote image, the bytes in flight, the list of pending puts
with its address block, that of pending gets, and the cache.  `written` is the segment as the writes
of this image leave it, and `answers` pairs each byte a read returned with
the byte it should have returned.
-/
structure State where
  memory : Nat → UInt8
  flying : List PutByte
  filling : List FillByte
  getting : List GetByte
  handles : List HandleList
  minNbAddress : Nat
  maxNbAddress : Nat
  gets : List Nat
  issued : Nat
  remoteAddress : Nat
  line : Nat → UInt8
  handle : Nat
  written : Nat → UInt8
  answers : List (UInt8 × UInt8)

/-- What can go wrong in a call. -/
inductive Fault where
  | outside (offset : Nat)
  | released
deriving DecidableEq, Repr

/-! ## The network -/

/-- Bytes are written to memory in turn. -/
def store (memory : Nat → UInt8) (bytes : List (Nat × UInt8)) : Nat → UInt8 :=
  bytes.foldl (fun memory byte => Function.update memory byte.1 byte.2) memory

/-- The address and the value of a byte in flight. -/
def PutByte.cell (byte : PutByte) : Nat × UInt8 := (byte.address, byte.value)

/-- What the network does by itself, to the byte of a number. -/
inductive Progress where
  | land (index : Nat)
  | fetchLine (index : Nat)
  | storeLine (index : Nat)
  | fetch (index : Nat)
deriving DecidableEq, Repr

/-- The content of a byte once it is fetched. -/
def State.fetched (state : State) (address : Nat) (content : Option UInt8) : UInt8 :=
  content.getD (state.memory address)

/-- One byte moves. -/
def State.progress (state : State) : Progress → State
  | .land index =>
      match state.flying[index]? with
      | none => state
      | some byte =>
          { state with
            memory := Function.update state.memory byte.address byte.value
            flying := state.flying.eraseIdx index }
  | .fetchLine index =>
      { state with
        filling := state.filling.modify index fun byte =>
          { byte with content := some (state.fetched byte.address byte.content) } }
  | .storeLine index =>
      match state.filling[index]? with
      | none => state
      | some byte =>
          { state with
            line := Function.update state.line byte.place
              (state.fetched byte.address byte.content)
            filling := state.filling.eraseIdx index }
  | .fetch index =>
      { state with
        getting := state.getting.modify index fun byte =>
          { byte with content := some (state.fetched byte.address byte.content) } }

/-- Several bytes move. -/
def State.progresses (state : State) (events : List Progress) : State :=
  events.foldl State.progress state

/-- `gasnet_wait_syncnb` on the handle of a put. -/
def State.waitPut (state : State) (handle : Nat) : State :=
  { state with
    memory := store state.memory
      ((state.flying.filter (·.handle = handle)).map (·.cell))
    flying := state.flying.filter (·.handle ≠ handle) }

/-- Whether `gasnet_try_syncnb` returns `GASNET_OK`. -/
def State.trySyncnb (state : State) (handle : Nat) : Bool :=
  state.flying.all (·.handle ≠ handle)

/-- `gasnet_wait_syncnb` on the handle of a get into the line. -/
def State.waitFill (state : State) (handle : Nat) : State :=
  { state with
    line := store state.line
      ((state.filling.filter (·.handle = handle)).map fun byte =>
        (byte.place, state.fetched byte.address byte.content))
    filling := state.filling.filter (·.handle ≠ handle) }

/-- `gasnet_wait_syncnb` on the handle of a get for the caller. -/
def State.waitGet (state : State) (handle : Nat) : State :=
  { state with
    answers := state.answers ++
      (state.getting.filter (·.handle = handle)).map fun byte =>
        (state.fetched byte.address byte.content, byte.expected)
    getting := state.getting.filter (·.handle ≠ handle) }

/-! ## Shapes of accesses -/

/-- One stride level of a strided access, and its count. -/
structure Level where
  remoteStride : Nat
  localStride : Nat
  count : Nat
deriving DecidableEq, Repr

/--
What a loop of `local_strided_copy` does to a pointer after the block of a
number; `cntStride` is `cnt_strides` of the level before.
-/
def nextBlock (stride : Level → Nat) (block : Nat) :
    Nat → List Level → Int → Int
  | _, [], pointer => pointer
  | cntStride, level :: levels, pointer =>
      if block % (cntStride * level.count) ≠ 0 then
        pointer + stride level
      else
        nextBlock stride block (cntStride * level.count) levels
          (pointer - (level.count - 1) * stride level)

/-- `num_blks`. -/
def numBlks (levels : List Level) : Nat :=
  (levels.map (·.count)).prod

/-- The pointer of `local_strided_copy` at each of its blocks. -/
def blockPointers (stride : Level → Nat) (levels : List Level) :
    Nat → Nat → Int → List Int
  | 0, _, _ => []
  | blocks + 1, block, pointer =>
      pointer :: blockPointers stride levels blocks (block + 1)
        (nextBlock stride (block + 1) 1 levels pointer)

/-- Where GASNet finds the block of a number. -/
def blockOffset (stride : Level → Nat) : List Level → Nat → Nat
  | [], _ => 0
  | level :: levels, block =>
      block % level.count * stride level + blockOffset stride levels (block / level.count)

/-- The bytes from the start of an access that it touches, in order. -/
inductive Shape where
  | contiguous (nbytes : Nat)
  | strided (blkSize : Nat) (levels : List Level)
deriving DecidableEq, Repr

/-- The offsets of the bytes on the remote side. -/
def Shape.offsets : Shape → List Nat
  | .contiguous nbytes => List.range nbytes
  | .strided blkSize levels =>
      (List.range (numBlks levels)).flatMap fun block =>
        (List.range blkSize).map (blockOffset (·.remoteStride) levels block + ·)

/-- The offsets that `local_strided_copy` goes through on the remote side. -/
def Shape.copied : Shape → List Nat
  | .contiguous nbytes => List.range nbytes
  | .strided blkSize levels =>
      (blockPointers (·.remoteStride) levels (numBlks levels) 0 0).flatMap
        fun pointer => (List.range blkSize).map (pointer.toNat + ·)

/-- A value of type `size_t`. -/
def sizeT (value : Nat) : Nat := value % 2 ^ 64

/--
The size of an access of a shape as reads and the cache take it: for a strided
one, from its last stride.
-/
def Shape.size : Shape → Nat
  | .contiguous nbytes => nbytes
  | .strided blkSize levels =>
      sizeT (levels.getLast?.elim 0 (fun level =>
        level.remoteStride * sizeT (level.count + (2 ^ 64 - 1))) + blkSize)

/-- The size of a strided put as its wait takes it, from the local strides. -/
def Shape.putSize : Shape → Nat
  | .contiguous nbytes => nbytes
  | .strided blkSize levels =>
      sizeT (levels.getLast?.elim 0 (fun level =>
        level.localStride * level.count) + blkSize)

/-- The addresses an access touches. -/
def Shape.addresses (shape : Shape) (address : Nat) : List Nat :=
  shape.offsets.map (address + ·)

/-! ## The cache -/

/-- A byte of the line is read. -/
def State.readLine (job : Job) (state : State) (offset : Nat) : Except Fault UInt8 :=
  if offset < job.getcacheBlockSize then
    .ok (state.line offset)
  else
    .error (.outside offset)

/-- Bytes are written to the line. -/
def writeLine (job : Job) : List (Nat × UInt8) → State → Except Fault State
  | [], state => .ok state
  | (offset, value) :: bytes, state =>
      if offset < job.getcacheBlockSize then
        writeLine job bytes
          { state with line := Function.update state.line offset value }
      else
        .error (.outside offset)

/-- The wait on a pending get into the cache. -/
def State.waitLine (state : State) : State :=
  if state.handle ≠ 0 then
    { state.waitFill state.handle with handle := 0 }
  else
    state

/-- `clear_all_cache`, and `clear_cache` of the image. -/
def clearCache (state : State) : State :=
  if state.remoteAddress ≠ 0 then
    { state.waitLine with remoteAddress := 0 }
  else
    state

/-- `refetch_all_cache`, and `refetch_cache` of the image. -/
def refetchCache (job : Job) (state : State) : State :=
  if state.remoteAddress ≠ 0 then
    { state with
      issued := state.issued + 1
      handle := state.issued + 1
      filling := state.filling ++
        (List.range job.getcacheBlockSize).map fun place =>
          { handle := state.issued + 1, address := state.remoteAddress + place
            place, content := none } }
  else
    state

/-- A read returns bytes, to be compared with those of the segment. -/
def State.answer (state : State) (addresses : List Nat) (bytes : List UInt8) : State :=
  { state with
    answers := state.answers ++ bytes.zip (addresses.map state.written) }

/-- Copy from the line, from an offset of it on. -/
def copyFromLine (job : Job) (state : State) (start address : Nat)
    (shape : Shape) : Except Fault State := do
  let bytes ← shape.copied.mapM fun offset =>
    state.readLine job (start + offset)
  .ok (state.answer (shape.addresses address) bytes)

/-- The line is read anew, at once. -/
def State.fillLine (job : Job) (state : State) (address : Nat) : State :=
  { state with
    remoteAddress := address
    handle := 0
    line := store state.line ((List.range job.getcacheBlockSize).map
      fun place => (place, state.memory (address + place))) }

/-- How a read is served. -/
inductive Service where
  | hit
  | fill
  | bypass
deriving DecidableEq, Repr

/-- The tests of `cache_check_and_get`. -/
def service (job : Job) (cacheAddress remoteAddress size : Nat) : Service :=
  if cacheAddress ≠ 0 ∧ cacheAddress ≤ remoteAddress ∧
      remoteAddress + size ≤ cacheAddress + job.getcacheBlockSize then
    .hit
  else if size ≤ job.getcacheBlockSize ∧
      (cacheAddress = 0 ∨
        cacheAddress + job.getcacheBlockSize ≤ remoteAddress ∨
        remoteAddress + size < cacheAddress) then
    .fill
  else
    .bypass

/--
`cache_check_and_get` and `cache_check_and_get_strided`: whether the cache
completed the read.
-/
def cacheCheckAndGet (job : Job) (state : State) (address : Nat)
    (shape : Shape) : Except Fault (State × Bool) := do
  let state := state.waitLine
  match service job state.remoteAddress address shape.size with
  | .hit => do
      let state ← copyFromLine job state (address - state.remoteAddress)
        address shape
      .ok (state, true)
  | .fill => do
      let state ← copyFromLine job (state.fillLine job address) 0 address shape
      .ok (state, true)
  | .bypass => .ok (state, false)

/-- The part of a read that asks the cache, where it is enabled. -/
def askCache (job : Job) (state : State) (address : Nat) (shape : Shape) :
    Except Fault (State × Bool) :=
  if job.enableGetCache then
    cacheCheckAndGet job state address shape
  else
    .ok (state, false)

/-- The source of a write, unless it has been released. -/
def readSource (released : Bool) (bytes : List (Nat × UInt8)) : Except Fault (List (Nat × UInt8)) :=
  if released = true ∧ bytes ≠ [] then .error .released else .ok bytes

/-- The bytes that `update_cache` copies, by their offsets in the line. -/
def updateCacheBytes (job : Job) (cacheAddress remoteAddress nbytes : Nat)
    (values : List UInt8) : List (Nat × UInt8) :=
  if cacheAddress > 0 ∧ cacheAddress ≤ remoteAddress ∧
      remoteAddress + nbytes ≤ cacheAddress + job.getcacheBlockSize then
    let startOffset := remoteAddress - cacheAddress
    ((List.range nbytes).map (startOffset + ·)).zip values
  else if cacheAddress > 0 ∧ cacheAddress ≤ remoteAddress ∧
      remoteAddress ≤ cacheAddress + job.getcacheBlockSize then
    let startOffset := remoteAddress - cacheAddress
    let nbytes := job.getcacheBlockSize - startOffset
    ((List.range nbytes).map (startOffset + ·)).zip values
  else if cacheAddress > 0 ∧ cacheAddress ≤ remoteAddress + nbytes ∧
      remoteAddress + nbytes ≤ cacheAddress + job.getcacheBlockSize then
    let startOffset := cacheAddress - remoteAddress
    let nbytes := nbytes - startOffset
    (List.range nbytes).zip (values.drop startOffset)
  else
    []

/-- `update_cache`. -/
def updateCache (job : Job) (state : State) (remoteAddress nbytes : Nat)
    (values : List UInt8) (released : Bool) : Except Fault State := do
  let state := state.waitLine
  let bytes ← readSource released
    (updateCacheBytes job state.remoteAddress remoteAddress nbytes values)
  writeLine job bytes state

/-- What `update_cache_strided` does. -/
inductive StridedUpdate where
  | copy
  | invalidate
  | leave
deriving DecidableEq, Repr

/-- The tests of `update_cache_strided`. -/
def stridedUpdate (job : Job) (cacheAddress remoteDestAddress size : Nat) : StridedUpdate :=
  if cacheAddress > 0 ∧ cacheAddress ≤ remoteDestAddress ∧
      remoteDestAddress + size ≤ cacheAddress + job.getcacheBlockSize then
    .copy
  else if cacheAddress > 0 ∧
      (remoteDestAddress + size > cacheAddress ∧
          remoteDestAddress + size < cacheAddress + job.getcacheBlockSize ∨
        remoteDestAddress > cacheAddress ∧
          remoteDestAddress < cacheAddress + job.getcacheBlockSize) then
    .invalidate
  else
    .leave

/-- `update_cache_strided`. -/
def updateCacheStrided (job : Job) (state : State) (remoteDestAddress : Nat)
    (shape : Shape) (values : List UInt8) (released : Bool) :
    Except Fault State := do
  let state := state.waitLine
  match stridedUpdate job state.remoteAddress remoteDestAddress shape.size with
  | .copy => do
      let startOffset := remoteDestAddress - state.remoteAddress
      let bytes ← readSource released
        ((shape.copied.map (startOffset + ·)).zip values)
      writeLine job bytes state
  | .invalidate => .ok { state with remoteAddress := 0 }
  | .leave => .ok state

/-! ## Pending puts -/

/-- `address_in_nb_address_block`. -/
def addressInNbAddressBlock (state : State) (remoteAddr size : Nat) : Bool :=
  if state.maxNbAddress = 0 then
    false
  else
    remoteAddr + size > state.minNbAddress ∧ remoteAddr < state.maxNbAddress

/-- `update_nb_address_block`. -/
def updateNbAddressBlock (state : State) (remoteAddr size : Nat) : State :=
  if state.maxNbAddress = 0 then
    { state with
      minNbAddress := remoteAddr
      maxNbAddress := remoteAddr + size }
  else
    { state with
      minNbAddress := min remoteAddr state.minNbAddress
      maxNbAddress := max (remoteAddr + size) state.maxNbAddress }

/-- `reset_min_nb_address`. -/
def resetMinNbAddress (state : State) : State :=
  { state with
    minNbAddress :=
      match state.handles with
      | [] => 0
      | node :: nodes =>
          nodes.foldl (fun least node => min node.address least) node.address }

/-- `reset_max_nb_address`. -/
def resetMaxNbAddress (state : State) : State :=
  { state with
    maxNbAddress := state.handles.foldl
      (fun greatest node => max (node.address + node.size) greatest) 0 }

/-- `delete_node`. -/
def deleteNode (state : State) (node : HandleList) : State :=
  let state := { state with handles := state.handles.erase node }
  if state.handles = [] then
    { state with minNbAddress := 0, maxNbAddress := 0 }
  else
    let state :=
      if node.address = state.minNbAddress then
        resetMinNbAddress state
      else
        state
    if node.address + node.size = state.maxNbAddress then
      resetMaxNbAddress state
    else
      state

/-- `address_in_handle`. -/
def HandleList.overlaps (node : HandleList) (address size : Nat) : Bool :=
  address + size > node.address ∧ address < node.address + node.size

/-- The loop of `wait_on_pending_accesses`. -/
def waitFrom (address size : Nat) : List HandleList → State → State
  | [], state => state
  | node :: nodes, state =>
      if node.overlaps address size then
        deleteNode (state.waitPut node.handle) node
      else if state.trySyncnb node.handle then
        waitFrom address size nodes (deleteNode state node)
      else
        waitFrom address size nodes state

/-- `wait_on_pending_accesses`. -/
def waitOnPendingAccesses (state : State) (address size : Nat) : State :=
  if state.handles ≠ [] ∧ addressInNbAddressBlock state address size = true then
    waitFrom address size state.handles state
  else
    state

/-- `wait_on_all_pending_puts_to_proc`. -/
def waitOnAllPendingPutsToProc (state : State) : State :=
  { state.handles.foldl (fun state node => state.waitPut node.handle) state with
    handles := []
    minNbAddress := 0
    maxNbAddress := 0 }

/-- `wait_on_all_pending_accesses`. -/
def waitOnAllPendingAccesses (state : State) : State :=
  let state := waitOnAllPendingPutsToProc state
  { state.gets.foldl State.waitGet state with gets := [] }

/-- The wait that precedes an access. -/
def awaitPuts (job : Job) (state : State) (address size : Nat) : State :=
  match job.rmaOrdering with
  | .putOrdered | .putImageOrdered => waitOnAllPendingPutsToProc state
  | .putAddressOrdered => waitOnPendingAccesses state address size
  | .blocking | .relaxed => state

/-! ## Reads -/

/-- A read: its address, its shape, and the progress of the network in it. -/
structure Read where
  address : Nat
  shape : Shape
  progress : List Progress
deriving DecidableEq, Repr

/-- `gasnet_get_bulk` and `gasnet_gets_bulk`. -/
def State.getBulk (state : State) (addresses : List Nat) : State :=
  state.answer addresses (addresses.map state.memory)

/-- `comm_read` and `comm_strided_read`. -/
def commRead (job : Job) (state : State) (read : Read) : Except Fault State := do
  let state := awaitPuts job state read.address read.shape.size
  let state := state.progresses read.progress
  let (state, completedInCache) ←
    askCache job state read.address read.shape
  .ok
    (if completedInCache then
      state
    else
      state.getBulk (read.shape.addresses read.address))

/-- `gasnet_get_nb_bulk` and `gasnet_gets_nb_bulk`. -/
def State.getNbBulk (state : State) (addresses : List Nat) : State :=
  { state with
    issued := state.issued + 1
    getting := state.getting ++ addresses.map fun address =>
      { handle := state.issued + 1, address, content := none
        expected := state.written address } }

/-- `get_next_handle` for the last get. -/
def trackGet (state : State) (makesRoom : Bool) (handle : Nat) : State :=
  let state := if makesRoom then waitOnAllPendingAccesses state else state
  { state with gets := state.gets ++ [handle] }

/--
`comm_nbread` and `comm_strided_nbread`; `makesRoom` says whether too many
handles are pending.
-/
def commNbread (job : Job) (state : State) (read : Read) (makesRoom : Bool) :
    Except Fault State := do
  let state := awaitPuts job state read.address read.shape.size
  let state := state.progresses read.progress
  let (state, completedInCache) ←
    askCache job state read.address read.shape
  .ok
    (if completedInCache then
      state
    else if job.rmaOrdering = .blocking then
      state.getBulk (read.shape.addresses read.address)
    else
      trackGet (state.getNbBulk (read.shape.addresses read.address)) makesRoom
        (state.issued + 1))

/-! ## Writes -/

/--
A write: its address, its shape, the bytes in order, and whether it is ordered
and from a local communication buffer.  `blocks` is `hdl` being `-1`;
`completes` says whether GASNet returns no handle, `makesRoom` whether too many
handles are pending.
-/
structure Write where
  address : Nat
  shape : Shape
  values : List UInt8
  ordered : Bool
  fromLcb : Bool
  blocks : Bool
  completes : Bool
  makesRoom : Bool
  waiting : List Progress
  sending : List Progress
deriving DecidableEq, Repr

/-- The bytes a write puts into the segment. -/
def Write.bytes (write : Write) : List (Nat × UInt8) :=
  (write.shape.addresses write.address).zip write.values

/-- Whether the put is ordered: `comm_write` also asks for the ordering. -/
def Write.isOrdered (job : Job) (write : Write) : Bool :=
  write.ordered ∧ (write.fromLcb = true ∨ job.rmaOrdering ≠ .relaxed)

/--
Whether an ordered put is a blocking one: under `RMA_BLOCKING`, and for a
strided one that is neither from a local communication buffer nor packed.
-/
def Write.isBlocking (job : Job) (write : Write) : Bool :=
  match write.shape with
  | .contiguous _ => job.rmaOrdering = .blocking
  | .strided _ _ =>
      if write.fromLcb then
        job.rmaOrdering = .blocking
      else
        !job.localPackNoncontigPut

/-- A put that is complete when it returns. -/
def State.putBulk (state : State) (bytes : List (Nat × UInt8)) : State :=
  { state with
    memory := store state.memory bytes
    written := store state.written bytes }

/-- A put that returns a handle. -/
def State.putNb (state : State) (bytes : List (Nat × UInt8)) : State :=
  { state with
    issued := state.issued + 1
    flying := state.flying ++ bytes.map fun byte =>
      { handle := state.issued + 1, address := byte.1, value := byte.2 }
    written := store state.written bytes }

/-- `get_next_handle` for the last put, and the block of an ordered one. -/
def track (job : Job) (state : State) (write : Write) (handle : Nat) : State :=
  let state :=
    if write.makesRoom then waitOnAllPendingAccesses state else state
  let address := if write.isOrdered job then write.address else 0
  let size := if write.isOrdered job then write.shape.putSize else 0
  let state := { state with
    handles := state.handles ++ [{ handle, address, size }] }
  if write.isOrdered job = true ∧ job.rmaOrdering = .putAddressOrdered then
    updateNbAddressBlock state address size
  else
    state

/-- Whether the put is over when the cache is updated. -/
def Write.settled (job : Job) (write : Write) : Bool :=
  (write.isOrdered job = true ∧ write.isBlocking job = true) ∨
    write.completes = true ∨ write.blocks = true

/-- The put of a write. -/
def putWrite (job : Job) (state : State) (write : Write) : State :=
  if (write.isOrdered job = true ∧ write.isBlocking job = true) ∨
      write.completes = true then
    state.putBulk write.bytes
  else
    let state := state.putNb write.bytes
    if write.blocks then
      state.waitPut state.issued
    else
      track job state write state.issued

/--
`comm_write`, `comm_write_from_lcb`, `comm_strided_write` and
`comm_strided_write_from_lcb`.  The source of the second and the fourth is
released when the put is over.
-/
def commWrite (job : Job) (state : State) (write : Write) : Except Fault State :=
  let state := awaitPuts job state write.address write.shape.putSize
  let state := state.progresses write.waiting
  let state := putWrite job state write
  let state := state.progresses write.sending
  let released := write.fromLcb && write.settled job
  if job.enableGetCache then
    match write.shape with
    | .contiguous nbytes =>
        updateCache job state write.address nbytes write.values released
    | .strided _ _ =>
        updateCacheStrided job state write.address write.shape write.values
          released
  else
    .ok state

/-! ## Synchronisation -/

/-- `comm_new_exec_segment`. -/
def commNewExecSegment (job : Job) (state : State) : State :=
  if job.enableGetCache then
    if job.getCacheSyncRefetch then
      refetchCache job state
    else
      clearCache state
  else
    state

/-- `comm_sync` on one handle; a stale one is only given back. -/
def commSync (state : State) (handle : Nat) : State :=
  let state := (state.waitPut handle).waitGet handle
  let state := { state with gets := state.gets.erase handle }
  match state.handles.find? (·.handle = handle) with
  | some node => deleteNode state node
  | none => state

/-- `comm_sync_images` with the remote image among the images or not. -/
def commSyncImages (job : Job) (state : State) (among : Bool) : State :=
  let state := waitOnAllPendingAccesses state
  let state :=
    if among = true ∧ job.enableGetCache = true then
      refetchCache job state
    else
      state
  commNewExecSegment job state

/-! ## Runs -/

/-- A call of the program, or progress of the network. -/
inductive Move where
  | read (read : Read)
  | nbread (read : Read) (makesRoom : Bool)
  | write (write : Write)
  | sync (handle : Nat)
  | fence
  | syncAll
  | syncImages (among : Bool)
  | newExecSegment
  | progress (event : Progress)
deriving DecidableEq, Repr

/-- Carry out a call. -/
def run (job : Job) (state : State) : Move → Except Fault State
  | .read read => commRead job state read
  | .nbread read makesRoom => commNbread job state read makesRoom
  | .write write => commWrite job state write
  | .sync handle => .ok (commSync state handle)
  | .fence => .ok (waitOnAllPendingAccesses state)
  | .syncAll => .ok (commNewExecSegment job (waitOnAllPendingAccesses state))
  | .syncImages among => .ok (commSyncImages job state among)
  | .newExecSegment => .ok (commNewExecSegment job state)
  | .progress event => .ok (state.progress event)

/-- No segment holds the address zero. -/
def Read.Proper (read : Read) : Prop :=
  0 < read.address

/-- The bytes of a write have different addresses, and are all there. -/
structure Write.Proper (write : Write) : Prop where
  address : 0 < write.address
  nodup : write.shape.offsets.Nodup
  values : write.values.length = write.shape.offsets.length

/-- What callers see to. -/
def Enabled : Move → Prop
  | .read read => read.Proper
  | .nbread read _ => read.Proper
  | .write write => write.Proper
  | _ => True

/-- Before the first access to the segment. -/
def initial (memory : Nat → UInt8) : State where
  memory := memory
  flying := []
  filling := []
  getting := []
  handles := []
  minNbAddress := 0
  maxNbAddress := 0
  gets := []
  issued := 0
  remoteAddress := 0
  line := fun _ => 0
  handle := 0
  written := memory
  answers := []

/-! ## The condition -/

/-- The pending put that the wait of an access synchronises on. -/
def Awaits (job : Job) (state : State) (address size handle : Nat) : Prop :=
  match job.rmaOrdering with
  | .putOrdered | .putImageOrdered => True
  | .putAddressOrdered =>
      addressInNbAddressBlock state address size = true ∧
        (state.handles.find? (·.overlaps address size)).map (·.handle) = some handle
  | .blocking | .relaxed => False

/-- No put in flight that the wait leaves touches one of the addresses. -/
def ClearAfter (job : Job) (state : State) (address size : Nat) (addresses : List Nat) : Prop :=
  ∀ byte ∈ state.flying, byte.address ∈ addresses → Awaits job state address size byte.handle

/-- The addresses of a line. -/
def lineAddresses (job : Job) (address : Nat) : List Nat :=
  (List.range job.getcacheBlockSize).map (address + ·)

/-- The condition on a read. -/
def ReadMeets (job : Job) (state : State) (read : Read) : Prop :=
  let served :=
    if job.enableGetCache then
      service job state.remoteAddress read.address read.shape.size
    else
      .bypass
  match served with
  | .hit => ∀ offset ∈ read.shape.offsets,
      read.address - state.remoteAddress + offset < job.getcacheBlockSize
  | .fill =>
      (∀ offset ∈ read.shape.offsets, offset < job.getcacheBlockSize) ∧
        ClearAfter job state read.address read.shape.size
          (lineAddresses job read.address)
  | .bypass =>
      ClearAfter job state read.address read.shape.size
        (read.shape.addresses read.address)

/-- The condition on the write-through of a write. -/
def UpdateMeets (job : Job) (state : State) (write : Write) : Prop :=
  match write.shape with
  | .contiguous nbytes =>
      ¬(0 < state.remoteAddress ∧ write.address < state.remoteAddress ∧
          state.remoteAddress + job.getcacheBlockSize <
            write.address + nbytes) ∧
        (write.fromLcb = true → write.settled job = true →
          updateCacheBytes job state.remoteAddress write.address nbytes
            write.values = [])
  | .strided _ _ =>
      match stridedUpdate job state.remoteAddress write.address
          write.shape.size with
      | .copy =>
          (∀ offset ∈ write.shape.offsets,
            write.address - state.remoteAddress + offset <
              job.getcacheBlockSize) ∧
            (write.fromLcb = true → write.settled job = true → write.values = [])
      | .invalidate => True
      | .leave =>
          0 < state.remoteAddress →
            ∀ address ∈ write.shape.addresses write.address,
              address ∉ lineAddresses job state.remoteAddress

/-- The condition on a write. -/
def WriteMeets (job : Job) (state : State) (write : Write) : Prop :=
  ClearAfter job state write.address write.shape.putSize
      (write.shape.addresses write.address) ∧
    (∀ byte ∈ state.getting, byte.content = none →
      byte.address ∉ write.shape.addresses write.address) ∧
    (job.enableGetCache = true → UpdateMeets job state write)

/-- The condition on a refetch of the line, `waits` saying what precedes it. -/
def RefetchMeets (job : Job) (state : State) (waits : Bool) : Prop :=
  0 < state.remoteAddress →
    state.filling = [] ∧
      (waits = false → ∀ byte ∈ state.flying,
        byte.address ∉ lineAddresses job state.remoteAddress)

/-- The condition on the state before a call. -/
def Meets (job : Job) (state : State) : Move → Prop
  | .read read => ReadMeets job state read
  | .nbread read _ => ReadMeets job state read
  | .write write => WriteMeets job state write
  | .syncAll =>
      job.enableGetCache = true → job.getCacheSyncRefetch = true → RefetchMeets job state true
  | .syncImages among =>
      job.enableGetCache = true →
        (among = true ∨ job.getCacheSyncRefetch = true →
          RefetchMeets job state true) ∧
        (among = true → job.getCacheSyncRefetch = true → state.remoteAddress = 0)
  | .newExecSegment =>
      job.enableGetCache = true → job.getCacheSyncRefetch = true → RefetchMeets job state false
  | _ => True

/-- What runs come to whose calls meet a condition. -/
def Reached (job : Job) (memory : Nat → UInt8)
    (condition : State → Move → Prop) : Except Fault State → Prop :=
  Transition.Reachable (· = .ok (initial memory)) fun before after =>
    ∃ state move, before = .ok state ∧ Enabled move ∧
      condition state move ∧ after = run job state move

/-- No call touched a byte outside the line, and every read was right. -/
def Coherent (outcome : Except Fault State) : Prop :=
  ∃ state, outcome = .ok state ∧ ∀ answer ∈ state.answers, answer.1 = answer.2

end OpenUH.Libcaf.GetCache
