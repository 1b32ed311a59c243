import Mathlib.Logic.Function.Basic
import Mathlib.Algebra.Group.Nat.Defs

/-!
# Transfers outside of the shared segment

`comm_read` and `comm_write` of the GASNet layer move bytes of another image that
are not in the shared segment by active messages: full chunks first, and then the
bytes that are left.  A message is a control structure with the data behind it.
The target's handler fills in the data of a read, or stores that of a write, and
the handler of the reply ends the transfer of the chunk.
-/

namespace OpenUH.Libcaf.OutsideTransfers

/-- The bytes of each process. -/
abbrev Memory : Type := Nat → Nat → UInt8

/-- `memmove`, from bytes that are numbered from the start of the source. -/
def memmove (bytes : Nat → UInt8) (target : Nat) (source : Nat → UInt8)
    (nbytes : Nat) : Nat → UInt8 :=
  fun address =>
    if target ≤ address ∧ address < target + nbytes then source (address - target)
    else bytes address

/-- The bytes of an image from an address on. -/
def bytesFrom (bytes : Nat → UInt8) (source : Nat) : Nat → UInt8 :=
  fun number => bytes (source + number)

/-- The bytes of one process changed. -/
def Memory.change (memory : Memory) (proc : Nat) (bytes : Nat → UInt8) : Memory :=
  Function.update memory proc bytes

/-- `outside_shared_mem_payload_t`. -/
structure Payload where
  nbytes : Nat
  target : Nat
  source : Nat

/-- `sizeof(outside_shared_mem_payload_t)`. -/
def payloadSize : Nat := 40

/-- A message: the control structure, the data behind it, and the length of both. -/
structure Message where
  payload : Payload
  data : Nat → UInt8
  bufsiz : Nat

/-! ## The handlers -/

/-- `handler_get_request`, on the image that is read. -/
def handlerGetRequest (bytes : Nat → UInt8) (request : Message) : Message :=
  { request with
    data := memmove request.data 0 (bytesFrom bytes request.payload.source)
      request.payload.nbytes }

/-- `handler_get_reply`, on the image that reads. -/
def handlerGetReply (bytes : Nat → UInt8) (reply : Message) : Nat → UInt8 :=
  memmove bytes reply.payload.target reply.data reply.payload.nbytes

/-- `handler_put_request`, on the image that is written, with its reply. -/
def handlerPutRequest (bytes : Nat → UInt8) (request : Message) : (Nat → UInt8) × Message :=
  (memmove bytes request.payload.target request.data request.payload.nbytes,
    { request with bufsiz := payloadSize })

/-! ## The transfers -/

/--
The processes' bytes, the data part of the transfer buffer, and the lengths of
the messages sent.
-/
structure State where
  memory : Memory
  buffer : Nat → UInt8
  messages : List Nat

/-- The processes that take part, and `gasnet_AMMaxMedium()`. -/
structure Setting where
  myProc : Nat
  proc : Nat
  amMaxMedium : Nat

namespace Setting

variable (setting : Setting)

/-- `max_data`. -/
def maxData : Nat :=
  setting.amMaxMedium - payloadSize

/-- `comm_read_chunk_outside_shared_mem`. -/
def commReadChunkOutsideSharedMem (bufsize target source offset bytesToSend : Nat)
    (state : State) : State :=
  let request : Message :=
    { payload :=
        { nbytes := bytesToSend, target := target + offset, source := source + offset }
      data := state.buffer
      bufsiz := bufsize }
  let reply := handlerGetRequest (state.memory setting.proc) request
  { state with
    memory := state.memory.change setting.myProc
      (handlerGetReply (state.memory setting.myProc) reply)
    messages := state.messages ++ [request.bufsiz, reply.bufsiz] }

/-- `comm_write_chunk_outside_shared_mem`. -/
def commWriteChunkOutsideSharedMem (bufsize target source offset bytesToSend : Nat)
    (state : State) : State :=
  let data := memmove state.buffer 0
    (bytesFrom (state.memory setting.myProc) (source + offset)) bytesToSend
  let request : Message :=
    { payload := { nbytes := bytesToSend, target := target + offset, source := 0 }
      data := data
      bufsiz := bufsize }
  let (bytes, reply) := handlerPutRequest (state.memory setting.proc) request
  { memory := state.memory.change setting.proc bytes
    buffer := data
    messages := state.messages ++ [request.bufsiz, reply.bufsiz] }

/-- The loop over the full chunks. -/
def chunks (chunk : Nat → State → State) (payloadSize : Nat) :
    (left offset : Nat) → State → State
  | 0, _, state => state
  | left + 1, offset, state =>
      chunks chunk payloadSize left (offset + payloadSize) (chunk offset state)

/--
The loop of a transfer, whose counter is an `int`, and the call for the bytes
that are left.
-/
def transfer (fullChunk : Nat → State → State)
    (remainder : (offset bytes : Nat) → State → State) (nbytes : Nat)
    (state : State) : Option State :=
  let nchunks := nbytes / setting.maxData
  let remSize := nbytes % setting.maxData
  if nchunks < 2 ^ 31 then
    let state := chunks fullChunk setting.maxData nchunks 0 state
    some
      (if 0 < remSize then remainder (nchunks * setting.maxData) remSize state
        else state)
  else
    none

/-- `comm_read_outside_shared_mem`. -/
def commReadOutsideSharedMem (dest src nbytes : Nat) (state : State) : Option State :=
  setting.transfer
    (fun offset => setting.commReadChunkOutsideSharedMem setting.amMaxMedium dest src
      offset setting.maxData)
    (fun offset bytes => setting.commReadChunkOutsideSharedMem setting.amMaxMedium src
      dest offset bytes)
    nbytes state

/-- `comm_write_outside_shared_mem`. -/
def commWriteOutsideSharedMem (dest src nbytes : Nat) (state : State) : Option State :=
  setting.transfer
    (fun offset => setting.commWriteChunkOutsideSharedMem setting.amMaxMedium dest src
      offset setting.maxData)
    (fun offset bytes => setting.commWriteChunkOutsideSharedMem setting.amMaxMedium
      dest src offset bytes)
    nbytes state

/-- `memcpy` on the image itself. -/
def localMemcpy (dest src nbytes : Nat) (state : State) : State :=
  let bytes := state.memory setting.myProc
  { state with
    memory := state.memory.change setting.myProc
      (memmove bytes dest (bytesFrom bytes src) nbytes) }

/-- `comm_read` of an address outside of the shared segment. -/
def commRead (src dest nbytes : Nat) (state : State) : Option State :=
  if setting.myProc = setting.proc then
    some (setting.localMemcpy dest src nbytes state)
  else
    setting.commReadOutsideSharedMem src dest nbytes state

/-- `comm_write` to an address outside of the shared segment. -/
def commWrite (dest src nbytes : Nat) (state : State) : Option State :=
  if setting.myProc = setting.proc then
    some (setting.localMemcpy dest src nbytes state)
  else
    setting.commWriteOutsideSharedMem dest src nbytes state

end Setting

/-! ## Moved bytes -/

theorem memmove_zero (bytes : Nat → UInt8) (target : Nat) (source : Nat → UInt8) :
    memmove bytes target source 0 = bytes := by
  funext address
  exact if_neg (by omega)

/-- Two moves in a row are one. -/
theorem memmove_append (bytes : Nat → UInt8) (target : Nat) (source : Nat → UInt8)
    (first second : Nat) :
    memmove (memmove bytes target source first) (target + first)
        (fun number => source (first + number)) second =
      memmove bytes target source (first + second) := by
  funext address
  unfold memmove
  by_cases inSecond : target + first ≤ address ∧ address < target + first + second
  · rw [if_pos inSecond, if_pos (by omega)]
    exact congrArg source (by omega)
  · rw [if_neg inSecond]
    by_cases inFirst : target ≤ address ∧ address < target + first
    · rw [if_pos inFirst, if_pos (by omega)]
    · rw [if_neg inFirst, if_neg (by omega)]

/-- Bytes that are moved into a buffer and out of it again. -/
theorem memmove_buffer (bytes buffer source : Nat → UInt8) (target nbytes : Nat) :
    memmove bytes target (memmove buffer 0 source nbytes) nbytes =
      memmove bytes target source nbytes := by
  funext address
  unfold memmove
  by_cases inside : target ≤ address ∧ address < target + nbytes
  · rw [if_pos inside, if_pos inside, if_pos (by omega), Nat.sub_zero]
  · rw [if_neg inside, if_neg inside]

theorem bytesFrom_add (bytes : Nat → UInt8) (source offset : Nat) :
    bytesFrom bytes (source + offset) =
      fun number => bytesFrom bytes source (offset + number) := by
  funext number
  exact congrArg bytes (Nat.add_assoc _ _ _)

/-- The memory after bytes of one process were moved to another one. -/
def Memory.move (memory : Memory) (toProc fromProc target source nbytes : Nat) : Memory :=
  memory.change toProc
    (memmove (memory toProc) target (bytesFrom (memory fromProc) source) nbytes)

theorem Memory.move_zero (memory : Memory) (toProc fromProc target source : Nat) :
    memory.move toProc fromProc target source 0 = memory := by
  unfold Memory.move Memory.change
  rw [memmove_zero, Function.update_eq_self]

/-- Moves between two processes, of bytes that follow each other. -/
theorem Memory.move_append {toProc fromProc : Nat} (distinct : toProc ≠ fromProc)
    (memory : Memory) (target source first second : Nat) :
    (memory.move toProc fromProc target source first).move toProc fromProc
        (target + first) (source + first) second =
      memory.move toProc fromProc target source (first + second) := by
  unfold Memory.move Memory.change
  rw [Function.update_self, Function.update_of_ne distinct.symm,
    Function.update_idem, bytesFrom_add, memmove_append]

end OpenUH.Libcaf.OutsideTransfers
