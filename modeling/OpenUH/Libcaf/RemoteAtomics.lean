import OpenUH.Foundation.Transition

/-!
# Atomic operations on remote variables

The atomic operations of the GASNet layer reach a variable on three ways.  On the
image itself, and on another image of the same node, the caller applies the
compiler's atomic builtin.  Otherwise it sends the operand in a payload of 64 bits
to a handler, which applies the builtin for the width of the operand, and returns
the old value in a payload of 64 bits where it is fetched.
-/

namespace OpenUH.Libcaf.RemoteAtomics

open Foundation.Transition

/-! ## Operands -/

/-- The widths of an operand: `INT1`, `INT2`, `INT4` and `INT8`. -/
inductive Width where
  | int1
  | int2
  | int4
  | int8
  deriving DecidableEq, Repr

/-- The bits of an operand. -/
def Width.bits : Width → Nat
  | .int1 => 8
  | .int2 => 16
  | .int4 => 32
  | .int8 => 64

/-- The bits of `sizeof(long long)` are enough for each operand. -/
theorem Width.bits_le (width : Width) : width.bits ≤ 64 := by
  cases width <;> decide

/-- An operand of some width. -/
abbrev Operand (width : Width) : Type := BitVec width.bits

variable {width : Width}

/-! ## The builtins -/

/-- `SYNC_FETCH_AND_ADD`: the new value, and the old one. -/
def syncFetchAndAdd (target value : Operand width) : Operand width × Operand width :=
  (target + value, target)

/-- `SYNC_FETCH_AND_AND`. -/
def syncFetchAndAnd (target value : Operand width) : Operand width × Operand width :=
  (target &&& value, target)

/-- `SYNC_FETCH_AND_OR`. -/
def syncFetchAndOr (target value : Operand width) : Operand width × Operand width :=
  (target ||| value, target)

/-- `SYNC_FETCH_AND_XOR`. -/
def syncFetchAndXor (target value : Operand width) : Operand width × Operand width :=
  (target ^^^ value, target)

/-- `SYNC_SWAP`. -/
def syncSwap (target value : Operand width) : Operand width × Operand width :=
  (value, target)

/-- `SYNC_CSWAP`. -/
def syncCswap (target cond value : Operand width) : Operand width × Operand width :=
  (if target = cond then value else target, target)

/-! ## The requests -/

/-- The requests, by the functions that make them, with their operands. -/
inductive Operation (width : Width) where
  | commSwapRequest (value : Operand width)
  | commFstoreRequest (value : Operand width)
  | commCswapRequest (cond value : Operand width)
  | commAtomicStoreRequest (value : Operand width)
  | commFaddRequest (value : Operand width)
  | commAddRequest (value : Operand width)
  | commFandRequest (value : Operand width)
  | commAndRequest (value : Operand width)
  | commForRequest (value : Operand width)
  | commOrRequest (value : Operand width)
  | commFxorRequest (value : Operand width)
  | commXorRequest (value : Operand width)
  deriving DecidableEq

/-- The new value of a builtin, with its old value as the result. -/
def fetched (result : Operand width × Operand width) : Operand width × Option (Operand width) :=
  (result.1, some result.2)

/-- The new value of a builtin, whose old value is not used. -/
def unfetched (result : Operand width × Operand width) : Operand width × Option (Operand width) :=
  (result.1, none)

/-- A request, one atomic step on an integer of its width. -/
def Operation.atomically (operation : Operation width) (target : Operand width) :
    Operand width × Option (Operand width) :=
  match operation with
  | .commSwapRequest value => (value, some target)
  | .commFstoreRequest value => (value, some target)
  | .commCswapRequest cond value =>
      (if target = cond then value else target, some target)
  | .commAtomicStoreRequest value => (value, none)
  | .commFaddRequest value => (target + value, some target)
  | .commAddRequest value => (target + value, none)
  | .commFandRequest value => (target &&& value, some target)
  | .commAndRequest value => (target &&& value, none)
  | .commForRequest value => (target ||| value, some target)
  | .commOrRequest value => (target ||| value, none)
  | .commFxorRequest value => (target ^^^ value, some target)
  | .commXorRequest value => (target ^^^ value, none)

/--
What the caller does itself, on its own image and on an image of the same node:
the same builtin for all of the widths.
-/
def Operation.directly (operation : Operation width) (target : Operand width) :
    Operand width × Option (Operand width) :=
  match operation with
  | .commSwapRequest value => fetched (syncSwap target value)
  | .commFstoreRequest value => fetched (syncSwap target value)
  | .commCswapRequest cond value => fetched (syncCswap target cond value)
  | .commAtomicStoreRequest value => unfetched (syncSwap target value)
  | .commFaddRequest value => fetched (syncFetchAndAdd target value)
  | .commAddRequest value => unfetched (syncFetchAndAdd target value)
  | .commFandRequest value => fetched (syncFetchAndAnd target value)
  | .commAndRequest value => unfetched (syncFetchAndAnd target value)
  | .commForRequest value => fetched (syncFetchAndOr target value)
  | .commOrRequest value => unfetched (syncFetchAndOr target value)
  | .commFxorRequest value => fetched (syncFetchAndXor target value)
  | .commXorRequest value => unfetched (syncFetchAndXor target value)

/-! ## The messages -/

/-- A payload, with the value and the condition of a request. -/
structure Payload where
  value : BitVec 64
  cond : BitVec 64

/-- The conversion of a payload's value to the operand's type. -/
def Operand.ofPayload (value : BitVec 64) : Operand width :=
  value.setWidth width.bits

/-- The conversion of an operand to the type of a payload's value. -/
def Operand.toPayload (value : Operand width) : BitVec 64 :=
  value.signExtend 64

/--
The value that is read as `long long` where the operand is, or that the operand
is moved into: the low bytes are those of the operand, and others stand behind.
-/
def Operand.load (value : Operand width) (behind : BitVec 64) : BitVec 64 :=
  value.setWidth 64 ||| behind <<< width.bits

/-- A handler that returns the old value in the payload. -/
def fetchHandler (sync : Operand width → Operand width → Operand width × Operand width)
    (payload : Payload) (target : Operand width) :
    Operand width × Option (BitVec 64) :=
  let result := sync target (Operand.ofPayload payload.value)
  (result.1, some (Operand.toPayload result.2))

/-- A handler that sends no reply. -/
def updateHandler (sync : Operand width → Operand width → Operand width × Operand width)
    (payload : Payload) (target : Operand width) :
    Operand width × Option (BitVec 64) :=
  ((sync target (Operand.ofPayload payload.value)).1, none)

/-- `handler_swap_request`. -/
def handlerSwapRequest (payload : Payload) (target : Operand width) :
    Operand width × Option (BitVec 64) :=
  fetchHandler syncSwap payload target

/-- `handler_atomic_store_request`. -/
def handlerAtomicStoreRequest (payload : Payload) (target : Operand width) :
    Operand width × Option (BitVec 64) :=
  updateHandler syncSwap payload target

/-- `handler_cswap_request`. -/
def handlerCswapRequest (payload : Payload) (target : Operand width) :
    Operand width × Option (BitVec 64) :=
  let result := syncCswap target (Operand.ofPayload payload.cond)
    (Operand.ofPayload payload.value)
  (result.1, some (Operand.toPayload result.2))

/-- `handler_fadd_request`. -/
def handlerFaddRequest (payload : Payload) (target : Operand width) :
    Operand width × Option (BitVec 64) :=
  fetchHandler syncFetchAndAdd payload target

/-- `handler_add_request`. -/
def handlerAddRequest (payload : Payload) (target : Operand width) :
    Operand width × Option (BitVec 64) :=
  updateHandler syncFetchAndAdd payload target

/-- `handler_fand_request`. -/
def handlerFandRequest (payload : Payload) (target : Operand width) :
    Operand width × Option (BitVec 64) :=
  fetchHandler syncFetchAndAnd payload target

/-- `handler_and_request`, whose branch for `INT2` has another builtin. -/
def handlerAndRequest (payload : Payload) (target : Operand width) :
    Operand width × Option (BitVec 64) :=
  match width with
  | .int4 => updateHandler syncFetchAndAnd payload target
  | .int8 => updateHandler syncFetchAndAnd payload target
  | .int1 => updateHandler syncFetchAndAnd payload target
  | .int2 => updateHandler syncFetchAndAdd payload target

/-- `handler_for_request`. -/
def handlerForRequest (payload : Payload) (target : Operand width) :
    Operand width × Option (BitVec 64) :=
  fetchHandler syncFetchAndOr payload target

/-- `handler_or_request`. -/
def handlerOrRequest (payload : Payload) (target : Operand width) :
    Operand width × Option (BitVec 64) :=
  updateHandler syncFetchAndOr payload target

/-- `handler_fxor_request`. -/
def handlerFxorRequest (payload : Payload) (target : Operand width) :
    Operand width × Option (BitVec 64) :=
  fetchHandler syncFetchAndXor payload target

/-- `handler_xor_request`. -/
def handlerXorRequest (payload : Payload) (target : Operand width) :
    Operand width × Option (BitVec 64) :=
  updateHandler syncFetchAndXor payload target

/-- The payload of a request; a conditional swap clears it first. -/
def Operation.payload (operation : Operation width) (behind : BitVec 64) : Payload :=
  match operation with
  | .commCswapRequest cond value =>
      { value := Operand.load value 0, cond := Operand.load cond 0 }
  | .commSwapRequest value | .commFstoreRequest value
  | .commAtomicStoreRequest value | .commFaddRequest value | .commAddRequest value
  | .commFandRequest value | .commAndRequest value | .commForRequest value
  | .commOrRequest value | .commFxorRequest value | .commXorRequest value =>
      { value := Operand.load value behind, cond := 0 }

/-- The handler of a request. -/
def Operation.handler (operation : Operation width) :
    Payload → Operand width → Operand width × Option (BitVec 64) :=
  match operation with
  | .commSwapRequest _ => handlerSwapRequest
  | .commFstoreRequest _ => handlerSwapRequest
  | .commCswapRequest _ _ => handlerCswapRequest
  | .commAtomicStoreRequest _ => handlerAtomicStoreRequest
  | .commFaddRequest _ => handlerFaddRequest
  | .commAddRequest _ => handlerAddRequest
  | .commFandRequest _ => handlerFandRequest
  | .commAndRequest _ => handlerAndRequest
  | .commForRequest _ => handlerForRequest
  | .commOrRequest _ => handlerOrRequest
  | .commFxorRequest _ => handlerFxorRequest
  | .commXorRequest _ => handlerXorRequest

/-! ## The system -/

/-- Where the image of the variable is, for the image that asks. -/
inductive Path where
  | own
  | sameNode
  | message
  deriving DecidableEq, Repr

/-- A request of some image, and the bytes that its payload reads behind the operand. -/
structure Request (width : Width) where
  operation : Operation width
  path : Path
  behind : BitVec 64

/-- How far a request is. -/
inductive Progress (width : Width) where
  | waiting
  | sent (payload : Payload)
  | replied (value : BitVec 64)
  | done (result : Option (Operand width))

/-- The variable, and the progress of each request. -/
structure State (width : Width) where
  target : Operand width
  progress : Nat → Progress width

/-- The progress of one request changed. -/
def State.advance (state : State width) (target : Operand width) (request : Nat)
    (progress : Progress width) : State width where
  target := target
  progress := Function.update state.progress request progress

/-- The steps of the images, and of the handlers. -/
inductive Step (requests : Nat → Request width) : State width → State width → Prop where
  | direct {state : State width} {request : Nat}
      (waits : state.progress request = .waiting)
      (near : (requests request).path ≠ .message) :
      Step requests state
        (state.advance ((requests request).operation.directly state.target).1 request
          (.done ((requests request).operation.directly state.target).2))
  | send {state : State width} {request : Nat}
      (waits : state.progress request = .waiting)
      (far : (requests request).path = .message) :
      Step requests state
        (state.advance state.target request
          (.sent ((requests request).operation.payload (requests request).behind)))
  | reply {state : State width} {request : Nat} {payload : Payload}
      {target : Operand width} {value : BitVec 64}
      (sent : state.progress request = .sent payload)
      (handled : (requests request).operation.handler payload state.target =
        (target, some value)) :
      Step requests state (state.advance target request (.replied value))
  | handle {state : State width} {request : Nat} {payload : Payload}
      {target : Operand width}
      (sent : state.progress request = .sent payload)
      (handled : (requests request).operation.handler payload state.target =
        (target, none)) :
      Step requests state (state.advance target request (.done none))
  | deliver {state : State width} {request : Nat} {value : BitVec 64}
      (replied : state.progress request = .replied value) :
      Step requests state
        (state.advance state.target request
          (.done (some (Operand.ofPayload value))))

/-- No request was made. -/
def Initial (start : Operand width) (state : State width) : Prop :=
  state.target = start ∧ ∀ request, state.progress request = .waiting

/-! ## Sequential orders -/

/-- The value of the variable after some requests, one after the other. -/
def valueAfter (requests : Nat → Request width) (start : Operand width)
    (order : List Nat) : Operand width :=
  order.foldl
    (fun target request => ((requests request).operation.atomically target).1) start

/-- What is known of the result of a request. -/
def Progress.Returns (progress : Progress width) (result : Option (Operand width)) : Prop :=
  progress = .done result ∨
    ∃ value, progress = .replied value ∧ result = some (Operand.ofPayload value)

/-- A request that took effect. -/
def Progress.Performed (progress : Progress width) : Prop :=
  progress ≠ .waiting ∧ ∀ payload, progress ≠ .sent payload

/--
The variable and all of the returned values are those of a sequential order of the
requests that took effect.
-/
def Sequential (requests : Nat → Request width) (start : Operand width)
    (state : State width) : Prop :=
  ∃ order : List Nat, order.Nodup ∧
    (∀ request, request ∈ order ↔ (state.progress request).Performed) ∧
    state.target = valueAfter requests start order ∧
    ∀ before request after, order = before ++ request :: after →
      (state.progress request).Returns
        ((requests request).operation.atomically
          (valueAfter requests start before)).2

end OpenUH.Libcaf.RemoteAtomics
