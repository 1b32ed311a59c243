import OpenUH.Foundation.Transition

/-!
# Coarray locks

The queue lock of `lock.c`: `comm_lock`, `comm_unlock`, `comm_unlock2` and
their forms with a status.  A lock is a word on one image; a request is a
descriptor in the shared memory of the image that asks for the lock, written
to by its predecessor and its successor through the network.  The 20 bytes
that a successor leaves land field by field, in any order.
-/

namespace OpenUH.Libcaf.CoarrayLock

open Foundation

/-- A lock variable: the image it is on, and its offset there. -/
structure Lock where
  image : Int
  ofst : Int
deriving DecidableEq, Repr

/-- The value of a signed bit-field. -/
def bitField (width : Nat) (value : Int) : Int := Int.bmod value (2 ^ width)

/-- `lock_t`. -/
structure LockWord where
  locked : Bool
  image : Int
  ofst : Int
deriving DecidableEq, Repr

/-- A `lock_t` with an image and an offset stored in its bit-fields. -/
def LockWord.taken (image ofst : Int) : LockWord where
  locked := true
  image := bitField 20 image
  ofst := bitField 36 ofst

/-- The `lock_t` of a lock that nobody asked for. -/
def LockWord.unset : LockWord where
  locked := false
  image := 0
  ofst := 0

/-- `lock_request_t`. -/
structure LockRequest where
  locked : Bool
  image : Int
  ofst : Int
  done : Bool
deriving DecidableEq, Repr

/-- A request as `comm_lock` initialises it. -/
def LockRequest.fresh : LockRequest where
  locked := false
  image := 0
  ofst := 0
  done := false

/-- What lands at once in a request: a field, the padding behind `done`. -/
inductive Part where
  | image (value : Int)
  | ofst (value : Int)
  | done
  | padding
  | unlock
deriving DecidableEq, Repr

/-- A remote write on its way to a request of an image. -/
structure Message where
  image : Int
  ofst : Int
  part : Part
deriving DecidableEq, Repr

/--
Where an image is in a call.  The last four stages have the `lock_t` of the
usurper to link the victims to, if there is one.
-/
inductive Stage where
  | swapping (trial : Bool)
  | marking (p : LockWord)
  | linking (p : LockWord)
  | polling
  | comparing
  | resetting
  | restoring (v : LockWord)
  | awaitingDone (u : Option LockWord)
  | awaitingImage (u : Option LockWord)
  | handing (u : Option LockWord)
  | freeing
deriving DecidableEq, Repr

/-- A call on a lock with a request in the request table. -/
structure Call where
  lock : Lock
  req : Int
  stage : Stage
deriving DecidableEq, Repr

/-- How locks are released: `comm_unlock`, or `comm_unlock2`. -/
inductive Release where
  | compareAndSwap
  | swapOnly
deriving DecidableEq, Repr

/-- The program: its images are `1` to `numImages`. -/
structure Job where
  numImages : Int
  release : Release

/--
The lock words, the request table of each image, the requests in its shared
memory, and the writes in flight.  `swaps` and `entries` record who put a
request on a lock word, and who got a lock, in order.
-/
structure State where
  word : Lock → LockWord
  reqTable : Int → Lock → Option Int
  call : Int → Option Call
  request : Int → Int → Option LockRequest
  inFlight : List Message
  swaps : Lock → List Int
  entries : Lock → List Int

/-! ## Steps -/

namespace State

/-- Set a lock word. -/
def setWord (state : State) (lock : Lock) (word : LockWord) : State :=
  { state with word := Function.update state.word lock word }

/-- An image goes on with its call, or returns from it. -/
def goOn (state : State) (me : Int) (call : Option Call) : State :=
  { state with call := Function.update state.call me call }

/-- Set or deallocate a request. -/
def setRequest (state : State) (image ofst : Int) (request : Option LockRequest) : State :=
  { state with
    request := Function.update state.request image
      (Function.update (state.request image) ofst request) }

/-- Set or delete an item of a request table. -/
def setItem (state : State) (me : Int) (lock : Lock) (req : Option Int) : State :=
  { state with
    reqTable := Function.update state.reqTable me
      (Function.update (state.reqTable me) lock req) }

/-- `comm_write` of some parts of a request. -/
def commWrite (state : State) (image ofst : Int) (parts : List Part) : State :=
  { state with
    inFlight := state.inFlight ++ parts.map ({ image, ofst, part := · }) }

/-- A request is put on a lock word. -/
def swapped (state : State) (lock : Lock) (me : Int) : State :=
  { state with
    swaps := Function.update state.swaps lock (state.swaps lock ++ [me]) }

/-- A lock call returns with the lock. -/
def entered (state : State) (lock : Lock) (me : Int) : State :=
  { (state.goOn me none) with
    entries := Function.update state.entries lock (state.entries lock ++ [me]) }

/-- The request is deleted from the table and deallocated; the call returns. -/
def dismiss (state : State) (me : Int) (call : Call) : State :=
  ((state.setItem me call.lock none).setRequest me call.req none).goOn me none

end State

/-- The parts that a successor writes. -/
def linkParts (image ofst : Int) : List Part :=
  [.image (bitField 20 image), .ofst (bitField 36 ofst), .done, .padding]

/-- The parts that `comm_unlock2` copies from a request to a usurper. -/
def LockRequest.copied (request : LockRequest) : List Part :=
  [.image request.image, .ofst request.ofst, .done, .padding]

/--
`comm_lock` and `comm_lock_stat` up to the request; `req` is what
`coarray_asymmetric_allocate_` returns, `trial` whether `SUCCESS=` is given.
-/
def startLock (state : State) (me : Int) (lock : Lock) (req : Int) (trial : Bool) : State :=
  match state.reqTable me lock with
  | some _ => state
  | none =>
      ((state.setItem me lock (some req)).setRequest me req
        (some LockRequest.fresh)).goOn me
          (some { lock, req, stage := .swapping trial })

/-- `comm_unlock` or `comm_unlock2` up to its first look at `done`. -/
def startUnlock (job : Job) (state : State) (me : Int) (lock : Lock) : Option State :=
  match state.reqTable me lock with
  | none => some state
  | some req =>
      (state.request me req).map fun request =>
        state.goOn me <| some
          { lock, req
            stage :=
              if request.done then
                .awaitingImage none
              else
                match job.release with
                | .compareAndSwap => .comparing
                | .swapOnly => .resetting }

/-- What `comm_lock` does with the old word once its request is on the lock. -/
def afterSwap (state : State) (me : Int) (call : Call) (p : LockWord) : State :=
  if p.locked then
    state.goOn me (some { call with stage := .marking p })
  else
    state.entered call.lock me

/-- The fetch-and-store of `comm_lock`. -/
def swap (state : State) (me : Int) (call : Call) : State :=
  afterSwap
    ((state.setWord call.lock (.taken me call.req)).swapped call.lock me) me
    call (state.word call.lock)

/-- The compare-and-swap of `comm_lock_stat` with `SUCCESS=`. -/
def trySwap (state : State) (me : Int) (call : Call) : State :=
  let p := state.word call.lock
  let state :=
    if p = LockWord.unset then
      (state.setWord call.lock (.taken me call.req)).swapped call.lock me
    else
      state
  if p.locked then
    state.dismiss me call
  else
    afterSwap state me call p

/-- The compare-and-swap of `comm_unlock`. -/
def compare (state : State) (me : Int) (call : Call) : State :=
  let q := state.word call.lock
  let state :=
    if q = LockWord.taken me call.req then
      state.setWord call.lock LockWord.unset
    else
      state
  if q.image = me then
    state.dismiss me call
  else
    state.goOn me (some { call with stage := .awaitingDone none })

/-- The first fetch-and-store of `comm_unlock2`. -/
def reset (state : State) (me : Int) (call : Call) : State :=
  let v := state.word call.lock
  let state := state.setWord call.lock LockWord.unset
  if v.image = me then
    state.dismiss me call
  else
    state.goOn me (some { call with stage := .restoring v })

/-- The second fetch-and-store of `comm_unlock2`. -/
def restore (state : State) (me : Int) (call : Call) (v : LockWord) : State :=
  let u := state.word call.lock
  (state.setWord call.lock v).goOn me <| some
    { call with
      stage := .awaitingDone (if u.image ≠ 0 then some u else none) }

/-- The write of a release: to the successor, or to the usurper. -/
def hand (state : State) (request : LockRequest) : Option LockWord → State
  | none => state.commWrite request.image request.ofst [.unlock]
  | some u => state.commWrite u.image u.ofst request.copied

/-- An image goes on with its call; nothing where it still polls. -/
def act (state : State) (me : Int) : Option State := do
  let call ← state.call me
  let request ← state.request me call.req
  match call.stage with
  | .swapping trial =>
      some (if trial then trySwap state me call else swap state me call)
  | .marking p =>
      some ((state.setRequest me call.req
        (some { request with locked := true })).goOn me
          (some { call with stage := .linking p }))
  | .linking p =>
      some ((state.commWrite p.image p.ofst (linkParts me call.req)).goOn me
        (some { call with stage := .polling }))
  | .polling =>
      if request.locked then none else some (state.entered call.lock me)
  | .comparing => some (compare state me call)
  | .resetting => some (reset state me call)
  | .restoring v => some (restore state me call v)
  | .awaitingDone u =>
      if request.done then
        some (state.goOn me (some { call with stage := .awaitingImage u }))
      else
        none
  | .awaitingImage u =>
      if request.image ≠ 0 then
        some (state.goOn me (some { call with stage := .handing u }))
      else
        none
  | .handing u =>
      some ((hand state request u).goOn me (some { call with stage := .freeing }))
  | .freeing => some (state.dismiss me call)

/-- What a part does to the request it lands in. -/
def LockRequest.receive (request : LockRequest) : Part → LockRequest
  | .image value => { request with image := value }
  | .ofst value => { request with ofst := value }
  | .done => { request with done := true }
  | .padding => request
  | .unlock => { request with locked := false }

/-- A write in flight lands. -/
def deliver (state : State) (index : Nat) : Option State := do
  let message ← state.inFlight[index]?
  let state := { state with inFlight := state.inFlight.eraseIdx index }
  some (state.setRequest message.image message.ofst
    ((state.request message.image message.ofst).map
      (·.receive message.part)))

/-! ## Runs -/

/-- A step of an image, or of the network. -/
inductive Move where
  | lock (me : Int) (lock : Lock) (req : Int) (trial : Bool)
  | unlock (me : Int) (lock : Lock)
  | act (me : Int)
  | deliver (index : Nat)
deriving DecidableEq, Repr

/-- Images call one routine at a time, and the allocator gives free memory. -/
def Enabled (job : Job) (state : State) : Move → Prop
  | .lock me _ req _ => 1 ≤ me ∧ me ≤ job.numImages ∧ state.call me = none ∧
      0 ≤ req ∧ state.request me req = none
  | .unlock me _ => 1 ≤ me ∧ me ≤ job.numImages ∧ state.call me = none
  | .act _ => True
  | .deliver _ => True

/-- Carry out a step. -/
def step (job : Job) (state : State) : Move → Option State
  | .lock me lock req trial => some (startLock state me lock req trial)
  | .unlock me lock => startUnlock job state me lock
  | .act me => act state me
  | .deliver index => deliver state index

/-- Nobody has asked for a lock. -/
def initial : State where
  word := fun _ => LockWord.unset
  reqTable := fun _ _ => none
  call := fun _ => none
  request := fun _ _ => none
  inFlight := []
  swaps := fun _ => []
  entries := fun _ => []

/-- What runs come to whose steps meet a condition. -/
def Reached (job : Job) (condition : State → Move → Prop) : State → Prop :=
  Transition.Reachable (· = initial) fun before after =>
    ∃ move, Enabled job before move ∧ condition before move ∧ step job before move = some after

/-! ## What a lock is for -/

namespace State

/-- The stage of the call of an image, if it is on a lock. -/
def stageOn (state : State) (lock : Lock) (me : Int) : Option Stage :=
  (state.call me).bind fun call =>
    if call.lock = lock then some call.stage else none

/-- The request of an image for a lock. -/
def requestFor (state : State) (lock : Lock) (me : Int) : Option LockRequest :=
  (state.reqTable me lock).bind (state.request me)

/-- An image is between a lock call and the unlock call. -/
def Holds (state : State) (lock : Lock) (me : Int) : Prop :=
  state.reqTable me lock ≠ none ∧ state.stageOn lock me = none

/-- An image polls the flag of its request. -/
def Polls (state : State) (lock : Lock) (me : Int) : Prop :=
  state.stageOn lock me = some .polling

/-- Whether the flag of a request is set. -/
def flag (state : State) (lock : Lock) (me : Int) : Bool :=
  (state.requestFor lock me).any (·.locked)

/-- An image holds a lock, or need only see that its flag is reset. -/
def Owns (state : State) (lock : Lock) (me : Int) : Prop :=
  state.Holds lock me ∨ state.Polls lock me ∧ state.flag lock me = false

/-- An image is in an unlock call. -/
def Releases (state : State) (lock : Lock) (me : Int) : Prop :=
  match state.stageOn lock me with
  | some .comparing | some .resetting | some (.restoring _)
  | some (.awaitingDone _) | some (.awaitingImage _) | some (.handing _)
  | some .freeing => True
  | _ => False

/-- An image has a request on a lock. -/
def Queued (state : State) (lock : Lock) (me : Int) : Prop :=
  state.reqTable me lock ≠ none ∧ ∀ trial, state.stageOn lock me ≠ some (.swapping trial)

/-- The word of a lock with the request of an image as the last. -/
def naming (state : State) (lock : Lock) (me : Int) : LockWord :=
  .taken me ((state.reqTable me lock).getD 0)

/-- A lock that some image waits for and nobody will pass on. -/
def Lost (state : State) (lock : Lock) : Prop :=
  (state.word lock).locked = true ∧ (∀ me, ¬state.Owns lock me) ∧
    (∀ me, ¬state.Releases lock me) ∧ state.inFlight = [] ∧
    ∃ me, state.Polls lock me

/--
A request waits behind another: it is about to write to it, or polls while the
other names it.
-/
def Behind (state : State) (lock : Lock) (ahead me : Int) : Prop :=
  match state.stageOn lock me with
  | some (.marking p) | some (.linking p) => p = state.naming lock ahead
  | some .polling => state.flag lock me = true ∧
      ∃ request ofst, state.requestFor lock ahead = some request ∧
        state.reqTable me lock = some ofst ∧
        request.image = me ∧ request.ofst = ofst ∧ request.done = true
  | _ => False

/-- The requests on a lock form one chain. -/
structure Chained (state : State) (lock : Lock) (chain : List Int) :
    Prop where
  nodup : chain.Nodup
  all : ∀ me, me ∈ chain ↔ state.Queued lock me
  word : state.word lock = chain.getLast?.elim LockWord.unset (state.naming lock)
  owner : ∀ me ∈ chain.head?, state.Owns lock me
  behind : chain.IsChain (state.Behind lock)

end State

/-- No two images are between a lock call and the unlock call. -/
def Exclusive (state : State) : Prop :=
  ∀ lock first second, state.Holds lock first → state.Holds lock second → first = second

/-- What the queue lock is for. -/
structure Correct (state : State) : Prop where
  exclusive : Exclusive state
  fifo : ∀ lock, state.entries lock <+: state.swaps lock
  wakeful : ∀ lock, ¬state.Lost lock
  allocated : ∀ message ∈ state.inFlight,
    (state.request message.image message.ofst).isSome = true

/-- What the release by fetch-and-store alone is for. -/
structure SwapCorrect (state : State) : Prop where
  exclusive : Exclusive state
  chained : ∀ lock, (∀ me, ¬state.Releases lock me) → state.inFlight = [] →
    ∃ chain, state.Chained lock chain

/-! ## The condition -/

/-- Whether a write is on its way to a request. -/
def State.Written (state : State) (image ofst : Int) : Prop :=
  ∃ message ∈ state.inFlight, message.image = image ∧ message.ofst = ofst

/-- An image past the poll of `image`: all its successor wrote has landed. -/
def Whole (state : State) (me : Int) : Prop :=
  ∀ call request u, state.call me = some call →
    call.stage = .awaitingImage u → state.request me call.req = some request →
    request.image ≠ 0 → ¬state.Written me call.req

/--
The condition on a step: images and requests fit the signed bit-fields, and a
release goes on when the whole write of the successor has landed.
-/
def Meets (state : State) : Move → Prop
  | .lock me _ req _ => me < 2 ^ 19 ∧ req < 2 ^ 35
  | .unlock _ _ => True
  | .act me => Whole state me
  | .deliver _ => True

end OpenUH.Libcaf.CoarrayLock
