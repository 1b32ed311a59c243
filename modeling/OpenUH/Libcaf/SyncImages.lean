import OpenUH.Foundation.Transition

/-!
# SYNC IMAGES

`sync_images_counter`, `sync_images_ping_pong`, `sync_images_sense_rev` and
`sync_images_csr` as every image runs them, one access to a flag at a time.
A notification that goes through the network is in flight until it is
delivered; neither active messages nor implicit non-blocking puts come with
an order, so any one in flight may be next.  No image stops.
-/

namespace OpenUH.Libcaf.SyncImages

open Foundation

/-- `sync_images_t`. -/
inductive Algorithm where
  | counter
  | pingPong
  | senseRev
  | csr
deriving DecidableEq, Repr

/-- The images, where they run, and how they notify each other. -/
structure Job where
  numImages : Nat
  algorithm : Algorithm
  supernode : Nat → Nat
  sharedMemRmaBypass : Bool

/-- Where an image stands; a loop carries its partner and the rest. -/
inductive Phase where
  | idle
  | notifying (partner : Nat) (rest : List Nat)
  | polling (partner : Nat) (rest : List Nat)
  | taking (partner : Nat) (rest : List Nat)
  | restoring (partner : Nat) (rest : List Nat) (x : Int)
  | scanning (partner : Nat) (rest : List Nat)
  | clearing (partner : Nat) (rest : List Nat)
  | replying (partner : Nat) (rest : List Nat)
deriving DecidableEq, Repr

/--
One image: the two views of `sync_flags`, `sync_senses`, and `check_images`
by partner.  The last four fields count, for each partner, the statements
begun, the notifications sent and taken, and the statements that returned.
-/
structure Image where
  phase : Phase
  imageList : List Nat
  value : Nat → Int
  val : Nat → Int
  check : Nat → Int
  syncSenses : Nat → Int
  checkImages : Nat → Bool
  started : Nat → Nat
  notified : Nat → Nat
  taken : Nat → Nat
  returned : Nat → Nat

/-- A notification on its way to `value`. -/
inductive Notice where
  | add
  | store (value : Int)
deriving DecidableEq, Repr

/-- All images, and per sender and receiver the notifications in flight. -/
structure State where
  images : Nat → Image
  inFlight : Nat → Nat → List Notice

/-- The value of an `int` kept in a `char`. -/
def toChar (value : Int) : Int :=
  (value + 128) % 256 - 128

/-- Whether two images share a node. -/
def Job.sameNode (job : Job) (me partner : Nat) : Bool :=
  job.supernode me = job.supernode partner

/-- Whether a pair uses the counting bytes `s.val` and `s.check`. -/
def Job.countsBytes (job : Job) (me partner : Nat) : Bool :=
  job.algorithm = .csr && job.sameNode me partner

/-- Whether a notification is a store of the sender into shared memory. -/
def Job.direct (job : Job) (me partner : Nat) : Bool :=
  job.sameNode me partner &&
    match job.algorithm with
    | .counter => true
    | .pingPong => false
    | .senseRev => job.sharedMemRmaBypass
    | .csr => true

/-- Whether a pair uses alternating senses. -/
def Job.usesSense (job : Job) (me partner : Nat) : Bool :=
  match job.algorithm with
  | .counter => false
  | .pingPong => false
  | .senseRev => true
  | .csr => !job.sameNode me partner

/-! ## Images -/

namespace Image

/-- Increment a history counter. -/
def bump (count : Nat → Nat) (partner : Nat) : Nat → Nat :=
  Function.update count partner (count partner + 1)

/-- The statement returns. -/
def finish (image : Image) (me : Nat) : Image :=
  { image with
    phase := .idle
    imageList := []
    returned := fun partner =>
      if partner ∈ image.imageList ∧ partner ≠ me then
        image.returned partner + 1
      else
        image.returned partner }

/-- The head of the loop that receives, in all algorithms but ping-pong. -/
def pollFrom (image : Image) (me : Nat) : List Nat → Image
  | [] => image.finish me
  | partner :: rest => { image with phase := .polling partner rest }

/-- The head of `while (images_to_check != 0)`. -/
def scanAgain (image : Image) (me : Nat) : Image :=
  match image.imageList with
  | [] => image.finish me
  | partner :: rest =>
      if ∃ other ∈ image.imageList, image.checkImages other = true then
        { image with phase := .scanning partner rest }
      else
        image.finish me

/-- The head of the loop inside it. -/
def scanFrom (image : Image) (me : Nat) : List Nat → Image
  | [] => image.scanAgain me
  | partner :: rest => { image with phase := .scanning partner rest }

/-- The head of the loop that notifies. -/
def notifyFrom (image : Image) (job : Job) (me : Nat) : List Nat → Image
  | [] =>
      match job.algorithm with
      | .pingPong => image.scanAgain me
      | _ => image.pollFrom me image.imageList
  | partner :: rest => { image with phase := .notifying partner rest }

/-- A SYNC IMAGES statement begins. -/
def start (image : Image) (job : Job) (me : Nat) (imageList : List Nat) : Image :=
  notifyFrom
    { image with
      imageList := imageList
      checkImages := fun _ => false
      started := fun partner =>
        if partner ∈ imageList ∧ partner ≠ me then
          image.started partner + 1
        else
          image.started partner } job me imageList

/-- `sync_senses[q] % 2 + 1`. -/
def nextSense (image : Image) (partner : Nat) : Int :=
  image.syncSenses partner % 2 + 1

/-- The effect of a notification of `sender` on `value`. -/
def receive (image : Image) (sender : Nat) : Notice → Image
  | .add =>
      { image with
        value := Function.update image.value sender (image.value sender + 1) }
  | .store value =>
      { image with value := Function.update image.value sender value }

/-- The increment of `s.val` by `sender`. -/
def receiveByte (image : Image) (sender : Nat) : Image :=
  { image with
    val := Function.update image.val sender (toChar (image.val sender + 1)) }

/-- Count a notification, and turn the sense of a pair that uses it. -/
def noteSent (image : Image) (job : Job) (me partner : Nat) : Image :=
  { image with
    notified := bump image.notified partner
    syncSenses :=
      if job.usesSense me partner then
        Function.update image.syncSenses partner (image.nextSense partner)
      else
        image.syncSenses }

/-- `check_images`, which only ping-pong keeps. -/
def mark (image : Image) (job : Job) (me partner : Nat) : Image :=
  match job.algorithm with
  | .pingPong =>
      { image with
        checkImages :=
          Function.update image.checkImages partner (partner ≠ me) }
  | _ => image

/-- Take a notification: `SYNC_FETCH_AND_ADD(-1)`, `SYNC_SWAP` or `check += 1`. -/
def take (image : Image) (job : Job) (me partner : Nat) : Image :=
  { image with
    taken := bump image.taken partner
    value :=
      if job.countsBytes me partner then
        image.value
      else if job.usesSense me partner then
        Function.update image.value partner 0
      else
        Function.update image.value partner (image.value partner - 1)
    check :=
      if job.countsBytes me partner then
        Function.update image.check partner (toChar (image.check partner + 1))
      else
        image.check }

end Image

/-! ## Steps -/

/-- Change one image. -/
def State.modify (state : State) (me : Nat) (change : Image → Image) : State :=
  { state with
    images := Function.update state.images me (change (state.images me)) }

/-- Put a notification behind those in flight. -/
def State.issue (state : State) (sender receiver : Nat) (notice : Notice) : State :=
  { state with
    inFlight :=
      Function.update state.inFlight sender
        (Function.update (state.inFlight sender) receiver
          (state.inFlight sender receiver ++ [notice])) }

/-- What a notification writes, by the algorithm. -/
def noticeOf (job : Job) (image : Image) (partner : Nat) : Notice :=
  match job.algorithm with
  | .counter => .add
  | .pingPong => .store 1
  | .senseRev => .store (image.nextSense partner)
  | .csr => .store (image.nextSense partner)

/-- Notify a partner. -/
def notify (job : Job) (state : State) (me partner : Nat) : State :=
  (if job.countsBytes me partner then
    state.modify partner (·.receiveByte me)
  else if job.direct me partner then
    state.modify partner
      (·.receive me (noticeOf job (state.images me) partner))
  else
    state.issue me partner (noticeOf job (state.images me) partner)).modify
      me (·.noteSent job me partner)

/-- Whether the flag of a partner shows a notification. -/
def shows (job : Job) (image : Image) (me partner : Nat) : Bool :=
  if job.countsBytes me partner then
    image.val partner ≠ image.check partner
  else
    match job.algorithm with
    | .pingPong => image.value partner = 1
    | _ => image.value partner ≠ 0

/-- Whether the loop that notifies writes to a partner. -/
def Job.notifiesFirst (job : Job) (me partner : Nat) : Bool :=
  match job.algorithm with
  | .pingPong => me < partner
  | _ => me ≠ partner

/-- The next access of an image inside a statement; `none` at a failing poll. -/
def act (job : Job) (state : State) (me : Nat) : Option State :=
  match (state.images me).phase with
  | .idle => none
  | .notifying partner rest =>
      some
        ((if job.notifiesFirst me partner then
          notify job state me partner
        else
          state).modify me fun image =>
            (image.mark job me partner).notifyFrom job me rest)
  | .polling partner rest =>
      if partner = me then
        some (state.modify me (·.pollFrom me rest))
      else if shows job (state.images me) me partner then
        some (state.modify me ({ · with phase := .taking partner rest }))
      else
        none
  | .taking partner rest =>
      some
        (state.modify me fun image =>
          if job.usesSense me partner ∧
              image.value partner ≠ image.syncSenses partner then
            { image.take job me partner with
              phase := .restoring partner rest (image.value partner) }
          else
            (image.take job me partner).pollFrom me rest)
  | .restoring partner rest x =>
      some
        (state.modify me fun image =>
          ({ image with
            value := Function.update image.value partner x } : Image).pollFrom
              me rest)
  | .scanning partner rest =>
      some
        (state.modify me fun image =>
          if image.checkImages partner = true ∧
              shows job image me partner = true then
            { image with phase := .clearing partner rest }
          else
            image.scanFrom me rest)
  | .clearing partner rest =>
      some
        (state.modify me fun image =>
          let cleared : Image :=
            { image with
              value := Function.update image.value partner 0
              checkImages := Function.update image.checkImages partner false
              taken := Image.bump image.taken partner }
          if partner < me then
            { cleared with phase := .replying partner rest }
          else
            cleared.scanFrom me rest)
  | .replying partner rest =>
      some ((notify job state me partner).modify me (·.scanFrom me rest))

/-- A step: a statement begins, an image goes on, or a notification lands. -/
inductive Move where
  | start (me : Nat) (imageList : List Nat)
  | act (me : Nat)
  | deliver (sender receiver index : Nat)
deriving DecidableEq, Repr

/-- Land the notification at an index of those in flight. -/
def deliver (state : State) (sender receiver index : Nat) : Option State :=
  (state.inFlight sender receiver)[index]?.map fun notice =>
    { state.modify receiver (·.receive sender notice) with
      inFlight :=
        Function.update state.inFlight sender
          (Function.update (state.inFlight sender) receiver
            ((state.inFlight sender receiver).eraseIdx index)) }

/-- Carry out a step. -/
def step (job : Job) (state : State) : Move → Option State
  | .start me imageList =>
      if me < job.numImages ∧ (state.images me).phase = .idle ∧
          imageList.Nodup ∧ ∀ partner ∈ imageList, partner < job.numImages then
        some (state.modify me (·.start job me imageList))
      else
        none
  | .act me => act job state me
  | .deliver sender receiver index => deliver state sender receiver index

/-- Before the first statement of any image. -/
def initial : State where
  images := fun _ =>
    { phase := .idle
      imageList := []
      value := fun _ => 0
      val := fun _ => 0
      check := fun _ => 0
      syncSenses := fun _ => 0
      checkImages := fun _ => false
      started := fun _ => 0
      notified := fun _ => 0
      taken := fun _ => 0
      returned := fun _ => 0 }
  inFlight := fun _ _ => []

/-! ## What SYNC IMAGES is for -/

/-- How many notifications of a sender have reached a receiver. -/
def State.delivered (state : State) (sender receiver : Nat) : Nat :=
  (state.images sender).notified receiver - (state.inFlight sender receiver).length

/-- An image is at the poll, or in the polling loop, for a partner. -/
def State.Waits (state : State) (me partner : Nat) : Prop :=
  match (state.images me).phase with
  | .polling current _ => partner = current ∧ partner ≠ me
  | .scanning _ _ => (state.images me).checkImages partner = true
  | _ => False

/-- Waiting for at least one partner, and no flag it tests is set. -/
def State.Blocked (job : Job) (state : State) (me : Nat) : Prop :=
  (∃ partner, state.Waits me partner) ∧
    ∀ partner, state.Waits me partner →
      shows job (state.images me) me partner = false

/--
All images that are not through wait, nothing is on its way, and yet every
awaited partner has begun its matching statement.
-/
structure State.Deadlocked (job : Job) (state : State) : Prop where
  someone : ∃ me, state.Blocked job me
  everyone : ∀ me, (state.images me).phase = .idle ∨ state.Blocked job me
  quiet : ∀ sender receiver, state.inFlight sender receiver = []
  matching : ∀ me partner, state.Waits me partner →
    (state.images me).taken partner < (state.images partner).started me

/--
A synchronisation returns only after the partner began its own, a test of a
flag succeeds exactly when a notification that was not yet taken has arrived,
and there is no deadlock.
-/
structure Rendezvous (job : Job) (state : State) : Prop where
  returns : ∀ me partner,
    (state.images me).returned partner ≤ (state.images partner).started me
  counted : ∀ me partner, state.Waits me partner →
    (shows job (state.images me) me partner = true ↔
      (state.images me).taken partner < state.delivered partner me)
  noDeadlock : ¬ state.Deadlocked job

/-- A sense arrives before the senses sent to the same flag after it. -/
def InOrder (job : Job) : Move → Prop
  | .deliver sender receiver index =>
      job.usesSense sender receiver = true → index = 0
  | _ => True

/-- The states of runs whose steps meet a condition. -/
def Reached (job : Job) (condition : Move → Prop) : State → Prop :=
  Transition.Reachable (· = initial) fun before after =>
    ∃ move, condition move ∧ step job before move = some after

end OpenUH.Libcaf.SyncImages
