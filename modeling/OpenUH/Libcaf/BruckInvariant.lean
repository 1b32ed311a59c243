import OpenUH.Libcaf.BruckExchange

/-!
# The invariant of the Bruck exchange

What image `rank` has received at the start of a round is a prefix of its
list, the infos of the ranks that follow `rank` around the team.  The state
of the two writes of a round, between the image that issues them and the one
that polls for them, is a link; the invariant says in which state every link
is, given how far its sender has come.
-/

namespace OpenUH.Libcaf.BruckExchange

open Libcaf.TeamFormation

/-! ## Rounds -/

/-- How many infos travel in a round. -/
def amount (numImages round : Nat) : Nat :=
  numData round (numImages - 2 ^ round)

theorem lt_maxRound_iff {numImages round : Nat} :
    round < maxRound numImages ↔ 2 ^ round < numImages :=
  Nat.lt_clog_iff_pow_lt (by decide)

theorem amount_pos {numImages round : Nat} (runs : 2 ^ round < numImages) :
    0 < amount numImages round := by
  have offset : 0 < 2 ^ round := Nat.two_pow_pos round
  unfold amount numData
  split <;> omega

theorem amount_le_pow (numImages round : Nat) : amount numImages round ≤ 2 ^ round := by
  unfold amount numData
  split <;> omega

/-- A round fills the list up to the next power of two, or to the end. -/
theorem pow_add_amount {numImages round : Nat} (runs : 2 ^ round < numImages) :
    2 ^ round + amount numImages round = min (2 ^ (round + 1)) numImages := by
  have double : 2 ^ (round + 1) = 2 ^ round * 2 := pow_succ 2 round
  unfold amount numData
  split <;> omega

theorem remSlots_next (numImages round : Nat) :
    numImages - 2 ^ round - amount numImages round = numImages - 2 ^ (round + 1) := by
  have double : 2 ^ (round + 1) = 2 ^ round * 2 := pow_succ 2 round
  unfold amount numData
  split <;> omega

/-- Every list position after the first belongs to one round. -/
theorem round_of_position {numImages position : Nat} (positive : 0 < position)
    (inList : position < numImages) :
    2 ^ Nat.log 2 position < numImages ∧
      2 ^ Nat.log 2 position ≤ position ∧
      position < 2 ^ Nat.log 2 position + amount numImages (Nat.log 2 position) := by
  have lower : 2 ^ Nat.log 2 position ≤ position :=
    Nat.pow_log_le_self 2 (Nat.pos_iff_ne_zero.mp positive)
  have upper : position < 2 ^ (Nat.log 2 position + 1) :=
    Nat.lt_pow_succ_log_self (by decide) position
  have runs : 2 ^ Nat.log 2 position < numImages := by omega
  refine ⟨runs, lower, ?_⟩
  rw [pow_add_amount runs]
  omega

theorem loopHead_next (numImages round : Nat) :
    loopHead numImages round (numImages - 2 ^ round) =
      if round < maxRound numImages then
        .sendData round (numImages - 2 ^ round)
      else
        .reordering := by
  unfold loopHead
  by_cases runs : round < maxRound numImages
  · have remaining := lt_maxRound_iff.mp runs
    rw [if_pos ⟨runs, by omega⟩, if_pos runs]
  · rw [if_neg (fun both => runs both.1), if_neg runs]

/-! ## Peers -/

theorem sendPeer_lt {numImages : Nat} (positive : 0 < numImages)
    (rank round : Nat) : sendPeer numImages rank round < numImages :=
  Nat.mod_lt _ positive

/-- Reduction of a number below twice the modulus. -/
theorem mod_eq_ite {value modulus : Nat} (bounded : value < 2 * modulus) :
    value % modulus = if value < modulus then value else value - modulus := by
  by_cases below : value < modulus
  · rw [if_pos below, Nat.mod_eq_of_lt below]
  · rw [if_neg below, Nat.mod_eq_sub_mod (by omega), Nat.mod_eq_of_lt (by omega)]

theorem sendPeer_eq_iff {numImages rank round receiver : Nat}
    (isImage : rank < numImages) (runs : 2 ^ round < numImages)
    (isReceiver : receiver < numImages) :
    sendPeer numImages rank round = receiver ↔ rank = (receiver + 2 ^ round) % numImages := by
  unfold sendPeer
  have offset : 0 < 2 ^ round := Nat.two_pow_pos round
  generalize 2 ^ round = distance at *
  rw [mod_eq_ite (by omega : rank + numImages - distance < 2 * numImages),
    mod_eq_ite (by omega : receiver + distance < 2 * numImages)]
  split <;> split <;> omega

/-- The image that writes to `receiver` in a round. -/
theorem sendPeer_sender {numImages round receiver : Nat}
    (runs : 2 ^ round < numImages) (isReceiver : receiver < numImages) :
    sendPeer numImages ((receiver + 2 ^ round) % numImages) round = receiver := by
  have positive : 0 < numImages := by omega
  exact (sendPeer_eq_iff (Nat.mod_lt _ positive) runs isReceiver).mpr rfl

theorem sendPeer_injective {numImages rank round other : Nat} (isImage : rank < numImages)
    (runs : 2 ^ round < numImages) (otherRuns : 2 ^ other < numImages)
    (same : sendPeer numImages rank round = sendPeer numImages rank other) :
    round = other := by
  have positive : 0 < numImages := by omega
  have rounds : 2 ^ round = 2 ^ other := by
    have offset : 0 < 2 ^ round := Nat.two_pow_pos round
    have otherOffset : 0 < 2 ^ other := Nat.two_pow_pos other
    unfold sendPeer at same
    generalize 2 ^ round = distance at *
    generalize 2 ^ other = otherDistance at *
    rw [mod_eq_ite (by omega : rank + numImages - distance < 2 * numImages),
      mod_eq_ite (by omega : rank + numImages - otherDistance < 2 * numImages)] at same
    split at same <;> split at same <;> omega
  exact Nat.pow_right_injective (Nat.le_refl 2) rounds

/-! ## Copies into the list -/

theorem length_storeInfos {list values : List TeamInfo} {start : Nat}
    (inside : start + values.length ≤ list.length) :
    (storeInfos list start values).length = list.length := by
  simp only [storeInfos, List.length_append, List.length_take, List.length_drop]
  omega

theorem getElem?_storeInfos {list values : List TeamInfo} {start : Nat}
    (inside : start + values.length ≤ list.length) (position : Nat) :
    (storeInfos list start values)[position]? =
      if start ≤ position ∧ position < start + values.length then
        values[position - start]?
      else
        list[position]? := by
  have startLength : (list.take start).length = start := by
    rw [List.length_take]
    omega
  unfold storeInfos
  by_cases before : position < start
  · rw [if_neg (by omega), List.append_assoc,
      List.getElem?_append_left (by omega), List.getElem?_take_of_lt before]
  · by_cases within : position < start + values.length
    · rw [if_pos ⟨by omega, within⟩,
        List.getElem?_append_left (by rw [List.length_append]; omega),
        List.getElem?_append_right (by omega), startLength]
    · rw [if_neg (by omega),
        List.getElem?_append_right (by rw [List.length_append]; omega),
        List.length_append, startLength, List.getElem?_drop]
      congr 1
      omega

theorem getElem?_reorder {numImages rank position : Nat}
    {list : List TeamInfo} (isImage : rank < numImages)
    (length : list.length = numImages) (inList : position < numImages) :
    (reorder numImages rank list)[position]? =
      list[(position + (numImages - rank)) % numImages]? := by
  unfold reorder
  by_cases zero : rank = 0
  · rw [if_neg (not_not.mpr zero), zero, Nat.sub_zero, Nat.add_mod_right, Nat.mod_eq_of_lt inList]
  · have tailLength : ((list.drop (numImages - rank)).take rank).length = rank := by
      rw [List.length_take, List.length_drop]
      omega
    rw [if_pos zero]
    by_cases early : position < rank
    · rw [List.getElem?_append_left (by omega),
        List.getElem?_take_of_lt early, List.getElem?_drop,
        Nat.mod_eq_of_lt (by omega)]
      congr 1
      omega
    · rw [List.getElem?_append_right (by omega), tailLength,
        List.getElem?_take_of_lt (by omega),
        Nat.mod_eq_sub_mod (by omega), Nat.mod_eq_of_lt (by omega)]
      congr 1
      omega

/-! ## The invariant -/

/-- How many actions of its program an image has completed. -/
def stage (numImages : Nat) : Phase → Nat
  | .entering => 0
  | .syncing => 1
  | .sendData round _ => 3 * round + 2
  | .sendFlag round _ => 3 * round + 3
  | .polling round _ => 3 * round + 4
  | .reordering => 3 * maxRound numImages + 2
  | .finished => 3 * maxRound numImages + 3

/-- The loop variables of a phase. -/
def PhaseFits (numImages : Nat) : Phase → Prop
  | .sendData round remSlots =>
      round < maxRound numImages ∧ remSlots = numImages - 2 ^ round
  | .sendFlag round remSlots =>
      round < maxRound numImages ∧ remSlots = numImages - 2 ^ round
  | .polling round remSlots =>
      round < maxRound numImages ∧ remSlots = numImages - 2 ^ (round + 1)
  | _ => True

variable (job : Job)

/-- The infos an image forwards in a round. -/
def dataWrite (rank round : Nat) : RemoteWrite :=
  .infos (2 ^ round)
    ((List.range (amount job.numImages round)).map
      fun position => job.info ((rank + position) % job.numImages))

/-- The flag that follows them. -/
def flagWrite (round : Nat) : RemoteWrite :=
  .flag round (amount job.numImages round)

/-- The positions of a round hold the right infos until the reorder. -/
def RoundArrived (state : State) (rank round : Nat) : Prop :=
  state.phase rank ≠ .finished →
    ∀ position, 2 ^ round ≤ position →
      position < 2 ^ round + amount job.numImages round →
      (state.images rank).teamInfoList[position]? =
        some (job.info ((rank + position) % job.numImages))

/-- The two writes of one round between an image and its `send_peer`. -/
inductive Link (state : State) (sender round : Nat) : Prop where
  | idle
      (before : stage job.numImages (state.phase sender) ≤ 3 * round + 2)
      (empty : state.inFlight
        (sender, sendPeer job.numImages sender round) = [])
      (clear :
        state.phase (sendPeer job.numImages sender round) ≠ .entering →
        (state.images (sendPeer job.numImages sender round)).flagCoarray
          round = 0)
  | dataSent
      (sending : stage job.numImages (state.phase sender) = 3 * round + 3)
      (onTheWay : state.inFlight
        (sender, sendPeer job.numImages sender round) = [dataWrite job sender round])
      (clear :
        (state.images (sendPeer job.numImages sender round)).flagCoarray
          round = 0)
  | dataArrived
      (sending : stage job.numImages (state.phase sender) = 3 * round + 3)
      (empty : state.inFlight
        (sender, sendPeer job.numImages sender round) = [])
      (arrived : RoundArrived job state
        (sendPeer job.numImages sender round) round)
      (clear :
        (state.images (sendPeer job.numImages sender round)).flagCoarray
          round = 0)
  | bothSent
      (sent : 3 * round + 4 ≤ stage job.numImages (state.phase sender))
      (onTheWay : state.inFlight
        (sender, sendPeer job.numImages sender round) =
          [dataWrite job sender round, flagWrite job round])
      (clear :
        (state.images (sendPeer job.numImages sender round)).flagCoarray
          round = 0)
  | flagSent
      (sent : 3 * round + 4 ≤ stage job.numImages (state.phase sender))
      (onTheWay : state.inFlight
        (sender, sendPeer job.numImages sender round) = [flagWrite job round])
      (arrived : RoundArrived job state
        (sendPeer job.numImages sender round) round)
      (clear :
        (state.images (sendPeer job.numImages sender round)).flagCoarray
          round = 0)
  | flagArrived
      (sent : 3 * round + 4 ≤ stage job.numImages (state.phase sender))
      (empty : state.inFlight
        (sender, sendPeer job.numImages sender round) = [])
      (arrived : RoundArrived job state
        (sendPeer job.numImages sender round) round)
      (written :
        (state.images (sendPeer job.numImages sender round)).flagCoarray
          round = amount job.numImages round)

/-- What holds in every state of the exchange. -/
structure Invariant (state : State) : Prop where
  fits : ∀ rank < job.numImages, PhaseFits job.numImages (state.phase rank)
  started : ∀ rank < job.numImages,
    2 ≤ stage job.numImages (state.phase rank) →
    ∀ other < job.numImages, state.phase other ≠ .entering
  length : ∀ rank < job.numImages,
    (state.images rank).teamInfoList.length = job.numImages
  own : ∀ rank < job.numImages,
    2 ≤ stage job.numImages (state.phase rank) →
    state.phase rank ≠ .finished →
    (state.images rank).teamInfoList[0]? = some (job.info rank)
  polled : ∀ rank < job.numImages, ∀ round < maxRound job.numImages,
    3 * round + 5 ≤ stage job.numImages (state.phase rank) →
    (state.images rank).flagCoarray round ≠ 0
  link : ∀ sender < job.numImages, ∀ round < maxRound job.numImages,
    Link job state sender round
  quiet : ∀ sender receiver, state.inFlight (sender, receiver) ≠ [] →
    sender < job.numImages ∧ ∃ round < maxRound job.numImages,
      receiver = sendPeer job.numImages sender round
  unused : ∀ rank < job.numImages, state.phase rank ≠ .entering →
    ∀ round, maxRound job.numImages ≤ round → (state.images rank).flagCoarray round = 0
  finished : ∀ rank < job.numImages, state.phase rank = .finished →
    ∀ other < job.numImages,
      (state.images rank).teamInfoList[other]? = some (job.info other)

/-! ## Frames -/

variable {job : Job} {state after : State}

/-- A link whose sender, channel, flag cell and data are left as they are. -/
theorem Link.frame {sender round : Nat} (link : Link job state sender round)
    (idleStage :
      stage job.numImages (state.phase sender) ≤ 3 * round + 2 →
        stage job.numImages (after.phase sender) ≤ 3 * round + 2)
    (sendingStage :
      stage job.numImages (state.phase sender) = 3 * round + 3 →
        stage job.numImages (after.phase sender) = 3 * round + 3)
    (sentStage :
      3 * round + 4 ≤ stage job.numImages (state.phase sender) →
        3 * round + 4 ≤ stage job.numImages (after.phase sender))
    (channel :
      after.inFlight (sender, sendPeer job.numImages sender round) =
        state.inFlight (sender, sendPeer job.numImages sender round))
    (flag :
      (after.images (sendPeer job.numImages sender round)).flagCoarray round =
        (state.images (sendPeer job.numImages sender round)).flagCoarray round)
    (entered :
      after.phase (sendPeer job.numImages sender round) ≠ .entering →
        state.phase (sendPeer job.numImages sender round) ≠ .entering)
    (arrivals :
      RoundArrived job state (sendPeer job.numImages sender round) round →
        RoundArrived job after (sendPeer job.numImages sender round) round) :
    Link job after sender round := by
  cases link with
  | idle before empty clear =>
      exact .idle (idleStage before) (channel.trans empty)
        fun isEntered => flag.trans (clear (entered isEntered))
  | dataSent sending onTheWay clear =>
      exact .dataSent (sendingStage sending) (channel.trans onTheWay) (flag.trans clear)
  | dataArrived sending empty arrived clear =>
      exact .dataArrived (sendingStage sending) (channel.trans empty)
        (arrivals arrived) (flag.trans clear)
  | bothSent sent onTheWay clear =>
      exact .bothSent (sentStage sent) (channel.trans onTheWay) (flag.trans clear)
  | flagSent sent onTheWay arrived clear =>
      exact .flagSent (sentStage sent) (channel.trans onTheWay)
        (arrivals arrived) (flag.trans clear)
  | flagArrived sent empty arrived written =>
      exact .flagArrived (sentStage sent) (channel.trans empty)
        (arrivals arrived) (flag.trans written)

/-- What a step of one image changes, when it leaves its flags alone. -/
structure Advance (job : Job) (state after : State) (rank : Nat)
    (image : Image) : Prop where
  isImage : rank < job.numImages
  images : after.images = Function.update state.images rank image
  flags : image.flagCoarray = (state.images rank).flagCoarray
  entered : state.phase rank ≠ .entering
  notEntering : image.phase ≠ .entering
  channels : ∀ sender receiver, sender ≠ rank →
    after.inFlight (sender, receiver) = state.inFlight (sender, receiver)

namespace Advance

variable {rank : Nat} {image : Image}

section

variable (advance : Advance job state after rank image)

include advance

theorem image_self : after.images rank = image := by
  rw [advance.images, Function.update_self]

theorem phase_self :
    after.phase rank = image.phase := by
  rw [State.phase, advance.image_self]

theorem image_other {other : Nat} (distinct : other ≠ rank) :
    after.images other = state.images other := by
  rw [advance.images, Function.update_of_ne distinct]

theorem phase_other {other : Nat} (distinct : other ≠ rank) :
    after.phase other = state.phase other := by
  rw [State.phase, advance.image_other distinct, State.phase]

theorem flagCoarray (other : Nat) :
    (after.images other).flagCoarray = (state.images other).flagCoarray := by
  by_cases same : other = rank
  · rw [same, advance.image_self, advance.flags]
  · rw [advance.image_other same]

theorem phase_entered (other : Nat) :
    after.phase other ≠ .entering ↔ state.phase other ≠ .entering := by
  by_cases same : other = rank
  · rw [same, advance.phase_self]
    exact ⟨fun _ => advance.entered, fun _ => advance.notEntering⟩
  · rw [advance.phase_other same]

/-- The receiver of a link keeps what it has, if the stepping image does. -/
theorem roundArrived
    (kept : ∀ round < maxRound job.numImages,
      RoundArrived job state rank round → RoundArrived job after rank round)
    {receiver round : Nat} (isRound : round < maxRound job.numImages)
    (arrived : RoundArrived job state receiver round) :
    RoundArrived job after receiver round := by
  by_cases same : receiver = rank
  · subst same
    exact kept round isRound arrived
  · unfold RoundArrived at *
    rw [advance.phase_other same, advance.image_other same]
    exact arrived

/-- The invariant after such a step, from what it does to its own image. -/
theorem invariant (inv : Invariant job state) (fits : PhaseFits job.numImages image.phase)
    (started : ∀ other < job.numImages, state.phase other ≠ .entering)
    (length : image.teamInfoList.length = job.numImages)
    (own : image.phase ≠ .finished → image.teamInfoList[0]? = some (job.info rank))
    (polled : ∀ round < maxRound job.numImages,
      3 * round + 5 ≤ stage job.numImages image.phase →
      image.flagCoarray round ≠ 0)
    (finished : image.phase = .finished → ∀ other < job.numImages,
      image.teamInfoList[other]? = some (job.info other))
    (kept : ∀ round < maxRound job.numImages,
      RoundArrived job state rank round → RoundArrived job after rank round)
    (links : ∀ round < maxRound job.numImages,
      Link job state rank round → Link job after rank round)
    (quiet : ∀ receiver, after.inFlight (rank, receiver) ≠ [] →
      ∃ round < maxRound job.numImages, receiver = sendPeer job.numImages rank round) :
    Invariant job after := by
  constructor
  · intro other isOther
    by_cases same : other = rank
    · rw [same, advance.phase_self]
      exact fits
    · rw [advance.phase_other same]
      exact inv.fits other isOther
  · intro _ _ _ another isAnother
    exact (advance.phase_entered another).mpr (started another isAnother)
  · intro other isOther
    by_cases same : other = rank
    · rw [same, advance.image_self]
      exact length
    · rw [advance.image_other same]
      exact inv.length other isOther
  · intro other isOther atLeast unfinished
    by_cases same : other = rank
    · rw [same, advance.phase_self] at unfinished
      rw [same, advance.image_self]
      exact own unfinished
    · rw [advance.phase_other same] at atLeast unfinished
      rw [advance.image_other same]
      exact inv.own other isOther atLeast unfinished
  · intro other isOther round isRound atLeast
    by_cases same : other = rank
    · rw [same, advance.phase_self] at atLeast
      rw [same, advance.image_self]
      exact polled round isRound atLeast
    · rw [advance.phase_other same] at atLeast
      rw [advance.image_other same]
      exact inv.polled other isOther round isRound atLeast
  · intro sender isSender round isRound
    by_cases same : sender = rank
    · rw [same]
      exact links round isRound (inv.link rank advance.isImage round isRound)
    · have stageKept : stage job.numImages (after.phase sender) =
          stage job.numImages (state.phase sender) := by
        rw [advance.phase_other same]
      exact (inv.link sender isSender round isRound).frame
        (fun before => stageKept ▸ before)
        (fun sending => stageKept ▸ sending)
        (fun sent => stageKept ▸ sent)
        (advance.channels sender _ same)
        (by rw [advance.flagCoarray])
        (advance.phase_entered _).mp
        (advance.roundArrived kept isRound)
  · intro sender receiver occupied
    by_cases same : sender = rank
    · rw [same] at occupied ⊢
      exact ⟨advance.isImage, quiet receiver occupied⟩
    · rw [advance.channels sender receiver same] at occupied
      exact inv.quiet sender receiver occupied
  · intro other isOther isEntered round beyond
    rw [advance.flagCoarray]
    exact inv.unused other isOther ((advance.phase_entered other).mp isEntered) round beyond
  · intro other isOther isFinished
    by_cases same : other = rank
    · rw [same, advance.phase_self] at isFinished
      rw [same, advance.image_self]
      exact finished isFinished
    · rw [advance.phase_other same] at isFinished
      rw [advance.image_other same]
      exact inv.finished other isOther isFinished

end

end Advance

end OpenUH.Libcaf.BruckExchange
