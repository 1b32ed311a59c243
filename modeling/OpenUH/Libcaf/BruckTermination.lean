import OpenUH.Libcaf.BruckSteps

/-!
# Runs of the Bruck exchange

Every run comes to an end, and an image is stuck at the end only by a flag
whose low byte is zero.  The exchange is correct in every reachable state
exactly for the teams in which no round sends 256 infos.
-/

namespace OpenUH.Libcaf.BruckExchange

open Foundation.Transition
open Libcaf.TeamFormation

variable {job : Job} {state after : State}

/-! ## Every run comes to an end -/

theorem Invariant.stage_le (inv : Invariant job state) {rank : Nat}
    (isImage : rank < job.numImages) :
    stage job.numImages (state.phase rank) ≤ 3 * maxRound job.numImages + 3 := by
  have fits := inv.fits rank isImage
  cases phase : state.phase rank with
  | entering | reordering | finished => simp [stage]
  | syncing => simp only [stage]; omega
  | sendData round remSlots | sendFlag round remSlots | polling round remSlots =>
      rw [phase] at fits
      have isRound := fits.1
      simp only [stage]
      omega

/-- What the images have still to do. -/
def imagesLeft (job : Job) (state : State) : Nat :=
  ∑ rank ∈ Finset.range job.numImages,
    2 * (3 * maxRound job.numImages + 3 - stage job.numImages (state.phase rank))

/-- The writes in flight. -/
def writesLeft (job : Job) (state : State) : Nat :=
  ∑ pair ∈ Finset.range job.numImages ×ˢ Finset.range job.numImages,
    (state.inFlight pair).length

theorem Advance.imagesLeft_eq {rank : Nat} {image : Image}
    (advance : Advance job state after rank image)
    (bound : stage job.numImages image.phase ≤ 3 * maxRound job.numImages + 3)
    (next : stage job.numImages image.phase = stage job.numImages (state.phase rank) + 1) :
    imagesLeft job state = imagesLeft job after + 2 := by
  apply sum_eq_of_component rank (Finset.mem_range.mpr advance.isImage)
  · intro other _ distinct
    rw [advance.phase_other distinct]
  · rw [advance.phase_self]
    omega

theorem writesLeft_issue {rank receiver : Nat} {image : Image} {write : RemoteWrite}
    (isImage : rank < job.numImages) (isReceiver : receiver < job.numImages) :
    writesLeft job
        ((state.setImage rank image).issue rank receiver write) =
      writesLeft job state + 1 := by
  apply sum_eq_of_component (rank, receiver)
    (Finset.mem_product.mpr ⟨Finset.mem_range.mpr isImage, Finset.mem_range.mpr isReceiver⟩)
  · intro pair _ distinct
    simp [State.issue, State.setImage, Function.update_of_ne distinct]
  · simp [State.issue, State.setImage]

theorem Invariant.receiver_lt (inv : Invariant job state) (sender receiver : Nat)
    (occupied : state.inFlight (sender, receiver) ≠ []) :
    sender < job.numImages ∧ receiver < job.numImages := by
  obtain ⟨isSender, round, -, rfl⟩ := inv.quiet sender receiver occupied
  exact ⟨isSender, sendPeer_lt (by omega) sender round⟩

/-- A step without a remote write takes from what its image has to do. -/
theorem Advance.left_lt {rank : Nat} {image : Image} (advance : Advance job state after rank image)
    (invAfter : Invariant job after) (channels : after.inFlight = state.inFlight)
    (next : stage job.numImages image.phase = stage job.numImages (state.phase rank) + 1) :
    imagesLeft job after + writesLeft job after < imagesLeft job state + writesLeft job state := by
  have bound := invAfter.stage_le advance.isImage
  rw [advance.phase_self] at bound
  have images := advance.imagesLeft_eq bound next
  have writes : writesLeft job after = writesLeft job state := by
    rw [writesLeft, writesLeft, channels]
  omega

/-- A step that issues a write adds less to the writes than it takes. -/
theorem issue_left_lt {rank receiver : Nat} {phase : Phase} {write : RemoteWrite}
    (isImage : rank < job.numImages) (isReceiver : receiver < job.numImages)
    (invAfter : Invariant job
      ((state.setImage rank { state.images rank with phase := phase }).issue rank receiver write))
    (entered : state.phase rank ≠ .entering)
    (notEntering : phase ≠ .entering)
    (next : stage job.numImages phase = stage job.numImages (state.phase rank) + 1) :
    imagesLeft job
        ((state.setImage rank { state.images rank with phase := phase }).issue
          rank receiver write) +
      writesLeft job
        ((state.setImage rank { state.images rank with phase := phase }).issue
          rank receiver write) <
      imagesLeft job state + writesLeft job state := by
  have advance := advance_issue job state receiver
    { state.images rank with phase := phase } write isImage rfl entered
    notEntering
  have bound := invAfter.stage_le isImage
  rw [advance.phase_self] at bound
  have images := advance.imagesLeft_eq bound next
  rw [writesLeft_issue isImage isReceiver]
  omega

/-- Every step takes from what is left to do. -/
theorem Step.left_lt (step : Step job state after) (inv : Invariant job state) :
    imagesLeft job after + writesLeft job after < imagesLeft job state + writesLeft job state := by
  have invAfter := step.invariant inv
  cases step with
  | enter rank isImage here =>
      have images : imagesLeft job state =
          imagesLeft job
            (state.setImage rank
              { state.images rank with
                phase := .syncing
                flagCoarray := fun _ => 0 }) + 2 := by
        apply sum_eq_of_component rank (Finset.mem_range.mpr isImage)
        · intro other _ distinct
          simp [State.phase, setImage_images_other state distinct]
        · rw [here]
          simp only [State.phase, setImage_images_self, stage]
          omega
      have writes : writesLeft job
          (state.setImage rank
            { state.images rank with
              phase := .syncing
              flagCoarray := fun _ => 0 }) = writesLeft job state := rfl
      omega
  | leave rank isImage here arrived =>
      have stageNext := stage_loopHead (Nat.zero_le (maxRound job.numImages))
      rw [pow_zero] at stageNext
      have advance := advance_setImage job state
        { state.images rank with
          phase := loopHead job.numImages 0 (job.numImages - 1)
          teamInfoList :=
            storeInfos (state.images rank).teamInfoList 0 [job.info rank] }
        isImage rfl (by simp [here]) (loopHead_cases job.numImages 0).2.2
      apply advance.left_lt invAfter rfl
      rw [here]
      exact stageNext
  | sendData rank round remSlots isImage here | sendFlag rank round remSlots isImage here =>
      apply issue_left_lt isImage (sendPeer_lt (by omega) rank round) invAfter
      · simp [here]
      · simp
      · rw [here]
        rfl
  | poll rank round remSlots isImage here nonzero =>
      have fitsHere := inv.fits rank isImage
      rw [here] at fitsHere
      obtain ⟨isRound, rfl⟩ := fitsHere
      have stageNext := stage_loopHead (Nat.succ_le_of_lt isRound)
      have advance := advance_setImage job state
        { state.images rank with
          phase := loopHead job.numImages (round + 1) (job.numImages - 2 ^ (round + 1)) }
        isImage rfl (by simp [here])
        (loopHead_cases job.numImages (round + 1)).2.2
      apply advance.left_lt invAfter rfl
      rw [here]
      exact stageNext
  | reorder rank isImage here =>
      have advance := advance_setImage job state
        { state.images rank with
          phase := .finished
          teamInfoList :=
            BruckExchange.reorder job.numImages rank (state.images rank).teamInfoList }
        isImage rfl (by simp [here]) (by simp)
      apply advance.left_lt invAfter rfl
      rw [here]
      rfl
  | deliver sender receiver write rest oldest =>
      obtain ⟨isSender, isReceiver⟩ := inv.receiver_lt sender receiver (by rw [oldest]; simp)
      have images : imagesLeft job
          (state.delivered sender receiver write rest) =
          imagesLeft job state := by
        unfold imagesLeft
        simp only [delivered_phase]
      have writes : writesLeft job state =
          writesLeft job (state.delivered sender receiver write rest) + 1 := by
        apply sum_eq_of_component (sender, receiver)
          (Finset.mem_product.mpr ⟨Finset.mem_range.mpr isSender, Finset.mem_range.mpr isReceiver⟩)
        · intro pair _ distinct
          rw [delivered_inFlight_other state sender receiver write rest distinct]
        · rw [delivered_inFlight_self, oldest, List.length_cons]
      change imagesLeft job (state.delivered sender receiver write rest) +
          writesLeft job (state.delivered sender receiver write rest) <
        imagesLeft job state + writesLeft job state
      omega

/-- From every reachable state the exchange can run until nothing moves. -/
theorem exists_terminal (reached : Reachable (Initial job) (Step job) state) :
    ∃ last, Reachable (Initial job) (Step job) last ∧ ∀ after, ¬ Step job last after :=
  reached.exists_terminal
    (fun state => imagesLeft job state + writesLeft job state)
    fun _ _ before step => step.left_lt (reachable_invariant before)

/-- Where nothing moves, an image that is not done polls a zero byte. -/
theorem Invariant.phase_of_terminal (terminal : ∀ after, ¬ Step job state after)
    {rank : Nat} (isImage : rank < job.numImages) :
    state.phase rank = .finished ∨
      ∃ round remSlots, state.phase rank = .polling round remSlots := by
  have entered : ∀ other < job.numImages, state.phase other ≠ .entering := by
    intro other isOther here
    exact terminal _ (.enter state other isOther here)
  cases here : state.phase rank with
  | entering => exact absurd here (entered rank isImage)
  | syncing => exact absurd (.leave state rank isImage here entered) (terminal _)
  | sendData round remSlots =>
      exact absurd (.sendData state rank round remSlots isImage here) (terminal _)
  | sendFlag round remSlots =>
      exact absurd (.sendFlag state rank round remSlots isImage here) (terminal _)
  | polling round remSlots => exact Or.inr ⟨round, remSlots, rfl⟩
  | reordering =>
      exact absurd (.reorder state rank isImage here) (terminal _)
  | finished => exact Or.inl rfl

/-- A written flag whose polled byte is zero. -/
def UnseenFlag (job : Job) (state : State) : Prop :=
  ∃ rank < job.numImages, state.phase rank ≠ .entering ∧
    ∃ round, (state.images rank).flagCoarray round ≠ 0 ∧
      polledByte ((state.images rank).flagCoarray round) = 0

/-- An image is stuck only by a flag it cannot see. -/
theorem Invariant.unseenFlag_of_polling (inv : Invariant job state)
    (terminal : ∀ after, ¬ Step job state after) {round : Nat} : ∀ rank < job.numImages, ∀ remSlots,
      state.phase rank = .polling round remSlots → UnseenFlag job state := by
  induction round using Nat.strong_induction_on with
  | _ round ih =>
      intro rank isImage remSlots here
      have fitsHere := inv.fits rank isImage
      rw [here] at fitsHere
      have isRound := fitsHere.1
      have runs := lt_maxRound_iff.mp isRound
      have positive : 0 < job.numImages := by omega
      have isSender : (rank + 2 ^ round) % job.numImages < job.numImages := Nat.mod_lt _ positive
      have peer := sendPeer_sender runs isImage
      have drained : state.inFlight ((rank + 2 ^ round) % job.numImages, rank) = [] := by
        cases channel : state.inFlight ((rank + 2 ^ round) % job.numImages, rank) with
        | nil => rfl
        | cons write rest =>
            exact absurd (.deliver state _ _ write rest channel) (terminal _)
      have zeroByte : polledByte ((state.images rank).flagCoarray round) = 0 := by
        by_contra nonzero
        exact terminal _ (.poll state rank round remSlots isImage here nonzero)
      have ahead : (∃ earlier < round, ∃ otherRem,
            state.phase ((rank + 2 ^ round) % job.numImages) = .polling earlier otherRem) ∨
          3 * round + 4 ≤ stage job.numImages
            (state.phase ((rank + 2 ^ round) % job.numImages)) := by
        rcases Invariant.phase_of_terminal terminal isSender with
          isFinished | ⟨other, otherRem, isPolling⟩
        · right
          rw [isFinished]
          simp only [stage]
          omega
        · by_cases earlier : other < round
          · exact Or.inl ⟨other, earlier, otherRem, isPolling⟩
          · right
            rw [isPolling]
            simp only [stage]
            omega
      rcases ahead with ⟨earlier, isEarlier, otherRem, isPolling⟩ | sent
      · exact ih earlier isEarlier _ isSender otherRem isPolling
      · have link := inv.link _ isSender round isRound
        cases link with
        | idle | dataSent | dataArrived => omega
        | bothSent _ onTheWay _ =>
            rw [peer, drained] at onTheWay
            cases onTheWay
        | flagSent _ onTheWay _ _ =>
            rw [peer, drained] at onTheWay
            cases onTheWay
        | flagArrived _ _ _ written =>
            rw [peer] at written
            have value := amount_pos runs
            refine ⟨rank, isImage, by simp [here], round, ?_, zeroByte⟩
            rw [written]
            omega

/-! ## The flag values -/

theorem polledByte_amount {numImages round : Nat}
    (few : numImages < 512) (runs : 2 ^ round < numImages) :
    polledByte (amount numImages round) ≠ 0 := by
  have positive := amount_pos runs
  have atMost := amount_le_pow numImages round
  have fits : amount numImages round ≤ numImages - 2 ^ round := by
    unfold amount numData
    split <;> omega
  unfold polledByte
  omega

/-- In round 8 a team of 512 images or more sends 256 infos. -/
theorem amount_eight {numImages : Nat} (many : 512 ≤ numImages) : amount numImages 8 = 256 := by
  unfold amount numData
  rw [if_pos (by omega)]
  rfl

/-- A round past the eighth is reached, and its flag is never seen. -/
theorem exists_unseenFlag (job : Job) (many : 512 ≤ job.numImages) :
    ∃ last, Reachable (Initial job) (Step job) last ∧ UnseenFlag job last := by
  have start : Initial job
      { images := fun _ =>
          { phase := .entering
            teamInfoList :=
              List.replicate job.numImages { teamId := 0, index := 0 }
            flagCoarray := fun _ => 0 }
        inFlight := fun _ => [] } :=
    ⟨fun _ => rfl, fun _ => rfl, fun _ => rfl⟩
  obtain ⟨last, reached, terminal⟩ := exists_terminal (.start start)
  have inv := reachable_invariant reached
  refine ⟨last, reached, ?_⟩
  have isImage : 0 < job.numImages := by omega
  rcases Invariant.phase_of_terminal terminal isImage with
    isFinished | ⟨round, remSlots, isPolling⟩
  · have isRound : 8 < maxRound job.numImages := lt_maxRound_iff.mpr (by omega)
    have nonzero := inv.polled 0 isImage 8 isRound (by rw [isFinished]; simp only [stage]; omega)
    have value := (inv.flagArrived isImage isRound (by simp [isFinished]) nonzero).2.1
    rw [amount_eight many] at value
    refine ⟨0, isImage, by simp [isFinished], 8, nonzero, ?_⟩
    rw [value]
    rfl
  · exact inv.unseenFlag_of_polling terminal 0 isImage remSlots isPolling

/-! ## Correctness -/

/-- A write in flight is one of the two writes of a round. -/
theorem Invariant.inFlight_cases (inv : Invariant job state)
    {pair : Nat × Nat} {write : RemoteWrite} (onTheWay : write ∈ state.inFlight pair) :
    ∃ round, 2 ^ round < job.numImages ∧
      (write = dataWrite job pair.1 round ∨ write = flagWrite job round) := by
  rcases pair with ⟨sender, receiver⟩
  obtain ⟨isSender, round, isRound, rfl⟩ := inv.quiet sender receiver (List.ne_nil_of_mem onTheWay)
  refine ⟨round, lt_maxRound_iff.mp isRound, ?_⟩
  cases inv.link sender isSender round isRound with
  | idle _ empty _ => simp [empty] at onTheWay
  | dataSent _ channel _ => simpa [channel] using Or.inl onTheWay
  | dataArrived _ empty _ _ => simp [empty] at onTheWay
  | bothSent _ channel _ => simpa [channel] using onTheWay
  | flagSent _ channel _ _ =>
      rw [channel, List.mem_singleton] at onTheWay
      exact Or.inr onTheWay
  | flagArrived _ empty _ _ => simp [empty] at onTheWay

/-- Lists and writes are right in every team; the flags in a small one. -/
theorem Invariant.correct (inv : Invariant job state)
    (few : job.numImages < 512) : ExchangeCorrect job state where
  finished := inv.finished
  inside := by
    intro pair start values onTheWay
    obtain ⟨round, runs, isData | isFlag⟩ := inv.inFlight_cases onTheWay
    · cases isData
      rw [List.length_map, List.length_range, pow_add_amount runs]
      exact Nat.min_le_right _ _
    · cases isFlag
  polls := by
    intro pair round value onTheWay
    obtain ⟨_, runs, isData | isFlag⟩ := inv.inFlight_cases onTheWay
    · cases isData
    · cases isFlag
      exact polledByte_amount few runs
  polled := by
    intro rank isImage entered round nonzero
    by_cases isRound : round < maxRound job.numImages
    · rw [(inv.flagArrived isImage isRound entered nonzero).2.1]
      exact polledByte_amount few (lt_maxRound_iff.mp isRound)
    · exact absurd (inv.unused rank isImage entered round (Nat.not_lt.mp isRound)) nonzero

/-- In a team of fewer than 512 images a run ends with every image done. -/
theorem all_finished_of_terminal (few : job.numImages < 512)
    (reached : Reachable (Initial job) (Step job) state)
    (terminal : ∀ after, ¬ Step job state after) {rank : Nat} (isImage : rank < job.numImages) :
    state.phase rank = .finished := by
  have inv := reachable_invariant reached
  rcases Invariant.phase_of_terminal terminal isImage with
    isFinished | ⟨round, remSlots, isPolling⟩
  · exact isFinished
  · obtain ⟨other, isOther, entered, seen, nonzero, zeroByte⟩ :=
      inv.unseenFlag_of_polling terminal rank isImage remSlots isPolling
    exact absurd zeroByte ((inv.correct few).polled other isOther entered seen nonzero)

theorem UnseenFlag.not_correct (unseen : UnseenFlag job state) : ¬ ExchangeCorrect job state := by
  intro correct
  obtain ⟨rank, isImage, entered, round, nonzero, zeroByte⟩ := unseen
  exact correct.polled rank isImage entered round nonzero zeroByte

/--
The exchange is correct in every state of every run of a team exactly when
the team has fewer than 512 images.
-/
theorem exchange_correct_iff (job : Job) :
    (∀ state, Reachable (Initial job) (Step job) state →
      ExchangeCorrect job state) ↔ job.numImages < 512 := by
  constructor
  · intro correct
    by_contra many
    obtain ⟨last, reached, unseen⟩ := exists_unseenFlag job (Nat.not_lt.mp many)
    exact unseen.not_correct (correct last reached)
  · intro few state reached
    exact (reachable_invariant reached).correct few

/-- A team of 512 images, with the same choice on each. -/
def team512 : Job where
  numImages := 512
  info := fun _ => { teamId := 1, index := 0 }

/-- Its flag of round 8 holds 256, of which the poll reads a zero byte. -/
theorem exchange_team512_not_correct :
    ¬ ∀ state, Reachable (Initial team512) (Step team512) state →
      ExchangeCorrect team512 state := by
  intro correct
  obtain ⟨last, reached, unseen⟩ := exists_unseenFlag team512 (Nat.le_refl 512)
  exact unseen.not_correct (correct last reached)

/--
In a team of fewer than 512 images every run that moves on while it can comes
to a state in which each image is done and holds the info of every image.
-/
theorem exchange_completes (few : job.numImages < 512) {run : Nat → State}
    (starts : Initial job (run 0))
    (movesOn : ∀ time, (∃ after, Step job (run time) after) → Step job (run time) (run (time + 1))) :
    ∃ time, ∀ rank < job.numImages, (run time).phase rank = .finished ∧
      ∀ other < job.numImages,
        ((run time).images rank).teamInfoList[other]? = some (job.info other) := by
  obtain ⟨time, reached, terminal⟩ := Reachable.exists_stuck
    (fun state => imagesLeft job state + writesLeft job state)
    (fun _ _ before step => step.left_lt (reachable_invariant before)) starts movesOn
  refine ⟨time, fun rank isImage => ?_⟩
  have isFinished := all_finished_of_terminal few reached terminal isImage
  exact ⟨isFinished, (reachable_invariant reached).finished rank isImage isFinished⟩

/-- Three images that all ask for team 2, each with an index of its own. -/
def team3 : Job where
  numImages := 3
  info := fun rank => { teamId := 2, index := rank + 1 }

theorem exchange_completes_team3 :
    ∃ run : Nat → State, Initial team3 (run 0) ∧
      ∃ time, ((run time).images 2).teamInfoList[1]? = some { teamId := 2, index := 2 } := by
  obtain ⟨run, first, movesOn⟩ := exists_run (Step team3)
    { images := fun _ => ⟨.entering, List.replicate 3 ⟨0, 0⟩, fun _ => 0⟩
      inFlight := fun _ => [] }
  have starts : Initial team3 (run 0) := by
    rw [first]
    exact ⟨fun _ => rfl, fun _ => rfl, fun _ => rfl⟩
  obtain ⟨time, done⟩ := exchange_completes (by decide) starts movesOn
  exact ⟨run, starts, time, (done 2 (by decide)).2 1 (by decide)⟩

end OpenUH.Libcaf.BruckExchange
