import OpenUH.Libcaf.BruckInvariant

/-!
# The steps of the Bruck exchange

Every step of an image and every delivery of a write keeps the invariant, so
that it holds in every reachable state.
-/

namespace OpenUH.Libcaf.BruckExchange

open Foundation.Transition
open Libcaf.TeamFormation

variable {job : Job} {state after : State}

/-! ## What a flag tells its reader -/

/-- A nonzero flag has followed the infos of its round. -/
theorem Invariant.flagArrived (inv : Invariant job state)
    {receiver round : Nat} (isReceiver : receiver < job.numImages)
    (isRound : round < maxRound job.numImages) (entered : state.phase receiver ≠ .entering)
    (nonzero : (state.images receiver).flagCoarray round ≠ 0) :
    RoundArrived job state receiver round ∧
      (state.images receiver).flagCoarray round = amount job.numImages round ∧
      state.inFlight ((receiver + 2 ^ round) % job.numImages, receiver) = [] := by
  have runs := lt_maxRound_iff.mp isRound
  have positive : 0 < job.numImages := by omega
  have peer := sendPeer_sender runs isReceiver
  have link := inv.link ((receiver + 2 ^ round) % job.numImages)
    (Nat.mod_lt _ positive) round isRound
  cases link with
  | idle before empty clear =>
      rw [peer] at clear
      exact absurd (clear entered) nonzero
  | dataSent sending onTheWay clear | dataArrived sending empty arrived clear
  | bothSent sent onTheWay clear | flagSent sent onTheWay arrived clear =>
      rw [peer] at clear
      exact absurd clear nonzero
  | flagArrived sent empty arrived written =>
      rw [peer] at empty arrived written
      exact ⟨arrived, written, empty⟩

/-- At the start of a round the image holds a prefix of its list. -/
theorem Invariant.received (inv : Invariant job state)
    {rank round : Nat} (isImage : rank < job.numImages) (atRound : round ≤ maxRound job.numImages)
    (reached : 3 * round + 2 ≤ stage job.numImages (state.phase rank))
    (unfinished : state.phase rank ≠ .finished) {position : Nat} (inPrefix : position < 2 ^ round)
    (inList : position < job.numImages) :
    (state.images rank).teamInfoList[position]? =
      some (job.info ((rank + position) % job.numImages)) := by
  have entered : state.phase rank ≠ .entering := by
    intro entering
    rw [entering] at reached
    simp [stage] at reached
  rcases Nat.eq_zero_or_pos position with zero | positive
  · rw [zero, Nat.add_zero, Nat.mod_eq_of_lt isImage]
    exact inv.own rank isImage (by omega) unfinished
  · obtain ⟨runs, lower, upper⟩ := round_of_position positive inList
    have earlier : Nat.log 2 position < round :=
      (Nat.pow_lt_pow_iff_right (by decide : 1 < 2)).mp (Nat.lt_of_le_of_lt lower inPrefix)
    have isRound : Nat.log 2 position < maxRound job.numImages := by omega
    have nonzero := inv.polled rank isImage _ isRound (by omega)
    exact (inv.flagArrived isImage isRound entered nonzero).1 unfinished position lower upper

/-! ## Steps of one image -/

theorem stage_loopHead {numImages round : Nat} (atRound : round ≤ maxRound numImages) :
    stage numImages (loopHead numImages round (numImages - 2 ^ round)) = 3 * round + 2 := by
  rw [loopHead_next]
  by_cases runs : round < maxRound numImages
  · rw [if_pos runs]
    rfl
  · rw [if_neg runs]
    have last : maxRound numImages = round := by omega
    simp [stage, last]

theorem loopHead_cases (numImages round : Nat) :
    PhaseFits numImages (loopHead numImages round (numImages - 2 ^ round)) ∧
      loopHead numImages round (numImages - 2 ^ round) ≠ .finished ∧
      loopHead numImages round (numImages - 2 ^ round) ≠ .entering := by
  rw [loopHead_next]
  by_cases runs : round < maxRound numImages
  · rw [if_pos runs]
    exact ⟨⟨runs, rfl⟩, by simp, by simp⟩
  · rw [if_neg runs]
    exact ⟨trivial, by simp, by simp⟩

@[simp]
theorem setImage_images_self (state : State) (rank : Nat) (image : Image) :
    (state.setImage rank image).images rank = image := by
  simp [State.setImage]

@[simp]
theorem setImage_inFlight (state : State) (rank : Nat) (image : Image) :
    (state.setImage rank image).inFlight = state.inFlight := rfl

theorem setImage_images_other (state : State) {rank other : Nat}
    (distinct : other ≠ rank) (image : Image) :
    (state.setImage rank image).images other = state.images other := by
  simp [State.setImage, Function.update_of_ne distinct]

/-- Before the synchronization, clearing the flags changes nothing else. -/
theorem Invariant.enter (inv : Invariant job state) {rank : Nat} (isImage : rank < job.numImages)
    (here : state.phase rank = .entering) :
    Invariant job
      (state.setImage rank
        { state.images rank with
          phase := .syncing
          flagCoarray := fun _ => 0 }) := by
  have early : ∀ other < job.numImages, stage job.numImages (state.phase other) < 2 := by
    intro other isOther
    by_contra late
    exact inv.started other isOther (by omega) rank isImage here
  generalize equality : state.setImage rank
    { state.images rank with
      phase := .syncing
      flagCoarray := fun _ => 0 } = after
  have imageHere : after.images rank =
      { state.images rank with
        phase := .syncing
        flagCoarray := fun _ => 0 } := by
    rw [← equality, setImage_images_self]
  have phaseHere : after.phase rank = .syncing := by
    rw [State.phase, imageHere]
  have imageOther : ∀ other, other ≠ rank → after.images other = state.images other := by
    intro other distinct
    rw [← equality, setImage_images_other _ distinct]
  have phaseOther : ∀ other, other ≠ rank → after.phase other = state.phase other := by
    intro other distinct
    rw [State.phase, imageOther other distinct, State.phase]
  have earlyAfter : ∀ other < job.numImages, stage job.numImages (after.phase other) < 2 := by
    intro other isOther
    by_cases same : other = rank
    · rw [same, phaseHere]
      exact Nat.lt_succ_self 1
    · rw [phaseOther other same]
      exact early other isOther
  have channels : after.inFlight = state.inFlight := by
    rw [← equality, setImage_inFlight]
  constructor
  · intro other isOther
    by_cases same : other = rank
    · rw [same, phaseHere]
      trivial
    · rw [phaseOther other same]
      exact inv.fits other isOther
  · intro other isOther late
    have notLate := earlyAfter other isOther
    omega
  · intro other isOther
    by_cases same : other = rank
    · rw [same, imageHere]
      exact inv.length rank isImage
    · rw [imageOther other same]
      exact inv.length other isOther
  · intro other isOther late
    have notLate := earlyAfter other isOther
    omega
  · intro other isOther round _ late
    have notLate := earlyAfter other isOther
    omega
  · intro sender isSender round isRound
    have notLate := early sender isSender
    have notLateAfter := earlyAfter sender isSender
    have link := inv.link sender isSender round isRound
    cases link with
    | idle before empty clear =>
        refine .idle (by omega) (by rw [channels]; exact empty) ?_
        intro enteredAfter
        by_cases same : sendPeer job.numImages sender round = rank
        · rw [same, imageHere]
        · rw [imageOther _ same]
          rw [phaseOther _ same] at enteredAfter
          exact clear enteredAfter
    | dataSent | dataArrived | bothSent | flagSent | flagArrived => omega
  · rw [channels]
    exact inv.quiet
  · intro other isOther entered round beyond
    by_cases same : other = rank
    · rw [same, imageHere]
    · rw [imageOther other same]
      rw [phaseOther other same] at entered
      exact inv.unused other isOther entered round beyond
  · intro other isOther isFinished
    by_cases same : other = rank
    · rw [same, phaseHere] at isFinished
      cases isFinished
    · rw [phaseOther other same] at isFinished
      rw [imageOther other same]
      exact inv.finished other isOther isFinished

/-- A step that issues no write advances its own image only. -/
theorem advance_setImage (job : Job) (state : State) {rank : Nat}
    (image : Image) (isImage : rank < job.numImages)
    (flags : image.flagCoarray = (state.images rank).flagCoarray)
    (entered : state.phase rank ≠ .entering) (notEntering : image.phase ≠ .entering) :
    Advance job state (state.setImage rank image) rank image where
  isImage := isImage
  images := rfl
  flags := flags
  entered := entered
  notEntering := notEntering
  channels := fun _ _ _ => rfl

/-- A link of the stepping image, when its channels are left alone. -/
theorem Advance.link_local {rank round : Nat} {image : Image}
    (advance : Advance job state after rank image) (channels : after.inFlight = state.inFlight)
    (kept : ∀ round < maxRound job.numImages,
      RoundArrived job state rank round → RoundArrived job after rank round)
    (isRound : round < maxRound job.numImages)
    (next : stage job.numImages image.phase = stage job.numImages (state.phase rank) + 1)
    (notSending :
      stage job.numImages (state.phase rank) ≠ 3 * round + 2 ∧
        stage job.numImages (state.phase rank) ≠ 3 * round + 3)
    (link : Link job state rank round) :
    Link job after rank round := by
  have stageAfter : stage job.numImages (after.phase rank) =
      stage job.numImages (state.phase rank) + 1 := by
    rw [advance.phase_self, next]
  apply link.frame
  · omega
  · omega
  · omega
  · rw [channels]
  · rw [advance.flagCoarray]
  · exact (advance.phase_entered _).mp
  · exact advance.roundArrived kept isRound

theorem Invariant.leave (inv : Invariant job state) {rank : Nat} (isImage : rank < job.numImages)
    (here : state.phase rank = .syncing)
    (arrived : ∀ other < job.numImages, state.phase other ≠ .entering) :
    Invariant job
      (state.setImage rank
        { state.images rank with
          phase := loopHead job.numImages 0 (job.numImages - 1)
          teamInfoList :=
            storeInfos (state.images rank).teamInfoList 0 [job.info rank] }) := by
  have length := inv.length rank isImage
  obtain ⟨fits, notFinished, notEntering⟩ := loopHead_cases job.numImages 0
  have stageNext := stage_loopHead (Nat.zero_le (maxRound job.numImages))
  rw [pow_zero] at fits notFinished notEntering stageNext
  have inside : 0 + [job.info rank].length ≤ (state.images rank).teamInfoList.length := by
    rw [length, List.length_singleton]
    omega
  have advance := advance_setImage job state
    { state.images rank with
      phase := loopHead job.numImages 0 (job.numImages - 1)
      teamInfoList :=
        storeInfos (state.images rank).teamInfoList 0 [job.info rank] }
    isImage rfl (by simp [here]) notEntering
  have kept : ∀ round < maxRound job.numImages,
      RoundArrived job state rank round →
      RoundArrived job
        (state.setImage rank
          { state.images rank with
            phase := loopHead job.numImages 0 (job.numImages - 1)
            teamInfoList :=
              storeInfos (state.images rank).teamInfoList 0 [job.info rank] }) rank round := by
    intro round _ roundArrived _ position lower upper
    have offset : 0 < 2 ^ round := Nat.two_pow_pos round
    rw [setImage_images_self, getElem?_storeInfos inside,
      if_neg (by rw [List.length_singleton]; omega)]
    exact roundArrived (by simp [here]) position lower upper
  apply advance.invariant inv fits arrived
  · rw [length_storeInfos inside, length]
  · intro _
    rw [getElem?_storeInfos inside, if_pos (by simp)]
    rfl
  · intro round _ late
    rw [stageNext] at late
    omega
  · intro isFinished
    exact absurd isFinished notFinished
  · exact kept
  · intro round isRound
    apply advance.link_local rfl kept isRound
    · rw [stageNext, here]
      rfl
    · rw [here]
      simp only [stage]
      omega
  · intro receiver occupied
    exact (inv.quiet rank receiver occupied).2

theorem Invariant.poll (inv : Invariant job state) {rank round remSlots : Nat}
    (isImage : rank < job.numImages) (here : state.phase rank = .polling round remSlots)
    (nonzero : polledByte ((state.images rank).flagCoarray round) ≠ 0) :
    Invariant job
      (state.setImage rank
        { state.images rank with
          phase := loopHead job.numImages (round + 1) remSlots }) := by
  have fitsHere := inv.fits rank isImage
  rw [here] at fitsHere
  obtain ⟨isRound, rfl⟩ := fitsHere
  have stageHere : stage job.numImages (state.phase rank) = 3 * round + 4 := by rw [here]; rfl
  obtain ⟨fits, notFinished, notEntering⟩ := loopHead_cases job.numImages (round + 1)
  have stageNext := stage_loopHead (Nat.succ_le_of_lt isRound)
  have advance := advance_setImage job state
    { state.images rank with
      phase := loopHead job.numImages (round + 1) (job.numImages - 2 ^ (round + 1)) }
    isImage rfl (by simp [here]) notEntering
  have kept : ∀ other < maxRound job.numImages,
      RoundArrived job state rank other →
      RoundArrived job
        (state.setImage rank
          { state.images rank with
            phase := loopHead job.numImages (round + 1)
              (job.numImages - 2 ^ (round + 1)) }) rank other := by
    intro other _ roundArrived _ position lower upper
    rw [setImage_images_self]
    exact roundArrived (by simp [here]) position lower upper
  apply advance.invariant inv fits
  · exact inv.started rank isImage (by omega)
  · exact inv.length rank isImage
  · intro _
    exact inv.own rank isImage (by omega) (by simp [here])
  · intro other isOther late
    rw [stageNext] at late
    by_cases same : other = round
    · subst same
      intro zero
      rw [zero] at nonzero
      exact nonzero rfl
    · exact inv.polled rank isImage other isOther (by omega)
  · intro isFinished
    exact absurd isFinished notFinished
  · exact kept
  · intro other isOther
    apply advance.link_local rfl kept isOther
    · rw [stageNext, stageHere]
      omega
    · rw [stageHere]
      omega
  · intro receiver occupied
    exact (inv.quiet rank receiver occupied).2

/-- An image that reorders has received its whole list, rotated. -/
theorem Invariant.reorder (inv : Invariant job state) {rank : Nat} (isImage : rank < job.numImages)
    (here : state.phase rank = .reordering) :
    Invariant job
      (state.setImage rank
        { state.images rank with
          phase := .finished
          teamInfoList :=
            reorder job.numImages rank (state.images rank).teamInfoList }) := by
  have stageHere : stage job.numImages (state.phase rank) =
      3 * maxRound job.numImages + 2 := by rw [here]; rfl
  have length := inv.length rank isImage
  have positions : ∀ position < job.numImages,
      (BruckExchange.reorder job.numImages rank
        (state.images rank).teamInfoList)[position]? = some (job.info position) := by
    intro position inList
    have covered : job.numImages ≤ 2 ^ maxRound job.numImages :=
      Nat.le_pow_clog (by decide) job.numImages
    have rotated : (position + (job.numImages - rank)) % job.numImages <
        job.numImages := Nat.mod_lt _ (by omega)
    rw [getElem?_reorder isImage length inList,
      inv.received isImage (Nat.le_refl _) (by omega) (by simp [here]) (by omega) rotated]
    congr 2
    rw [Nat.add_mod_mod]
    have whole : rank + (position + (job.numImages - rank)) = position + job.numImages := by omega
    rw [whole, Nat.add_mod_right, Nat.mod_eq_of_lt inList]
  have advance := advance_setImage job state
    { state.images rank with
      phase := .finished
      teamInfoList :=
        BruckExchange.reorder job.numImages rank (state.images rank).teamInfoList }
    isImage rfl (by simp [here]) (by simp)
  have kept : ∀ round < maxRound job.numImages,
      RoundArrived job state rank round →
      RoundArrived job
        (state.setImage rank
          { state.images rank with
            phase := .finished
            teamInfoList :=
              BruckExchange.reorder job.numImages rank
                (state.images rank).teamInfoList }) rank round := by
    intro round _ _ unfinished
    exact absurd (by simp [State.phase]) unfinished
  apply advance.invariant inv trivial
  · exact inv.started rank isImage (by omega)
  · simp only [BruckExchange.reorder]
    split
    · rw [List.length_append, List.length_take, List.length_drop, List.length_take]
      omega
    · exact length
  · intro unfinished
    exact absurd rfl unfinished
  · intro round isRound _
    exact inv.polled rank isImage round isRound (by omega)
  · intro _
    exact positions
  · exact kept
  · intro round isRound
    apply advance.link_local rfl kept isRound
    · rw [stageHere]
      rfl
    · rw [stageHere]
      omega
  · intro receiver occupied
    exact (inv.quiet rank receiver occupied).2

/-! ## Issuing writes -/

theorem advance_issue (job : Job) (state : State) {rank : Nat}
    (receiver : Nat) (image : Image) (write : RemoteWrite) (isImage : rank < job.numImages)
    (flags : image.flagCoarray = (state.images rank).flagCoarray)
    (entered : state.phase rank ≠ .entering) (notEntering : image.phase ≠ .entering) :
    Advance job state ((state.setImage rank image).issue rank receiver write) rank image where
  isImage := isImage
  images := rfl
  flags := flags
  entered := entered
  notEntering := notEntering
  channels := by
    intro sender other distinct
    simp [State.issue, distinct]

theorem issue_inFlight_self (state : State) (rank receiver : Nat)
    (image : Image) (write : RemoteWrite) :
    ((state.setImage rank image).issue rank receiver write).inFlight
        (rank, receiver) =
      state.inFlight (rank, receiver) ++ [write] := by
  simp [State.issue]

theorem issue_inFlight_other (state : State) {rank receiver other : Nat}
    (distinct : other ≠ receiver) (image : Image) (write : RemoteWrite) :
    ((state.setImage rank image).issue rank receiver write).inFlight
        (rank, other) =
      state.inFlight (rank, other) := by
  simp [State.issue, distinct]

theorem issue_flagCoarray (state : State) (rank receiver other : Nat)
    (phase : Phase) (write : RemoteWrite) :
    (((state.setImage rank { state.images rank with phase := phase }).issue
        rank receiver write).images other).flagCoarray =
      (state.images other).flagCoarray := by
  by_cases same : other = rank
  · simp [State.issue, State.setImage, same]
  · simp [State.issue, State.setImage, same]

theorem issue_roundArrived {rank receiver other round : Nat} {phase : Phase} {write : RemoteWrite}
    (unfinished : state.phase rank ≠ .finished) (arrived : RoundArrived job state other round) :
    RoundArrived job
      ((state.setImage rank { state.images rank with phase := phase }).issue
        rank receiver write) other round := by
  intro notFinished position lower upper
  by_cases same : other = rank
  · subst same
    simpa [State.issue, State.setImage] using arrived unfinished position lower upper
  · have phaseOther : state.phase other ≠ .finished := by
      simpa [State.phase, State.issue, State.setImage, same] using notFinished
    simpa [State.issue, State.setImage, same] using arrived phaseOther position lower upper

/-- A step that issues one of the two writes of a round. -/
theorem Invariant.issue (inv : Invariant job state)
    {rank round : Nat} {phase : Phase} {write : RemoteWrite}
    (isImage : rank < job.numImages) (isRound : round < maxRound job.numImages)
    (here : 3 * round + 2 ≤ stage job.numImages (state.phase rank) ∧
      stage job.numImages (state.phase rank) ≤ 3 * round + 3)
    (unfinished : state.phase rank ≠ .finished)
    (fits : PhaseFits job.numImages phase)
    (next : stage job.numImages phase = stage job.numImages (state.phase rank) + 1)
    (notFinished : phase ≠ .finished)
    (link : Link job state rank round →
      Link job
        ((state.setImage rank { state.images rank with phase := phase }).issue
          rank (sendPeer job.numImages rank round) write) rank round) :
    Invariant job
      ((state.setImage rank { state.images rank with phase := phase }).issue
        rank (sendPeer job.numImages rank round) write) := by
  have entered : state.phase rank ≠ .entering := by
    intro entering
    rw [entering] at here
    simp only [stage] at here
    omega
  have notEntering : phase ≠ .entering := by
    intro entering
    rw [entering] at next
    simp only [stage] at next
    omega
  have advance := advance_issue job state (sendPeer job.numImages rank round)
    { state.images rank with phase := phase } write isImage rfl entered
    notEntering
  generalize equality :
    (state.setImage rank { state.images rank with phase := phase }).issue
      rank (sendPeer job.numImages rank round) write = after at *
  have listHere : (after.images rank).teamInfoList =
      (state.images rank).teamInfoList := by rw [advance.image_self]
  have kept : ∀ other < maxRound job.numImages,
      RoundArrived job state rank other → RoundArrived job after rank other := by
    intro other _ roundArrived _ position lower upper
    rw [listHere]
    exact roundArrived unfinished position lower upper
  have otherChannel : ∀ receiver,
      receiver ≠ sendPeer job.numImages rank round →
      after.inFlight (rank, receiver) = state.inFlight (rank, receiver) := by
    intro receiver distinct
    rw [← equality, issue_inFlight_other _ distinct]
  apply advance.invariant inv fits
  · exact inv.started rank isImage (by omega)
  · exact inv.length rank isImage
  · intro _
    exact inv.own rank isImage (by omega) unfinished
  · intro other isOther late
    have lateHere : 3 * other + 5 ≤ stage job.numImages (state.phase rank) := by
      simp only [next] at late
      omega
    exact inv.polled rank isImage other isOther lateHere
  · intro isFinished
    exact absurd isFinished notFinished
  · exact kept
  · intro other isOther linkHere
    by_cases same : other = round
    · rw [same] at linkHere ⊢
      exact link linkHere
    · have stageAfter : stage job.numImages (after.phase rank) =
          stage job.numImages (state.phase rank) + 1 := by
        rw [advance.phase_self]
        exact next
      have otherPeer : sendPeer job.numImages rank other ≠ sendPeer job.numImages rank round := by
        intro samePeer
        exact same (sendPeer_injective isImage (lt_maxRound_iff.mp isOther)
          (lt_maxRound_iff.mp isRound) samePeer)
      apply linkHere.frame
      · omega
      · omega
      · omega
      · exact otherChannel _ otherPeer
      · rw [advance.flagCoarray]
      · exact (advance.phase_entered _).mp
      · exact advance.roundArrived kept isOther
  · intro receiver occupied
    by_cases samePeer : receiver = sendPeer job.numImages rank round
    · exact ⟨round, isRound, samePeer⟩
    · rw [otherChannel receiver samePeer] at occupied
      exact (inv.quiet rank receiver occupied).2

theorem Invariant.sendData (inv : Invariant job state) {rank round remSlots : Nat}
    (isImage : rank < job.numImages) (here : state.phase rank = .sendData round remSlots) :
    Invariant job
      ((state.setImage rank
        { state.images rank with phase := .sendFlag round remSlots }).issue
          rank (sendPeer job.numImages rank round)
          (.infos (job.numImages - remSlots)
            ((state.images rank).teamInfoList.take (numData round remSlots)))) := by
  have fitsHere := inv.fits rank isImage
  rw [here] at fitsHere
  obtain ⟨isRound, rfl⟩ := fitsHere
  have runs := lt_maxRound_iff.mp isRound
  have stageHere : stage job.numImages (state.phase rank) = 3 * round + 2 := by rw [here]; rfl
  have start : job.numImages - (job.numImages - 2 ^ round) = 2 ^ round := Nat.sub_sub_self runs.le
  have forwarded :
      (state.images rank).teamInfoList.take (amount job.numImages round) =
        (List.range (amount job.numImages round)).map
          fun position => job.info ((rank + position) % job.numImages) := by
    apply List.ext_getElem?
    intro position
    have atMost := amount_le_pow job.numImages round
    by_cases sent : position < amount job.numImages round
    · rw [List.getElem?_take_of_lt sent, List.getElem?_map, List.getElem?_range sent]
      exact inv.received isImage isRound.le stageHere.ge (by simp [here]) (by omega) (by omega)
    · rw [List.getElem?_eq_none (by rw [List.length_take]; omega),
        List.getElem?_eq_none (by simp; omega)]
  have written :
      RemoteWrite.infos (job.numImages - (job.numImages - 2 ^ round))
          ((state.images rank).teamInfoList.take (numData round (job.numImages - 2 ^ round))) =
        dataWrite job rank round := by
    rw [start, dataWrite, ← forwarded]
    rfl
  rw [written]
  apply inv.issue isImage isRound (by omega) (by simp [here])
  · exact ⟨isRound, rfl⟩
  · rw [stageHere]
    rfl
  · simp
  · intro link
    cases link with
    | idle before empty clear =>
        refine .dataSent ?_ ?_ ?_
        · simp [State.phase, State.issue, stage]
        · rw [issue_inFlight_self, empty, List.nil_append]
        · rw [issue_flagCoarray]
          exact clear (inv.started rank isImage (by omega) _ (sendPeer_lt (by omega) rank round))
    | dataSent | dataArrived | bothSent | flagSent | flagArrived => omega

theorem Invariant.sendFlag (inv : Invariant job state) {rank round remSlots : Nat}
    (isImage : rank < job.numImages) (here : state.phase rank = .sendFlag round remSlots) :
    Invariant job
      ((state.setImage rank
        { state.images rank with
          phase := .polling round (remSlots - numData round remSlots) }).issue
          rank (sendPeer job.numImages rank round)
          (.flag round (numData round remSlots))) := by
  have fitsHere := inv.fits rank isImage
  rw [here] at fitsHere
  obtain ⟨isRound, rfl⟩ := fitsHere
  have stageHere : stage job.numImages (state.phase rank) = 3 * round + 3 := by rw [here]; rfl
  apply inv.issue isImage isRound (by omega) (by simp [here])
  · exact ⟨isRound, remSlots_next job.numImages round⟩
  · rw [stageHere]
    rfl
  · simp
  · intro link
    have sent : 3 * round + 4 ≤ stage job.numImages
        (((state.setImage rank
          { state.images rank with
            phase := .polling round
              (job.numImages - 2 ^ round - numData round (job.numImages - 2 ^ round)) }).issue
          rank (sendPeer job.numImages rank round)
          (.flag round (numData round (job.numImages - 2 ^ round)))).phase rank) := by
      simp [State.phase, State.issue, stage]
    cases link with
    | idle | bothSent | flagSent | flagArrived => omega
    | dataSent sending onTheWay clear =>
        refine .bothSent sent ?_ ?_
        · rw [issue_inFlight_self, onTheWay]
          rfl
        · rw [issue_flagCoarray]
          exact clear
    | dataArrived sending empty arrived clear =>
        refine .flagSent sent ?_ ?_ ?_
        · rw [issue_inFlight_self, empty]
          rfl
        · exact issue_roundArrived (by simp [here]) arrived
        · rw [issue_flagCoarray]
          exact clear

/-! ## Deliveries -/

/-- The state after the oldest write of a channel has taken effect. -/
def State.delivered (state : State) (sender receiver : Nat)
    (write : RemoteWrite) (rest : List RemoteWrite) : State where
  images :=
    Function.update state.images receiver
      ((state.images receiver).receive write)
  inFlight := Function.update state.inFlight (sender, receiver) rest

section Delivery

variable (state : State) (sender receiver : Nat) (write : RemoteWrite)
  (rest : List RemoteWrite)

theorem delivered_phase (other : Nat) :
    (state.delivered sender receiver write rest).phase other = state.phase other := by
  by_cases same : other = receiver
  · subst same
    cases write <;> simp [State.delivered, State.phase, Image.receive]
  · simp [State.delivered, State.phase, same]

@[simp]
theorem delivered_inFlight_self :
    (state.delivered sender receiver write rest).inFlight (sender, receiver) = rest := by
  simp [State.delivered]

theorem delivered_inFlight_other {pair : Nat × Nat} (distinct : pair ≠ (sender, receiver)) :
    (state.delivered sender receiver write rest).inFlight pair = state.inFlight pair := by
  simp [State.delivered, Function.update_of_ne distinct]

theorem delivered_images_self :
    (state.delivered sender receiver write rest).images receiver =
      (state.images receiver).receive write := by
  simp [State.delivered]

theorem delivered_images_other {other : Nat} (distinct : other ≠ receiver) :
    (state.delivered sender receiver write rest).images other = state.images other := by
  simp [State.delivered, Function.update_of_ne distinct]

end Delivery

/-- Positions of one round are not those of another. -/
theorem round_positions_apart {numImages round other position : Nat}
    (runs : 2 ^ round < numImages) (otherRuns : 2 ^ other < numImages) (distinct : other ≠ round)
    (lower : 2 ^ other ≤ position) (upper : position < 2 ^ other + amount numImages other) :
    position < 2 ^ round ∨ 2 ^ round + amount numImages round ≤ position := by
  rw [pow_add_amount otherRuns] at upper
  rw [pow_add_amount runs]
  rcases Nat.lt_or_gt_of_ne distinct with less | greater
  · have powers : 2 ^ (other + 1) ≤ 2 ^ round :=
      Nat.pow_le_pow_right (by decide) less
    left
    omega
  · have powers : 2 ^ (round + 1) ≤ 2 ^ other :=
      Nat.pow_le_pow_right (by decide) greater
    right
    omega

/-- While a write of its round is on the way, the receiver is not done. -/
theorem Invariant.unfinished_of_occupied (inv : Invariant job state)
    {sender round : Nat} (isSender : sender < job.numImages)
    (isRound : round < maxRound job.numImages)
    (occupied : state.inFlight (sender, sendPeer job.numImages sender round) ≠ []) :
    state.phase (sendPeer job.numImages sender round) ≠ .finished := by
  intro isFinished
  have runs := lt_maxRound_iff.mp isRound
  have isReceiver := sendPeer_lt (by omega : 0 < job.numImages) sender round
  have nonzero := inv.polled _ isReceiver round isRound
    (by rw [isFinished]; simp only [stage]; omega)
  have arrived := inv.flagArrived isReceiver isRound (by simp [isFinished]) nonzero
  rw [← (sendPeer_eq_iff isSender runs isReceiver).mp rfl] at arrived
  exact occupied arrived.2.2

/-- A delivery, from what the write does to the receiver's memory. -/
theorem Invariant.deliver_of (inv : Invariant job state)
    {sender round : Nat} {write : RemoteWrite} {rest : List RemoteWrite}
    (isSender : sender < job.numImages) (isRound : round < maxRound job.numImages)
    (oldest : state.inFlight (sender, sendPeer job.numImages sender round) = write :: rest)
    (length :
      ((state.images (sendPeer job.numImages sender round)).receive
          write).teamInfoList.length = job.numImages)
    (positions : ∀ position,
      position < 2 ^ round ∨ 2 ^ round + amount job.numImages round ≤ position →
      ((state.images (sendPeer job.numImages sender round)).receive
          write).teamInfoList[position]? =
        (state.images (sendPeer job.numImages sender round)).teamInfoList[position]?)
    (flags : ∀ other, other ≠ round →
      ((state.images (sendPeer job.numImages sender round)).receive
          write).flagCoarray other =
        (state.images (sendPeer job.numImages sender round)).flagCoarray other)
    (nonzero :
      (state.images (sendPeer job.numImages sender round)).flagCoarray
          round ≠ 0 →
        ((state.images (sendPeer job.numImages sender round)).receive write).flagCoarray round ≠ 0)
    (link : Link job
      (state.delivered sender (sendPeer job.numImages sender round) write rest) sender round) :
    Invariant job (state.delivered sender (sendPeer job.numImages sender round) write rest) := by
  have runs := lt_maxRound_iff.mp isRound
  have unfinished := inv.unfinished_of_occupied isSender isRound (by rw [oldest]; simp)
  have isReceiver := sendPeer_lt (by omega : 0 < job.numImages) sender round
  generalize receiverEq : sendPeer job.numImages sender round = receiver at *
  have phases := delivered_phase state sender receiver write rest
  have self := delivered_images_self state sender receiver write rest
  have others : ∀ other, other ≠ receiver →
      (state.delivered sender receiver write rest).images other = state.images other :=
    fun other distinct =>
      delivered_images_other state sender receiver write rest distinct
  constructor
  · intro other isOther
    rw [phases]
    exact inv.fits other isOther
  · intro other isOther late another isAnother
    rw [phases] at late ⊢
    exact inv.started other isOther late another isAnother
  · intro other isOther
    by_cases same : other = receiver
    · rw [same, self]
      exact length
    · rw [others other same]
      exact inv.length other isOther
  · intro other isOther late notFinished
    rw [phases] at late notFinished
    by_cases same : other = receiver
    · rw [same, self, positions 0 (Or.inl (Nat.two_pow_pos round)), ← same]
      exact inv.own other isOther late notFinished
    · rw [others other same]
      exact inv.own other isOther late notFinished
  · intro other isOther another isAnother late
    rw [phases] at late
    have polled := inv.polled other isOther another isAnother late
    by_cases same : other = receiver
    · rw [same] at polled
      rw [same, self]
      by_cases here : another = round
      · rw [here] at polled ⊢
        exact nonzero polled
      · rw [flags another here]
        exact polled
    · rw [others other same]
      exact polled
  · intro another isAnother other isOther
    by_cases here : another = sender ∧ other = round
    · rw [here.1, here.2]
      exact link
    · have otherRuns := lt_maxRound_iff.mp isOther
      have linkHere := inv.link another isAnother other isOther
      have otherRound : sendPeer job.numImages another other = receiver → other ≠ round := by
        rintro samePeer rfl
        have one := (sendPeer_eq_iff isAnother runs isReceiver).mp samePeer
        have two := (sendPeer_eq_iff isSender runs isReceiver).mp receiverEq
        exact here ⟨one.trans two.symm, rfl⟩
      apply linkHere.frame
      · rw [phases]
        exact id
      · rw [phases]
        exact id
      · rw [phases]
        exact id
      · apply delivered_inFlight_other
        intro samePair
        obtain ⟨rfl, samePeer⟩ := Prod.mk.injEq _ _ _ _ ▸ samePair
        exact otherRound samePeer
          (sendPeer_injective isAnother otherRuns runs (samePeer.trans receiverEq.symm))
      · by_cases same : sendPeer job.numImages another other = receiver
        · rw [same, self, flags other (otherRound same)]
        · rw [others _ same]
      · rw [phases]
        exact id
      · intro arrived notFinished position lower upper
        rw [phases] at notFinished
        by_cases same : sendPeer job.numImages another other = receiver
        · have apart := round_positions_apart runs otherRuns (otherRound same) lower upper
          have before := arrived notFinished position lower upper
          rw [same] at before ⊢
          rw [self, positions position apart]
          exact before
        · rw [others _ same]
          exact arrived notFinished position lower upper
  · intro another other occupied
    by_cases same : (another, other) = (sender, receiver)
    · cases same
      exact ⟨isSender, round, isRound, receiverEq.symm⟩
    · rw [delivered_inFlight_other state sender receiver write rest same]
        at occupied
      exact inv.quiet another other occupied
  · intro other isOther entered another beyond
    rw [phases] at entered
    have clear := inv.unused other isOther entered another beyond
    by_cases same : other = receiver
    · rw [same] at clear
      rw [same, self, flags another (by omega)]
      exact clear
    · rw [others other same]
      exact clear
  · intro other isOther isFinished
    rw [phases] at isFinished
    have distinct : other ≠ receiver := by
      rintro rfl
      exact unfinished isFinished
    rw [others other distinct]
    exact inv.finished other isOther isFinished

theorem Invariant.deliverData (inv : Invariant job state)
    {sender round : Nat} {rest : List RemoteWrite} (isSender : sender < job.numImages)
    (isRound : round < maxRound job.numImages)
    (oldest : state.inFlight
      (sender, sendPeer job.numImages sender round) = dataWrite job sender round :: rest)
    (link :
      RoundArrived job
        (state.delivered sender (sendPeer job.numImages sender round)
          (dataWrite job sender round) rest)
        (sendPeer job.numImages sender round) round →
      Link job
        (state.delivered sender (sendPeer job.numImages sender round)
          (dataWrite job sender round) rest) sender round) :
    Invariant job
      (state.delivered sender (sendPeer job.numImages sender round)
        (dataWrite job sender round) rest) := by
  have runs := lt_maxRound_iff.mp isRound
  have isReceiver := sendPeer_lt (by omega : 0 < job.numImages) sender round
  have senderIs := (sendPeer_eq_iff isSender runs isReceiver).mp rfl
  have length := inv.length _ isReceiver
  have valuesLength :
      ((List.range (amount job.numImages round)).map
        fun position => job.info ((sender + position) % job.numImages)).length =
        amount job.numImages round := by simp
  have inside :
      2 ^ round + ((List.range (amount job.numImages round)).map
        fun position =>
          job.info ((sender + position) % job.numImages)).length ≤
        (state.images (sendPeer job.numImages sender round)).teamInfoList.length := by
    rw [valuesLength, length, pow_add_amount runs]
    exact Nat.min_le_right _ _
  apply inv.deliver_of isSender isRound oldest
  · simp only [dataWrite, Image.receive]
    rw [length_storeInfos inside, length]
  · intro position apart
    simp only [dataWrite, Image.receive]
    rw [getElem?_storeInfos inside, valuesLength, if_neg (by omega)]
  · intro _ _
    rfl
  · exact id
  · apply link
    intro _ position lower upper
    rw [delivered_images_self]
    simp only [dataWrite, Image.receive]
    rw [getElem?_storeInfos inside, valuesLength, if_pos ⟨lower, upper⟩,
      List.getElem?_map, List.getElem?_range (by omega)]
    simp only [Option.map_some]
    congr 2
    calc
      (sender + (position - 2 ^ round)) % job.numImages =
          ((sendPeer job.numImages sender round + 2 ^ round) %
            job.numImages + (position - 2 ^ round)) % job.numImages := by
        rw [← senderIs]
      _ = (sendPeer job.numImages sender round + 2 ^ round +
            (position - 2 ^ round)) % job.numImages := Nat.mod_add_mod _ _ _
      _ = (sendPeer job.numImages sender round + position) %
            job.numImages := by
        congr 1
        omega

theorem Invariant.deliverFlag (inv : Invariant job state)
    {sender round : Nat} {rest : List RemoteWrite} (isSender : sender < job.numImages)
    (isRound : round < maxRound job.numImages)
    (oldest : state.inFlight
      (sender, sendPeer job.numImages sender round) = flagWrite job round :: rest)
    (link : Link job
      (state.delivered sender (sendPeer job.numImages sender round)
        (flagWrite job round) rest) sender round) :
    Invariant job
      (state.delivered sender (sendPeer job.numImages sender round)
        (flagWrite job round) rest) := by
  have runs := lt_maxRound_iff.mp isRound
  have isReceiver := sendPeer_lt (by omega : 0 < job.numImages) sender round
  apply inv.deliver_of isSender isRound oldest
  · exact inv.length _ isReceiver
  · intro _ _
    rfl
  · intro other distinct
    simp [flagWrite, Image.receive, Function.update_of_ne distinct]
  · intro _
    have positive := amount_pos runs
    simp only [flagWrite, Image.receive, Function.update_self]
    omega
  · exact link

theorem delivered_roundArrived_flag {sender receiver round : Nat} {rest : List RemoteWrite}
    (arrived : RoundArrived job state receiver round) :
    RoundArrived job
      (state.delivered sender receiver (flagWrite job round) rest)
      receiver round := by
  intro unfinished position lower upper
  rw [delivered_phase] at unfinished
  rw [delivered_images_self]
  exact arrived unfinished position lower upper

theorem Invariant.deliver (inv : Invariant job state)
    {sender receiver : Nat} {write : RemoteWrite} {rest : List RemoteWrite}
    (oldest : state.inFlight (sender, receiver) = write :: rest) :
    Invariant job (state.delivered sender receiver write rest) := by
  obtain ⟨isSender, round, isRound, rfl⟩ := inv.quiet sender receiver (by rw [oldest]; simp)
  have phases := delivered_phase state sender (sendPeer job.numImages sender round) write rest
  have channel := delivered_inFlight_self state sender
    (sendPeer job.numImages sender round) write rest
  have self := delivered_images_self state sender (sendPeer job.numImages sender round) write rest
  cases inv.link sender isSender round isRound with
  | idle before empty clear =>
      rw [oldest] at empty
      cases empty
  | dataSent sending onTheWay clear =>
      rw [oldest] at onTheWay
      cases onTheWay
      apply inv.deliverData isSender isRound oldest
      intro arrived
      refine .dataArrived ?_ channel arrived ?_
      · rw [phases]
        exact sending
      · rw [self]
        exact clear
  | dataArrived sending empty arrived clear =>
      rw [oldest] at empty
      cases empty
  | bothSent sent onTheWay clear =>
      rw [oldest] at onTheWay
      cases onTheWay
      apply inv.deliverData isSender isRound oldest
      intro arrived
      refine .flagSent ?_ channel arrived ?_
      · rw [phases]
        exact sent
      · rw [self]
        exact clear
  | flagSent sent onTheWay arrived clear =>
      rw [oldest] at onTheWay
      cases onTheWay
      apply inv.deliverFlag isSender isRound oldest
      refine .flagArrived ?_ channel (delivered_roundArrived_flag arrived) ?_
      · rw [phases]
        exact sent
      · rw [self]
        simp [flagWrite, Image.receive]
  | flagArrived sent empty arrived written =>
      rw [oldest] at empty
      cases empty

/-! ## Every reachable state -/

theorem Initial.invariant (isInitial : Initial job state) : Invariant job state := by
  have stageZero : ∀ rank, stage job.numImages (state.phase rank) = 0 := by
    intro rank
    rw [isInitial.entering]
    rfl
  constructor
  · intro rank _
    rw [isInitial.entering]
    trivial
  · intro rank _ late
    rw [stageZero] at late
    omega
  · intro rank _
    rw [isInitial.zeroed, List.length_replicate]
  · intro rank _ late
    rw [stageZero] at late
    omega
  · intro rank _ round _ late
    rw [stageZero] at late
    omega
  · intro sender _ round _
    refine .idle ?_ (isInitial.quiet _) ?_
    · rw [stageZero]
      omega
    · intro entered
      exact absurd (isInitial.entering _) entered
  · intro sender receiver occupied
    exact absurd (isInitial.quiet _) occupied
  · intro rank _ entered
    exact absurd (isInitial.entering rank) entered
  · intro rank _ isFinished
    rw [isInitial.entering] at isFinished
    cases isFinished

theorem Step.invariant (step : Step job state after)
    (inv : Invariant job state) : Invariant job after := by
  cases step with
  | enter rank isImage here => exact inv.enter isImage here
  | leave rank isImage here arrived => exact inv.leave isImage here arrived
  | sendData rank round remSlots isImage here =>
      exact inv.sendData isImage here
  | sendFlag rank round remSlots isImage here =>
      exact inv.sendFlag isImage here
  | poll rank round remSlots isImage here nonzero =>
      exact inv.poll isImage here nonzero
  | reorder rank isImage here => exact inv.reorder isImage here
  | deliver sender receiver write rest oldest => exact inv.deliver oldest

/-- The invariant holds in every state of every run. -/
theorem reachable_invariant (reached : Reachable (Initial job) (Step job) state) :
    Invariant job state :=
  reached.invariant (fun _ isInitial => isInitial.invariant)
    fun _ _ inv step => step.invariant inv

end OpenUH.Libcaf.BruckExchange
