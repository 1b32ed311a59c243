import OpenUH.Libcaf.GatherToAllInvariant

/-!
# Every image gathers all blocks

Each step of an image, and the landing of each block, keeps the invariant of
the gather.
-/

namespace OpenUH.Libcaf.GatherToAll

open Foundation.Dissemination
open Foundation.Transition
open Function (update_of_ne update_self)

variable {α : Type} {p rank other round : Nat}

/-! ## Steps of one image -/

section LocalSteps

variable {job : Job α} {state : State α}

theorem setImage_self (image : Image α) : (state.setImage rank image).images rank = image :=
  update_self _ _ _

theorem setImage_other (image : Image α) (apart : other ≠ rank) :
    (state.setImage rank image).images other = state.images other :=
  update_of_ne apart _ _

theorem setImage_phase_self (image : Image α) :
    (state.setImage rank image).phase rank = image.phase := by
  rw [State.phase, setImage_self]

theorem setImage_phase_other (image : Image α) (apart : other ≠ rank) :
    (state.setImage rank image).phase other = state.phase other := by
  rw [State.phase, setImage_other image apart, State.phase]

/-- A step of one image that leaves what it issued as it is. -/
theorem Invariant.setImage (inv : Invariant job state) {image : Image α}
    (fits : ImageFits job rank image)
    (issued : image.phase.issued job.numImages = (state.phase rank).issued job.numImages)
    (sent : ∀ receiver, ∀ write ∈ state.inFlight (rank, receiver),
      ∀ round index, Flies job state rank receiver round index write →
        image.phase.passed job.numImages ≤ round)
    (received : ∀ sender, ∀ write ∈ state.inFlight (sender, rank),
      ∀ round index, Flies job state sender rank round index write →
        image.phase.passed job.numImages ≤ round)
    (kept : image.phase.Unshifted → (state.phase rank).Unshifted ∧
      ∀ place > 0, image.dest place = (state.images rank).dest place)
    (begun : (state.phase rank).begunRounds job.numImages ≤ image.phase.begunRounds job.numImages)
    (met : ∀ round, round < image.phase.passed job.numImages →
      round < (state.phase rank).passed job.numImages ∨
        ∀ other ∈ partners job.numImages rank round,
          round < (state.phase other).begunRounds job.numImages) :
    Invariant job (state.setImage rank image) := by
  have issuedAt : ∀ other,
      ((state.setImage rank image).phase other).issued job.numImages =
        (state.phase other).issued job.numImages := by
    intro other
    by_cases same : other = rank
    · rw [same, setImage_phase_self, issued]
    · rw [setImage_phase_other image same]
  have flies : ∀ sender receiver write, write ∈ state.inFlight (sender, receiver) →
      ∀ round index, Flies job state sender receiver round index write →
        Flies job (state.setImage rank image) sender receiver round index write := by
    intro sender receiver write member round index flight
    refine { flight with issued := ?_, unsent := ?_, awaited := ?_ }
    · rw [issuedAt]
      exact flight.issued
    · by_cases same : sender = rank
      · subst same
        rw [setImage_phase_self]
        exact sent receiver write member round index flight
      · rw [setImage_phase_other image same]
        exact flight.unsent
    · by_cases same : receiver = rank
      · subst same
        rw [setImage_phase_self]
        exact received sender write member round index flight
      · rw [setImage_phase_other image same]
        exact flight.awaited
  refine ⟨fun other isImage => ?_, fun sender receiver write member => ?_,
    fun sender isImage round less index part => ?_,
    fun other isImage round passed partner isPartner => ?_⟩
  · by_cases same : other = rank
    · subst same
      rw [setImage_self]
      exact fits
    · rw [setImage_other image same]
      exact inv.images other isImage
  · obtain ⟨round, index, flight⟩ := inv.flying sender receiver write member
    exact ⟨round, index, flies sender receiver write member round index flight⟩
  · rw [issuedAt] at less
    refine (inv.landed sender isImage round less index part).imp ?_ ?_
    · rintro ⟨write, member, flight⟩
      exact ⟨write, member, flies _ _ write member round index flight⟩
    · intro arrived unshifted
      by_cases same : below job.numImages sender round = rank
      · rw [same, setImage_phase_self] at unshifted
        rw [same, setImage_self, (kept unshifted).2 _ (Nat.add_pos_left (step_pos round) index)]
        rw [same] at arrived
        exact arrived (kept unshifted).1
      · rw [setImage_phase_other image same] at unshifted
        rw [setImage_other image same]
        exact arrived unshifted
  · have grown : ∀ image',
        (state.phase image').begunRounds job.numImages ≤
          ((state.setImage rank image).phase image').begunRounds job.numImages := by
      intro image'
      by_cases same : image' = rank
      · rw [same, setImage_phase_self]
        exact begun
      · rw [setImage_phase_other image same]
    refine lt_of_lt_of_le ?_ (grown partner)
    by_cases same : other = rank
    · subst same
      rw [setImage_phase_self] at passed
      rcases met round passed with old | all
      · exact inv.met other isImage round old partner isPartner
      · exact all partner isPartner
    · rw [setImage_phase_other image same] at passed
      exact inv.met other isImage round passed partner isPartner

/-- A step of one image that does not leave a round. -/
theorem Invariant.setImage_of_passed (inv : Invariant job state) {image : Image α}
    (fits : ImageFits job rank image)
    (issued : image.phase.issued job.numImages = (state.phase rank).issued job.numImages)
    (passed : image.phase.passed job.numImages = (state.phase rank).passed job.numImages)
    (begun : (state.phase rank).begunRounds job.numImages ≤ image.phase.begunRounds job.numImages)
    (kept : image.phase.Unshifted → (state.phase rank).Unshifted ∧
      ∀ place > 0, image.dest place = (state.images rank).dest place) :
    Invariant job (state.setImage rank image) :=
  inv.setImage fits issued
    (fun _ _ _ _ _ flight => passed.le.trans flight.unsent)
    (fun _ _ _ _ _ flight => passed.le.trans flight.awaited)
    kept begun (fun _ less => Or.inl (less.trans_eq passed))

theorem Invariant.enter (inv : Invariant job state) (isImage : rank < job.numImages)
    (here : state.phase rank = .entering) :
    Invariant job (state.setImage rank
      { state.images rank with
        phase := loopHead job.numImages 0
        dest := Function.update (state.images rank).dest 0 (job.source rank) }) := by
  have fits := inv.images rank isImage
  have entering : (state.images rank).phase = .entering := here
  have progress := loopHead_progress (Nat.zero_le (log2P job.numImages))
  refine inv.setImage_of_passed (imageFits_loopHead rfl (Nat.zero_le _) ?_ ?_) ?_ ?_ ?_ ?_
  · intro other
    have begun := fits.begun other
    rw [entering] at begun
    exact begun
  · intro place less _
    have first : place = 0 := Nat.lt_one_iff.1 less
    subst first
    dsimp only
    rw [update_self, Job.ahead, Nat.add_zero, Nat.mod_eq_of_lt isImage]
  · rw [progress.1, here]
    rfl
  · rw [progress.2.2, here]
    rfl
  · rw [here]
    exact Nat.zero_le _
  · intro _
    rw [here]
    exact ⟨trivial, fun place positive => update_of_ne positive.ne' _ _⟩

theorem Invariant.arrive (inv : Invariant job state) (isImage : rank < job.numImages)
    (here : state.phase rank = .arriving round) :
    Invariant job (state.setImage rank
      { state.images rank with
        phase := .syncing round
        begun := fun other =>
          if other ∈ partners job.numImages rank round then
            (state.images rank).begun other + 1
          else
            (state.images rank).begun other }) := by
  have fits := inv.images rank isImage
  have arriving : (state.images rank).phase = .arriving round := here
  refine inv.setImage_of_passed ?_ ?_ ?_ ?_ ?_
  · refine ⟨?_, fun other => ?_, fun _ _ => ?_, ?_, nofun, nofun⟩
    · have inside := fits.fits
      rw [arriving] at inside
      exact inside
    · have begun := fits.begun other
      rw [arriving] at begun
      show (if other ∈ partners job.numImages rank round then
        (state.images rank).begun other + 1 else (state.images rank).begun other) =
          meetings job.numImages rank other (round + 1)
      rw [meetings_succ, begun]
      split <;> rfl
    · have gathered := fits.gathered
      rw [arriving] at gathered
      exact gathered trivial nofun
    · rintro (ending | starting)
      · cases ending
      · cases starting
  · rw [here]
    rfl
  · rw [here]
    rfl
  · rw [here]
    exact Nat.le_succ round
  · rw [here]
    exact fun _ => ⟨trivial, fun _ _ => rfl⟩

section Syncing

variable (inv : Invariant job state) (isImage : rank < job.numImages)
variable (here : state.phase rank = .syncing round)

include inv isImage here

theorem Invariant.syncing_begun (other : Nat) :
    (state.images rank).begun other = meetings job.numImages rank other (round + 1) := by
  have begun := (inv.images rank isImage).begun other
  have syncing : (state.images rank).phase = .syncing round := here
  rw [syncing] at begun
  exact begun

theorem Invariant.syncing_within : round < log2P job.numImages := by
  have fits := (inv.images rank isImage).fits
  have syncing : (state.images rank).phase = .syncing round := here
  rw [syncing] at fits
  exact fits

/-- A partner that has met this image as often has come to its round. -/
theorem Invariant.partner_begun (partner : other ∈ partners job.numImages rank round)
    (met : (state.images rank).begun other ≤ (state.images other).begun rank) :
    round < (state.phase other).begunRounds job.numImages := by
  have otherIs := partner_lt isImage partner
  have fits := inv.images other otherIs
  rw [inv.syncing_begun isImage here, fits.begun,
    meetings_comm otherIs isImage fits.fits.begunRounds_le] at met
  exact lt_of_meetings_le partner met

/-- The blocks of the round from a partner do not outlast the meeting. -/
theorem Invariant.partner_landed (partner : other ∈ partners job.numImages rank round)
    {write : BlockWrite} (received : (state.images rank).begun other ≤ write.begun) {index : Nat} :
    ¬ Flies job state other rank round index write := by
  intro flight
  have otherIs := partner_lt isImage partner
  have within := inv.syncing_within isImage here
  rw [inv.syncing_begun isImage here, flight.writeIs] at received
  dsimp only at received
  rw [meetings_comm otherIs isImage (Nat.le_of_lt within), meetings_succ,
    if_pos partner] at received
  omega

section

variable (met : ∀ other ∈ partners job.numImages rank round,
  (state.images rank).begun other ≤ (state.images other).begun rank)

include met

/-- An image has all the blocks of a round that it leaves. -/
theorem Invariant.roundGathered
    (received : ∀ other ∈ partners job.numImages rank round,
      ∀ write ∈ state.inFlight (other, rank), (state.images rank).begun other ≤ write.begun)
    {place : Nat} (less : place < step (round + 1))
    (inside : place < job.numImages) :
    (state.images rank).dest place = job.ahead rank place := by
  have syncing : (state.images rank).phase = .syncing round := here
  have within := lt_log2P_iff.1 (inv.syncing_within isImage here)
  by_cases early : place < step round
  · have gathered := (inv.images rank isImage).gathered
    rw [syncing] at gathered
    exact gathered trivial nofun place early inside
  · obtain ⟨index, rfl⟩ := Nat.exists_eq_add_of_le (Nat.le_of_not_lt early)
    have part : index < amount job.numImages round := by
      have total := step_add_amount within
      omega
    have partner : above job.numImages rank round ∈
        partners job.numImages rank round := mem_partners_iff.2 (Or.inr rfl)
    have senderIs : above job.numImages rank round < job.numImages := above_lt isImage
    have back : below job.numImages (above job.numImages rank round) round = rank := by
      rw [below_eq within, above_eq, behind_ahead isImage]
    have issued := (inv.partner_begun isImage here partner
      (met _ partner)).trans_le (Phase.begunRounds_le_issued _)
    have landed := inv.landed _ senderIs round issued index part
    rw [back] at landed
    rcases landed with ⟨write, member, flight⟩ | arrived
    · exact absurd flight (inv.partner_landed isImage here partner
        (received _ partner write member))
    · rw [here] at arrived
      exact arrived trivial

theorem Invariant.leave
    (written : ∀ other ∈ partners job.numImages rank round, state.inFlight (rank, other) = [])
    (received : ∀ other ∈ partners job.numImages rank round,
      ∀ write ∈ state.inFlight (other, rank), (state.images rank).begun other ≤ write.begun) :
    Invariant job (state.setImage rank
      { state.images rank with phase := loopHead job.numImages (round + 1) }) := by
  have within := inv.syncing_within isImage here
  have progress := loopHead_progress (Nat.succ_le_of_lt within)
  refine inv.setImage (imageFits_loopHead rfl within
    (inv.syncing_begun isImage here)
    (fun place => inv.roundGathered isImage here met received)) ?_ ?_ ?_ ?_ ?_ ?_
  · rw [progress.1, here]
    rfl
  · intro receiver write member round' index flight
    have unsent := flight.unsent
    have issued := flight.issued
    rw [here] at unsent issued
    have same : round' = round := Nat.le_antisymm (Nat.le_of_lt_succ issued) unsent
    subst same
    rw [written receiver (mem_partners_iff.2 (Or.inl flight.receiverIs))] at member
    exact absurd member List.not_mem_nil
  · intro sender write member round' index flight
    have awaited := flight.awaited
    rw [here] at awaited
    rw [progress.2.2]
    refine Nat.succ_le_of_lt (Nat.lt_of_le_of_ne awaited ?_)
    rintro rfl
    have inside := lt_log2P_iff.1 within
    have partner : sender ∈ partners job.numImages rank round := by
      rw [mem_partners_comm inside isImage flight.isImage]
      exact mem_partners_iff.2 (Or.inl flight.receiverIs)
    exact inv.partner_landed isImage here partner (received sender partner write member) flight
  · rw [here]
    exact fun _ => ⟨trivial, fun _ _ => rfl⟩
  · rw [progress.2.1, here]
    exact Nat.le_refl _
  · intro round' less
    rw [progress.2.2] at less
    rw [here]
    rcases Nat.lt_succ_iff_lt_or_eq.1 less with earlier | rfl
    · exact Or.inl earlier
    · exact Or.inr fun other partner =>
        inv.partner_begun isImage here partner (met other partner)

end

end Syncing

section

variable (inv : Invariant job state) (isImage : rank < job.numImages)

include inv isImage

theorem Invariant.save (here : state.phase rank = .saving) :
    Invariant job (state.setImage rank
      { state.images rank with
        phase := .shiftingEnd
        copy := copyBlocks (state.images rank).copy (state.images rank).dest
          0 0 job.numImages }) := by
  have fits := inv.images rank isImage
  have saving : (state.images rank).phase = .saving := here
  have gathered := fits.gathered
  rw [saving] at gathered
  refine inv.setImage_of_passed ⟨trivial, fun other => ?_, fun _ _ => ?_, ?_,
    nofun, nofun⟩ ?_ ?_ ?_ ?_
  · have begun := fits.begun other
    rw [saving] at begun
    exact begun
  · exact gathered trivial nofun
  · intro _ place inside
    have within : 0 ≤ place ∧ place < 0 + job.numImages := by omega
    dsimp only
    rw [copyBlocks, if_pos within, Nat.sub_zero, Nat.zero_add]
    exact gathered trivial nofun place (inside.trans_le (le_step_log2P job.numImages)) inside
  · rw [here]
    rfl
  · rw [here]
    rfl
  · rw [here]
    exact Nat.le_refl _
  · rw [here]
    exact fun _ => ⟨trivial, fun _ _ => rfl⟩

theorem Invariant.shiftEnd (here : state.phase rank = .shiftingEnd) :
    Invariant job (state.setImage rank
      { state.images rank with
        phase := .shiftingStart
        dest := copyBlocks (state.images rank).dest (state.images rank).copy
          rank 0 (job.numImages - rank) }) := by
  have fits := inv.images rank isImage
  have shifting : (state.images rank).phase = .shiftingEnd := here
  refine inv.setImage_of_passed ⟨trivial, fun other => ?_, fun unshifted => ?_,
    ?_, ?_, nofun⟩ ?_ ?_ ?_ ?_
  · have begun := fits.begun other
    rw [shifting] at begun
    exact begun
  · exact unshifted.elim
  · exact fun _ => fits.saved (Or.inl shifting)
  · intro _ block inside later
    have within : rank ≤ block ∧ block < rank + (job.numImages - rank) := by omega
    have place : rank + (block - rank) = block := by omega
    dsimp only
    rw [copyBlocks, if_pos within, Nat.zero_add,
      fits.saved (Or.inl shifting) _ (by omega), Job.ahead, place,
      Nat.mod_eq_of_lt inside]
  · rw [here]
    rfl
  · rw [here]
    rfl
  · rw [here]
    exact Nat.le_refl _
  · exact fun unshifted => unshifted.elim

theorem Invariant.shiftStart (here : state.phase rank = .shiftingStart) :
    Invariant job (state.setImage rank
      { state.images rank with
        phase := .finished
        dest := copyBlocks (state.images rank).dest (state.images rank).copy
          0 (job.numImages - rank) rank }) := by
  have fits := inv.images rank isImage
  have shifting : (state.images rank).phase = .shiftingStart := here
  refine inv.setImage_of_passed ⟨trivial, fun other => ?_, fun unshifted => ?_,
    ?_, nofun, ?_⟩ ?_ ?_ ?_ ?_
  · have begun := fits.begun other
    rw [shifting] at begun
    exact begun
  · exact unshifted.elim
  · rintro (ending | starting)
    · cases ending
    · cases starting
  · intro _ block inside
    dsimp only
    rw [copyBlocks]
    split
    next within =>
        have place : rank + (job.numImages - rank + (block - 0)) = block + job.numImages := by omega
        rw [fits.saved (Or.inr shifting) _ (by omega), Job.ahead, place,
          Nat.add_mod_right, Nat.mod_eq_of_lt inside]
    next outside => exact fits.shifted shifting block inside (by omega)
  · rw [here]
    rfl
  · rw [here]
    rfl
  · rw [here]
    exact Nat.le_refl _
  · exact fun unshifted => unshifted.elim

end

/-! ## Writes -/

theorem mem_blockWrites {begun : Nat} {write : BlockWrite} :
    write ∈ blockWrites p round begun ↔
      ∃ index < amount p round, write = ⟨step round + index, index, begun⟩ := by
  simp only [blockWrites, List.mem_map, List.mem_range, eq_comm]

/-- The block that a round puts at a place of the receiver. -/
theorem Job.ahead_below (job : Job α) (isImage : rank < job.numImages)
    (within : step round < job.numImages) (index : Nat) :
    job.ahead rank index = job.ahead (below job.numImages rank round) (step round + index) := by
  have congruent := (behind_modEq isImage (step round)).add_right index
  rw [Job.ahead, Job.ahead, below_eq within, ← Nat.add_assoc]
  exact congrArg job.source congruent.symm

/-- A block flies on while its sender issues and nobody passes a round. -/
theorem Flies.onward {after : State α} {sender receiver index : Nat} {write : BlockWrite}
    (flight : Flies job state sender receiver round index write)
    (issued : ∀ other, (state.phase other).issued job.numImages ≤
      (after.phase other).issued job.numImages)
    (passed : ∀ other, (after.phase other).passed job.numImages =
      (state.phase other).passed job.numImages) :
    Flies job after sender receiver round index write :=
  { flight with
    issued := flight.issued.trans_le (issued sender)
    unsent := (passed sender).le.trans flight.unsent
    awaited := (passed receiver).le.trans flight.awaited }

theorem Invariant.write {after : State α} (inv : Invariant job state)
    (isImage : rank < job.numImages) (here : state.phase rank = .writing round)
    (isAfter : after =
      { images := Function.update state.images rank
          { state.images rank with phase := .arriving round }
        inFlight := Function.update state.inFlight
          (rank, below job.numImages rank round)
          (state.inFlight (rank, below job.numImages rank round) ++
            blockWrites job.numImages round ((state.images rank).begun
              (below job.numImages rank round))) }) :
    Invariant job after := by
  have fits := inv.images rank isImage
  have writing : (state.images rank).phase = .writing round := here
  have within : round < log2P job.numImages := by
    have inside := fits.fits
    rw [writing] at inside
    exact inside
  have runs := lt_log2P_iff.1 within
  have self : after.images rank = { state.images rank with phase := .arriving round } := by
    rw [isAfter]
    exact update_self _ _ _
  have sent : after.inFlight (rank, below job.numImages rank round) =
      state.inFlight (rank, below job.numImages rank round) ++
        blockWrites job.numImages round ((state.images rank).begun
          (below job.numImages rank round)) := by
    rw [isAfter]
    exact update_self _ _ _
  have notSent : ∀ pair, pair ≠ (rank, below job.numImages rank round) →
      after.inFlight pair = state.inFlight pair := by
    rw [isAfter]
    exact fun pair apart => update_of_ne apart _ _
  have own : after.phase rank = .arriving round := by
    rw [State.phase, self]
  have others : ∀ other, other ≠ rank → after.images other = state.images other := by
    rw [isAfter]
    exact fun other apart => update_of_ne apart _ _
  have otherPhases : ∀ other, other ≠ rank → after.phase other = state.phase other := by
    intro other apart
    rw [State.phase, others other apart, State.phase]
  have passed : ∀ other, (after.phase other).passed job.numImages =
      (state.phase other).passed job.numImages := by
    intro other
    by_cases same : other = rank
    · rw [same, own, here]
      rfl
    · rw [otherPhases other same]
  have begun : ∀ other, (after.phase other).begunRounds job.numImages =
      (state.phase other).begunRounds job.numImages := by
    intro other
    by_cases same : other = rank
    · rw [same, own, here]
      rfl
    · rw [otherPhases other same]
  have issued : ∀ other, (state.phase other).issued job.numImages ≤
      (after.phase other).issued job.numImages := by
    intro other
    by_cases same : other = rank
    · rw [same, own, here]
      exact Nat.le_succ round
    · rw [otherPhases other same]
  have kept : ∀ pair, ∀ write ∈ state.inFlight pair, write ∈ after.inFlight pair := by
    intro pair write member
    by_cases same : pair = (rank, below job.numImages rank round)
    · subst same
      rw [sent]
      exact List.mem_append_left _ member
    · rw [notSent pair same]
      exact member
  have new : ∀ index < amount job.numImages round,
      Flies job after rank (below job.numImages rank round) round index
        ⟨step round + index, index,
          (state.images rank).begun (below job.numImages rank round)⟩ := by
    intro index part
    refine ⟨isImage, within, rfl, part, ?_, ?_, ?_, ?_⟩
    · rw [fits.begun, writing]
      rfl
    · rw [own]
      exact Nat.lt_succ_self round
    · rw [own]
      exact Nat.le_refl round
    · rw [passed]
      by_contra left
      have partner : rank ∈ partners job.numImages (below job.numImages rank round) round := by
        rw [← mem_partners_comm runs isImage (below_lt isImage)]
        exact mem_partners_iff.2 (Or.inl rfl)
      have met := inv.met _ (below_lt isImage) round (Nat.lt_of_not_le left) rank partner
      rw [here] at met
      exact Nat.lt_irrefl round met
  have images : ∀ other, ∀ place,
      (after.images other).dest place = (state.images other).dest place := by
    intro other place
    by_cases same : other = rank
    · rw [same, self]
    · rw [others other same]
  refine ⟨fun other otherIs => ?_, fun sender receiver write member => ?_,
    fun sender senderIs round' less index part => ?_,
    fun other otherIs round' less => ?_⟩
  · by_cases same : other = rank
    · subst same
      rw [self]
      have begun := fits.begun
      have gathered := fits.gathered
      rw [writing] at begun gathered
      refine ⟨within, begun, fun _ _ => gathered trivial nofun, ?_, nofun, nofun⟩
      rintro (ending | starting)
      · cases ending
      · cases starting
    · rw [others other same]
      exact inv.images other otherIs
  · by_cases same : (sender, receiver) = (rank, below job.numImages rank round)
    · rw [same, sent] at member
      obtain ⟨rfl, rfl⟩ := Prod.mk.inj same
      rcases List.mem_append.1 member with old | added
      · obtain ⟨round', index, flight⟩ := inv.flying _ _ write old
        exact ⟨round', index, flight.onward issued passed⟩
      · obtain ⟨index, part, rfl⟩ := mem_blockWrites.1 added
        exact ⟨round, index, new index part⟩
    · rw [notSent _ same] at member
      obtain ⟨round', index, flight⟩ := inv.flying _ _ write member
      exact ⟨round', index, flight.onward issued passed⟩
  · by_cases fresh : sender = rank ∧ round' = round
    · obtain ⟨rfl, rfl⟩ := fresh
      refine Or.inl ⟨_, ?_, new index part⟩
      rw [sent]
      exact List.mem_append_right _ (mem_blockWrites.2 ⟨index, part, rfl⟩)
    · have earlier : round' < (state.phase sender).issued job.numImages := by
        by_cases same : sender = rank
        · subst same
          rw [own] at less
          rw [here]
          exact lt_of_le_of_ne (Nat.le_of_lt_succ less)
            fun equal => fresh ⟨rfl, equal⟩
        · rwa [otherPhases sender same] at less
      refine (inv.landed sender senderIs round' earlier index part).imp ?_ ?_
      · rintro ⟨write, member, flight⟩
        exact ⟨write, kept _ write member, flight.onward issued passed⟩
      · intro arrived unshifted
        rw [images]
        apply arrived
        by_cases same : below job.numImages sender round' = rank
        · rw [same, here]
          trivial
        · rwa [otherPhases _ same] at unshifted
  · rw [passed] at less
    intro partner isPartner
    rw [begun]
    exact inv.met other otherIs round' less partner isPartner

theorem Invariant.land (inv : Invariant job state) {sender receiver : Nat} {write : BlockWrite}
    {before after : List BlockWrite}
    (flying : state.inFlight (sender, receiver) = before ++ write :: after) {landed : State α}
    (isLanded : landed =
      { images := Function.update state.images receiver
          { state.images receiver with
            dest := Function.update (state.images receiver).dest write.target
              ((state.images sender).dest write.source) }
        inFlight := Function.update state.inFlight (sender, receiver) (before ++ after) }) :
    Invariant job landed := by
  obtain ⟨round, index, flight⟩ := inv.flying sender receiver write
    (flying ▸ List.mem_append_right _ List.mem_cons_self)
  have within := lt_log2P_iff.1 flight.within
  obtain ⟨passed, unshifted, entered⟩ := Phase.inRound flight.issued flight.unsent
  have value : (state.images sender).dest write.source = job.ahead receiver write.target := by
    have source : index < job.numImages := (flight.part.trans_le (amount_le_step _ _)).trans within
    rw [flight.writeIs, flight.receiverIs, ← job.ahead_below flight.isImage within]
    refine (inv.images sender flight.isImage).gathered unshifted entered index ?_ source
    show index < step ((state.phase sender).passed job.numImages)
    rw [passed]
    exact flight.part.trans_le (amount_le_step _ _)
  have receiverIs : receiver < job.numImages := by
    rw [flight.receiverIs]
    exact below_lt flight.isImage
  have awaited := flight.awaited
  have target : step round ≤ write.target := by
    rw [flight.writeIs]
    exact Nat.le_add_right _ _
  have self : landed.images receiver =
      { state.images receiver with
        dest := Function.update (state.images receiver).dest write.target
          ((state.images sender).dest write.source) } := by
    rw [isLanded]
    exact update_self _ _ _
  have others : ∀ other, other ≠ receiver → landed.images other = state.images other := by
    rw [isLanded]
    exact fun other apart => update_of_ne apart _ _
  have left : landed.inFlight (sender, receiver) = before ++ after := by
    rw [isLanded]
    exact update_self _ _ _
  have notLanded : ∀ pair, pair ≠ (sender, receiver) →
      landed.inFlight pair = state.inFlight pair := by
    rw [isLanded]
    exact fun pair apart => update_of_ne apart _ _
  have phases : ∀ other, landed.phase other = state.phase other := by
    intro other
    by_cases same : other = receiver
    · rw [same, State.phase, self, State.phase]
    · rw [State.phase, others other same, State.phase]
  have flies : ∀ {sender receiver round' index write},
      Flies job state sender receiver round' index write →
        Flies job landed sender receiver round' index write :=
    fun flight => flight.onward (fun other => by rw [phases]) fun other => by rw [phases]
  have old : ∀ pair, ∀ write ∈ landed.inFlight pair, write ∈ state.inFlight pair := by
    intro pair write' member
    by_cases same : pair = (sender, receiver)
    · subst same
      rw [left] at member
      rw [flying]
      rcases List.mem_append.1 member with early | late
      · exact List.mem_append_left _ early
      · exact List.mem_append_right _ (List.mem_cons_of_mem _ late)
    · rwa [notLanded pair same] at member
  have unfinished : (state.images receiver).phase ≠ .shiftingStart ∧
      (state.images receiver).phase ≠ .finished := by
    constructor <;> intro phase <;>
      · have late : state.phase receiver = _ := phase
        rw [late] at awaited
        exact Nat.not_le.2 flight.within awaited
  refine ⟨fun other otherIs => ?_, fun sender receiver write member => ?_,
    fun sender' senderIs round' less index' part => ?_,
    fun other otherIs round' less => ?_⟩
  · by_cases same : other = receiver
    · subst same
      rw [self]
      have fits := inv.images other otherIs
      refine { fits with
        gathered := fun unshifted entered place less inside => ?_
        shifted := fun starting => absurd starting unfinished.1
        done := fun finished => absurd finished unfinished.2 }
      have apart : place ≠ write.target := by
        have early := less.trans_le (step_mono awaited)
        omega
      dsimp only
      rw [update_of_ne apart]
      exact fits.gathered unshifted entered place less inside
    · rw [others other same]
      exact inv.images other otherIs
  · obtain ⟨round', index', flight'⟩ := inv.flying sender receiver write (old _ write member)
    exact ⟨round', index', flies flight'⟩
  · rw [phases] at less
    rw [phases]
    by_cases here : below job.numImages sender' round' = receiver ∧
        step round' + index' = write.target
    · refine Or.inr fun _ => ?_
      rw [here.1, here.2, self]
      dsimp only
      rw [update_self]
      exact value
    · have unchanged : (landed.images (below job.numImages sender' round')).dest
          (step round' + index') =
          (state.images (below job.numImages sender' round')).dest (step round' + index') := by
        by_cases same : below job.numImages sender' round' = receiver
        · rw [same, self]
          dsimp only
          rw [update_of_ne fun equal => here ⟨same, equal⟩]
        · rw [others _ same]
      rw [unchanged]
      refine (inv.landed sender' senderIs round' less index' part).imp_left ?_
      rintro ⟨write', member, flight'⟩
      refine ⟨write', ?_, flies flight'⟩
      by_cases same : (sender', below job.numImages sender' round') = (sender, receiver)
      · rw [same, flying] at member
        rw [same, left]
        rcases List.mem_append.1 member with early | late
        · exact List.mem_append_left _ early
        · rcases List.mem_cons.1 late with rfl | late
          · refine absurd ⟨(Prod.mk.inj same).2, ?_⟩ here
            rw [flight'.writeIs]
          · exact List.mem_append_right _ late
      · rw [notLanded _ same]
        exact member
  · rw [phases] at less
    intro partner isPartner
    rw [phases]
    exact inv.met other otherIs round' less partner isPartner

theorem Step.invariant {after : State α} (inv : Invariant job state)
    (moved : Step job state after) :
    Invariant job after := by
  cases moved with
  | enter rank isImage here => exact inv.enter isImage here
  | write rank round isImage here => exact inv.write isImage here rfl
  | arrive rank round isImage here => exact inv.arrive isImage here
  | leave rank round isImage here met written received =>
      exact inv.leave isImage here met written received
  | save rank isImage here => exact inv.save isImage here
  | shiftEnd rank isImage here => exact inv.shiftEnd isImage here
  | shiftStart rank isImage here => exact inv.shiftStart isImage here
  | land sender receiver write before after flying => exact inv.land flying rfl

end LocalSteps

/-! ## The gather -/

/-- The invariant holds in every state of every run. -/
theorem reachable_invariant {job : Job α} {state : State α}
    (reached : Reachable Initial (Step job) state) :
    Invariant job state :=
  reached.invariant (fun _ initial => initial.invariant) (fun _ _ inv moved => moved.invariant inv)

/-- What the invariant says of the gather. -/
theorem Invariant.gatherCorrect {job : Job α} {state : State α} (inv : Invariant job state) :
    GatherCorrect job state where
  gathered rank isImage finished := (inv.images rank isImage).done finished
  inside := by
    intro sender receiver write member
    obtain ⟨round, index, flight⟩ := inv.flying sender receiver write member
    have within := lt_log2P_iff.1 flight.within
    have total := step_add_amount within
    have part := flight.part
    have small := amount_le_step job.numImages round
    refine ⟨flight.isImage, ?_, ?_, ?_⟩
    · rw [flight.receiverIs]
      exact below_lt flight.isImage
    · rw [flight.writeIs]
      show index < job.numImages
      omega
    · rw [flight.writeIs]
      show step round + index < job.numImages
      omega
  apart := by
    intro sender receiver write member
    obtain ⟨round, index, flight⟩ := inv.flying sender receiver write member
    have awaited := flight.awaited
    rintro ⟨round', phase, forwarded⟩
    have inRound : (state.phase receiver).passed job.numImages = round' := by
      rcases phase with phase | phase | phase <;>
        · have here : state.phase receiver = _ := phase
          rw [here]
          rfl
    rw [inRound] at awaited
    have later := step_mono awaited
    have small := amount_le_step job.numImages round'
    rw [flight.writeIs] at forwarded
    dsimp only at forwarded
    omega

end OpenUH.Libcaf.GatherToAll
