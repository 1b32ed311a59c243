import OpenUH.Libcaf.GatherToAllSafety

/-!
# The gather returns on every image

Every step takes from what the images and the blocks in flight have still to
do, and a state without a step is one in which all images have returned: of
the images that wait, one in the least round meets its partners there.
-/

namespace OpenUH.Libcaf.GatherToAll

open Foundation.Dissemination
open Foundation.Transition

variable {α : Type} {p rank other round : Nat}
variable {job : Job α} {state after : State α}

/-! ## Every run ends -/

/-- The steps that an image has still to make. -/
def Phase.remaining (p : Nat) : Phase → Nat
  | .entering => 3 * log2P p + 4
  | .writing round => 3 * (log2P p - round) + 3
  | .arriving round => 3 * (log2P p - round) + 2
  | .syncing round => 3 * (log2P p - round) + 1
  | .saving => 3
  | .shiftingEnd => 2
  | .shiftingStart => 1
  | .finished => 0

theorem remaining_loopHead (most : round ≤ log2P p) :
    (loopHead p round).remaining p = 3 * (log2P p - round) + 3 := by
  rw [loopHead]
  split
  next => rfl
  next enough =>
      have last : log2P p - round = 0 := by omega
      rw [last]
      rfl

/-- What the images have still to do. -/
def imagesLeft (job : Job α) (state : State α) : Nat :=
  ∑ rank ∈ Finset.range job.numImages,
    (job.numImages + 1) * (state.phase rank).remaining job.numImages

/-- The blocks in flight. -/
def blocksLeft (job : Job α) (state : State α) : Nat :=
  ∑ pair ∈ Finset.range job.numImages ×ˢ Finset.range job.numImages,
    (state.inFlight pair).length

/-- A step of one image takes from what the images have to do. -/
theorem imagesLeft_eq (isImage : rank < job.numImages)
    (others : ∀ other, other ≠ rank → after.phase other = state.phase other)
    (next : (state.phase rank).remaining job.numImages =
      (after.phase rank).remaining job.numImages + 1) :
    imagesLeft job state = imagesLeft job after + (job.numImages + 1) := by
  refine sum_eq_of_component rank (Finset.mem_range.2 isImage) ?_ ?_
  · intro other _ apart
    rw [others other apart]
  · rw [next, Nat.mul_succ]

theorem left_lt_setImage {image : Image α} (isImage : rank < job.numImages)
    (next : (state.phase rank).remaining job.numImages = image.phase.remaining job.numImages + 1) :
    imagesLeft job (state.setImage rank image) +
        blocksLeft job (state.setImage rank image) <
      imagesLeft job state + blocksLeft job state := by
  have images : imagesLeft job state =
      imagesLeft job (state.setImage rank image) + (job.numImages + 1) :=
    imagesLeft_eq isImage (fun other apart => setImage_phase_other image apart)
      (by rwa [setImage_phase_self])
  have blocks : blocksLeft job (state.setImage rank image) =
      blocksLeft job state := rfl
  omega

/-- A channel that is longer by some blocks. -/
theorem blocksLeft_eq {sender receiver amount : Nat}
    (isSender : sender < job.numImages) (isReceiver : receiver < job.numImages)
    (others : ∀ pair, pair ≠ (sender, receiver) → after.inFlight pair = state.inFlight pair)
    (here : (state.inFlight (sender, receiver)).length =
      (after.inFlight (sender, receiver)).length + amount) :
    blocksLeft job state = blocksLeft job after + amount := by
  refine sum_eq_of_component (sender, receiver) ?_ ?_ here
  · exact Finset.mem_product.2 ⟨Finset.mem_range.2 isSender, Finset.mem_range.2 isReceiver⟩
  · intro pair _ apart
    rw [others pair apart]

/-- A round writes fewer blocks than there are images. -/
theorem amount_le (p round : Nat) : amount p round ≤ p :=
  (Nat.min_le_right _ _).trans (Nat.sub_le _ _)

/-- Every step takes from what is left to do. -/
theorem Step.left_lt (inv : Invariant job state) (moved : Step job state after) :
    imagesLeft job after + blocksLeft job after < imagesLeft job state + blocksLeft job state := by
  cases moved with
  | enter rank isImage here =>
      apply left_lt_setImage isImage
      rw [here, remaining_loopHead (Nat.zero_le _)]
      rfl
  | write rank round isImage here =>
      set written : State α :=
        { images := Function.update state.images rank
            { state.images rank with phase := .arriving round }
          inFlight := Function.update state.inFlight
            (rank, below job.numImages rank round)
            (state.inFlight (rank, below job.numImages rank round) ++
              blockWrites job.numImages round ((state.images rank).begun
                (below job.numImages rank round))) }
      have self : written.images rank =
          { state.images rank with phase := .arriving round } :=
        Function.update_self _ _ _
      have sent : written.inFlight (rank, below job.numImages rank round) =
          state.inFlight (rank, below job.numImages rank round) ++
            blockWrites job.numImages round ((state.images rank).begun
              (below job.numImages rank round)) :=
        Function.update_self _ _ _
      have images : imagesLeft job state = imagesLeft job written + (job.numImages + 1) := by
        refine imagesLeft_eq isImage (fun other apart => ?_) ?_
        · exact congrArg Image.phase (Function.update_of_ne apart _ _)
        · rw [here, State.phase, self]
          rfl
      have blocks : blocksLeft job written = blocksLeft job state + amount job.numImages round := by
        refine blocksLeft_eq isImage (below_lt isImage)
          (fun pair apart => (Function.update_of_ne apart _ _).symm) ?_
        rw [sent, List.length_append, blockWrites, List.length_map, List.length_range]
      have few := amount_le job.numImages round
      omega
  | arrive rank round isImage here | save rank isImage here | shiftEnd rank isImage here
  | shiftStart rank isImage here =>
      apply left_lt_setImage isImage
      rw [here]
      rfl
  | leave rank round isImage here met written received =>
      have within := inv.syncing_within isImage here
      apply left_lt_setImage isImage
      rw [here, remaining_loopHead (Nat.succ_le_of_lt within), Phase.remaining]
      omega
  | land sender receiver write before rest flying =>
      have inside := inv.gatherCorrect.inside sender receiver write
        (flying ▸ List.mem_append_right _ List.mem_cons_self)
      set landed : State α :=
        { images := Function.update state.images receiver
            { state.images receiver with
              dest := Function.update (state.images receiver).dest write.target
                ((state.images sender).dest write.source) }
          inFlight := Function.update state.inFlight (sender, receiver) (before ++ rest) }
      have self : landed.images receiver =
          { state.images receiver with
            dest := Function.update (state.images receiver).dest write.target
              ((state.images sender).dest write.source) } :=
        Function.update_self _ _ _
      have left : landed.inFlight (sender, receiver) = before ++ rest := Function.update_self _ _ _
      have phases : ∀ other, landed.phase other = state.phase other := by
        intro other
        by_cases same : other = receiver
        · rw [same, State.phase, self, State.phase]
        · exact congrArg Image.phase (Function.update_of_ne same _ _)
      have images : imagesLeft job landed = imagesLeft job state := by
        simp only [imagesLeft, phases]
      have blocks : blocksLeft job state = blocksLeft job landed + 1 := by
        refine blocksLeft_eq inside.1 inside.2.1
          (fun pair apart => Function.update_of_ne apart _ _) ?_
        rw [left, flying]
        simp only [List.length_append, List.length_cons]
        omega
      omega

/-- Every run leads on to a state without a step. -/
theorem exists_terminal (reached : Reachable Initial (Step job) state) :
    ∃ last, Reachable Initial (Step job) last ∧ ∀ after, ¬ Step job last after :=
  reached.exists_terminal (fun state => imagesLeft job state + blocksLeft job state)
    fun _ _ reached moved => moved.left_lt (reachable_invariant reached)

/-! ## Nobody waits for ever -/

/-- An image without a step waits in a round, or has returned. -/
theorem syncing_or_finished
    (stuck : ∀ after, ¬ Step job state after) (isImage : rank < job.numImages) :
    (∃ round, state.phase rank = .syncing round) ∨ state.phase rank = .finished := by
  cases here : state.phase rank with
  | entering => exact absurd (Step.enter state rank isImage here) (stuck _)
  | writing round => exact absurd (Step.write state rank round isImage here) (stuck _)
  | arriving round =>
      exact absurd (Step.arrive state rank round isImage here) (stuck _)
  | syncing round => exact Or.inl ⟨round, rfl⟩
  | saving => exact absurd (Step.save state rank isImage here) (stuck _)
  | shiftingEnd => exact absurd (Step.shiftEnd state rank isImage here) (stuck _)
  | shiftingStart =>
      exact absurd (Step.shiftStart state rank isImage here) (stuck _)
  | finished => exact Or.inr rfl

theorem quiet_of_stuck (stuck : ∀ after, ¬ Step job state after) (sender receiver : Nat) :
    state.inFlight (sender, receiver) = [] := by
  cases flying : state.inFlight (sender, receiver) with
  | nil => rfl
  | cons write rest =>
      exact absurd (Step.land state sender receiver write [] rest flying) (stuck _)

/-- Where nothing can happen any more, all images have returned. -/
theorem finished_of_stuck (reached : Reachable Initial (Step job) state)
    (stuck : ∀ after, ¬ Step job state after) :
    ∀ rank < job.numImages, state.phase rank = .finished := by
  have inv := reachable_invariant reached
  by_contra unfinished
  have waiting : ∃ round rank, rank < job.numImages ∧ state.phase rank = .syncing round := by
    simp only [not_forall] at unfinished
    obtain ⟨rank, isImage, going⟩ := unfinished
    obtain ⟨round, here⟩ := (syncing_or_finished stuck isImage).resolve_right going
    exact ⟨round, rank, isImage, here⟩
  classical
  obtain ⟨rank, isImage, here⟩ := Nat.find_spec waiting
  have within := inv.syncing_within isImage here
  refine stuck _ (Step.leave state rank _ isImage here (fun other partner => ?_)
    (fun other _ => quiet_of_stuck stuck rank other) fun other _ write member => ?_)
  · have otherIs := partner_lt isImage partner
    have fits := inv.images other otherIs
    have far : Nat.find waiting + 1 ≤ (state.images other).phase.begunRounds job.numImages := by
      rcases syncing_or_finished stuck otherIs with ⟨round, there⟩ | there
      · have least := Nat.find_min' waiting ⟨other, otherIs, there⟩
        have phase : (state.images other).phase = .syncing round := there
        rw [phase]
        exact Nat.succ_le_succ least
      · have phase : (state.images other).phase = .finished := there
        rw [phase]
        exact within
    rw [inv.syncing_begun isImage here, fits.begun, meetings_comm isImage otherIs within]
    exact meetings_mono far
  · rw [quiet_of_stuck stuck] at member
    exact absurd member List.not_mem_nil

/-- From every state of a run all images can return. -/
theorem exists_finished (reached : Reachable Initial (Step job) state) :
    ∃ last, Reachable Initial (Step job) last ∧
      ∀ rank < job.numImages, last.phase rank = .finished := by
  obtain ⟨last, reached, stuck⟩ := exists_terminal reached
  exact ⟨last, reached, finished_of_stuck reached stuck⟩

/-! ## Gathering -/

/--
Whatever the interleaving, an image that returns has every image's block, and
the blocks in flight stay inside of the receiver's blocks and apart from those
that it is still forwarding; and a run in which nothing can happen any more
has returned on all images.
-/
theorem coGatherToAll_correct (job : Job α) (state : State α)
    (reached : Reachable Initial (Step job) state) :
    GatherCorrect job state ∧
      ((∀ after, ¬ Step job state after) → ∀ rank < job.numImages, state.phase rank = .finished) :=
  ⟨(reachable_invariant reached).gatherCorrect, finished_of_stuck reached⟩

/-- Three images that gather their own ranks. -/
def threeRanks : Job Nat where
  numImages := 3
  source rank := rank

/-- Three images before they gather. -/
def threeEntering : State Nat where
  images _ := ⟨.entering, fun _ => 7, fun _ => 7, fun _ => 0⟩
  inFlight _ := []

theorem coGatherToAll_correct_threeRanks :
    ∃ last, Reachable Initial (Step threeRanks) last ∧
      (last.images 1).dest 2 = 2 ∧ (last.images 2).dest 0 = 0 := by
  have entering : Initial threeEntering := ⟨fun _ => rfl, fun _ _ => rfl, fun _ => rfl⟩
  obtain ⟨last, reached, finished⟩ :
      ∃ last, Reachable Initial (Step threeRanks) last ∧ ∀ rank < 3, last.phase rank = .finished :=
    exists_finished (.start entering)
  have gathered := (coGatherToAll_correct threeRanks last reached).1.gathered
  exact ⟨last, reached,
    gathered 1 (by decide) (finished 1 (by decide)) 2 (by decide),
    gathered 2 (by decide) (finished 2 (by decide)) 0 (by decide)⟩

end OpenUH.Libcaf.GatherToAll
