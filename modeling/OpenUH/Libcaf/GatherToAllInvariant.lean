import OpenUH.Libcaf.GatherToAll

/-!
# The invariant of the gather

After some rounds an image has the blocks of the images ahead of it, up to
the power of two that the rounds make.  A block in flight belongs to a round
that neither its sender nor its receiver has left, and lands behind the
blocks of the rounds before.  Two images meet in the same rounds, so that
counting their `SYNC IMAGES` tells how far the other one is.
-/

namespace OpenUH.Libcaf.GatherToAll

open Foundation.Dissemination
open Foundation.Transition

variable {α : Type} {p rank other round : Nat}

/-! ## Rounds -/

theorem findLog2_eq (turns log2 : Nat) (enough : Nat.clog 2 p ≤ log2 + turns)
    (most : log2 ≤ Nat.clog 2 p) :
    findLog2 p turns (2 ^ log2) log2 = Nat.clog 2 p := by
  induction turns generalizing log2 with
  | zero =>
      rw [findLog2]
      omega
  | succ turns ih =>
      rw [findLog2, ← Nat.pow_succ']
      split
      next less =>
          have next : log2 < Nat.clog 2 p := (Nat.lt_clog_iff_pow_lt (by decide)).2 less
          exact ih (log2 + 1) (by omega) next
      next enough =>
          have last : Nat.clog 2 p ≤ log2 :=
            (Nat.clog_le_iff_le_pow (by decide)).2 (Nat.le_of_not_lt enough)
          omega

theorem log2P_eq (p : Nat) : log2P p = Nat.clog 2 p := by
  have bound : Nat.clog 2 p ≤ p := (Nat.clog_le_iff_le_pow (by decide)).2 (Nat.lt_two_pow_self).le
  exact findLog2_eq p 0 (by omega) (Nat.zero_le _)

theorem lt_log2P_iff : round < log2P p ↔ step round < p := by
  rw [log2P_eq, step]
  exact Nat.lt_clog_iff_pow_lt (by decide)

theorem le_step_log2P (p : Nat) : p ≤ step (log2P p) :=
  Nat.le_of_not_lt fun less => Nat.lt_irrefl _ (lt_log2P_iff.2 less)

theorem step_pos (round : Nat) : 0 < step round :=
  Nat.pow_pos (by decide)

theorem step_succ (round : Nat) : step (round + 1) = 2 * step round :=
  Nat.pow_succ'

theorem step_mono {round' : Nat} (less : round ≤ round') : step round ≤ step round' :=
  Nat.pow_le_pow_right (by decide) less

theorem below_eq (within : step round < p) : below p rank round = behind p rank (step round) := by
  rw [below, behind, Nat.mod_eq_of_lt within]

theorem above_eq : above p rank round = ahead p rank (step round) := by
  rw [above, ahead, Nat.add_right_comm, Nat.add_mod_right]

theorem below_lt (isImage : rank < p) : below p rank round < p :=
  Nat.mod_lt _ (by omega)

theorem above_lt (isImage : rank < p) : above p rank round < p :=
  Nat.mod_lt _ (by omega)

theorem mem_partners_iff :
    other ∈ partners p rank round ↔ other = below p rank round ∨ other = above p rank round := by
  rw [partners]
  split
  next => simp
  next same =>
      rw [Decidable.not_not] at same
      rw [List.mem_singleton, ← same, or_self_iff]

theorem partner_lt (isImage : rank < p) (partner : other ∈ partners p rank round) : other < p := by
  rcases mem_partners_iff.1 partner with rfl | rfl
  · exact below_lt isImage
  · exact above_lt isImage

/-- Being partners goes both ways. -/
theorem mem_partners_comm (within : step round < p) (isImage : rank < p) (otherIs : other < p) :
    other ∈ partners p rank round ↔ rank ∈ partners p other round := by
  have back : ∀ {place place' : Nat}, place < p → place' < p →
      (place' = behind p place (step round) ↔ place = ahead p place' (step round)) := by
    intro place place' inside inside'
    constructor
    · rintro rfl
      exact (ahead_behind inside _).symm
    · rintro rfl
      exact (behind_ahead inside' _).symm
  rw [mem_partners_iff, mem_partners_iff, below_eq within, below_eq within,
    above_eq, above_eq, back isImage otherIs, back otherIs isImage, or_comm]

/-- In how many of the first rounds two images meet. -/
def meetings (p rank other rounds : Nat) : Nat :=
  (List.range rounds).countP fun round => other ∈ partners p rank round

theorem meetings_succ (rounds : Nat) :
    meetings p rank other (rounds + 1) =
      meetings p rank other rounds +
        if other ∈ partners p rank rounds then 1 else 0 := by
  rw [meetings, List.range_succ, List.countP_append, List.countP_singleton]
  simp [meetings]

theorem meetings_mono {rounds rounds' : Nat} (less : rounds ≤ rounds') :
    meetings p rank other rounds ≤ meetings p rank other rounds' := by
  induction rounds', less using Nat.le_induction with
  | base => exact Nat.le_refl _
  | succ rounds' _ ih =>
      rw [meetings_succ]
      exact ih.trans (Nat.le_add_right _ _)

theorem meetings_comm (isImage : rank < p) (otherIs : other < p) {rounds : Nat}
    (runs : rounds ≤ log2P p) :
    meetings p rank other rounds = meetings p other rank rounds := by
  induction rounds with
  | zero => rfl
  | succ rounds ih =>
      rw [meetings_succ, meetings_succ, ih (by omega)]
      have within : step rounds < p := lt_log2P_iff.1 (by omega)
      rw [if_congr (mem_partners_comm within isImage otherIs) rfl rfl]

/-- Whoever was met as often in a round's meeting has come to that round. -/
theorem lt_of_meetings_le {rounds : Nat} (partner : other ∈ partners p rank round)
    (met : meetings p rank other (round + 1) ≤ meetings p rank other rounds) :
    round < rounds := by
  by_contra late
  have few := @meetings_mono p rank other _ _ (Nat.le_of_not_lt late)
  rw [meetings_succ, if_pos partner] at met
  omega

/-! ## How far an image is -/

/-- The rounds whose blocks an image has issued. -/
def Phase.issued (p : Nat) : Phase → Nat
  | .entering => 0
  | .writing round => round
  | .arriving round => round + 1
  | .syncing round => round + 1
  | _ => log2P p

/-- The rounds whose `SYNC IMAGES` an image has begun. -/
def Phase.begunRounds (p : Nat) : Phase → Nat
  | .entering => 0
  | .writing round => round
  | .arriving round => round
  | .syncing round => round + 1
  | _ => log2P p

/-- The rounds that an image has left. -/
def Phase.passed (p : Nat) : Phase → Nat
  | .entering => 0
  | .writing round => round
  | .arriving round => round
  | .syncing round => round
  | _ => log2P p

/-- The round of a phase is one of the loop. -/
def Phase.Fits (p : Nat) : Phase → Prop
  | .writing round => round < log2P p
  | .arriving round => round < log2P p
  | .syncing round => round < log2P p
  | _ => True

/-- The blocks are where the rounds have put them. -/
def Phase.Unshifted : Phase → Prop
  | .shiftingStart => False
  | .finished => False
  | _ => True

theorem loopHead_fits {p round : Nat} : (loopHead p round).Fits p := by
  rw [loopHead]
  split
  next less => exact less
  next => trivial

theorem loopHead_progress {p round : Nat} (most : round ≤ log2P p) :
    (loopHead p round).issued p = round ∧
      (loopHead p round).begunRounds p = round ∧ (loopHead p round).passed p = round := by
  rw [loopHead]
  split
  next less => exact ⟨rfl, rfl, rfl⟩
  next enough =>
      have last : log2P p = round := by omega
      exact ⟨last, last, last⟩

theorem loopHead_not_shifting {p round : Nat} :
    loopHead p round ≠ .shiftingEnd ∧ loopHead p round ≠ .shiftingStart ∧
      loopHead p round ≠ .finished := by
  rw [loopHead]
  split <;> exact ⟨nofun, nofun, nofun⟩

theorem Phase.Fits.begunRounds_le {phase : Phase} (fits : phase.Fits p) :
    phase.begunRounds p ≤ log2P p := by
  cases phase with
  | entering => exact Nat.zero_le _
  | writing | arriving => exact Nat.le_of_lt fits
  | syncing round => exact fits
  | saving | shiftingEnd | shiftingStart | finished => exact Nat.le_refl _

theorem Phase.begunRounds_le_issued (phase : Phase) : phase.begunRounds p ≤ phase.issued p := by
  cases phase with
  | arriving round => exact Nat.le_succ round
  | _ => exact Nat.le_refl _

/-- An image that has issued more rounds than it left is in the last of them. -/
theorem Phase.inRound {phase : Phase}
    (issued : round < phase.issued p) (passed : phase.passed p ≤ round) :
    phase.passed p = round ∧ phase.Unshifted ∧ phase ≠ .entering := by
  cases phase with
  | entering => exact absurd issued (Nat.not_lt_zero _)
  | writing round' | saving | shiftingEnd | shiftingStart | finished =>
      exact absurd passed (Nat.not_le.2 issued)
  | arriving round' | syncing round' =>
      exact ⟨Nat.le_antisymm passed (Nat.le_of_lt_succ issued), trivial, nofun⟩

/-! ## The invariant -/

/-- The block that stands at a place before the shift. -/
def Job.ahead (job : Job α) (rank place : Nat) : α :=
  job.source ((rank + place) % job.numImages)

/-- What one image has, by how far it is. -/
structure ImageFits (job : Job α) (rank : Nat) (image : Image α) : Prop where
  fits : image.phase.Fits job.numImages
  begun : ∀ other, image.begun other =
    meetings job.numImages rank other (image.phase.begunRounds job.numImages)
  gathered : image.phase.Unshifted → image.phase ≠ .entering →
    ∀ place < step (image.phase.passed job.numImages),
      place < job.numImages → image.dest place = job.ahead rank place
  saved : image.phase = .shiftingEnd ∨ image.phase = .shiftingStart →
    ∀ place < job.numImages, image.copy place = job.ahead rank place
  shifted : image.phase = .shiftingStart →
    ∀ block < job.numImages, rank ≤ block → image.dest block = job.source block
  done : image.phase = .finished → ∀ block < job.numImages, image.dest block = job.source block

/-- A block in flight, as its round issued it. -/
structure Flies (job : Job α) (state : State α) (sender receiver round index : Nat)
    (write : BlockWrite) : Prop where
  isImage : sender < job.numImages
  within : round < log2P job.numImages
  receiverIs : receiver = below job.numImages sender round
  part : index < amount job.numImages round
  writeIs : write = ⟨step round + index, index,
    meetings job.numImages sender receiver round⟩
  issued : round < (state.phase sender).issued job.numImages
  unsent : (state.phase sender).passed job.numImages ≤ round
  awaited : (state.phase receiver).passed job.numImages ≤ round

/-- What holds throughout the gather. -/
structure Invariant (job : Job α) (state : State α) : Prop where
  images : ∀ rank < job.numImages, ImageFits job rank (state.images rank)
  flying : ∀ sender receiver, ∀ write ∈ state.inFlight (sender, receiver),
    ∃ round index, Flies job state sender receiver round index write
  landed : ∀ sender < job.numImages, ∀ round,
    round < (state.phase sender).issued job.numImages →
    ∀ index < amount job.numImages round,
      (∃ write ∈ state.inFlight (sender, below job.numImages sender round),
        Flies job state sender (below job.numImages sender round) round index
          write) ∨
      ((state.phase (below job.numImages sender round)).Unshifted →
        (state.images (below job.numImages sender round)).dest
            (step round + index) =
          job.ahead (below job.numImages sender round) (step round + index))
  met : ∀ rank < job.numImages, ∀ round,
    round < (state.phase rank).passed job.numImages →
    ∀ other ∈ partners job.numImages rank round,
      round < (state.phase other).begunRounds job.numImages

/-- What an image at the head of the loop has. -/
theorem imageFits_loopHead {job : Job α} {image : Image α}
    (head : image.phase = loopHead job.numImages round) (most : round ≤ log2P job.numImages)
    (begun : ∀ other, image.begun other = meetings job.numImages rank other round)
    (gathered : ∀ place < step round, place < job.numImages →
      image.dest place = job.ahead rank place) :
    ImageFits job rank image where
  fits := head ▸ loopHead_fits
  begun := by
    rw [head, (loopHead_progress most).2.1]
    exact begun
  gathered := by
    intro _ _
    rw [head, (loopHead_progress most).2.2]
    exact gathered
  saved := by
    rw [head]
    rintro (ending | starting)
    · exact absurd ending loopHead_not_shifting.1
    · exact absurd starting loopHead_not_shifting.2.1
  shifted := by
    rw [head]
    exact fun starting => absurd starting loopHead_not_shifting.2.1
  done := by
    rw [head]
    exact fun finished => absurd finished loopHead_not_shifting.2.2

theorem amount_le_step (p round : Nat) : amount p round ≤ step round :=
  Nat.min_le_left _ _

/-- A round fills the places up to the next power of two, or all. -/
theorem step_add_amount (within : step round < p) :
    step round + amount p round = min (step (round + 1)) p := by
  rw [amount, step_succ]
  omega

theorem Initial.invariant {job : Job α} {state : State α}
    (initial : Initial state) : Invariant job state where
  images := by
    intro rank _
    have entering : (state.images rank).phase = .entering := initial.entering rank
    refine ⟨?_, fun other => ?_, fun _ other => absurd entering other, ?_, ?_, ?_⟩ <;>
      rw [entering]
    · trivial
    · exact initial.begun rank other
    · rintro (ending | ending) <;> cases ending
    · nofun
    · nofun
  flying := by
    intro sender receiver write member
    rw [initial.quiet] at member
    exact absurd member List.not_mem_nil
  landed := by
    intro sender _ round issued
    rw [initial.entering] at issued
    exact absurd issued (Nat.not_lt_zero _)
  met := by
    intro rank _ round passed
    rw [initial.entering] at passed
    exact absurd passed (Nat.not_lt_zero _)

end OpenUH.Libcaf.GatherToAll
