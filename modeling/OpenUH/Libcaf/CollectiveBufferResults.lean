import OpenUH.Libcaf.CollectiveBufferLimits

/-!
# The buffers of the reductions and of the broadcast

For each of the reductions, all of its images keep to their buffers, and agree
on the number of work buffers, exactly where the sizes fit.  Inside of the nodes
and between them, the nodes have to agree as well.
-/

namespace OpenUH.Libcaf.CollectiveBuffers

open Foundation.MachineIntegers
open Foundation.Fallible
open Libcaf.CharReductions (greatestPower greatestPower_start)

/-- The images of a collective. -/
def OnImages (p me : Nat) : Prop :=
  1 ≤ me ∧ me ≤ p

namespace Call

variable {call : Call} {numSteps : Nat} {buffers : Buffers}

/-! ## Runs of a reduction -/

section Runs

variable {rounds : Buffers → Nat → Option (List Access)} {run : Reduction}

/-- Where the sizes fit, a reduction ends as it should. -/
theorem reduceWith_sound (fits : call.Fits numSteps)
    (goes : ∀ buffers, call.Adequate numSteps buffers →
      ∃ accesses, Settles (rounds buffers) accesses ∧ buffers.AllInside accesses) :
    ∃ run, Settles (fun fuel =>
        call.reduceWith numSteps fun buffers => rounds buffers fuel) run ∧
      call.Sound numSteps run := by
  obtain ⟨setUp, begun, sound⟩ := setUp_sound fits
  cases found : setUp.buffers with
  | none =>
      refine ⟨⟨setUp, []⟩, ⟨0, fun fuel _ => ?_⟩, sound.exact, ?_, ?_⟩
      · show call.reduceWith numSteps _ = _
        rw [reduceWith, begun, Option.bind_eq_bind, Option.bind_some, found]
      · intro buffers same
        rw [show setUp.buffers = some buffers from same] at found
        cases found
      · intro buffers same
        rw [show setUp.buffers = some buffers from same] at found
        cases found
  | some buffers =>
      have adequate := sound.adequate buffers found
      obtain ⟨others, ⟨enough, ends⟩, inside⟩ := goes buffers adequate
      obtain ⟨cleared, clears, clearedInside⟩ := adequate.cleared
      refine ⟨⟨setUp, call.baseAccesses ++ others ++ cleared⟩,
        ⟨enough, fun fuel more => ?_⟩, sound.exact, ?_, ?_⟩
      · show call.reduceWith numSteps _ = _
        rw [reduceWith, begun, Option.bind_eq_bind, Option.bind_some, found]
        dsimp only
        rw [ends fuel more, clears]
        rfl
      · intro other same
        rw [show setUp.buffers = some other from same] at found
        cases found
        exact adequate.enough
      · intro other same
        rw [show setUp.buffers = some other from same] at found
        cases found
        exact ((baseAccesses_inside fits.1 adequate.base).append inside).append clearedInside

/-- The number of work buffers that a reduction ends with. -/
theorem numBufs_eq (fits : call.Fits numSteps) (begun : call.setUp numSteps = some run.setUp)
    (some : numSteps ≠ 0) :
    run.setUp.numBufs =
      if call.mostBufs = 0 then none
      else Option.some ((min numSteps call.mostBufs : Nat) : Int) := by
  obtain ⟨setUp, same, sound⟩ := setUp_sound fits
  rw [begun, Option.some.injEq] at same
  rw [same]
  exact sound.numBufs some

end Runs

/-! ## All of the images -/

section Images

variable {Image : Type} {present : Image → Prop} {steps : Image → Nat}
  {routine : Image → Nat → Option Reduction}

/-- The images keep to their buffers, and agree on the number of work buffers. -/
def SoundOn (call : Call) (present : Image → Prop) (steps : Image → Nat)
    (routine : Image → Nat → Option Reduction) : Prop :=
  ∃ numBufs : Option Int, ∀ image, present image →
    ∃ run, Settles (routine image) run ∧
      call.Sound (steps image) run ∧
      run.setUp.numBufs = numBufs

/-- The rounds of each image stay inside of adequate buffers. -/
structure Skeleton (call : Call) (present : Image → Prop) (steps : Image → Nat)
    (routine : Image → Nat → Option Reduction)
    (rounds : Image → Buffers → Nat → Option (List Access)) : Prop where
  reduces : ∀ image fuel, routine image fuel =
    call.reduceWith (steps image) fun buffers => rounds image buffers fuel
  goes : ∀ image, present image → call.slotSize < 2 ^ 31 →
    ∀ buffers, call.Adequate (steps image) buffers →
      ∃ accesses, Settles (rounds image buffers) accesses ∧ buffers.AllInside accesses

variable {rounds : Image → Buffers → Nat → Option (List Access)}

section

variable (skeleton : call.Skeleton present steps routine rounds)

include skeleton

theorem Skeleton.ran {image : Image} {run : Reduction} (settles : Settles (routine image) run) :
    ∃ rounds, call.reduceWith (steps image) rounds = some run := by
  obtain ⟨enough, ends⟩ := settles
  have ran := ends enough (Nat.le_refl _)
  rw [skeleton.reduces] at ran
  exact ⟨_, ran⟩

theorem Skeleton.settles {image : Image} (here : present image) (fits : call.Fits (steps image)) :
    ∃ run, Settles (routine image) run ∧ call.Sound (steps image) run := by
  obtain ⟨run, ends, sound⟩ := reduceWith_sound fits (skeleton.goes image here fits.1)
  refine ⟨run, ?_, sound⟩
  rw [show routine image = _ from funext (skeleton.reduces image)]
  exact ends

/-- All of the images are as they should be exactly where their sizes fit. -/
theorem Skeleton.soundOn_iff
    (together : ∀ image other, present image → present other → steps image = 0 → steps other = 0) :
    call.SoundOn present steps routine ↔
      (∀ image, present image → call.Fits (steps image)) ∧
        ∀ image other, present image → present other →
          steps image = steps other ∨ call.mostBufs ≤ min (steps image) (steps other) := by
  constructor
  · rintro ⟨numBufs, sound⟩
    have fits : ∀ image, present image → call.Fits (steps image) := by
      intro image here
      obtain ⟨run, settles, kept, -⟩ := sound image here
      obtain ⟨rounds, ran⟩ := skeleton.ran settles
      exact kept.fits ran
    refine ⟨fits, fun image other here there => ?_⟩
    obtain ⟨run, settles, -, same⟩ := sound image here
    obtain ⟨run', settles', -, same'⟩ := sound other there
    obtain ⟨_, ran⟩ := skeleton.ran settles
    obtain ⟨_, ran'⟩ := skeleton.ran settles'
    by_cases zero : steps image = 0
    · exact Or.inl (zero.trans (together image other here there zero).symm)
    · have nonzero := mt (together other image there here) zero
      have first := numBufs_eq (fits image here) (reduceWith_fields ran).1 zero
      have second := numBufs_eq (fits other there) (reduceWith_fields ran').1 nonzero
      rw [same, ← same', second] at first
      by_cases empty : call.mostBufs = 0
      · exact Or.inr (by omega)
      · rw [if_neg empty, if_neg empty, Option.some.injEq] at first
        omega
  · rintro ⟨fits, agree⟩
    by_cases anyone : ∃ image, present image
    · obtain ⟨image, here⟩ := anyone
      obtain ⟨run, settles, -⟩ := skeleton.settles here (fits image here)
      obtain ⟨_, ran⟩ := skeleton.ran settles
      refine ⟨run.setUp.numBufs, fun other there => ?_⟩
      obtain ⟨run', settles', sound'⟩ := skeleton.settles there (fits other there)
      obtain ⟨_, ran'⟩ := skeleton.ran settles'
      have begun := (reduceWith_fields ran).1
      have begun' := (reduceWith_fields ran').1
      refine ⟨run', settles', sound', ?_⟩
      by_cases equal : steps image = steps other
      · rw [← equal, begun, Option.some.injEq] at begun'
        rw [begun']
      · have most := (agree image other here there).resolve_left equal
        have zero : steps image ≠ 0 := fun zero =>
          equal (zero.trans (together image other here there zero).symm)
        have nonzero := mt (together other image there here) zero
        rw [numBufs_eq (fits image here) begun zero,
          numBufs_eq (fits other there) begun' nonzero,
          Nat.min_eq_right (by omega), Nat.min_eq_right (by omega)]
    · exact ⟨none, fun image here => absurd ⟨image, here⟩ anyone⟩

end

end Images

/-! ## The reductions -/

theorem log2Up_eq_zero_iff {p : Nat} (positive : 0 < p) : log2Up p = 0 ↔ p = 1 := by
  have start := greatestPower_start positive
  rw [log2Up, start]
  dsimp only
  have atMost : 2 ^ Nat.log 2 p ≤ p := Nat.pow_log_le_self 2 positive.ne'
  constructor
  · intro zero
    split at zero
    case isTrue less => omega
    case isFalse more =>
      rw [zero] at more
      omega
  · intro one
    rw [one]
    rfl

/-- The rounds of a reduction to one image. -/
theorem roundAccesses_inside {log2 : Nat} (adequate : call.Adequate log2 buffers)
    (small : call.slotSize < 2 ^ 31) (partner : Nat → Bool) :
    ∃ accesses, Settles (call.roundAccesses partner log2 buffers.numBufs 0)
        accesses ∧
      buffers.AllInside accesses := by
  unfold roundAccesses
  by_cases several : 1 < buffers.numBufs
  · simp only [if_pos several]
    exact @Adequate.loop call log2 buffers partner 0 _ log2 adequate small (by omega) (by omega)
  · simp only [if_neg several]
    exact @Adequate.loop call log2 buffers partner 0 1 log2 adequate small
      Nat.one_pos fun rounds => adequate.enough rounds

theorem toImage_skeleton (call : Call) (p : Nat) :
    call.Skeleton (OnImages p) (fun _ => log2Up p)
      (call.coReducePredefToImage p)
      (fun me buffers fuel =>
        call.roundAccesses (hasPartner p me) (log2Up p) buffers.numBufs 0 fuel) where
  reduces _ _ := rfl
  goes _ _ small _ adequate := roundAccesses_inside adequate small _

/-- The exchanges among the first images. -/
theorem exchangedAccesses_inside {log2 : Nat} (adequate : call.Adequate log2 buffers)
    (small : call.slotSize < 2 ^ 31) (q me : Nat) :
    ∃ accesses,
      Settles (call.exchangedAccesses q log2 me buffers.numBufs) accesses ∧
      buffers.AllInside accesses := by
  unfold exchangedAccesses
  by_cases several : me ≤ q ∧ 1 < buffers.numBufs
  · simp only [if_pos several]
    exact @Adequate.loop call log2 buffers _ 0 _ log2 adequate small (by omega) (by omega)
  · simp only [if_neg several]
    by_cases single : me ≤ q ∧ buffers.numBufs = 1
    · simp only [if_pos single]
      exact @Adequate.loop call log2 buffers _ 0 1 log2 adequate small Nat.one_pos (by omega)
    · simp only [if_neg single]
      exact ⟨[], settles_const [], buffers.allInside_nil⟩

/-- The data that is handed to another image. -/
theorem handedAccesses_inside {q r log2 me : Nat} (adequate : call.Adequate log2 buffers)
    (small : call.slotSize < 2 ^ 31) (handing : log2 = 0 → ¬ (me > q ∨ me ≤ r)) :
    ∃ accesses, call.handedAccesses q r me = some accesses ∧ buffers.AllInside accesses := by
  unfold handedAccesses
  by_cases hands : me > q ∨ me ≤ r
  · rw [if_pos hands]
    have enough := adequate.enough fun zero => handing zero hands
    exact @Adequate.slot call log2 buffers adequate small 0 (by omega)
  · rw [if_neg hands]
    exact ⟨[], rfl, buffers.allInside_nil⟩

theorem toAll_skeleton (call : Call) {p : Nat} (positive : 0 < p) :
    call.Skeleton (OnImages p) (fun _ => Nat.log 2 p)
      (call.coReducePredefToAll p)
      (fun me buffers fuel =>
        (call.handedAccesses (2 ^ Nat.log 2 p) (p - 2 ^ Nat.log 2 p) me).bind
          fun handed =>
            (call.exchangedAccesses (2 ^ Nat.log 2 p) (Nat.log 2 p) me
              buffers.numBufs fuel).bind
              fun exchanged => some (handed ++ exchanged)) where
  reduces me fuel := by
    rw [coReducePredefToAll, greatestPower_start positive]
    rfl
  goes me present small buffers adequate := by
    have below := Nat.lt_pow_succ_log_self (b := 2) (by decide) p
    have first : 1 ≤ me := present.1
    have last : me ≤ p := present.2
    obtain ⟨handed, gave, handedInside⟩ :=
      @handedAccesses_inside call buffers (2 ^ Nat.log 2 p)
        (p - 2 ^ Nat.log 2 p) (Nat.log 2 p) me adequate small
        (fun zero => by rw [zero] at below ⊢; omega)
    obtain ⟨second, exchanging, inside⟩ :=
      exchangedAccesses_inside adequate small (2 ^ Nat.log 2 p) me
    refine ⟨handed ++ second, ?_, handedInside.append inside⟩
    rw [gave]
    exact exchanging.bind (settles_const _)

/-! ## Inside of the nodes and between them -/

/--
The slots of the rounds between the nodes are before those inside of a node, and
there are slots for both where both have rounds.
-/
theorem splitBufs_spec {numBufs : Int} {log2Q log2Qq : Nat}
    (enough : log2Q + log2Qq ≠ 0 → 1 ≤ numBufs) :
    0 ≤ (splitBufs numBufs log2Q log2Qq).1 ∧
      (log2Q ≠ 0 → (splitBufs numBufs log2Q log2Qq).1 ≤ numBufs) ∧
      (log2Qq ≠ 0 → (splitBufs numBufs log2Q log2Qq).1 +
        max 1 (splitBufs numBufs log2Q log2Qq).2 ≤ numBufs) := by
  unfold splitBufs
  by_cases several : 1 < numBufs
  · rw [if_pos several]
    by_cases outer : log2Q = 0
    · rw [if_pos outer]
      omega
    · rw [if_neg outer]
      by_cases inner : log2Qq = 0
      · rw [if_pos inner]
        omega
      · rw [if_neg inner]
        split <;> omega
  · rw [if_neg several]
    omega

theorem intranodeAccesses_inside {bufs : Int × Int} (adequate : call.Adequate numSteps buffers)
    (small : call.slotSize < 2 ^ 31) (nonneg : 0 ≤ bufs.1) {intranodeCount : Nat}
    (within : log2Up intranodeCount ≠ 0 → bufs.1 + max 1 bufs.2 ≤ buffers.numBufs)
    (intranodeIndex : Nat) :
    ∃ accesses,
      Settles (call.intranodeAccesses intranodeCount intranodeIndex bufs) accesses ∧
      buffers.AllInside accesses := by
  obtain ⟨nbufs1, nbufs2⟩ := bufs
  obtain ⟨firstSlot, same⟩ := Int.eq_ofNat_of_zero_le nonneg
  dsimp only at same within
  rw [same] at within
  unfold intranodeAccesses
  simp only [same]
  apply adequate.loop small
  · split <;> omega
  · intro rounds
    have := within rounds
    split <;> omega

theorem leaderAccesses_inside {nbufs1 : Int} (adequate : call.Adequate numSteps buffers)
    (small : call.slotSize < 2 ^ 31) {leadersCount : Nat}
    (enough : log2Up leadersCount ≠ 0 → 1 ≤ buffers.numBufs)
    (within : log2Up leadersCount ≠ 0 → nbufs1 ≤ buffers.numBufs)
    (leaderIndex intranodeIndex : Nat) :
    ∃ accesses,
      Settles (call.leaderAccesses leadersCount leaderIndex intranodeIndex nbufs1) accesses ∧
      buffers.AllInside accesses := by
  unfold leaderAccesses
  by_cases leads : intranodeIndex = 1
  · simp only [if_pos leads]
    apply @Adequate.loop call numSteps buffers _ 0 _ _ adequate small
    · split <;> omega
    · intro rounds
      have := enough rounds
      have := within rounds
      split <;> omega
  · simp only [if_neg leads]
    exact ⟨[], settles_const [], buffers.allInside_nil⟩

/-- The images of the nodes: a node, and an index inside of it. -/
def OnNodes (leaders : Nat) (nodeSize : Nat → Nat) (image : Nat × Nat) : Prop :=
  image.1 < leaders ∧ 1 ≤ image.2 ∧ image.2 ≤ nodeSize image.1

/-- The steps of a reduction inside of a node and between the nodes. -/
def nodeSteps (leaders : Nat) (nodeSize : Nat → Nat) (node : Nat) : Nat :=
  log2Up leaders + log2Up (nodeSize node)

theorem toImage2level_skeleton (call : Call) (leaders : Nat) (nodeSize : Nat → Nat) :
    call.Skeleton (OnNodes leaders nodeSize)
      (fun image => nodeSteps leaders nodeSize image.1)
      (fun image => call.coReducePredefToImage2level leaders (nodeSize image.1) image.1 image.2)
      (fun image buffers fuel =>
        (call.intranodeAccesses (nodeSize image.1) image.2
          (splitBufs buffers.numBufs (log2Up leaders) (log2Up (nodeSize image.1))) fuel).bind
          fun inside =>
            (call.leaderAccesses leaders image.1 image.2
              (splitBufs buffers.numBufs (log2Up leaders) (log2Up (nodeSize image.1))).1 fuel).bind
              fun between => some (inside ++ between)) where
  reduces _ _ := rfl
  goes image present small buffers adequate := by
    obtain ⟨nonneg, between, inNode⟩ := splitBufs_spec adequate.enough
    obtain ⟨inside, first, firstInside⟩ :=
      intranodeAccesses_inside adequate small nonneg inNode image.2
    obtain ⟨others, second, secondInside⟩ :=
      leaderAccesses_inside adequate small
        (fun rounds => adequate.enough (by unfold nodeSteps; omega)) between
        image.1 image.2
    refine ⟨inside ++ others, ?_, firstInside.append secondInside⟩
    exact first.bind (second.bind (settles_const _))

/-- The nodes agree where each has enough steps for all of the buffers. -/
theorem toImage2level_iff (call : Call) {leaders : Nat} {nodeSize : Nat → Nat}
    (positive : 0 < leaders) (images : ∀ node, node < leaders → 0 < nodeSize node) :
    call.SoundOn (OnNodes leaders nodeSize)
        (fun image => nodeSteps leaders nodeSize image.1)
        (fun image => call.coReducePredefToImage2level leaders (nodeSize image.1) image.1 image.2) ↔
      (∀ node, node < leaders → call.Fits (nodeSteps leaders nodeSize node)) ∧
        ∀ node other, node < leaders → other < leaders →
          nodeSteps leaders nodeSize node = nodeSteps leaders nodeSize other ∨
            call.mostBufs ≤ min (nodeSteps leaders nodeSize node)
              (nodeSteps leaders nodeSize other) := by
  have first : ∀ node, node < leaders → OnNodes leaders nodeSize (node, 1) :=
    fun node less => ⟨less, Nat.le_refl 1, images node less⟩
  rw [(toImage2level_skeleton call leaders nodeSize).soundOn_iff]
  · constructor
    · rintro ⟨fits, agree⟩
      exact ⟨fun node less => fits (node, 1) (first node less),
        fun node other less more =>
          agree (node, 1) (other, 1) (first node less) (first other more)⟩
    · rintro ⟨fits, agree⟩
      exact ⟨fun image here => fits image.1 here.1,
        fun image other here there => agree image.1 other.1 here.1 there.1⟩
  · intro image other here there zero
    have single : leaders = 1 :=
      (log2Up_eq_zero_iff positive).1 (by unfold nodeSteps at zero; omega)
    have same : image.1 = other.1 := by
      have := here.1
      have := there.1
      omega
    rwa [← same]

end Call

/-! ## The broadcast -/

namespace Broadcast

variable {call : Broadcast}

/-- The images keep to their base buffers. -/
def SoundOn (call : Broadcast) (p : Nat) : Prop :=
  ∀ me, 1 ≤ me → me ≤ p →
    ∀ access ∈ (call.coBroadcastFromRoot p me).accesses,
      access.offset + access.length ≤ (call.coBroadcastFromRoot p me).room

/--
The elements and an `int` behind them fit: in an allocation, or in the
collectives buffer, where the elements alone decide that it is used.
-/
def Fits (call : Broadcast) : Prop :=
  if call.collectivesBufsz < sizeOfInt (intOfSize call.sz) then
    call.sz + 4 < 2 ^ 64
  else
    call.sz + 4 ≤ call.collectivesBufsz

/-- The base buffer of a broadcast. -/
theorem room_eq (call : Broadcast) (p me : Nat) :
    (call.coBroadcastFromRoot p me).room =
      if call.collectivesBufsz < sizeOfInt (intOfSize call.sz) then
        sizeAdd call.sz 4
      else
        call.collectivesBufsz := by
  unfold coBroadcastFromRoot
  simp

theorem mem_accesses {p me : Nat} {access : Access}
    (member : access ∈ (call.coBroadcastFromRoot p me).accesses) :
    access = ⟨.base, 0, call.sz⟩ ∨ access = ⟨.base, call.sz, 1⟩ ∨
      (¬ call.collectivesBufsz < sizeOfInt (intOfSize call.sz) ∧
        access = ⟨.base, 0, sizeAdd call.sz 4⟩) := by
  unfold coBroadcastFromRoot at member
  rcases List.mem_append.1 member with front | clearing
  · rcases List.mem_cons.1 front with data | flag
    · exact Or.inl data
    · split at flag
      · exact Or.inr (Or.inl (List.mem_singleton.1 flag))
      · cases flag
  · split at clearing
    case isTrue tight => cases clearing
    case isFalse wide =>
      exact Or.inr (Or.inr ⟨wide, List.mem_singleton.1 clearing⟩)

/-- The first image writes its data and sets the flag behind it. -/
theorem first_accesses (call : Broadcast) (p : Nat) :
    (⟨.base, 0, call.sz⟩ : Access) ∈ (call.coBroadcastFromRoot p 1).accesses ∧
      (⟨.base, call.sz, 1⟩ : Access) ∈ (call.coBroadcastFromRoot p 1).accesses ∧
      (¬ call.collectivesBufsz < sizeOfInt (intOfSize call.sz) →
        (⟨.base, 0, sizeAdd call.sz 4⟩ : Access) ∈ (call.coBroadcastFromRoot p 1).accesses) := by
  unfold coBroadcastFromRoot
  simp +contextual

/-- The base buffer is allocated. -/
theorem soundOn_of_allocated {p : Nat} (positive : 0 < p)
    (tight : call.collectivesBufsz < sizeOfInt (intOfSize call.sz)) :
    call.SoundOn p ↔ call.sz + 4 < 2 ^ 64 := by
  have szFits := call.szFits
  constructor
  · intro sound
    have written := sound 1 (Nat.le_refl 1) positive _ (call.first_accesses p).1
    rw [room_eq, if_pos tight, sizeAdd] at written
    dsimp only at written
    omega
  · intro fits me _ _ access member
    rw [room_eq, if_pos tight, sizeAdd_of_lt fits]
    rcases mem_accesses member with data | flag | ⟨wide, -⟩
    · rw [data]
      show 0 + call.sz ≤ call.sz + 4
      omega
    · rw [flag]
      show call.sz + 1 ≤ call.sz + 4
      omega
    · exact absurd tight wide

/-- The base buffer is the collectives buffer. -/
theorem soundOn_of_collectives {p : Nat} (positive : 0 < p)
    (wide : ¬ call.collectivesBufsz < sizeOfInt (intOfSize call.sz)) :
    call.SoundOn p ↔ call.sz + 4 ≤ call.collectivesBufsz := by
  have bufszFits := call.bufszFits
  constructor
  · intro sound
    have accesses := call.first_accesses p
    have written := sound 1 (Nat.le_refl 1) positive _ accesses.1
    have cleared := sound 1 (Nat.le_refl 1) positive _ (accesses.2.2 wide)
    rw [room_eq, if_neg wide] at written cleared
    rw [sizeAdd] at cleared
    dsimp only at written cleared
    omega
  · intro fits me _ _ access member
    rw [room_eq, if_neg wide]
    rcases mem_accesses member with data | flag | ⟨-, cleared⟩
    · rw [data]
      show 0 + call.sz ≤ call.collectivesBufsz
      omega
    · rw [flag]
      show call.sz + 1 ≤ call.collectivesBufsz
      omega
    · rw [cleared, sizeAdd_of_lt (by omega)]
      show 0 + (call.sz + 4) ≤ call.collectivesBufsz
      omega

theorem soundOn_iff {p : Nat} (positive : 0 < p) : call.SoundOn p ↔ call.Fits := by
  rw [Fits]
  by_cases tight : call.collectivesBufsz < sizeOfInt (intOfSize call.sz)
  · rw [if_pos tight]
    exact soundOn_of_allocated positive tight
  · rw [if_neg tight]
    exact soundOn_of_collectives positive tight

end Broadcast

/-! ## All of the routines -/

theorem Call.soundOn_iff_fits {call : Call} {numSteps p : Nat}
    {routine : Nat → Nat → Option Reduction} {rounds : Nat → Buffers → Nat → Option (List Access)}
    (positive : 0 < p) (skeleton : call.Skeleton (OnImages p) (fun _ => numSteps) routine rounds) :
    call.SoundOn (OnImages p) (fun _ => numSteps) routine ↔ call.Fits numSteps := by
  rw [skeleton.soundOn_iff fun _ _ _ _ zero => zero]
  constructor
  · intro fits
    exact fits.1 1 ⟨Nat.le_refl 1, positive⟩
  · intro fits
    exact ⟨fun _ _ => fits, fun _ _ _ _ => Or.inl rfl⟩

/--
The collectives keep to their buffers, and their images agree on the number of
work buffers, exactly where the sizes fit, and, with several nodes, where each
node has steps for all of the work buffers or as many steps as the others.
-/
theorem collectiveBuffers_sound_iff (call : Call) (broadcast : Broadcast)
    {p leaders : Nat} {nodeSize : Nat → Nat} (anyone : 0 < p) (anyNode : 0 < leaders)
    (images : ∀ node, node < leaders → 0 < nodeSize node) :
    (call.SoundOn (OnImages p) (fun _ => Call.log2Up p)
        (call.coReducePredefToImage p) ↔
      call.Fits (Call.log2Up p)) ∧
    (call.SoundOn (Call.OnNodes leaders nodeSize)
        (fun image => Call.nodeSteps leaders nodeSize image.1)
        (fun image => call.coReducePredefToImage2level leaders
          (nodeSize image.1) image.1 image.2) ↔
      (∀ node, node < leaders →
        call.Fits (Call.nodeSteps leaders nodeSize node)) ∧
      ∀ node other, node < leaders → other < leaders →
        Call.nodeSteps leaders nodeSize node =
            Call.nodeSteps leaders nodeSize other ∨
          call.mostBufs ≤ min (Call.nodeSteps leaders nodeSize node)
            (Call.nodeSteps leaders nodeSize other)) ∧
    (call.SoundOn (OnImages p) (fun _ => Nat.log 2 p)
        (call.coReducePredefToAll p) ↔
      call.Fits (Nat.log 2 p)) ∧
    (broadcast.SoundOn p ↔ broadcast.Fits) :=
  ⟨call.soundOn_iff_fits anyone (call.toImage_skeleton p),
    call.toImage2level_iff anyNode images,
    call.soundOn_iff_fits anyone (call.toAll_skeleton anyone),
    broadcast.soundOn_iff anyone⟩

/-- A kilobyte of doubles, whose slot is larger than the largest free slot. -/
def crowded : Call where
  sz := 1024
  elemSize := 8
  collectivesBufsz := 4096
  slots := [(false, 8192)]
  collectivesMaxWorkbufs := 0
  szFits := by decide
  elemPos := by decide
  bufszFits := by decide

/-- The same elements, with room for two slots. -/
def roomy : Call where
  sz := 1024
  elemSize := 8
  collectivesBufsz := 4096
  slots := [(false, 16400)]
  collectivesMaxWorkbufs := 0
  szFits := by decide
  elemPos := by decide
  bufszFits := by decide

/-- A broadcast of four bytes. -/
def fourBytes : Broadcast where
  sz := 4
  collectivesBufsz := 4096
  szFits := by decide
  bufszFits := by decide

theorem collectiveBuffers_sound_roomy :
    roomy.SoundOn (OnImages 2) (fun _ => Call.log2Up 2)
      (roomy.coReducePredefToImage 2) := by
  apply (@collectiveBuffers_sound_iff roomy fourBytes 2 1 (fun _ => 2)
    (by decide) (by decide) (fun _ _ => by decide)).1.2
  refine ⟨by decide, ?_⟩
  rw [if_pos (by decide)]
  decide

/--
For want of room for the base buffer, two images go on with `-1` work buffers,
and write their data into a base buffer of no bytes.
-/
theorem collectiveBuffers_overrun :
    ((crowded.coReducePredefToImage 2 1 2).bind fun run =>
        run.setUp.buffers.map fun buffers =>
          (buffers.numBufs, buffers.room .base)) = some (-1, 0) ∧
      ¬ crowded.SoundOn (OnImages 2) (fun _ => Call.log2Up 2)
        (crowded.coReducePredefToImage 2) := by
  constructor
  · decide +kernel
  · rw [crowded.soundOn_iff_fits (by decide) (crowded.toImage_skeleton 2)]
    rintro ⟨-, regime⟩
    rw [if_pos (by decide)] at regime
    exact absurd regime.2.1 (by decide)

end OpenUH.Libcaf.CollectiveBuffers
