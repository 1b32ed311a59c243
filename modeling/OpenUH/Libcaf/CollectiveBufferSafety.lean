import OpenUH.Foundation.Fallible
import OpenUH.Libcaf.CollectiveBuffers

/-!
# When the buffers of the collectives hold

A set-up gets by with its buffers exactly where the sizes fit in `int`, and the
largest free slot has room for the base buffer at least.  The room is counted in
slots, of the elements and the one with the flag.
-/

namespace OpenUH.Libcaf.CollectiveBuffers

open Foundation.MachineIntegers
open Foundation.Fallible

/-! ## The largest slot -/

/-- The size of the largest slot that is free. -/
def largestFree (slots : List (Bool × Nat)) : Nat :=
  slots.foldr (fun slot size => if slot.1 then size else max slot.2 size) 0

theorem largestFree_cons (slot : Bool × Nat) (slots : List (Bool × Nat)) :
    largestFree (slot :: slots) =
      if slot.1 then largestFree slots else max slot.2 (largestFree slots) :=
  rfl

theorem largestSlot_eq (slots : List (Bool × Nat)) (retval : Nat) :
    largestSlot slots retval = max retval (largestFree slots) := by
  induction slots generalizing retval with
  | nil => exact (Nat.max_zero retval).symm
  | cons slot slots ih =>
      obtain ⟨full, size⟩ := slot
      rw [largestSlot, ih, largestFree_cons]
      cases full <;> grind

/-- The loop for a size ends with a slot of that size, or with the largest one. -/
theorem largestSlotUpTo_eq (size : Nat) (slots : List (Bool × Nat)) (retval : Nat) :
    min size (largestSlotUpTo size slots retval) = min size (max retval (largestFree slots)) := by
  induction slots generalizing retval with
  | nil => rw [largestSlotUpTo, largestFree, List.foldr_nil, Nat.max_zero]
  | cons slot slots ih =>
      obtain ⟨full, slotSize⟩ := slot
      rw [largestSlotUpTo, largestFree_cons]
      by_cases small : retval < size
      · rw [if_pos small, ih]
        cases full <;> grind
      · rw [if_neg small]
        omega

theorem largestAllocatableSlotAvail_eq (slots : List (Bool × Nat)) (size : Nat) :
    largestAllocatableSlotAvail slots size =
      if size = 0 then largestFree slots else min size (largestFree slots) := by
  unfold largestAllocatableSlotAvail
  by_cases zero : size = 0
  · rw [if_pos zero, if_pos zero, largestSlot_eq, Nat.zero_max]
  · rw [if_neg zero, if_neg zero]
    have found := largestSlotUpTo_eq size slots 0
    rw [Nat.zero_max] at found
    dsimp only
    split
    · omega
    · omega

/-! ## What fits -/

/-- The bytes of a slot. -/
def Call.slotSize (call : Call) : Nat :=
  (call.sz + 1) * call.elemSize

/-- The work buffers that there is room for. -/
def Call.roomBufs (call : Call) : Nat :=
  if call.collectivesBufsz < call.slotSize then
    largestFree call.slots / call.slotSize - 1
  else if call.collectivesBufsz < 2 * call.slotSize then
    largestFree call.slots / call.slotSize
  else
    (intOfSize call.collectivesBufsz).toNat / call.slotSize - 1

/-- The limit `collectives_max_workbufs`, for a number of work buffers. -/
def Call.capped (call : Call) (count : Nat) : Nat :=
  if 1 ≤ call.collectivesMaxWorkbufs then
    min count call.collectivesMaxWorkbufs.toNat
  else
    count

/-- The work buffers that there is room for, within the limit. -/
def Call.mostBufs (call : Call) : Nat :=
  call.capped call.roomBufs

/--
The sizes that a reduction computes fit in `int`, and so does the largest slot
it asks for, or its collectives buffer.  Where it allocates the base buffer, the
largest free slot has room for it.
-/
def Call.Fits (call : Call) (numSteps : Nat) : Prop :=
  call.slotSize < 2 ^ 31 ∧
    if call.collectivesBufsz < call.slotSize then
      (numSteps + 1) * (call.sz + 1) < 2 ^ 31 ∧
        call.slotSize ≤ largestFree call.slots ∧
        min ((numSteps + 1) * call.slotSize) (largestFree call.slots) < 2 ^ 31
    else
      2 * call.slotSize < 2 ^ 31 ∧
        if call.collectivesBufsz < 2 * call.slotSize then
          numSteps * (call.sz + 1) < 2 ^ 31 ∧
            (if numSteps = 0 then largestFree call.slots
              else min (numSteps * call.slotSize) (largestFree call.slots)) < 2 ^ 31
        else if numSteps = 0 then
          -(call.slotSize : Int) < intOfSize call.collectivesBufsz
        else
          2 * (call.slotSize : Int) ≤ intOfSize call.collectivesBufsz

namespace Call

variable {call : Call} {numSteps : Nat}

theorem slotSize_pos (call : Call) : 0 < call.slotSize :=
  Nat.mul_pos (Nat.succ_pos _) call.elemPos

theorem count_le (call : Call) (n : Nat) : n * (call.sz + 1) ≤ n * call.slotSize := by
  apply Nat.mul_le_mul_left
  exact Nat.le_mul_of_pos_right _ call.elemPos

theorem slotSize_eq (call : Call) : call.slotSize = call.sz * call.elemSize + call.elemSize := by
  rw [slotSize, Nat.add_mul, Nat.one_mul]

/-- The elements of a slot are counted in `int`. -/
theorem checked_sz1 (fits : call.sz + 1 < 2 ^ 31) :
    checked ((call.sz : Int) + 1) = some ((call.sz + 1 : Nat) : Int) := by
  have cast : ((call.sz : Int) + 1) = ((call.sz + 1 : Nat) : Int) := by
    push_cast
    rfl
  rw [cast, checked_natCast fits]

theorem sz1_lt (small : call.slotSize < 2 ^ 31) : call.sz + 1 < 2 ^ 31 := by
  have more := call.count_le 1
  omega

theorem slots_cast (call : Call) (n : Nat) :
    (n : Int) * ((call.sz + 1 : Nat) : Int) = ((n * (call.sz + 1) : Nat) : Int) :=
  (Int.natCast_mul n (call.sz + 1)).symm

/-- The bytes of some slots, where they are counted in `int`. -/
theorem bytes_eq {n : Nat} (small : call.slotSize < 2 ^ 31) (fits : n * (call.sz + 1) < 2 ^ 31) :
    call.bytes n = some (n * call.slotSize) := by
  have elem : call.elemSize ≤ call.slotSize := by
    rw [slotSize_eq]
    exact Nat.le_add_left _ _
  have wide : n * (call.sz + 1) * call.elemSize < 2 ^ 64 := by
    calc n * (call.sz + 1) * call.elemSize
        ≤ 2 ^ 31 * call.slotSize := Nat.mul_le_mul fits.le elem
      _ < 2 ^ 64 := by omega
  rw [bytes, checked_sz1 (sz1_lt small), Option.bind_eq_bind, Option.bind_some,
    slots_cast, checked_natCast fits, Option.bind_some,
    sizeOfInt_natCast (by omega), sizeMul_of_lt wide, slotSize, Nat.mul_assoc]

/-- The bytes of one slot. -/
theorem bytes_one (small : call.slotSize < 2 ^ 31) : call.bytes 1 = some call.slotSize := by
  have counted := call.count_le 1
  have bytes := @bytes_eq call 1 small (by omega)
  rwa [Nat.one_mul] at bytes

/-- A count that does not fit has no bytes. -/
theorem bytes_none {n : Nat} (small : call.slotSize < 2 ^ 31) (wide : 2 ^ 31 ≤ n * (call.sz + 1)) :
    call.bytes n = none := by
  rw [bytes, checked_sz1 (sz1_lt small), Option.bind_eq_bind, Option.bind_some,
    slots_cast, checked_natCast_of_le wide]
  rfl

/-- `k`, where the elements of a slot are counted in `int`. -/
theorem slotBytes_of_lt (fits : call.sz + 1 < 2 ^ 31) :
    call.slotBytes = some (intOfSize call.slotSize) := by
  rw [slotBytes, checked_sz1 fits, Option.bind_eq_bind, Option.bind_some,
    sizeOfInt_natCast (by omega), sizeMul, intOfSize_mod, ← slotSize]

/-- `k` is what it stands for, where it fits. -/
theorem slotBytes_eq (small : call.slotSize < 2 ^ 31) :
    call.slotBytes = some (call.slotSize : Int) := by
  rw [slotBytes_of_lt (sz1_lt small), intOfSize_of_lt small]

/-- Where `k` is what it stands for, it fits. -/
theorem small_of_slotBytes (exact : call.slotBytes = some (call.slotSize : Int)) :
    call.slotSize < 2 ^ 31 := by
  by_cases fits : call.sz + 1 < 2 ^ 31
  · rw [slotBytes_of_lt fits] at exact
    exact intOfSize_eq_iff.1 (Option.some.inj exact)
  · have cast : ((call.sz : Int) + 1) = ((call.sz + 1 : Nat) : Int) := by
      push_cast
      rfl
    rw [slotBytes, cast, checked_natCast_of_le (by omega)] at exact
    cases exact

/-- The set-up, where `k` fits. -/
theorem setUp_eq (small : call.slotSize < 2 ^ 31) :
    call.setUp numSteps =
      if call.collectivesBufsz < call.slotSize then
        call.setUpAllocated numSteps call.slotSize
      else if 2 ^ 31 ≤ 2 * call.slotSize then
        none
      else if call.collectivesBufsz < 2 * call.slotSize then
        call.setUpWork numSteps call.slotSize
      else
        call.setUpCollectives numSteps call.slotSize := by
  have twice : 2 * (call.slotSize : Int) = ((2 * call.slotSize : Nat) : Int) := by
    push_cast
    rfl
  unfold setUp
  rw [slotBytes_eq small, Option.bind_eq_bind, Option.bind_some, sizeOfInt_natCast (by omega)]
  by_cases tight : call.collectivesBufsz < call.slotSize
  · rw [if_pos tight, if_pos tight]
  · rw [if_neg tight, if_neg tight, twice]
    by_cases wide : 2 ^ 31 ≤ 2 * call.slotSize
    · rw [if_pos wide, checked_natCast_of_le wide]
      rfl
    · rw [if_neg wide, checked_natCast (by omega), Option.bind_some, sizeOfInt_natCast (by omega)]

/-! ## Sound set-ups -/

theorem limitBufs_natCast (call : Call) (count : Nat) :
    call.limitBufs count = call.capped count := by
  unfold limitBufs capped
  split <;> omega

/-- Without steps, at most one buffer is missing. -/
theorem limitBufs_min_zero {count : Int} (least : -1 ≤ count) :
    -1 ≤ call.limitBufs (min count 0) ∧ call.limitBufs (min count 0) ≤ 0 := by
  unfold limitBufs
  split
  · constructor <;> omega
  · constructor <;> omega

theorem capped_le (call : Call) (count : Nat) : call.capped count ≤ count := by
  unfold capped
  split <;> omega

theorem capped_eq_zero_iff {count : Nat} : call.capped count = 0 ↔ count = 0 := by
  unfold capped
  split <;> omega

theorem capped_min (call : Call) (first second : Nat) :
    call.capped (min first second) = min first (call.capped second) := by
  unfold capped
  split <;> omega

end Call

/-- The bytes of an access are in its area. -/
def Buffers.Inside (buffers : Buffers) (access : Access) : Prop :=
  access.offset + access.length ≤ buffers.room access.area

/-- The conversions of a set-up lose nothing. -/
structure Call.Exact (call : Call) (setUp : SetUp) : Prop where
  slotSize : setUp.k = call.slotSize
  slot : ∀ slot, setUp.slot = some slot → slot.2 = slot.1

/-- The number of work buffers that a set-up ended with. -/
def SetUp.numBufs (setUp : SetUp) : Option Int :=
  setUp.buffers.map Buffers.numBufs

/-- The buffers have room for what the rounds use of them. -/
structure Call.Adequate (call : Call) (numSteps : Nat) (buffers : Buffers) :
    Prop where
  enough : numSteps ≠ 0 → 1 ≤ buffers.numBufs
  base : call.slotSize ≤ buffers.room .base
  work : ∀ slots : Nat, (slots : Int) ≤ buffers.numBufs →
    slots * call.slotSize ≤ buffers.room .work ∧ slots * call.slotSize < 2 ^ 31
  cleared : ∃ accesses, call.clearAccesses buffers = some accesses ∧
    ∀ access ∈ accesses, buffers.Inside access

/-- A set-up that is as it should be. -/
structure Call.SoundSetUp (call : Call) (numSteps : Nat) (setUp : SetUp) :
    Prop where
  exact : call.Exact setUp
  numBufs : numSteps ≠ 0 → setUp.numBufs =
    if call.mostBufs = 0 then none
    else some ((min numSteps call.mostBufs : Nat) : Int)
  adequate : ∀ buffers, setUp.buffers = some buffers → call.Adequate numSteps buffers

namespace Call

variable {call : Call} {numSteps : Nat}

/-- `Error` was called, for want of room. -/
theorem soundSetUp_error {slot count : Nat} (numBufs : count = min numSteps call.mostBufs)
    (error : (count : Int) = 0 ∧ numSteps ≠ 0) :
    call.SoundSetUp numSteps ⟨call.slotSize, some (slot, slot), none⟩ where
  exact := ⟨rfl, by rintro _ ⟨⟩; rfl⟩
  numBufs nonzero := by
    rw [if_pos (by omega)]
    rfl
  adequate := nofun

/-- The base buffer is allocated, with as many work buffers as are used. -/
theorem allocateBase_sound {slot count : Nat} (numBufs : count = min numSteps call.mostBufs)
    (enough : ¬ ((count : Int) = 0 ∧ numSteps ≠ 0)) (small : (count + 1) * call.slotSize < 2 ^ 31) :
    ∃ setUp, call.allocateBase call.slotSize (some (slot, slot)) count =
        some setUp ∧
      call.SoundSetUp numSteps setUp := by
  have total : (count + 1) * call.slotSize =
      count * call.slotSize + call.slotSize := Nat.succ_mul _ _
  have counted := call.count_le (count + 1)
  have single := call.count_le 1
  have cast : ((count : Int) + 1) = ((count + 1 : Nat) : Int) := by
    push_cast
    rfl
  have one := @bytes_one call (by omega)
  have more := call.slotSize_pos
  have least : count + 1 ≤ (count + 1) * call.slotSize := Nat.le_mul_of_pos_right _ more
  refine ⟨⟨call.slotSize, some (slot, slot), some (.allocated count call.slotSize
    ((count + 1) * call.slotSize) call.collectivesBufsz)⟩, ?_, ?_, ?_, ?_⟩
  · unfold allocateBase
    have bytes : call.bytes (count + 1 : Nat) =
        some ((count + 1) * call.slotSize) := bytes_eq (by omega) (by omega)
    have fits : checked ((count + 1 : Nat) : Int) =
        some ((count + 1 : Nat) : Int) := checked_natCast (by omega)
    rw [cast, fits, Option.bind_eq_bind, Option.bind_some, bytes,
      Option.bind_eq_bind, Option.bind_some, one]
    rfl
  · exact ⟨rfl, by rintro _ ⟨⟩; rfl⟩
  · intro nonzero
    rw [if_neg (by omega), ← numBufs]
    rfl
  · rintro _ ⟨⟩
    refine ⟨fun nonzero => ?_, ?_, fun slots within => ?_, [], rfl, nofun⟩
    · show (1 : Int) ≤ count
      omega
    · exact Nat.le_min.2 ⟨Nat.le_refl _, by omega⟩
    · have fewer : slots * call.slotSize ≤ count * call.slotSize :=
        Nat.mul_le_mul_right _ (Int.ofNat_le.1 within)
      show slots * call.slotSize ≤ (count + 1) * call.slotSize - call.slotSize ∧ _
      omega

/-- The work buffers that are used are allocated. -/
theorem allocateWork_sound {slot count : Nat}
    (numBufs : numSteps ≠ 0 → count = min numSteps call.mostBufs)
    (enough : ¬ ((count : Int) = 0 ∧ numSteps ≠ 0)) (single : call.slotSize < 2 ^ 31)
    (base : call.slotSize ≤ call.collectivesBufsz) (small : count * call.slotSize < 2 ^ 31) :
    ∃ setUp, call.allocateWork call.slotSize (some (slot, slot)) count =
        some setUp ∧
      call.SoundSetUp numSteps setUp := by
  have counted := call.count_le count
  have singleCounted := call.count_le 1
  have one := @bytes_one call (by omega)
  refine ⟨⟨call.slotSize, some (slot, slot), some (.workAllocated count
    (count * call.slotSize) call.collectivesBufsz)⟩, ?_, ?_, ?_, ?_⟩
  · unfold allocateWork
    simp only [Option.bind_eq_bind, Option.bind_some, @bytes_eq call count single (by omega)]
  · exact ⟨rfl, by rintro _ ⟨⟩; rfl⟩
  · intro nonzero
    have := numBufs nonzero
    rw [if_neg (by omega), ← numBufs nonzero]
    rfl
  · rintro _ ⟨⟩
    refine ⟨fun nonzero => ?_, base, fun slots within => ?_, [⟨.base, 0, call.slotSize⟩], ?_, ?_⟩
    · show (1 : Int) ≤ count
      omega
    · have fewer : slots * call.slotSize ≤ count * call.slotSize :=
        Nat.mul_le_mul_right _ (Int.ofNat_le.1 within)
      show slots * call.slotSize ≤ count * call.slotSize ∧ _
      omega
    · unfold clearAccesses
      simp only [Buffers.workAllocated, Bool.false_eq_true, if_false, if_true,
        one, Option.bind_eq_bind, Option.bind_some]
    · intro access member
      rw [List.mem_singleton.1 member]
      show 0 + call.slotSize ≤ call.collectivesBufsz
      omega

theorem min_mul_div {size : Nat} (positive : 0 < size) (count bytes : Nat) :
    min (count * size) bytes / size = min count (bytes / size) := by
  rcases Nat.le_total (count * size) bytes with less | more
  · rw [Nat.min_eq_left less, Nat.mul_div_cancel _ positive,
      Nat.min_eq_left ((Nat.le_div_iff_mul_le positive).2 less)]
  · rw [Nat.min_eq_right more,
      Nat.min_eq_right ((Nat.div_le_div_right more).trans (Nat.mul_div_cancel _ positive).le)]

/-- The largest slot, asked for as many slots of the buffers. -/
theorem largestSlots_eq {count : Nat} (nonzero : count ≠ 0) :
    largestAllocatableSlotAvail call.slots (count * call.slotSize) =
      min (count * call.slotSize) (largestFree call.slots) := by
  rw [largestAllocatableSlotAvail_eq, if_neg]
  exact Nat.mul_ne_zero nonzero call.slotSize_pos.ne'

/-- The set-up with all of its buffers allocated. -/
theorem setUpAllocated_sound (small : call.slotSize < 2 ^ 31)
    (tight : call.collectivesBufsz < call.slotSize)
    (counted : (numSteps + 1) * (call.sz + 1) < 2 ^ 31)
    (room : call.slotSize ≤ largestFree call.slots)
    (fits : min ((numSteps + 1) * call.slotSize) (largestFree call.slots) < 2 ^ 31) :
    ∃ setUp, call.setUpAllocated numSteps call.slotSize = some setUp ∧
      call.SoundSetUp numSteps setUp := by
  have positive := call.slotSize_pos
  have steps : numSteps + 1 < 2 ^ 31 :=
    (Nat.le_mul_of_pos_right _ (Nat.succ_pos _)).trans_lt counted
  have stepsCast : ((numSteps : Int) + 1) = ((numSteps + 1 : Nat) : Int) := by
    push_cast
    rfl
  have bound : 1 ≤ largestFree call.slots / call.slotSize := (Nat.one_le_div_iff positive).2 room
  have quotient : min ((numSteps + 1) * call.slotSize)
      (largestFree call.slots) / call.slotSize =
        min numSteps (largestFree call.slots / call.slotSize - 1) + 1 := by
    rw [min_mul_div positive]
    omega
  have most : call.mostBufs = call.capped (largestFree call.slots / call.slotSize - 1) := by
    rw [mostBufs, roomBufs, if_pos tight]
  have numBufs : call.limitBufs (intOfSize (sizeSub (sizeOfInt
      ((min numSteps (largestFree call.slots / call.slotSize - 1) + 1 : Nat) :
        Int)) 1)) = (min numSteps call.mostBufs : Nat) := by
    rw [sizeOfInt_natCast (by omega), sizeSub_of_le (by omega) (by omega),
      Nat.add_sub_cancel, intOfSize_of_lt (by omega), limitBufs_natCast,
      capped_min, most]
  have allocated : (min numSteps call.mostBufs + 1) * call.slotSize ≤
      min ((numSteps + 1) * call.slotSize) (largestFree call.slots) := by
    apply Nat.le_min.2
    constructor
    · exact Nat.mul_le_mul_right _ (by omega)
    · apply (Nat.le_div_iff_mul_le positive).1
      have := call.capped_le (largestFree call.slots / call.slotSize - 1)
      omega
  have slots := @largestSlots_eq call (numSteps + 1) (by omega)
  unfold setUpAllocated
  rw [stepsCast, checked_natCast steps, Option.bind_eq_bind, Option.bind_some,
    bytes_eq small counted, Option.bind_eq_bind, Option.bind_some, slots]
  dsimp only
  rw [intOfSize_of_lt fits, divideInt_natCast fits positive, Option.bind_some, quotient, numBufs]
  split
  case isTrue error => exact ⟨_, rfl, soundSetUp_error rfl error⟩
  case isFalse enough =>
    exact allocateBase_sound rfl enough (allocated.trans_lt fits)

/-- The set-up with its work buffers allocated. -/
theorem setUpWork_sound (small : call.slotSize < 2 ^ 31)
    (base : call.slotSize ≤ call.collectivesBufsz)
    (tight : call.collectivesBufsz < 2 * call.slotSize)
    (counted : numSteps * (call.sz + 1) < 2 ^ 31)
    (fits : (if numSteps = 0 then largestFree call.slots
      else min (numSteps * call.slotSize) (largestFree call.slots)) < 2 ^ 31) :
    ∃ setUp, call.setUpWork numSteps call.slotSize = some setUp ∧
      call.SoundSetUp numSteps setUp := by
  have positive := call.slotSize_pos
  have most : call.mostBufs = call.capped (largestFree call.slots / call.slotSize) := by
    rw [mostBufs, roomBufs, if_neg (by omega), if_pos tight]
  obtain ⟨slot, slotIs⟩ : ∃ slot, slot =
      largestAllocatableSlotAvail call.slots (numSteps * call.slotSize) :=
    ⟨_, rfl⟩
  have slotFits : slot < 2 ^ 31 := by
    rw [slotIs, largestAllocatableSlotAvail_eq]
    by_cases zero : numSteps = 0
    · rw [if_pos zero] at fits
      rw [if_pos (by rw [zero, Nat.zero_mul])]
      exact fits
    · rw [if_neg zero] at fits
      rw [if_neg (Nat.mul_ne_zero zero positive.ne')]
      exact fits
  have quotientFits : slot / call.slotSize < 2 ^ 31 := (Nat.div_le_self _ _).trans_lt slotFits
  have numBufs : numSteps ≠ 0 → call.capped (slot / call.slotSize) =
      min numSteps call.mostBufs := by
    intro nonzero
    rw [slotIs, largestSlots_eq nonzero, min_mul_div positive, capped_min, most]
  have allocated : call.capped (slot / call.slotSize) * call.slotSize ≤ slot :=
    (Nat.le_div_iff_mul_le positive).1 (call.capped_le _)
  unfold setUpWork
  simp only [Option.bind_eq_bind, Option.bind_some, bytes_eq small counted,
    ← slotIs, intOfSize_of_lt slotFits, divideInt_natCast slotFits positive,
    sizeOfInt_natCast (quotientFits.trans (by decide)),
    intOfSize_of_lt quotientFits, limitBufs_natCast]
  split
  case isTrue error =>
    exact ⟨_, rfl, soundSetUp_error (numBufs error.2) error⟩
  case isFalse enough =>
    exact allocateWork_sound numBufs enough small base (allocated.trans_lt slotFits)

theorem clearAccesses_inCollectives (numBufs : Int) (start bufsz : Nat) :
    call.clearAccesses (.inCollectives numBufs start bufsz) =
      (checked (numBufs + 1)).bind fun bufs =>
        (call.bytes bufs).bind fun length => some [⟨.collectives, 0, length⟩] :=
  rfl

/-- The work buffers of a set-up in the collectives buffer. -/
theorem inCollectives_sound {count : Int} (single : 2 * call.slotSize < 2 ^ 31)
    (wide : 2 * call.slotSize ≤ call.collectivesBufsz) (least : -1 ≤ count)
    (most : (count + 1) * call.slotSize ≤ intOfSize call.collectivesBufsz ∨ count ≤ 0)
    (numBufs : numSteps ≠ 0 → count = (min numSteps call.mostBufs : Nat) ∧ call.mostBufs ≠ 0) :
    call.SoundSetUp numSteps ⟨call.slotSize, none,
      some (.inCollectives count call.slotSize call.collectivesBufsz)⟩ := by
  have positive := call.slotSize_pos
  have counted := call.count_le 1
  have range := intOfSize_inInt call.collectivesBufsz
  have atMost := intOfSize_le call.collectivesBufsz
  unfold InInt at range
  obtain ⟨bufs, bufsIs⟩ : ∃ bufs : Nat, count + 1 = bufs := ⟨(count + 1).toNat, by omega⟩
  have room : bufs * call.slotSize < 2 ^ 31 ∧ bufs * call.slotSize ≤ call.collectivesBufsz := by
    rcases most with fits | few
    · rw [bufsIs, ← Int.natCast_mul] at fits
      omega
    · have atMostOne : bufs * call.slotSize ≤ 1 * call.slotSize :=
        Nat.mul_le_mul_right _ (by omega)
      omega
  have countedBufs := call.count_le bufs
  refine ⟨⟨rfl, nofun⟩, fun nonzero => ?_, ?_⟩
  · obtain ⟨same, available⟩ := numBufs nonzero
    rw [if_neg available, ← same]
    rfl
  · rintro _ ⟨⟩
    refine ⟨fun nonzero => ?_, ?_, fun slots within => ?_,
      [⟨.collectives, 0, bufs * call.slotSize⟩], ?_, ?_⟩
    · obtain ⟨same, -⟩ := numBufs nonzero
      show (1 : Int) ≤ count
      omega
    · exact Nat.le_min.2 ⟨Nat.le_refl _, by omega⟩
    · have fewer : slots + 1 ≤ bufs := by
        have : (slots : Int) ≤ count := within
        omega
      have total : (slots + 1) * call.slotSize ≤ bufs * call.slotSize :=
        Nat.mul_le_mul_right _ fewer
      rw [Nat.succ_mul] at total
      show slots * call.slotSize ≤ call.collectivesBufsz - call.slotSize ∧ _
      omega
    · have least : bufs ≤ bufs * call.slotSize :=
        Nat.le_mul_of_pos_right _ positive
      have fits : checked (bufs : Int) = some (bufs : Int) := checked_natCast (by omega)
      have bytes : call.bytes bufs = some (bufs * call.slotSize) :=
        bytes_eq (by omega) (by omega)
      rw [clearAccesses_inCollectives, bufsIs, fits, Option.bind_some, bytes]
      rfl
    · intro access member
      rw [List.mem_singleton.1 member]
      show 0 + bufs * call.slotSize ≤ call.collectivesBufsz
      omega

/-- The quotient is at least -1 where less than two divisors are missing. -/
theorem tdiv_of_lower {first second : Int} (positive : 0 < second) (lower : -second < first) :
    -1 ≤ (first - second).tdiv second ∧ (first - second).tdiv second ≤ max 0 first := by
  by_cases nonneg : 0 ≤ first - second
  · have atLeast := Int.tdiv_nonneg nonneg positive.le
    have atMost := Int.tdiv_le_self second nonneg
    omega
  · have negated : (first - second).tdiv second = -((second - first) / second) := by
      rw [← Int.neg_sub, Int.neg_tdiv, Int.tdiv_eq_ediv_of_nonneg (by omega)]
    have small : (second - first) / second < 2 := Int.ediv_lt_of_lt_mul positive (by omega)
    have atLeast : 0 ≤ (second - first) / second := Int.ediv_nonneg (by omega) positive.le
    omega

/-- The set-up in the collectives buffer. -/
theorem setUpCollectives_sound (single : 2 * call.slotSize < 2 ^ 31)
    (wide : 2 * call.slotSize ≤ call.collectivesBufsz)
    (fits : if numSteps = 0 then
        -(call.slotSize : Int) < intOfSize call.collectivesBufsz
      else
        2 * (call.slotSize : Int) ≤ intOfSize call.collectivesBufsz) :
    ∃ setUp, call.setUpCollectives numSteps call.slotSize = some setUp ∧
      call.SoundSetUp numSteps setUp := by
  have positive := call.slotSize_pos
  have counted := call.count_le 1
  have range := intOfSize_inInt call.collectivesBufsz
  unfold InInt at range
  have one := @bytes_one call (by omega)
  have lower : -(call.slotSize : Int) < intOfSize call.collectivesBufsz := by
    split at fits <;> omega
  have left : checked (intOfSize call.collectivesBufsz - call.slotSize) =
      some (intOfSize call.collectivesBufsz - call.slotSize) := by
    apply checked_of_inInt
    unfold InInt
    omega
  have nonzero : (call.slotSize : Int) ≠ 0 := by omega
  have most : call.mostBufs = call.capped
      ((intOfSize call.collectivesBufsz).toNat / call.slotSize - 1) := by
    rw [mostBufs, roomBufs, if_neg (by omega), if_neg (by omega)]
  by_cases zero : numSteps = 0
  · obtain ⟨few, most⟩ := tdiv_of_lower (Int.ofNat_lt.2 positive) lower
    obtain ⟨count, countIs⟩ : ∃ count, count =
        (intOfSize call.collectivesBufsz - call.slotSize).tdiv call.slotSize :=
      ⟨_, rfl⟩
    rw [← countIs] at few most
    have inInt : InInt count := by
      unfold InInt
      omega
    have quotient : divideInt (intOfSize call.collectivesBufsz - call.slotSize)
        call.slotSize = some count := by
      rw [divideInt, if_neg nonzero, ← countIs, checked_of_inInt inInt]
    obtain ⟨least, atMost⟩ := @limitBufs_min_zero call count few
    refine ⟨_, ?_, @inCollectives_sound call numSteps
      (call.limitBufs (min count 0)) single wide least (Or.inr atMost)
      (fun nonzero => absurd zero nonzero)⟩
    rw [setUpCollectives, one, Option.bind_eq_bind, Option.bind_some, left,
      Option.bind_eq_bind, Option.bind_some, quotient, zero]
    rfl
  · rw [if_neg zero] at fits
    obtain ⟨size, sizeIs⟩ : ∃ size : Nat, intOfSize call.collectivesBufsz = size :=
      ⟨(intOfSize call.collectivesBufsz).toNat, by omega⟩
    rw [sizeIs, Int.toNat_natCast] at most
    have two : 2 ≤ size / call.slotSize := (Nat.le_div_iff_mul_le positive).2 (by omega)
    have quotient : divideInt (intOfSize call.collectivesBufsz - call.slotSize)
        call.slotSize = some ((size / call.slotSize - 1 : Nat) : Int) := by
      have difference : intOfSize call.collectivesBufsz - call.slotSize =
          ((size - call.slotSize : Nat) : Int) := by omega
      have reduced := @Nat.div_eq_sub_div call.slotSize size positive (by omega)
      rw [difference, divideInt_natCast (by omega) positive, reduced, Nat.add_sub_cancel]
    have numBufs : call.limitBufs
        (min ((size / call.slotSize - 1 : Nat) : Int) numSteps) =
          (min numSteps call.mostBufs : Nat) := by
      have cast : min ((size / call.slotSize - 1 : Nat) : Int) numSteps =
          (min numSteps (size / call.slotSize - 1) : Nat) := by omega
      rw [cast, limitBufs_natCast, capped_min, most]
    have available : call.mostBufs ≠ 0 := by
      rw [most]
      exact mt capped_eq_zero_iff.1 (by omega)
    have room : (min numSteps call.mostBufs + 1) * call.slotSize ≤ size := by
      apply (Nat.le_div_iff_mul_le positive).1
      have := call.capped_le (size / call.slotSize - 1)
      omega
    refine ⟨_, ?_, @inCollectives_sound call numSteps
      (min numSteps call.mostBufs : Nat) single wide (by omega) (Or.inl ?_)
      (fun _ => ⟨rfl, available⟩)⟩
    · rw [setUpCollectives, one, Option.bind_eq_bind, Option.bind_some, left,
        Option.bind_eq_bind, Option.bind_some, quotient, Option.bind_some,
        numBufs]
    · rw [sizeIs]
      exact_mod_cast room

/-- A set-up is sound where the sizes fit. -/
theorem setUp_sound (fits : call.Fits numSteps) :
    ∃ setUp, call.setUp numSteps = some setUp ∧ call.SoundSetUp numSteps setUp := by
  obtain ⟨small, regime⟩ := fits
  rw [setUp_eq small]
  by_cases tight : call.collectivesBufsz < call.slotSize
  · rw [if_pos tight] at regime ⊢
    exact setUpAllocated_sound small tight regime.1 regime.2.1 regime.2.2
  · rw [if_neg tight] at regime ⊢
    obtain ⟨twice, regime⟩ := regime
    rw [if_neg (by omega)]
    by_cases narrow : call.collectivesBufsz < 2 * call.slotSize
    · rw [if_pos narrow] at regime ⊢
      exact setUpWork_sound small (by omega) narrow regime.1 regime.2
    · rw [if_neg narrow] at regime ⊢
      exact setUpCollectives_sound twice (by omega) regime

end Call

end OpenUH.Libcaf.CollectiveBuffers
