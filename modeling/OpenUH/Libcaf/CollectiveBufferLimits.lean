import OpenUH.Libcaf.CollectiveRounds

/-!
# The limits of the collectives' buffers

A reduction whose run is as it should be has sizes that fit: each of the ways in
which they do not fit shows in the set-up, in the number of work buffers, or in
an access outside of the buffers.  With the converse, the limits are exact.
-/

namespace OpenUH.Libcaf.CollectiveBuffers

open Foundation.MachineIntegers
open Foundation.Fallible

namespace Call

variable {call : Call} {numSteps : Nat} {setUp : SetUp}

/-! ## What a set-up says -/

theorem allocateBase_fields {k numBufs : Int} {slot : Option (Nat × Int)}
    (ran : call.allocateBase k slot numBufs = some setUp) :
    setUp.k = k ∧ setUp.slot = slot ∧
      ∃ start size, call.bytes (numBufs + 1) = some size ∧
        setUp.buffers = some (.allocated numBufs start size call.collectivesBufsz) := by
  rw [allocateBase, Option.bind_eq_bind] at ran
  obtain ⟨bufs, counted, ran⟩ := Option.bind_eq_some_iff.1 ran
  obtain ⟨size, found, ran⟩ := Option.bind_eq_some_iff.1 ran
  obtain ⟨start, begun, ran⟩ := Option.bind_eq_some_iff.1 ran
  obtain ⟨-, same⟩ := checked_eq_some_iff.1 counted
  cases ran
  rw [← same] at found
  exact ⟨rfl, rfl, start, size, found, rfl⟩

theorem allocateWork_fields {k numBufs : Int} {slot : Option (Nat × Int)}
    (ran : call.allocateWork k slot numBufs = some setUp) :
    setUp.k = k ∧ setUp.slot = slot := by
  rw [allocateWork, Option.bind_eq_bind] at ran
  obtain ⟨size, found, ran⟩ := Option.bind_eq_some_iff.1 ran
  cases ran
  exact ⟨rfl, rfl⟩

/-- A count that has bytes fits in `int`. -/
theorem counted_of_bytes {n bytes : Nat} (small : call.slotSize < 2 ^ 31)
    (found : call.bytes n = some bytes) :
    n * (call.sz + 1) < 2 ^ 31 ∧ bytes = n * call.slotSize := by
  by_cases fits : n * (call.sz + 1) < 2 ^ 31
  · rw [bytes_eq small fits] at found
    exact ⟨fits, (Option.some.inj found).symm⟩
  · rw [bytes_none small (by omega)] at found
    cases found

theorem setUpAllocated_fields {k : Int} (ran : call.setUpAllocated numSteps k = some setUp) :
    setUp.k = k ∧ ∃ wanted nb,
      call.bytes (numSteps + 1 : Nat) = some wanted ∧
      setUp.slot = some (largestAllocatableSlotAvail call.slots wanted,
        intOfSize (largestAllocatableSlotAvail call.slots wanted)) ∧
      divideInt (intOfSize (largestAllocatableSlotAvail call.slots wanted)) k = some nb ∧
      (call.limitBufs (intOfSize (sizeSub (sizeOfInt nb) 1)) ≠ 0 →
        ∃ start size, call.bytes
            (call.limitBufs (intOfSize (sizeSub (sizeOfInt nb) 1)) + 1) = some size ∧
          setUp.buffers = some (.allocated
            (call.limitBufs (intOfSize (sizeSub (sizeOfInt nb) 1)))
            start size call.collectivesBufsz)) := by
  rw [setUpAllocated, Option.bind_eq_bind] at ran
  obtain ⟨steps, counted, ran⟩ := Option.bind_eq_some_iff.1 ran
  obtain ⟨wanted, found, ran⟩ := Option.bind_eq_some_iff.1 ran
  obtain ⟨nb, divided, ran⟩ := Option.bind_eq_some_iff.1 ran
  obtain ⟨-, same⟩ := checked_eq_some_iff.1 counted
  rw [← same] at found
  dsimp only at ran
  by_cases error : call.limitBufs (intOfSize (sizeSub (sizeOfInt nb) 1)) = 0 ∧ numSteps ≠ 0
  · rw [if_pos error] at ran
    cases ran
    exact ⟨rfl, wanted, nb, found, rfl, divided, fun some => absurd error.1 some⟩
  · rw [if_neg error] at ran
    obtain ⟨slotSize, slot, buffers⟩ := allocateBase_fields ran
    exact ⟨slotSize, wanted, nb, found, slot, divided, fun _ => buffers⟩

theorem setUpWork_fields {k : Int} (ran : call.setUpWork numSteps k = some setUp) :
    setUp.k = k ∧ ∃ wanted, call.bytes numSteps = some wanted ∧
      setUp.slot = some (largestAllocatableSlotAvail call.slots wanted,
        intOfSize (largestAllocatableSlotAvail call.slots wanted)) := by
  rw [setUpWork, Option.bind_eq_bind] at ran
  obtain ⟨wanted, found, ran⟩ := Option.bind_eq_some_iff.1 ran
  obtain ⟨nb, divided, ran⟩ := Option.bind_eq_some_iff.1 ran
  dsimp only at ran
  by_cases error : call.limitBufs (intOfSize (sizeOfInt nb)) = 0 ∧ numSteps ≠ 0
  · rw [if_pos error] at ran
    cases ran
    exact ⟨rfl, wanted, found, rfl⟩
  · rw [if_neg error] at ran
    obtain ⟨slotSize, slot⟩ := allocateWork_fields ran
    exact ⟨slotSize, wanted, found, slot⟩

theorem setUpCollectives_fields {k : Int} (ran : call.setUpCollectives numSteps k = some setUp) :
    setUp.k = k ∧ ∃ start,
      InInt (intOfSize call.collectivesBufsz - k) ∧
      setUp.buffers = some (.inCollectives
        (call.limitBufs (min ((intOfSize call.collectivesBufsz - k).tdiv k) numSteps))
        start call.collectivesBufsz) := by
  rw [setUpCollectives, Option.bind_eq_bind] at ran
  obtain ⟨start, begun, ran⟩ := Option.bind_eq_some_iff.1 ran
  obtain ⟨left, fits, ran⟩ := Option.bind_eq_some_iff.1 ran
  obtain ⟨quotient, divided, ran⟩ := Option.bind_eq_some_iff.1 ran
  obtain ⟨inInt, same⟩ := checked_eq_some_iff.1 fits
  have quotientIs := divideInt_eq_some divided
  cases ran
  rw [← same] at quotientIs
  rw [quotientIs]
  exact ⟨rfl, start, inInt, rfl⟩

/-- A set-up keeps the `k` it computed. -/
theorem setUp_slotBytes (ran : call.setUp numSteps = some setUp) :
    call.slotBytes = some setUp.k := by
  rw [Call.setUp, Option.bind_eq_bind] at ran
  obtain ⟨k, found, ran⟩ := Option.bind_eq_some_iff.1 ran
  rw [found]
  by_cases tight : call.collectivesBufsz < sizeOfInt k
  · rw [if_pos tight] at ran
    rw [(setUpAllocated_fields ran).1]
  · rw [if_neg tight] at ran
    obtain ⟨twice, doubled, ran⟩ := Option.bind_eq_some_iff.1 ran
    by_cases narrow : call.collectivesBufsz < sizeOfInt twice
    · rw [if_pos narrow] at ran
      rw [(setUpWork_fields ran).1]
    · rw [if_neg narrow] at ran
      rw [(setUpCollectives_fields ran).1]

/-! ## The sizes behind a run -/

/-- What a reduction on an image is to keep. -/
structure Sound (call : Call) (numSteps : Nat) (run : Reduction) : Prop where
  exact : call.Exact run.setUp
  enough : ∀ buffers, run.setUp.buffers = some buffers → numSteps ≠ 0 → 1 ≤ buffers.numBufs
  inside : ∀ buffers, run.setUp.buffers = some buffers → buffers.AllInside run.accesses

variable {rounds : Buffers → Option (List Access)} {run : Reduction}

theorem reduceWith_fields (ran : call.reduceWith numSteps rounds = some run) :
    call.setUp numSteps = some run.setUp ∧
      ∀ buffers, run.setUp.buffers = some buffers →
        ∃ others cleared, rounds buffers = some others ∧
          call.clearAccesses buffers = some cleared ∧
          run.accesses = call.baseAccesses ++ others ++ cleared := by
  rw [reduceWith, Option.bind_eq_bind] at ran
  obtain ⟨setUp, begun, ran⟩ := Option.bind_eq_some_iff.1 ran
  cases found : setUp.buffers with
  | none =>
      rw [found] at ran
      cases ran
      refine ⟨begun, fun buffers same => ?_⟩
      rw [found] at same
      cases same
  | some buffers =>
      rw [found] at ran
      obtain ⟨others, went, ran⟩ := Option.bind_eq_some_iff.1 ran
      obtain ⟨cleared, ends, ran⟩ := Option.bind_eq_some_iff.1 ran
      cases ran
      refine ⟨begun, fun others' same => ?_⟩
      rw [found] at same
      cases same
      exact ⟨others, cleared, went, ends, rfl⟩

/-- The base buffer of a run is not empty. -/
theorem Sound.base (sound : call.Sound numSteps run)
    (ran : call.reduceWith numSteps rounds = some run) {buffers : Buffers}
    (same : run.setUp.buffers = some buffers) :
    0 < buffers.room .base := by
  obtain ⟨others, cleared, -, -, accesses⟩ := (reduceWith_fields ran).2 buffers same
  have member : (⟨.base, call.dataBytes, 1⟩ : Access) ∈ run.accesses := by
    rw [accesses, baseAccesses]
    simp
  have inside : call.dataBytes + 1 ≤ buffers.room .base := sound.inside buffers same _ member
  omega

/-- What is cleared at the end of a run is inside of its buffers. -/
theorem Sound.cleared (sound : call.Sound numSteps run)
    (ran : call.reduceWith numSteps rounds = some run) {buffers : Buffers}
    (same : run.setUp.buffers = some buffers) :
    ∃ cleared, call.clearAccesses buffers = some cleared ∧ buffers.AllInside cleared := by
  obtain ⟨others, cleared, -, ends, accesses⟩ := (reduceWith_fields ran).2 buffers same
  refine ⟨cleared, ends, fun access member => ?_⟩
  apply sound.inside buffers same
  rw [accesses]
  exact List.mem_append_right _ member

/-- Work buffers that would have no room for the base buffer come out as `-1`. -/
theorem limitBufs_missing (call : Call) :
    call.limitBufs (intOfSize (sizeSub (sizeOfInt 0) 1)) = -1 := by
  have wrapped : intOfSize (sizeSub (sizeOfInt 0) 1) = -1 := by decide
  rw [wrapped, limitBufs]
  split <;> omega

theorem Exact.slot_lt (exact : call.Exact setUp) {size : Nat}
    (slot : setUp.slot = some (size, intOfSize size)) :
    size < 2 ^ 31 := by
  have same := exact.slot _ slot
  dsimp only at same
  exact intOfSize_eq_iff.1 same

/-- A run that allocates its base buffer has room for it. -/
theorem setUpAllocated_fits (small : call.slotSize < 2 ^ 31)
    (ran : call.setUpAllocated numSteps call.slotSize = some setUp) (exact : call.Exact setUp)
    (base : ∀ buffers, setUp.buffers = some buffers → 0 < buffers.room .base) :
    (numSteps + 1) * (call.sz + 1) < 2 ^ 31 ∧
      call.slotSize ≤ largestFree call.slots ∧
      min ((numSteps + 1) * call.slotSize) (largestFree call.slots) < 2 ^ 31 := by
  obtain ⟨-, wanted, nb, found, slot, divided, allocated⟩ := setUpAllocated_fields ran
  obtain ⟨counted, wantedIs⟩ := counted_of_bytes small found
  have slots := @largestSlots_eq call (numSteps + 1) (by omega)
  rw [wantedIs, slots] at slot divided
  have fits := exact.slot_lt slot
  refine ⟨counted, ?_, fits⟩
  by_contra narrow
  have single : call.slotSize ≤ (numSteps + 1) * call.slotSize :=
    Nat.le_mul_of_pos_left _ (Nat.succ_pos _)
  have free : min ((numSteps + 1) * call.slotSize) (largestFree call.slots) =
      largestFree call.slots := by omega
  rw [intOfSize_of_lt fits, free,
    divideInt_natCast (by omega) call.slotSize_pos,
    Nat.div_eq_of_lt (by omega)] at divided
  rw [← Option.some.inj divided, Int.natCast_zero, limitBufs_missing] at allocated
  obtain ⟨start, size, bytes, buffers⟩ := allocated (by decide)
  have noBytes : size = 0 := by
    have none := @counted_of_bytes call 0 size small bytes
    rw [none.2, Nat.zero_mul]
  have room := base _ buffers
  rw [noBytes] at room
  exact absurd room (by simp [Buffers.allocated])

/-- A run that allocates its work buffers has counts that fit. -/
theorem setUpWork_fits (small : call.slotSize < 2 ^ 31)
    (ran : call.setUpWork numSteps call.slotSize = some setUp) (exact : call.Exact setUp) :
    numSteps * (call.sz + 1) < 2 ^ 31 ∧
      (if numSteps = 0 then largestFree call.slots
        else min (numSteps * call.slotSize) (largestFree call.slots)) < 2 ^ 31 := by
  obtain ⟨-, wanted, found, slot⟩ := setUpWork_fields ran
  obtain ⟨counted, wantedIs⟩ := counted_of_bytes small found
  have fits := exact.slot_lt slot
  refine ⟨counted, ?_⟩
  rw [wantedIs, largestAllocatableSlotAvail_eq] at fits
  by_cases zero : numSteps = 0
  · rw [if_pos zero]
    rwa [if_pos (by rw [zero, Nat.zero_mul])] at fits
  · rw [if_neg zero]
    rwa [if_neg (Nat.mul_ne_zero zero call.slotSize_pos.ne')] at fits

theorem limitBufs_le (call : Call) (count : Int) : call.limitBufs count ≤ count := by
  unfold limitBufs
  split
  · exact Int.min_le_left _ _
  · exact Int.le_refl _

theorem limitBufs_of_nonpos {count : Int} (few : count ≤ 0) : call.limitBufs count = count := by
  unfold limitBufs
  split <;> omega

/-- The bytes of a negative number of slots are larger than any buffer. -/
theorem bytes_negative {missing bytes : Nat} (positive : 0 < missing)
    (fits : missing * call.slotSize ≤ 2 ^ 31) (found : call.bytes (-(missing : Int)) = some bytes) :
    2 ^ 64 - 2 ^ 31 ≤ bytes := by
  rw [Call.bytes, Option.bind_eq_bind] at found
  obtain ⟨sz1, one, found⟩ := Option.bind_eq_some_iff.1 found
  obtain ⟨count, counted, found⟩ := Option.bind_eq_some_iff.1 found
  obtain ⟨-, sz1Is⟩ := checked_eq_some_iff.1 one
  obtain ⟨-, countIs⟩ := checked_eq_some_iff.1 counted
  have product : count * call.elemSize = -((missing * call.slotSize : Nat) : Int) := by
    rw [← countIs, ← sz1Is, slotSize]
    push_cast
    ring
  have least : 0 < missing * call.slotSize := Nat.mul_pos positive call.slotSize_pos
  rw [← Option.some.inj found, sizeMul_sizeOfInt, product]
  apply le_sizeOfInt_of_neg
  · unfold InInt
    omega
  · omega

/-- A quotient is below -1 where two divisors or more are missing. -/
theorem tdiv_of_missing {first second : Int} (positive : 0 < second) (low : first ≤ -second) :
    ∃ missing : Nat, 0 < missing ∧
      (first - second).tdiv second + 1 = -(missing : Int) ∧
      missing * second ≤ second - first := by
  have negated : (first - second).tdiv second = -((second - first) / second) := by
    rw [← Int.neg_sub, Int.neg_tdiv, Int.tdiv_eq_ediv_of_nonneg (by omega)]
  have most : (second - first) / second * second ≤ second - first := Int.ediv_mul_le _ (by omega)
  have two : 2 ≤ (second - first) / second := (Int.le_ediv_iff_mul_le positive).2 (by omega)
  refine ⟨((second - first) / second - 1).toNat, by omega, by omega, ?_⟩
  rw [Int.toNat_of_nonneg (by omega), Int.sub_mul]
  omega

/-- A run in the collectives buffer has a buffer whose size fits. -/
theorem setUpCollectives_fits (ran : call.setUpCollectives numSteps call.slotSize = some setUp)
    (enough : ∀ buffers, setUp.buffers = some buffers → numSteps ≠ 0 → 1 ≤ buffers.numBufs)
    (cleared : ∀ buffers, setUp.buffers = some buffers →
      ∃ cleared, call.clearAccesses buffers = some cleared ∧ buffers.AllInside cleared) :
    if numSteps = 0 then
      -(call.slotSize : Int) < intOfSize call.collectivesBufsz
    else
      2 * (call.slotSize : Int) ≤ intOfSize call.collectivesBufsz := by
  have positive := call.slotSize_pos
  obtain ⟨-, start, inInt, buffers⟩ := setUpCollectives_fields ran
  by_cases zero : numSteps = 0
  · rw [if_pos zero]
    by_contra low
    obtain ⟨missing, some, quotient, most⟩ :=
      tdiv_of_missing (Int.ofNat_lt.2 positive) (Int.not_lt.1 low)
    obtain ⟨accesses, clears, inside⟩ := cleared _ buffers
    have numBufs : call.limitBufs (min
        ((intOfSize call.collectivesBufsz - call.slotSize).tdiv call.slotSize)
        numSteps) + 1 = -(missing : Int) := by
      rw [limitBufs_of_nonpos (by omega)]
      omega
    rw [clearAccesses_inCollectives, numBufs] at clears
    obtain ⟨bufs, fits, clears⟩ := Option.bind_eq_some_iff.1 clears
    obtain ⟨length, bytes, clears⟩ := Option.bind_eq_some_iff.1 clears
    rw [← (checked_eq_some_iff.1 fits).2] at bytes
    have large := bytes_negative some (by unfold InInt at inInt; omega) bytes
    have bounded := inside ⟨.collectives, 0, length⟩ (by
      rw [← Option.some.inj clears]
      exact List.mem_singleton_self _)
    have within : 0 + length ≤ call.collectivesBufsz := bounded
    have bufsz := call.bufszFits
    omega
  · rw [if_neg zero]
    have one := enough _ buffers zero
    have most := call.limitBufs_le (min
      ((intOfSize call.collectivesBufsz - call.slotSize).tdiv call.slotSize)
      numSteps)
    have quotient : 1 ≤ (intOfSize call.collectivesBufsz - call.slotSize).tdiv call.slotSize := by
      have : 1 ≤ call.limitBufs (min
        ((intOfSize call.collectivesBufsz - call.slotSize).tdiv call.slotSize)
        numSteps) := one
      omega
    by_contra low
    by_cases nonneg : 0 ≤ intOfSize call.collectivesBufsz - call.slotSize
    · rw [Int.tdiv_eq_zero_of_lt nonneg (by omega)] at quotient
      omega
    · have negated := Int.tdiv_nonneg
        (show 0 ≤ call.slotSize - intOfSize call.collectivesBufsz by omega)
        (Int.natCast_nonneg call.slotSize)
      rw [← Int.neg_sub, Int.neg_tdiv] at quotient
      omega

/-- The sizes of a run that is as it should be fit. -/
theorem Sound.fits (sound : call.Sound numSteps run)
    (ran : call.reduceWith numSteps rounds = some run) :
    call.Fits numSteps := by
  obtain ⟨begun, -⟩ := reduceWith_fields ran
  have found := setUp_slotBytes begun
  rw [sound.exact.slotSize] at found
  have small := small_of_slotBytes found
  rw [setUp_eq small] at begun
  refine ⟨small, ?_⟩
  by_cases tight : call.collectivesBufsz < call.slotSize
  · rw [if_pos tight] at begun ⊢
    exact setUpAllocated_fits small begun sound.exact
      fun _ same => sound.base ran same
  · rw [if_neg tight] at begun ⊢
    by_cases wide : 2 ^ 31 ≤ 2 * call.slotSize
    · rw [if_pos wide] at begun
      cases begun
    · rw [if_neg wide] at begun
      refine ⟨by omega, ?_⟩
      by_cases narrow : call.collectivesBufsz < 2 * call.slotSize
      · rw [if_pos narrow] at begun ⊢
        exact setUpWork_fits small begun sound.exact
      · rw [if_neg narrow] at begun ⊢
        exact setUpCollectives_fits begun sound.enough
          fun _ same => sound.cleared ran same

end Call

end OpenUH.Libcaf.CollectiveBuffers
