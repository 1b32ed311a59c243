import OpenUH.Foundation.Fallible
import OpenUH.Foundation.Odometer
import Mathlib.Data.BitVec
import Mathlib.Data.Set.Lattice
import Mathlib.Order.CompletePartialOrder

/-!
# Strided copies within an image

`local_strided_copy` copies the blocks of a strided section.  The nest of loops
over the section is flattened into one counter, whose turns move both pointers
on and rewind them where a dimension rolls over.  The model keeps the elements
of the arrays that the code reads and writes beside the memory.
-/

namespace OpenUH.Libcaf.StridedCopy

open Foundation.Fallible
open Foundation.Odometer

/-- A `size_t`, or an address. -/
abbrev SizeT := BitVec 64

/-- The memory of an image. -/
abbrev Memory := SizeT → BitVec 8

/-- The values that an `int` counter takes. -/
def intMax : Nat := 2 ^ 31 - 1

/--
The arguments of `local_strided_copy`.  An array has a value at every index,
past its end the value that happens to lie there.
-/
structure StridedCall where
  src : SizeT
  srcStrides : Nat → SizeT
  dest : SizeT
  destStrides : Nat → SizeT
  count : Nat → SizeT
  strideLevels : Nat

/-- An element of one of the arrays that the code uses. -/
inductive Element where
  | count (index : Nat)
  | srcStrides (index : Nat)
  | destStrides (index : Nat)
  | cntStrides (index : Nat)
  | blockdimSize (index : Nat)
  deriving DecidableEq

/-- The element lies in its array. -/
def Element.Inside (levels : Nat) : Element → Prop
  | .count index => index ≤ levels
  | .srcStrides index => index < levels
  | .destStrides index => index < levels
  | .cntStrides index => index ≤ levels
  | .blockdimSize index => index < levels

/-- A block that was copied. -/
structure Block where
  dest : SizeT
  src : SizeT
  deriving DecidableEq

/-- `memcpy`. -/
def memcpy (memory : Memory) (dest src size : SizeT) : Memory :=
  fun address =>
    if address - dest < size then memory (src + (address - dest))
    else memory address

/-! ## Counting the blocks -/

/-- The temporaries of the first loop. -/
structure Counts where
  cntStrides : Nat → SizeT
  blockdimSize : Nat → SizeT
  numBlks : SizeT
  touched : List Element

/-- The temporaries before the first loop. -/
def Counts.start (call : StridedCall) : Counts where
  cntStrides := fun _ => 1
  blockdimSize := fun _ => call.count 0
  numBlks := 1
  touched := [.count 0, .cntStrides 0, .count 0, .blockdimSize 0]

/-- One turn of the first loop, whose counter is an `int`. -/
def countTurn (call : StridedCall) (counts : Counts) (i : Nat) : Option Counts :=
  if i < intMax then
    let cntStride := counts.cntStrides (i - 1) * call.count i
    some {
      cntStrides := Function.update counts.cntStrides i cntStride
      blockdimSize := Function.update counts.blockdimSize i (call.count 0 * cntStride)
      numBlks := counts.numBlks * call.count i
      touched := counts.touched ++
        [.cntStrides (i - 1), .count i, .cntStrides i, .cntStrides i,
          .blockdimSize i, .count i] }
  else
    none

/-- The first loop. -/
def countBlocks (call : StridedCall) : Option Counts :=
  (List.range' 1 call.strideLevels).foldlM (countTurn call) (.start call)

/-! ## Copying the blocks -/

/-- The state of the second loop. -/
structure CopyRun where
  memory : Memory
  destPtr : SizeT
  srcPtr : SizeT
  blocks : List Block
  touched : List Element

/--
The loop over the dimensions that rolled over, with the dimensions left and the
one looked at.  A remainder by zero has no result.
-/
def carry (call : StridedCall) (counts : Counts) (i : SizeT) :
    Nat → Nat → CopyRun → Option (CopyRun × Nat)
  | 0, j, run => some (run, j)
  | remaining + 1, j, run =>
      if counts.cntStrides j = 0 then
        none
      else if i % counts.cntStrides j ≠ 0 then
        some ({ run with touched := run.touched ++ [.cntStrides j] }, j)
      else
        carry call counts i remaining (j + 1) { run with
          srcPtr := run.srcPtr - (call.count j - 1) * call.srcStrides (j - 1)
          destPtr := run.destPtr - (call.count j - 1) * call.destStrides (j - 1)
          touched := run.touched ++
            [.cntStrides j, .count j, .srcStrides (j - 1), .count j,
              .destStrides (j - 1)] }

/-- One turn of the second loop, whose counter is an `int`. -/
def copyTurn (call : StridedCall) (counts : Counts) (run : CopyRun) (i : Nat) : Option CopyRun :=
  if i < intMax then
    (carry call counts (BitVec.ofNat 64 i) call.strideLevels 1
      { run with
        memory := memcpy run.memory run.destPtr run.srcPtr (call.count 0)
        blocks := run.blocks ++ [⟨run.destPtr, run.srcPtr⟩] }).map
      fun (run, j) => { run with
        srcPtr := run.srcPtr + call.srcStrides (j - 1)
        destPtr := run.destPtr + call.destStrides (j - 1)
        touched := run.touched ++ [.srcStrides (j - 1), .destStrides (j - 1)] }
  else
    none

/-- `local_strided_copy`. -/
def localStridedCopy (call : StridedCall) (memory : Memory) : Option CopyRun :=
  (countBlocks call).bind fun counts =>
    (List.range' 1 counts.numBlks.toNat).foldlM (copyTurn call counts)
      { memory
        destPtr := call.dest
        srcPtr := call.src
        blocks := []
        touched := counts.touched }

/-! ## The nest of loops -/

/-- The counts of the dimensions, the innermost first. -/
def StridedCall.counts (call : StridedCall) : List Nat :=
  (List.range call.strideLevels).map fun level => (call.count (level + 1)).toNat

/-- The first strides of an array. -/
def strideList (strides : Nat → SizeT) (levels : Nat) : List SizeT :=
  (List.range levels).map strides

/-- The block of an index tuple. -/
def StridedCall.block (call : StridedCall) (index : List Nat) : Block where
  dest := call.dest +
    displacement (strideList call.destStrides call.strideLevels) index
  src := call.src +
    displacement (strideList call.srcStrides call.strideLevels) index

/-- The blocks of the section, in the order of the nest. -/
def StridedCall.blocks (call : StridedCall) : List Block :=
  (indices call.counts).map call.block

/-- The memory after the blocks are copied. -/
def copyBlocks (memory : Memory) (size : SizeT) (blocks : List Block) : Memory :=
  blocks.foldl
    (fun memory block => memcpy memory block.dest block.src size) memory

/--
The call copies the blocks of the nest, each of them once, and uses no element
outside of its arrays.
-/
def CopiesAsNest (call : StridedCall) (memory : Memory) : Prop :=
  ∃ run, localStridedCopy call memory = some run ∧
    run.blocks = call.blocks ∧
    run.memory = copyBlocks memory (call.count 0) call.blocks ∧
    ∀ element ∈ run.touched, element.Inside call.strideLevels

variable {call : StridedCall} {counts : Counts} {run : CopyRun}
  {memory : Memory} {level : Nat}

/-! ## What the nest does to the memory -/

/-- The bytes of a block from an address on. -/
def span (start size : SizeT) : Set SizeT :=
  { address | address - start < size }

/-- The blocks written are disjoint, and none of them holds bytes to be read. -/
structure Separate (size : SizeT) (blocks : List Block) : Prop where
  written : blocks.Pairwise fun first second =>
    Disjoint (span first.dest size) (span second.dest size)
  read : ∀ block ∈ blocks, ∀ other ∈ blocks,
    Disjoint (span block.dest size) (span other.src size)

theorem copyBlocks_cons {size : SizeT} {block : Block} {blocks : List Block} :
    copyBlocks memory size (block :: blocks) =
      copyBlocks (memcpy memory block.dest block.src size) size blocks := rfl

/-- No byte outside of the blocks written is changed. -/
theorem copyBlocks_outside {size address : SizeT} {blocks : List Block}
    (outside : ∀ block ∈ blocks, address ∉ span block.dest size) :
    copyBlocks memory size blocks address = memory address := by
  induction blocks generalizing memory with
  | nil => rfl
  | cons block blocks ih =>
      rw [copyBlocks_cons, ih fun other member =>
        outside other (List.mem_cons_of_mem _ member)]
      exact if_neg (outside block List.mem_cons_self)

/-- Each block ends with the bytes that its source had before the nest. -/
theorem copyBlocks_block {size offset : SizeT} {blocks : List Block}
    (separate : Separate size blocks) (inside : offset < size)
    {block : Block} (member : block ∈ blocks) :
    copyBlocks memory size blocks (block.dest + offset) = memory (block.src + offset) := by
  have offsetInside : ∀ start : SizeT, start + offset ∈ span start size := by
    intro start
    show start + offset - start < size
    rwa [add_sub_cancel_left]
  induction blocks generalizing memory with
  | nil => cases member
  | cons first blocks ih =>
      obtain ⟨apart, written⟩ := List.pairwise_cons.1 separate.written
      rw [copyBlocks_cons]
      rcases List.mem_cons.1 member with rfl | later
      · rw [copyBlocks_outside fun other member inOther =>
          Set.disjoint_left.1 (apart other member) (offsetInside _) inOther]
        show (if block.dest + offset - block.dest < size then _ else _) = _
        rw [add_sub_cancel_left, if_pos inside]
      · rw [ih ⟨written, fun block member other member' =>
            separate.read block (List.mem_cons_of_mem _ member) other
              (List.mem_cons_of_mem _ member')⟩ later]
        exact if_neg fun written =>
          Set.disjoint_left.1
            (separate.read first List.mem_cons_self block member) written
            (offsetInside _)

/-! ## What the first loop finds -/

/-- The number of blocks in the first dimensions. -/
def StridedCall.blocksBelow (call : StridedCall) (level : Nat) : Nat :=
  ((List.range level).map fun inner => (call.count (inner + 1)).toNat).prod

@[simp]
theorem blocksBelow_zero : call.blocksBelow 0 = 1 := rfl

theorem blocksBelow_succ :
    call.blocksBelow (level + 1) = call.blocksBelow level * (call.count (level + 1)).toNat := by
  simp [StridedCall.blocksBelow, List.range_succ]

theorem prod_counts :
    call.counts.prod = call.blocksBelow call.strideLevels := rfl

/-- The arrays of the call have their elements used as far as here. -/
def Element.Within (turns : Nat) : Element → Prop
  | .count index => index ≤ turns
  | .srcStrides _ => False
  | .destStrides _ => False
  | .cntStrides index => index ≤ turns
  | .blockdimSize index => index ≤ turns

theorem Element.Within.succ {element : Element} {turns : Nat}
    (within : element.Within turns) : element.Within (turns + 1) := by
  cases element with
  | count | cntStrides | blockdimSize => exact Nat.le_succ_of_le within
  | srcStrides | destStrides => exact within

/-- The first loop has counted as many dimensions. -/
structure Counted (call : StridedCall) (turns : Nat) (counts : Counts) :
    Prop where
  cntStrides : ∀ level ≤ turns,
    counts.cntStrides level = BitVec.ofNat 64 (call.blocksBelow level)
  numBlks : counts.numBlks = BitVec.ofNat 64 (call.blocksBelow turns)
  touched : ∀ element ∈ counts.touched, element.Within turns
  written : .blockdimSize turns ∈ counts.touched

theorem counted_start : Counted call 0 (.start call) where
  cntStrides := by
    intro level least
    rw [Nat.le_zero.1 least]
    rfl
  numBlks := rfl
  touched := by
    intro element member
    simp only [Counts.start, List.mem_cons, List.not_mem_nil, or_false] at member
    rcases member with rfl | rfl | rfl | rfl <;> exact Nat.le_refl 0
  written := by simp [Counts.start]

/-- A turn of the first loop counts one more dimension. -/
theorem Counted.turn {turns : Nat} {next : Counts} (counted : Counted call turns counts)
    (turned : countTurn call counts (1 + turns) = some next) :
    Counted call (turns + 1) next := by
  rw [countTurn] at turned
  split at turned
  case isFalse => cases turned
  case isTrue =>
    cases turned
    have product : ∀ value : SizeT,
        value = BitVec.ofNat 64 (call.blocksBelow turns) →
        value * call.count (turns + 1) = BitVec.ofNat 64 (call.blocksBelow (turns + 1)) := by
      rintro value rfl
      rw [blocksBelow_succ, BitVec.ofNat_mul, BitVec.ofNat_toNat, BitVec.setWidth_eq]
    rw [Nat.add_comm 1 turns]
    constructor
    · intro level least
      show Function.update _ _ _ _ = _
      by_cases last : level = turns + 1
      · rw [last, Function.update_self]
        exact product _ (counted.cntStrides turns (Nat.le_refl turns))
      · rw [Function.update_of_ne last]
        exact counted.cntStrides level (by omega)
    · exact product _ counted.numBlks
    · intro element member
      rcases List.mem_append.1 member with old | new
      · exact (counted.touched element old).succ
      · simp only [List.mem_cons, List.not_mem_nil, or_false] at new
        rcases new with rfl | rfl | rfl | rfl | rfl | rfl <;>
          simp [Element.Within]
    · simp

/-- The first loop that ended has counted every dimension. -/
theorem countBlocks_kept (ran : countBlocks call = some counts) :
    Counted call call.strideLevels counts :=
  countingLoop_kept (Counted call) counted_start
    (fun _ _ _ _ counted turned => counted.turn turned) ran

/-- The first loop ends where its counter does not overflow. -/
theorem countBlocks_ends (few : call.strideLevels < intMax) :
    ∃ counts, countBlocks call = some counts ∧ Counted call call.strideLevels counts := by
  apply countingLoop_ends (Counted call) counted_start
  intro turns state less counted
  obtain ⟨next, turned⟩ : ∃ next, countTurn call state (1 + turns) = some next := by
    rw [countTurn, if_pos (by omega)]
    exact ⟨_, rfl⟩
  exact ⟨next, turned, counted.turn turned⟩

/-! ## What the second loop does -/

/-- The loop over the dimensions only adds to the elements used. -/
theorem carry_touched {i : SizeT} {remaining j last : Nat} {after : CopyRun}
    (ran : carry call counts i remaining j run = some (after, last)) :
    run.touched ⊆ after.touched := by
  induction remaining generalizing j run with
  | zero =>
      cases ran
      exact List.Subset.refl _
  | succ remaining ih =>
      rw [carry] at ran
      split at ran
      · cases ran
      · split at ran
        · cases ran
          exact List.subset_append_left _ _
        · exact List.Subset.trans (List.subset_append_left _ _) (ih ran)

theorem copyTurn_touched {i : Nat} {after : CopyRun}
    (turned : copyTurn call counts run i = some after) :
    run.touched ⊆ after.touched := by
  rw [copyTurn] at turned
  split at turned
  · obtain ⟨⟨middle, j⟩, carried, rfl⟩ := Option.map_eq_some_iff.1 turned
    have grown := carry_touched carried
    exact List.Subset.trans grown (List.subset_append_left _ _)
  · cases turned

/-- A call that returns has written past the end of one of its temporaries. -/
theorem written_blockdimSize (ran : localStridedCopy call memory = some run) :
    .blockdimSize call.strideLevels ∈ run.touched := by
  obtain ⟨counts, counted, copied⟩ := Option.bind_eq_some_iff.1 ran
  have kept := countingLoop_kept
    (fun _ (state : CopyRun) => counts.touched ⊆ state.touched)
    (List.Subset.refl _)
    (fun _ _ _ _ kept turned => List.Subset.trans kept (copyTurn_touched turned))
    copied
  exact kept (countBlocks_kept counted).written

/-! ## The blocks of the second loop -/

/-- The dimensions from one on, with the strides of an array. -/
def StridedCall.levelsFrom (call : StridedCall) (strides : Nat → SizeT)
    (level remaining : Nat) : List (Nat × SizeT) :=
  (List.range' level remaining).map fun inner =>
    ((call.count (inner + 1)).toNat, strides inner)

theorem levelsFrom_counts {strides : Nat → SizeT} :
    (call.levelsFrom strides 0 call.strideLevels).map Prod.fst = call.counts := by
  simp [StridedCall.levelsFrom, StridedCall.counts, List.range_eq_range']

theorem levelsFrom_strides {strides : Nat → SizeT} :
    (call.levelsFrom strides 0 call.strideLevels).map Prod.snd =
      strideList strides call.strideLevels := by
  simp [StridedCall.levelsFrom, strideList, List.range_eq_range']

/-- Every dimension has at least one block. -/
def StridedCall.Counted (call : StridedCall) : Prop :=
  ∀ level ≤ call.strideLevels, 0 < (call.count level).toNat

theorem StridedCall.Counted.blocksBelow_pos (counted : call.Counted)
    (least : level ≤ call.strideLevels) : 0 < call.blocksBelow level := by
  induction level with
  | zero => exact Nat.one_pos
  | succ level ih =>
      rw [blocksBelow_succ]
      exact Nat.mul_pos (ih (Nat.le_of_succ_le least)) (counted (level + 1) least)

theorem blocksBelow_dvd (least : level ≤ call.strideLevels) :
    call.blocksBelow level ∣ call.blocksBelow call.strideLevels := by
  induction least using Nat.decreasingInduction with
  | self => exact Nat.dvd_refl _
  | of_succ level _ ih =>
      apply Nat.dvd_trans _ ih
      rw [blocksBelow_succ]
      exact Nat.dvd_mul_right _ _

theorem StridedCall.Counted.blocksBelow_le (counted : call.Counted)
    (least : level ≤ call.strideLevels) :
    call.blocksBelow level ≤ call.blocksBelow call.strideLevels :=
  Nat.le_of_dvd (counted.blocksBelow_pos (Nat.le_refl _)) (blocksBelow_dvd least)

/-- The loop over the dimensions ends in the position after the turn. -/
structure Carried (call : StridedCall) (counter level remaining : Nat)
    (before after : CopyRun) (j : Nat) : Prop where
  memory : after.memory = before.memory
  blocks : after.blocks = before.blocks
  touched : ∀ element ∈ after.touched,
    element ∈ before.touched ∨ element.Inside call.strideLevels
  positive : level < j
  inside : counter < call.blocksBelow call.strideLevels →
    j ≤ call.strideLevels ∧
      after.srcPtr + call.srcStrides (j - 1) =
        advance (call.levelsFrom call.srcStrides level remaining)
          (counter / call.blocksBelow level) before.srcPtr ∧
      after.destPtr + call.destStrides (j - 1) =
        advance (call.levelsFrom call.destStrides level remaining)
          (counter / call.blocksBelow level) before.destPtr
  past : counter = call.blocksBelow call.strideLevels → j = call.strideLevels + 1

theorem carry_carried (counted : call.Counted) (few : call.blocksBelow call.strideLevels < intMax)
    (counts_eq : ∀ level ≤ call.strideLevels,
      counts.cntStrides level = BitVec.ofNat 64 (call.blocksBelow level))
    {counter remaining : Nat} (started : 0 < counter)
    (least : counter ≤ call.blocksBelow call.strideLevels)
    (divides : call.blocksBelow level ∣ counter)
    (all : level + remaining = call.strideLevels) :
    ∃ after j, carry call counts (BitVec.ofNat 64 counter) remaining
        (level + 1) run = some (after, j) ∧
      Carried call counter level remaining run after j := by
  induction remaining generalizing level run with
  | zero =>
      rw [Nat.add_zero] at all
      have full : call.blocksBelow call.strideLevels ≤ counter := by
        rw [← all]
        exact Nat.le_of_dvd started divides
      refine ⟨run, level + 1, rfl, rfl, rfl, fun _ => Or.inl,
        Nat.lt_succ_self level, fun less => ?_, fun _ => by rw [all]⟩
      exact absurd less (Nat.not_lt.2 full)
  | succ remaining ih =>
      have inside : level + 1 ≤ call.strideLevels := by omega
      obtain ⟨quotient, rfl⟩ := divides
      have positive := counted.blocksBelow_pos (Nat.le_of_succ_le inside)
      have stridePos := counted.blocksBelow_pos inside
      have strideLe := counted.blocksBelow_le inside
      have small : ∀ number ≤ call.blocksBelow call.strideLevels,
          (BitVec.ofNat 64 number).toNat = number := by
        intro number bounded
        rw [BitVec.toNat_ofNat]
        apply Nat.mod_eq_of_lt
        simp only [intMax] at few
        omega
      have stride := counts_eq (level + 1) inside
      have nonzero : counts.cntStrides (level + 1) ≠ 0 := by
        intro zero
        have := congrArg BitVec.toNat (stride.symm.trans zero)
        rw [small _ strideLe] at this
        simp only [BitVec.ofNat_eq_ofNat, BitVec.toNat_ofNat] at this
        omega
      have rolls : BitVec.ofNat 64 (call.blocksBelow level * quotient) %
            counts.cntStrides (level + 1) = 0 ↔
          quotient % (call.count (level + 1)).toNat = 0 := by
        rw [stride, ← BitVec.toNat_inj, BitVec.toNat_umod, small _ least,
          small _ strideLe, blocksBelow_succ, Nat.mul_mod_mul_left]
        simp only [BitVec.ofNat_eq_ofNat, BitVec.toNat_ofNat, Nat.zero_mod, Nat.mul_eq_zero]
        omega
      have digit : call.blocksBelow level * quotient / call.blocksBelow level = quotient :=
        Nat.mul_div_cancel_left _ positive
      have unrolled : ∀ strides : Nat → SizeT,
          call.levelsFrom strides level (remaining + 1) =
            ((call.count (level + 1)).toNat, strides level) ::
              call.levelsFrom strides (level + 1) remaining := by
        intro strides
        simp [StridedCall.levelsFrom, List.range'_succ]
      rw [carry, if_neg nonzero]
      by_cases rolled : quotient % (call.count (level + 1)).toNat = 0
      · rw [if_neg (not_not.2 (rolls.2 rolled))]
        have outer : call.blocksBelow level * quotient /
            call.blocksBelow (level + 1) = quotient / (call.count (level + 1)).toNat := by
          rw [blocksBelow_succ, Nat.mul_div_mul_left _ _ positive]
        have count : ((call.count (level + 1)).toNat - 1 : Nat) = call.count (level + 1) - 1 := by
          rw [Nat.cast_sub (counted (level + 1) inside)]
          simp
        have divides : call.blocksBelow (level + 1) ∣ call.blocksBelow level * quotient := by
          rw [blocksBelow_succ]
          exact Nat.mul_dvd_mul_left _ (Nat.dvd_of_mod_eq_zero rolled)
        obtain ⟨after, j, ran, carried⟩ := ih divides (by omega)
        refine ⟨after, j, ran, carried.memory, carried.blocks, ?_,
          Nat.lt_of_succ_lt carried.positive, fun less => ?_, carried.past⟩
        · intro element member
          rcases carried.touched element member with old | new
          · rcases List.mem_append.1 old with old | new
            · exact Or.inl old
            · simp only [List.mem_cons, List.not_mem_nil, or_false] at new
              rcases new with rfl | rfl | rfl | rfl | rfl <;>
                exact Or.inr inside
          · exact Or.inr new
        · obtain ⟨least, src, dest⟩ := carried.inside less
          rw [outer] at src dest
          refine ⟨least, ?_, ?_⟩
          · rw [unrolled, advance, digit, if_pos rolled, count]
            exact src
          · rw [unrolled, advance, digit, if_pos rolled, count]
            exact dest
      · rw [if_pos (fun zero => rolled (rolls.1 zero))]
        refine ⟨_, _, rfl, rfl, rfl, ?_, Nat.lt_succ_self level, ?_, ?_⟩
        · intro element member
          rcases List.mem_append.1 member with old | new
          · exact Or.inl old
          · rw [List.mem_singleton.1 new]
            exact Or.inr inside
        · intro _
          refine ⟨inside, ?_, ?_⟩ <;>
            rw [unrolled, advance, digit, if_neg rolled] <;> rfl
        · intro full
          have next := blocksBelow_dvd inside
          rw [← full, blocksBelow_succ] at next
          exact absurd (Nat.mod_eq_zero_of_dvd (Nat.dvd_of_mul_dvd_mul_left positive next)) rolled

/-- The elements past the end of an array that the call uses. -/
def StridedCall.outside (call : StridedCall) : List Element :=
  [.blockdimSize call.strideLevels, .srcStrides call.strideLevels,
    .destStrides call.strideLevels]

/-- The blocks of the first numbers. -/
def StridedCall.firstBlocks (call : StridedCall) (number : Nat) : List Block :=
  (List.range number).map fun counter =>
    call.block (numeral call.counts counter)

theorem firstBlocks_succ {number : Nat} :
    call.firstBlocks (number + 1) =
      call.firstBlocks number ++ [call.block (numeral call.counts number)] := by
  simp [StridedCall.firstBlocks, List.range_succ]

theorem firstBlocks_all : call.firstBlocks (call.blocksBelow call.strideLevels) = call.blocks := by
  rw [StridedCall.blocks, indices_eq, List.map_map, prod_counts]
  rfl

theorem copyBlocks_append {size : SizeT} {blocks : List Block} {block : Block} :
    copyBlocks memory size (blocks ++ [block]) =
      memcpy (copyBlocks memory size blocks) block.dest block.src size := by
  simp [copyBlocks]

/-- The second loop has copied as many blocks. -/
structure Copied (call : StridedCall) (memory : Memory) (number : Nat)
    (run : CopyRun) : Prop where
  blocks : run.blocks = call.firstBlocks number
  memory : run.memory = copyBlocks memory (call.count 0) (call.firstBlocks number)
  pointers : number < call.blocksBelow call.strideLevels →
    call.block (numeral call.counts number) = ⟨run.destPtr, run.srcPtr⟩
  touched : ∀ element ∈ run.touched,
    element.Inside call.strideLevels ∨ element ∈ call.outside
  past : number = call.blocksBelow call.strideLevels →
    .srcStrides call.strideLevels ∈ run.touched ∧ .destStrides call.strideLevels ∈ run.touched

/-- A turn of the second loop copies one more block. -/
theorem Copied.turn (counted : call.Counted) (few : call.blocksBelow call.strideLevels < intMax)
    (counts_eq : ∀ level ≤ call.strideLevels,
      counts.cntStrides level = BitVec.ofNat 64 (call.blocksBelow level))
    {number : Nat} (less : number < call.blocksBelow call.strideLevels)
    (copied : Copied call memory number run) :
    ∃ after, copyTurn call counts run (1 + number) = some after ∧
      Copied call memory (number + 1) after := by
  have divides : call.blocksBelow 0 ∣ number + 1 := by
    rw [blocksBelow_zero]
    exact Nat.one_dvd _
  let block : CopyRun := { run with
    memory := memcpy run.memory run.destPtr run.srcPtr (call.count 0)
    blocks := run.blocks ++ [⟨run.destPtr, run.srcPtr⟩] }
  obtain ⟨middle, j, ran, carried⟩ :
      ∃ after j, carry call counts (BitVec.ofNat 64 (number + 1))
          call.strideLevels 1 block = some (after, j) ∧
        Carried call (number + 1) 0 call.strideLevels block after j :=
    carry_carried counted few counts_eq (Nat.succ_pos number) less divides (Nat.zero_add _)
  have pointers := copied.pointers less
  rw [Nat.add_comm 1 number, copyTurn, if_pos (by omega), ran]
  refine ⟨_, rfl, ?_, ?_, ?_, ?_, ?_⟩
  · rw [firstBlocks_succ, pointers, ← copied.blocks]
    exact carried.blocks
  · rw [firstBlocks_succ, copyBlocks_append, ← copied.memory, pointers]
    exact carried.memory
  · intro next
    obtain ⟨_, src, dest⟩ := carried.inside next
    rw [blocksBelow_zero, Nat.div_one] at src dest
    have position : ∀ (strides : Nat → SizeT) (start pointer : SizeT),
        start + displacement (strideList strides call.strideLevels)
          (numeral call.counts number) = pointer →
        advance (call.levelsFrom strides 0 call.strideLevels) (number + 1)
            pointer =
          start + displacement (strideList strides call.strideLevels)
            (numeral call.counts (number + 1)) := by
      rintro strides start _ rfl
      have below : number + 1 < ((call.levelsFrom strides 0
          call.strideLevels).map Prod.fst).prod := by
        rwa [levelsFrom_counts, prod_counts]
      have moved := advance_displacement _ start below
      rwa [levelsFrom_counts, levelsFrom_strides] at moved
    rw [position _ call.src run.srcPtr (congrArg Block.src pointers)] at src
    rw [position _ call.dest run.destPtr (congrArg Block.dest pointers)] at dest
    show Block.mk _ _ = Block.mk _ _
    rw [← src, ← dest]
  · intro element member
    have strides : ∀ index, index + 1 = j →
        (Element.srcStrides index).Inside call.strideLevels ∧
          (Element.destStrides index).Inside call.strideLevels ∨
        Element.srcStrides index ∈ call.outside ∧ Element.destStrides index ∈ call.outside := by
      rintro index rfl
      rcases Nat.lt_or_eq_of_le less with next | full
      · exact Or.inl ⟨(carried.inside next).1, (carried.inside next).1⟩
      · rw [Nat.succ.inj (carried.past full)]
        exact Or.inr (by simp [StridedCall.outside])
    have last := strides (j - 1) (Nat.succ_pred_eq_of_pos carried.positive)
    rcases List.mem_append.1 member with old | new
    · exact (carried.touched element old).elim (copied.touched element) Or.inl
    · simp only [List.mem_cons, List.not_mem_nil, or_false] at new
      rcases new with rfl | rfl
      · exact last.imp And.left And.left
      · exact last.imp And.right And.right
  · intro full
    have last := carried.past full
    simp [last]

/-- A call returns where its counters do not overflow. -/
theorem localStridedCopy_copied (counted : call.Counted) (shallow : call.strideLevels < intMax)
    (few : call.blocksBelow call.strideLevels < intMax) :
    ∃ run, localStridedCopy call memory = some run ∧
      Copied call memory (call.blocksBelow call.strideLevels) run := by
  obtain ⟨counts, ran, found⟩ := countBlocks_ends shallow
  have turns : counts.numBlks.toNat = call.blocksBelow call.strideLevels := by
    rw [found.numBlks, BitVec.toNat_ofNat]
    apply Nat.mod_eq_of_lt
    simp only [intMax] at few
    omega
  rw [localStridedCopy, ran, Option.bind_some, turns]
  apply countingLoop_ends (Copied call memory)
  · refine ⟨rfl, rfl, fun _ => ?_, ?_, ?_⟩
    · simp [StridedCall.block]
    · intro element member
      have within := found.touched element member
      cases element with
      | count | cntStrides => exact Or.inl within
      | srcStrides | destStrides => exact within.elim
      | blockdimSize index =>
          rcases Nat.lt_or_eq_of_le within with less | last
          · exact Or.inl less
          · exact Or.inr (by simp [StridedCall.outside, last])
    · intro none
      exact absurd (counted.blocksBelow_pos (Nat.le_refl _)) (by omega)
  · intro number state less copied
    exact copied.turn counted few found.cntStrides less

/-! ## Where the call is not a nest of loops -/

/-- Two blocks of eight bytes, sixteen bytes apart in the source. -/
def twoBlocks : StridedCall where
  src := 0
  srcStrides := fun _ => 16
  dest := 1024
  destStrides := fun _ => 8
  count := fun level => if level = 0 then 8 else 2
  strideLevels := 1

/-- Copying two blocks writes past the end of a temporary. -/
theorem twoBlocks_not_copiesAsNest : ¬ CopiesAsNest twoBlocks fun _ => 0 := by
  rintro ⟨run, ran, _, _, inside⟩
  exact absurd (inside _ (written_blockdimSize ran)) (Nat.lt_irrefl _)

/--
Every call writes past the end of a temporary.  A call whose counters do not
overflow copies the blocks of the nest nevertheless, and the elements it uses
outside of its arrays are the one of that temporary and one past the end of
each array of strides.
-/
theorem localStridedCopy_outside (call : StridedCall) (memory : Memory) (counted : call.Counted) :
    ¬ CopiesAsNest call memory ∧
      (call.strideLevels < intMax →
        call.blocksBelow call.strideLevels < intMax →
        ∃ run, localStridedCopy call memory = some run ∧
          run.blocks = call.blocks ∧
          run.memory = copyBlocks memory (call.count 0) call.blocks ∧
          ∀ element, element ∈ run.touched ∧
              ¬ element.Inside call.strideLevels ↔ element ∈ call.outside) := by
  constructor
  · rintro ⟨run, ran, _, _, inside⟩
    exact absurd (inside _ (written_blockdimSize ran)) (Nat.lt_irrefl _)
  · intro shallow few
    obtain ⟨run, ran, copied⟩ : ∃ run,
        localStridedCopy call memory = some run ∧
          Copied call memory (call.blocksBelow call.strideLevels) run :=
      localStridedCopy_copied counted shallow few
    refine ⟨run, ran, ?_, ?_, fun element => ⟨?_, fun member => ?_⟩⟩
    · rw [copied.blocks, firstBlocks_all]
    · rw [copied.memory, firstBlocks_all]
    · rintro ⟨member, outside⟩
      exact (copied.touched element member).resolve_left outside
    · have past := copied.past rfl
      simp only [StridedCall.outside, List.mem_cons, List.not_mem_nil, or_false] at member
      rcases member with rfl | rfl | rfl
      · exact ⟨written_blockdimSize ran, Nat.lt_irrefl _⟩
      · exact ⟨past.1, Nat.lt_irrefl _⟩
      · exact ⟨past.2, Nat.lt_irrefl _⟩

theorem localStridedCopy_outside_twoBlocks :
    ¬ CopiesAsNest twoBlocks (fun _ => 0) ∧
      ∃ run, localStridedCopy twoBlocks (fun _ => 0) = some run ∧
        run.blocks = [⟨1024, 0⟩, ⟨1032, 16⟩] := by
  have counted : twoBlocks.Counted := by
    intro level least
    show 0 < (if level = 0 then (8 : SizeT) else 2).toNat
    split <;> decide
  have outside := localStridedCopy_outside twoBlocks (fun _ => 0) counted
  obtain ⟨run, ran, blocks, _⟩ := outside.2 (by decide) (by decide)
  exact ⟨outside.1, run, ran, by rw [blocks]; decide⟩

/-- A call with separate blocks moves each byte of its section, and changes no other. -/
theorem localStridedCopy_moves (counted : call.Counted) (shallow : call.strideLevels < intMax)
    (few : call.blocksBelow call.strideLevels < intMax)
    (separate : Separate (call.count 0) call.blocks) :
    ∃ run, localStridedCopy call memory = some run ∧
      (∀ block ∈ call.blocks, ∀ offset < call.count 0,
        run.memory (block.dest + offset) = memory (block.src + offset)) ∧
      ∀ address, (∀ block ∈ call.blocks, address ∉ span block.dest (call.count 0)) →
        run.memory address = memory address := by
  obtain ⟨run, ran, copied⟩ := localStridedCopy_copied counted shallow few
  have moved : run.memory = copyBlocks memory (call.count 0) call.blocks := by
    rw [copied.memory, firstBlocks_all]
  refine ⟨run, ran, fun block member offset inside => ?_, fun address outside => ?_⟩
  · rw [moved]
    exact copyBlocks_block separate inside member
  · rw [moved]
    exact copyBlocks_outside outside

theorem twoBlocks_counted : twoBlocks.Counted := by
  intro level least
  show 0 < (if level = 0 then (8 : SizeT) else 2).toNat
  split <;> decide

theorem localStridedCopy_moves_twoBlocks :
    ∃ run, localStridedCopy twoBlocks (fun address => address.toNat) = some run ∧
      run.memory (1032 + 1) = 17 := by
  have blocks : twoBlocks.blocks = [⟨1024, 0⟩, ⟨1032, 16⟩] := by decide
  have separate : Separate (twoBlocks.count 0) twoBlocks.blocks := by
    rw [blocks]
    show Separate 8 _
    constructor <;> simp [span, Set.disjoint_left]
    · intro address near
      bv_omega
    · refine ⟨⟨?_, ?_⟩, ?_, ?_⟩ <;> intro address near <;> bv_omega
  obtain ⟨run, ran, moved, -⟩ :=
    localStridedCopy_moves twoBlocks_counted (by decide) (by decide) separate
  refine ⟨run, ran, ?_⟩
  exact moved ⟨1032, 16⟩ (by rw [blocks]; simp) 1 (by decide)

end OpenUH.Libcaf.StridedCopy
