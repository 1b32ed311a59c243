import Mathlib.Data.Int.ModEq
import Mathlib.Tactic.IntervalCases
import OpenUH.Foundation.BlockCyclic
import OpenUH.Libopenmp.DynamicLoop

/-!
# The static schedules

`__ompc_static_init_4/_8` tell a thread the bounds of its first chunk and the
distance of the next one, and the code around the call clips the upper bound
and moves on.  `__ompc_schedule_next_4/_8` compute the bounds of every chunk
from a counter.

The iterations of a loop are numbered from its lower bound on.  Both deal the
numbers in blocks to the threads in turn: blocks of the chunk size under
STATIC, and blocks as large as they must be for one turn under STATIC_EVEN.
-/

namespace OpenUH.Libopenmp.Scheduler

open Foundation.BlockCyclic
open Foundation.Progression

/-! ## `__ompc_static_init` -/

/--
`__ompc_static_init_4/_8`: from the values behind `plower`, `pupper` and
`pstride` to those the call leaves there.
-/
def staticInit (width : OmpWidth) (mode : ExeMode) (tid : Nat)
    (schedtype : OmpSched) (teamSize : Nat) (bounds : Chunk)
    (incr chunk : Int) : Except String Chunk :=
  if mode = .sequential ∨ teamSize = 1 then
    let blockSize :=
      if incr > 0 then width.wrap (bounds.upper - bounds.lower + 1)
      else width.wrap (bounds.upper - bounds.lower - 1)
    .ok { bounds with stride := blockSize }
  else if schedtype = .staticEven then
    let tripCount :=
      width.wrap
        (width.wrap
          ((width.wrap (bounds.upper - bounds.lower)).tdiv incr) + 1)
    let adjustment : Int := if tripCount.tmod teamSize = 0 then -1 else 0
    let blockSize := width.wrap ((tripCount.tdiv teamSize + adjustment) * incr)
    let stride := width.wrap ((tripCount.tdiv teamSize + adjustment + 1) * incr)
    let myLower := width.wrap (bounds.lower + tid * stride)
    let myUpper := width.wrap (myLower + blockSize)
    .ok { lower := myLower, upper := myUpper, stride := bounds.stride }
  else if ¬chunk > 0 then
    .error "chunk size must be a positive number"
  else
    let blockSize := width.wrap ((chunk - 1) * incr)
    let stride := width.wrap (chunk * incr)
    let myLower := width.wrap (bounds.lower + tid * stride)
    let myUpper := width.wrap (myLower + blockSize)
    .ok
      { lower := myLower
        upper := myUpper
        stride := width.wrap (stride * teamSize) }

/-! ## The code around the calls -/

/-- The values of a counted loop, in the order it runs through them. -/
def loopValues (stride first last : Int) : List Int :=
  (List.range (length stride first last)).map fun number : Nat =>
    first + number * stride

/-- The loop under STATIC_EVEN, with its upper bound clipped. -/
def evenLoop (incr limit : Int) (chunk : Chunk) : List Int :=
  loopValues incr chunk.lower (clip incr limit chunk.upper)

/-- The loops under STATIC, as long as the lower bound is within the limit. -/
def strideLoop (width : OmpWidth) (incr limit : Int) : Nat → Chunk → List Int
  | 0, _ => []
  | fuel + 1, chunk =>
      if Within incr limit chunk.lower then
        let upper := clip incr limit chunk.upper
        loopValues incr chunk.lower upper ++
          strideLoop width incr limit fuel
            { chunk with
              lower := width.wrap (chunk.lower + chunk.stride)
              upper := width.wrap (upper + chunk.stride) }
      else
        []

/-- The iterations of a thread after `__ompc_static_init`, in its order. -/
def staticInitValues (width : OmpWidth) (mode : ExeMode) (tid : Nat)
    (schedtype : OmpSched) (teamSize : Nat) (bounds : Chunk)
    (incr chunk : Int) (fuel : Nat) : Except String (List Int) :=
  (staticInit width mode tid schedtype teamSize bounds incr chunk).map
    fun first =>
      if schedtype = .staticEven then evenLoop incr bounds.upper first
      else strideLoop width incr bounds.upper fuel first

/-- The iterations of a call of `__ompc_schedule_next`, in their order. -/
def CallRecord.values (upper : Int) (record : CallRecord) : List Int :=
  match record.result.chunk with
  | some chunk =>
      loopValues chunk.stride chunk.lower (clip chunk.stride upper chunk.upper)
  | none => []

/-- The iterations that the calls of a thread hand to it, in its order. -/
def handedOut (upper : Int) (tid : Nat) (records : List CallRecord) : List Int :=
  ((served records).filter fun record => record.thread = tid).flatMap
    (CallRecord.values upper)

/-- A call of the thread returned 0. -/
def Finished (tid : Nat) (records : List CallRecord) : Prop :=
  ∃ record ∈ records, record.thread = tid ∧ record.result.again = false

/-- The calls hand a list of iterations to a thread, and then return 0 to it. -/
structure HandsOut (upper : Int) (tid enough : Nat) (values : List Int)
    (calls : List Nat) (records : List CallRecord) : Prop where
  inOrder : handedOut upper tid records <+: values
  whole : Finished tid records → handedOut upper tid records = values
  ends : enough ≤ calls.count tid → Finished tid records

/-! ## What the calls of a thread hand out -/

section HandedOut

variable {tid : Nat}

variable {records : List CallRecord} {record : CallRecord}

theorem handedOut_cons_own {upper : Int}
    (again : record.result.again = true) (own : record.thread = tid) :
    handedOut upper tid (record :: records) =
      record.values upper ++ handedOut upper tid records := by
  rw [handedOut, served_cons_again again]
  simp [handedOut, own]

theorem handedOut_cons_other {upper : Int}
    (other : record.result.again = true → record.thread ≠ tid) :
    handedOut upper tid (record :: records) = handedOut upper tid records := by
  by_cases again : record.result.again = true
  · rw [handedOut, served_cons_again again]
    simp [handedOut, other again]
  · rw [handedOut, served_cons_noMore (Bool.not_eq_true _ ▸ again), handedOut]

theorem finished_of_cons (finished : Finished tid (record :: records))
    (other : record.thread = tid → record.result.again = true) :
    Finished tid records := by
  obtain ⟨last, member, own, noMore⟩ := finished
  rcases List.mem_cons.mp member with rfl | rest
  · rw [other own] at noMore
    cases noMore
  · exact ⟨last, rest, own, noMore⟩

theorem HandsOut.nil {upper : Int} {enough : Nat} (values : List Int)
    (more : 1 ≤ enough) : HandsOut upper tid enough values [] [] where
  inOrder := List.nil_prefix
  whole := fun ⟨_, member, _⟩ => absurd member List.not_mem_nil
  ends := fun plenty => absurd plenty (by rw [List.count_nil]; omega)

theorem HandsOut.mono {upper : Int} {enough more : Nat} {values : List Int} {calls : List Nat}
    (handsOut : HandsOut upper tid enough values calls records)
    (atMost : enough ≤ more) : HandsOut upper tid more values calls records :=
  ⟨handsOut.inOrder, handsOut.whole, fun plenty => handsOut.ends (atMost.trans plenty)⟩

/-- A call of another thread. -/
theorem HandsOut.other {upper : Int} {enough caller : Nat} {values : List Int} {calls : List Nat}
    (rest : HandsOut upper tid enough values calls records)
    (thread : record.thread = caller) (differ : caller ≠ tid) :
    HandsOut upper tid enough values (caller :: calls) (record :: records) := by
  have same : handedOut upper tid (record :: records) = handedOut upper tid records :=
    handedOut_cons_other fun _ => by rw [thread]; exact differ
  refine ⟨?_, fun finished => ?_, fun plenty => ?_⟩
  · rw [same]
    exact rest.inOrder
  · rw [same]
    exact rest.whole (finished_of_cons finished fun own =>
      absurd (thread.symm.trans own) differ)
  · rw [List.count_cons_of_ne differ] at plenty
    obtain ⟨last, member, finished⟩ := rest.ends plenty
    exact ⟨last, List.mem_cons_of_mem _ member, finished⟩

/-- A call that serves the thread the front of its list. -/
theorem HandsOut.again {upper : Int} {enough : Nat} {front values : List Int} {calls : List Nat}
    (rest : HandsOut upper tid enough values calls records)
    (thread : record.thread = tid) (again : record.result.again = true)
    (serves : record.values upper = front) :
    HandsOut upper tid (enough + 1) (front ++ values) (tid :: calls) (record :: records) := by
  have split : handedOut upper tid (record :: records) = front ++ handedOut upper tid records := by
    rw [handedOut_cons_own again thread, serves]
  refine ⟨?_, fun finished => ?_, fun plenty => ?_⟩
  · rw [split]
    exact (List.prefix_append_right_inj front).mpr rest.inOrder
  · rw [split, rest.whole (finished_of_cons finished fun _ => again)]
  · rw [List.count_cons_self] at plenty
    obtain ⟨last, member, finished⟩ := rest.ends (by omega)
    exact ⟨last, List.mem_cons_of_mem _ member, finished⟩

/-- A call that returns 0, with nothing behind it. -/
theorem HandsOut.done {upper : Int} {enough fewer : Nat} {calls : List Nat}
    (rest : HandsOut upper tid fewer [] calls records)
    (thread : record.thread = tid) (noMore : record.result.again = false) :
    HandsOut upper tid enough [] (tid :: calls) (record :: records) := by
  have nothing : handedOut upper tid (record :: records) = [] := by
    rw [handedOut_cons_other fun again => absurd again (by rw [noMore]; decide)]
    exact List.prefix_nil.mp rest.inOrder
  exact ⟨by rw [nothing], fun _ => nothing,
    fun _ => ⟨record, List.mem_cons_self, thread, noMore⟩⟩

end HandedOut

/-! ## Numbered iterations -/

section Numbers

variable {lower upper incr : Int}

/-- A number of values is known from the counts that are within the bound. -/
theorem length_eq_of_within (nonzero : incr ≠ 0) {first last : Int} {count : Nat}
    (within : ∀ number : Nat, Within incr last (first + number * incr) ↔
      number < count) : length incr first last = count := by
  have less (number : Nat) : number < length incr first last ↔ number < count :=
    (within_iff_lt_length nonzero).symm.trans (within number)
  have left := less (length incr first last)
  have right := less count
  omega

theorem loopValues_past (nonzero : incr ≠ 0) {first last : Int}
    (past : ¬Within incr last first) : loopValues incr first last = [] := by
  have first := (@within_iff_lt_length incr first last nonzero 0).not
  rw [Int.natCast_zero, Int.zero_mul, Int.add_zero] at first
  rw [loopValues, Nat.eq_zero_of_not_pos (first.mp past)]
  rfl

/-- A block that starts at a number, clipped, has the numbers up to the total. -/
theorem loopValues_block (nonzero : incr ≠ 0) {start size : Nat} (some : 0 < size) :
    loopValues incr (lower + start * incr)
        (clip incr upper (lower + (start + size - 1 : Nat) * incr)) =
      (List.range' start (min size (length incr lower upper - start))).map
        fun number : Nat => lower + number * incr := by
  have values (number : Nat) :
      lower + start * incr + number * incr = lower + (start + number : Nat) * incr := by
    push_cast
    ring
  have count : length incr (lower + start * incr)
      (clip incr upper (lower + (start + size - 1 : Nat) * incr)) =
        min size (length incr lower upper - start) := by
    refine length_eq_of_within nonzero fun number => ?_
    have inBlock : Within incr (lower + (start + size - 1 : Nat) * incr)
        (lower + (start + number : Nat) * incr) ↔ number < size := by
      rw [← not_iff_not, ← precedes_iff_not_within, precedes_add_mul_iff nonzero]
      omega
    rw [values, within_clip, within_iff_lt_length nonzero, inBlock]
    omega
  unfold loopValues
  rw [count, List.range'_eq_map_range, List.map_map]
  refine List.map_congr_left fun number _ => ?_
  rw [values]
  rfl

/-- The trip count that the code computes. -/
theorem tripCount_eq (within : Within incr upper lower) :
    (upper - lower).tdiv incr + 1 = length incr lower upper := by
  unfold Within at within
  unfold length
  by_cases upward : 0 < incr
  · rw [if_pos upward] at within ⊢
    have nonneg := @Int.ediv_nonneg (upper - lower) _ (by omega) upward.le
    rw [if_pos within, Int.tdiv_eq_ediv_of_nonneg (by omega)]
    omega
  · rw [if_neg upward] at within ⊢
    have nonneg := @Int.ediv_nonneg (lower - upper) (-incr) (by omega) (by omega)
    have turned : (upper - lower).tdiv incr = (lower - upper).tdiv (-incr) := by
      rw [← Int.neg_tdiv_neg, Int.neg_sub]
    rw [if_pos within, turned, Int.tdiv_eq_ediv_of_nonneg (by omega)]
    omega

end Numbers

/-! ## Wrapped values -/

theorem OmpWidth.wrap_modEq (width : OmpWidth) (value : Int) :
    width.wrap value ≡ value [ZMOD 2 ^ width.bits] := by
  have same := @Int.bmod_emod value (2 ^ width.bits)
  push_cast at same
  exact same

/-- A value that fits is what the operations compute modulo the width. -/
theorem OmpWidth.wrap_eq {width : OmpWidth} {value computed : Int} (fits : width.Fits value)
    (same : computed ≡ value [ZMOD 2 ^ width.bits]) :
    width.wrap computed = value := by
  have remainder : computed % ((2 ^ width.bits : Nat) : Int) =
      value % ((2 ^ width.bits : Nat) : Int) := by
    exact_mod_cast same
  rw [← wrap_eq_of_fits fits]
  unfold wrap Int.bmod
  rw [remainder]

/-! ## Sizes of blocks -/

/-- The number of iterations that a thread gets under STATIC_EVEN. -/
def evenSize (total teamSize : Nat) : Nat :=
  if total % teamSize = 0 then total / teamSize else total / teamSize + 1

/-- `trip_count / team_size + adjustment + 1`. -/
def evenStride (tripCount : Int) (teamSize : Nat) : Int :=
  tripCount.tdiv teamSize + (if tripCount.tmod teamSize = 0 then -1 else 0) + 1

/-- The size of a block under a static schedule type. -/
def blockSizeOf (schedtype : OmpSched) (tripCount : Int) (teamSize : Nat) (chunk : Int) : Nat :=
  match schedtype with
  | .staticEven | .orderedStaticEven => (evenStride tripCount teamSize).toNat
  | _ => chunk.toNat

/-- One turn deals all blocks. -/
theorem le_mul_evenSize {total teamSize : Nat} (some : 0 < teamSize) :
    total ≤ teamSize * evenSize total teamSize := by
  unfold evenSize
  have whole := Nat.div_add_mod total teamSize
  have rest := Nat.mod_lt total some
  split
  · omega
  · rw [Nat.mul_succ]
    omega

theorem evenSize_pos {total teamSize : Nat} (some : 0 < total)
    (several : 0 < teamSize) : 0 < evenSize total teamSize := by
  by_contra zero
  have all := @le_mul_evenSize total teamSize several
  rw [Nat.eq_zero_of_not_pos zero] at all
  omega

theorem evenStride_natCast (total teamSize : Nat) :
    evenStride total teamSize = evenSize total teamSize := by
  unfold evenStride evenSize
  rw [← Int.ofNat_tmod, ← Int.ofNat_tdiv]
  by_cases even : total % teamSize = 0
  · rw [if_pos even, if_pos (by omega)]
    omega
  · rw [if_neg even, if_neg (by omega)]
    omega

/-! ## Loops without overflow -/

/-- A loop shared by a team under a schedule type. -/
structure SharedLoop where
  schedtype : OmpSched
  teamSize : Nat
  lower : Int
  upper : Int
  incr : Int
  chunk : Int
deriving DecidableEq, Repr

namespace SharedLoop

/-- The schedule types without a counter of the team. -/
def IsStatic (loop : SharedLoop) : Prop :=
  loop.schedtype = .staticEven ∨ loop.schedtype = .static

/-- The number of iterations. -/
def total (loop : SharedLoop) : Nat :=
  length loop.incr loop.lower loop.upper

/-- The trip count of the calls; without an iteration it is at most one. -/
def tripCount (loop : SharedLoop) : Int :=
  (loop.upper - loop.lower).tdiv loop.incr + 1

/-- The number of iterations of a block. -/
def size (loop : SharedLoop) : Nat :=
  blockSizeOf loop.schedtype loop.tripCount loop.teamSize loop.chunk

/-- The iteration with a number. -/
def value (loop : SharedLoop) (number : Nat) : Int :=
  loop.lower + number * loop.incr

/-- Where the block of a thread in a turn starts. -/
def start (loop : SharedLoop) (tid turn : Nat) : Nat :=
  (tid + turn * loop.teamSize) * loop.size

/-- A thread comes to a block: the first one, or under STATIC the one behind a
block that starts below the count. -/
def Asked (loop : SharedLoop) (count : Int) (tid turn : Nat) : Prop :=
  turn = 0 ∨ loop.schedtype = .static ∧ loop.start tid (turn - 1) < count

/-- The loops that a static schedule shares out. -/
structure Valid (loop : SharedLoop) : Prop where
  isStatic : loop.IsStatic
  several : 2 ≤ loop.teamSize
  nonzero : loop.incr ≠ 0
  within : Within loop.incr loop.upper loop.lower
  chunk : 1 ≤ loop.chunk

/-- The bounds of the blocks that the threads come to do not overflow. -/
structure BlocksFit (width : OmpWidth) (loop : SharedLoop) : Prop where
  lowers : ∀ tid < loop.teamSize, ∀ turn, loop.Asked loop.total tid turn →
    width.Fits (loop.value (loop.start tid turn))
  uppers : ∀ tid < loop.teamSize, ∀ turn, loop.Asked loop.total tid turn →
    loop.start tid turn < loop.total → width.Fits (loop.value (loop.start tid turn + loop.size - 1))
  counts : ∀ tid < loop.teamSize, ∀ turn, loop.Asked loop.tripCount tid turn →
    width.Fits (loop.start tid turn + 1 : Nat)

/-- No value that the calls divide, compare or return overflows. -/
structure Fits (width : OmpWidth) (loop : SharedLoop) : Prop where
  lower : width.Fits loop.lower
  upper : width.Fits loop.upper
  incr : width.Fits loop.incr
  chunk : width.Fits loop.chunk
  difference : width.Fits (loop.upper - loop.lower)
  total : width.Fits loop.total
  blocks : loop.BlocksFit width

section Fits

variable {width : OmpWidth} {loop : SharedLoop} {tid : Nat}

theorem firstAsked (loop : SharedLoop) (count : Int) (tid : Nat) : loop.Asked count tid 0 :=
  .inl rfl

theorem Valid.tripCount_eq (valid : loop.Valid) : loop.tripCount = loop.total :=
  Scheduler.tripCount_eq valid.within

theorem Valid.total_pos (valid : loop.Valid) : 0 < loop.total := by
  refine (within_iff_lt_length valid.nonzero).mp ?_
  simpa using valid.within

theorem Valid.size_pos (valid : loop.Valid) : 0 < loop.size := by
  have chunk := valid.chunk
  have several := valid.several
  have trips := valid.tripCount_eq
  have positive := valid.total_pos
  have even : 0 < evenSize loop.total loop.teamSize := evenSize_pos positive (by omega)
  unfold size blockSizeOf
  rw [trips, evenStride_natCast, Int.toNat_natCast]
  split
  · exact even
  · exact even
  · omega

theorem size_static (static : loop.schedtype = .static) : loop.size = loop.chunk.toNat := by
  unfold size
  rw [static]
  rfl

theorem size_staticEven (even : loop.schedtype = .staticEven) :
    loop.size = (evenStride loop.tripCount loop.teamSize).toNat := by
  unfold size
  rw [even]
  rfl

theorem Valid.size_staticEven (valid : loop.Valid) (even : loop.schedtype = .staticEven) :
    loop.size = evenSize loop.total loop.teamSize := by
  rw [SharedLoop.size_staticEven even, valid.tripCount_eq, evenStride_natCast, Int.toNat_natCast]

/-- The trip count that the calls compute. -/
theorem Fits.tripCount (fits : loop.Fits width) (valid : loop.Valid) :
    width.wrap (width.wrap
        ((width.wrap (loop.upper - loop.lower)).tdiv loop.incr) + 1) =
      loop.total := by
  have total := valid.tripCount_eq
  have positive := valid.total_pos
  have fitsTotal := fits.total
  have quotient : (loop.upper - loop.lower).tdiv loop.incr = loop.total - 1 := by
    unfold SharedLoop.tripCount at total
    omega
  have small : width.Fits ((loop.upper - loop.lower).tdiv loop.incr) :=
    fitsTotal.of_le (by omega) (by omega)
  rw [width.wrap_eq_of_fits fits.difference, width.wrap_eq_of_fits small, quotient,
    Int.sub_add_cancel, width.wrap_eq_of_fits fitsTotal]

/-- The bounds of a block, from a start computed modulo the width. -/
theorem Fits.bounds (fits : loop.Fits width) (valid : loop.Valid)
    (member : tid < loop.teamSize) {turn : Nat}
    (asked : loop.Asked loop.total tid turn) {lower block : Int}
    (lowerIs : lower ≡ loop.value (loop.start tid turn) [ZMOD 2 ^ width.bits])
    (blockIs : block ≡ (loop.size - 1 : Nat) * loop.incr [ZMOD 2 ^ width.bits]) :
    width.wrap lower = loop.value (loop.start tid turn) ∧
      (loop.start tid turn < loop.total →
        width.wrap (width.wrap lower + block) =
          loop.value (loop.start tid turn + loop.size - 1)) := by
  have first := width.wrap_eq (fits.blocks.lowers tid member turn asked) lowerIs
  refine ⟨first, fun inside =>
    width.wrap_eq (fits.blocks.uppers tid member turn asked inside) ?_⟩
  have last : loop.value (loop.start tid turn + loop.size - 1) =
      loop.value (loop.start tid turn) + (loop.size - 1 : Nat) * loop.incr := by
    have some := valid.size_pos
    unfold value
    rw [Nat.add_sub_assoc some]
    push_cast
    ring
  rw [first, last]
  exact blockIs.add_left _

/-- What the code adds to the lower bound under STATIC_EVEN, in iterations. -/
theorem Valid.evenStride_eq (valid : loop.Valid) (even : loop.schedtype = .staticEven) :
    ((loop.total : Int).tdiv loop.teamSize +
        (if (loop.total : Int).tmod loop.teamSize = 0 then -1 else 0) + 1) =
      loop.size := by
  rw [valid.size_staticEven even]
  exact evenStride_natCast loop.total loop.teamSize

theorem Valid.evenBlock (valid : loop.Valid) (even : loop.schedtype = .staticEven) :
    ((loop.total : Int).tdiv loop.teamSize +
        if (loop.total : Int).tmod loop.teamSize = 0 then -1 else 0) =
      (loop.size - 1 : Nat) := by
  have stride := valid.evenStride_eq even
  have positive := valid.size_pos
  omega

theorem Valid.chunk_eq (valid : loop.Valid)
    (static : loop.schedtype = .static) : loop.chunk = loop.size := by
  have chunk := valid.chunk
  rw [size_static static]
  omega

theorem start_zero (loop : SharedLoop) (tid : Nat) : loop.start tid 0 = tid * loop.size := by
  unfold start
  rw [Nat.zero_mul, Nat.add_zero]

/-- The first block of a thread, as the code computes its bounds. -/
theorem Fits.firstBounds (fits : loop.Fits width) (valid : loop.Valid)
    (member : tid < loop.teamSize) :
    width.wrap (loop.lower + tid * width.wrap (loop.size * loop.incr)) =
        loop.value (loop.start tid 0) ∧
      (loop.start tid 0 < loop.total →
        width.wrap
            (width.wrap (loop.lower + tid * width.wrap (loop.size * loop.incr)) +
              width.wrap ((loop.size - 1 : Nat) * loop.incr)) =
          loop.value (loop.start tid 0 + loop.size - 1)) := by
  refine fits.bounds valid member (firstAsked loop _ tid) ?_ (width.wrap_modEq _)
  have moved : loop.value (loop.start tid 0) = loop.lower + tid * (loop.size * loop.incr) := by
    unfold value
    rw [start_zero]
    push_cast
    ring
  rw [moved]
  exact ((width.wrap_modEq _).mul_left _).add_left _

/-- The first chunk that `__ompc_static_init` computes. -/
theorem staticInit_eq {mode : ExeMode} {stride : Int} (fits : loop.Fits width)
    (valid : loop.Valid) (parallel : mode ≠ .sequential) (member : tid < loop.teamSize) :
    ∃ first, staticInit width mode tid loop.schedtype loop.teamSize
          ⟨loop.lower, loop.upper, stride⟩ loop.incr loop.chunk = .ok first ∧
        first.lower = loop.value (loop.start tid 0) ∧
        (loop.start tid 0 < loop.total →
          first.upper = loop.value (loop.start tid 0 + loop.size - 1)) ∧
        (loop.schedtype = .static →
          first.stride ≡ (loop.teamSize * loop.size : Nat) * loop.incr [ZMOD 2 ^ width.bits]) := by
  have several := valid.several
  have many : ¬(mode = .sequential ∨ loop.teamSize = 1) := by
    rintro (sequential | one)
    · exact parallel sequential
    · omega
  obtain ⟨first, last⟩ := fits.firstBounds valid member
  rw [staticInit, if_neg many]
  obtain even | static := valid.isStatic
  · rw [if_pos even, fits.tripCount valid]
    dsimp only
    rw [valid.evenStride_eq even, valid.evenBlock even]
    refine ⟨_, rfl, first, last, fun static => ?_⟩
    rw [even] at static
    cases static
  · have notEven : ¬loop.schedtype = .staticEven := by
      rw [static]
      exact OmpSched.noConfusion
    have chunk := valid.chunk
    have chunkIs := valid.chunk_eq static
    have smaller : loop.chunk - 1 = (loop.size - 1 : Nat) := by omega
    rw [if_neg notEven, if_neg (by omega)]
    dsimp only
    rw [smaller, chunkIs]
    refine ⟨_, rfl, first, last, fun _ => ?_⟩
    have distance : ((loop.teamSize * loop.size : Nat) : Int) * loop.incr =
        loop.size * loop.incr * loop.teamSize := by
      push_cast
      ring
    rw [distance]
    exact (width.wrap_modEq _).trans ((width.wrap_modEq _).mul_right _)

/-! ## The loops around `__ompc_static_init` -/

/-- The iterations dealt to a thread. -/
def dealt (loop : SharedLoop) (tid : Nat) : List Int :=
  (deal loop.total loop.size loop.teamSize tid).map loop.value

theorem start_succ (loop : SharedLoop) (tid turn : Nat) :
    loop.start tid (turn + 1) = loop.start tid turn + loop.teamSize * loop.size := by
  unfold start
  ring

theorem Valid.within_iff (valid : loop.Valid) {number : Nat} :
    Within loop.incr loop.upper (loop.value number) ↔ number < loop.total :=
  within_iff_lt_length valid.nonzero

/-- The distance of two blocks of a thread. -/
theorem Valid.distance (valid : loop.Valid) : loop.size ≤ loop.teamSize * loop.size :=
  Nat.le_mul_of_pos_left _ (by have := valid.several; omega)

theorem Valid.enough (valid : loop.Valid) {fuel start : Nat} (plenty : loop.total ≤ fuel) :
    Enough loop.total (loop.teamSize * loop.size) fuel start := by
  have positive := valid.size_pos
  have distance := valid.distance
  have := Nat.le_mul_of_pos_right fuel (Nat.lt_of_lt_of_le positive distance)
  unfold Enough
  omega

/-- The iterations of a block. -/
def block (loop : SharedLoop) (start : Nat) : List Int :=
  (List.range' start (min loop.size (loop.total - start))).map loop.value

theorem block_past {start : Nat} (past : loop.total ≤ start) : loop.block start = [] := by
  rw [block, Nat.sub_eq_zero_of_le past, Nat.min_zero]
  rfl

/-- The values of a block with its upper bound clipped. -/
theorem Valid.loopValues_eq (valid : loop.Valid) {start : Nat} {last : Int}
    (lastIs : start < loop.total → last = loop.value (start + loop.size - 1)) :
    loopValues loop.incr (loop.value start) (clip loop.incr loop.upper last) =
      loop.block start := by
  by_cases inside : start < loop.total
  · rw [lastIs inside]
    exact loopValues_block valid.nonzero valid.size_pos
  · rw [block_past (Nat.not_lt.mp inside)]
    refine loopValues_past valid.nonzero fun within => inside ?_
    exact valid.within_iff.mp (within_clip.mp within).1

theorem clip_of_within {stride limit value : Int}
    (within : Within stride limit value) : clip stride limit value = value := by
  unfold Within at within
  unfold clip
  split at within
  · rw [if_pos ‹_›, min_eq_right within]
  · rw [if_neg ‹_›, max_eq_right within]

theorem strideLoop_eq (fits : loop.Fits width) (valid : loop.Valid)
    (static : loop.schedtype = .static) (member : tid < loop.teamSize) (fuel : Nat) :
    ∀ (turn : Nat) (chunk : Chunk), loop.Asked loop.total tid turn →
      chunk.lower = loop.value (loop.start tid turn) →
      (loop.start tid turn < loop.total →
        chunk.upper = loop.value (loop.start tid turn + loop.size - 1)) →
      chunk.stride ≡ (loop.teamSize * loop.size : Nat) * loop.incr [ZMOD 2 ^ width.bits] →
      strideLoop width loop.incr loop.upper fuel chunk =
        (rounds loop.total loop.size (loop.teamSize * loop.size) fuel
          (loop.start tid turn)).map loop.value := by
  induction fuel with
  | zero => exact fun _ _ _ _ _ _ => rfl
  | succ fuel ih =>
      intro turn chunk asked lowerIs upperIs strideIs
      rw [strideLoop, rounds, lowerIs]
      by_cases inside : loop.start tid turn < loop.total
      · rw [if_pos (valid.within_iff.mpr inside), if_pos inside]
        have nextAsked : loop.Asked loop.total tid (turn + 1) :=
          .inr ⟨static, by exact_mod_cast inside⟩
        have next : width.wrap (loop.value (loop.start tid turn) + chunk.stride) =
            loop.value (loop.start tid (turn + 1)) := by
          refine width.wrap_eq (fits.blocks.lowers tid member _ nextAsked) ?_
          have moved : loop.value (loop.start tid (turn + 1)) =
              loop.value (loop.start tid turn) + (loop.teamSize * loop.size : Nat) * loop.incr := by
            unfold value
            rw [start_succ]
            push_cast
            ring
          rw [moved]
          exact strideIs.add_left _
        have nextUpper (below : loop.start tid (turn + 1) < loop.total) :
            width.wrap (clip loop.incr loop.upper chunk.upper + chunk.stride) =
              loop.value (loop.start tid (turn + 1) + loop.size - 1) := by
          have positive := valid.size_pos
          have distance := valid.distance
          have later := start_succ loop tid turn
          rw [upperIs inside, clip_of_within (valid.within_iff.mpr (by omega))]
          refine width.wrap_eq (fits.blocks.uppers tid member _ nextAsked below) ?_
          have moved : loop.value (loop.start tid (turn + 1) + loop.size - 1) =
              loop.value (loop.start tid turn + loop.size - 1) +
                (loop.teamSize * loop.size : Nat) * loop.incr := by
            unfold value
            rw [later, Nat.add_sub_assoc positive, Nat.add_sub_assoc positive]
            push_cast
            ring
          rw [moved]
          exact strideIs.add_left _
        have rest := ih (turn + 1)
          { chunk with
            lower := width.wrap (loop.value (loop.start tid turn) + chunk.stride)
            upper :=
              width.wrap (clip loop.incr loop.upper chunk.upper + chunk.stride) }
          nextAsked next nextUpper strideIs
        dsimp only
        rw [rest, valid.loopValues_eq upperIs, List.map_append, start_succ, block]
      · rw [if_neg (mt valid.within_iff.mp inside), if_neg inside]
        rfl

/-- The iterations that follow `__ompc_static_init` are those dealt. -/
theorem staticInitValues_eq {mode : ExeMode} {stride : Int} {fuel : Nat}
    (fits : loop.Fits width) (valid : loop.Valid)
    (parallel : mode ≠ .sequential) (member : tid < loop.teamSize) (plenty : loop.total ≤ fuel) :
    staticInitValues width mode tid loop.schedtype loop.teamSize
        ⟨loop.lower, loop.upper, stride⟩ loop.incr loop.chunk fuel =
      .ok (loop.dealt tid) := by
  obtain ⟨first, init, lowerIs, upperIs, strideIs⟩ :=
    @staticInit_eq _ _ _ _ stride fits valid parallel member
  rw [staticInitValues, init, dealt, deal, ← start_zero loop tid]
  change Except.ok (if _ then _ else _) = _
  congr 1
  obtain even | static := valid.isStatic
  · have enough : Enough loop.total (loop.teamSize * loop.size) 1 (loop.start tid 0) := by
      have all := @le_mul_evenSize loop.total loop.teamSize (by have := valid.several; omega)
      rw [Enough, Nat.one_mul, valid.size_staticEven even]
      omega
    rw [if_pos even, evenLoop, lowerIs, valid.loopValues_eq upperIs, block,
      rounds_fuel (valid.enough (le_refl _)) enough, rounds_one]
  · have notEven : ¬loop.schedtype = .staticEven := by
      rw [static]
      exact OmpSched.noConfusion
    rw [if_neg notEven, strideLoop_eq fits valid static member fuel 0 first (.inl rfl)
      lowerIs upperIs (strideIs static),
      rounds_fuel (valid.enough plenty) (valid.enough (le_refl _))]

/-! ## `__ompc_schedule_next` -/

/-- The descriptor of a loop, under its schedule type or the ordered one. -/
structure Described (loop : SharedLoop) (team : OmpTeam) : Prop where
  schedule : team.scheduleType = loop.schedtype ∨ team.scheduleType = loop.schedtype.addOrderedGap
  teamSize : team.teamSize = loop.teamSize
  lower : team.loopLowerBound = loop.lower
  upper : team.loopUpperBound = loop.upper
  incr : team.loopIncreament = loop.incr
  chunk : team.chunkSize = loop.chunk

/--
The descriptor that `__ompc_scheduler_init` leaves.  For a team of one thread
it has no schedule type and no chunk size.
-/
structure Ready (loop : SharedLoop) (team : OmpTeam) : Prop where
  teamSize : team.teamSize = loop.teamSize
  lower : team.loopLowerBound = loop.lower
  upper : team.loopUpperBound = loop.upper
  incr : team.loopIncreament = loop.incr
  scheduleCount : team.scheduleCount = 0
  schedule : loop.teamSize ≠ 1 → team.scheduleType = loop.schedtype ∨
    team.scheduleType = loop.schedtype.addOrderedGap
  chunk : loop.teamSize ≠ 1 → team.chunkSize = loop.chunk

variable {team : OmpTeam}

theorem Ready.described (ready : loop.Ready team)
    (several : loop.teamSize ≠ 1) : loop.Described team :=
  ⟨ready.schedule several, ready.teamSize, ready.lower, ready.upper, ready.incr,
    ready.chunk several⟩

/-- A thread counts the blocks it has been served. -/
structure Counted (loop : SharedLoop) (tid : Nat) (thread : OmpVThread)
    (turn : Nat) : Prop where
  count : thread.scheduleCount = turn
  ready : loop.Asked loop.total tid turn ∨ loop.schedtype = .staticEven

/-- A call serves the block of its turn, or there is none any more. -/
structure Serves (loop : SharedLoop) (tid turn : Nat) (thread : OmpVThread)
    (result : NextResult) : Prop where
  more : result.again = true → turn ≤ loop.total ∧
    loop.Counted tid thread (turn + 1) ∧
    ∃ last : Int, result.chunk = some
        ⟨loop.value (loop.start tid turn), last, loop.incr⟩ ∧
      (loop.start tid turn < loop.total → last = loop.value (loop.start tid turn + loop.size - 1))
  done : result.again = false → loop.total ≤ loop.start tid turn ∧
    ∃ later, loop.Counted tid thread later ∧ loop.total ≤ loop.start tid later

/-- Under STATIC_EVEN there is nothing behind the first turn. -/
theorem Valid.total_le_start (valid : loop.Valid) (tid : Nat)
    (even : loop.schedtype = .staticEven) {turn : Nat} (behind : turn ≠ 0) :
    loop.total ≤ loop.start tid turn := by
  have all := @le_mul_evenSize loop.total loop.teamSize (by have := valid.several; omega)
  rw [← valid.size_staticEven even] at all
  obtain ⟨before, rfl⟩ := Nat.exists_eq_succ_of_ne_zero behind
  rw [start_succ]
  omega

theorem Described.locals (described : loop.Described team) (fits : loop.Fits width) :
    readLocals width team = ⟨loop.lower, loop.upper, loop.incr, loop.chunk⟩ := by
  unfold readLocals
  rw [described.lower, described.upper, described.incr, described.chunk,
    width.wrap_eq_of_fits fits.lower, width.wrap_eq_of_fits fits.upper,
    width.wrap_eq_of_fits fits.incr, width.wrap_eq_of_fits fits.chunk]

theorem nextStaticEven_serves {thread : OmpVThread} {turn : Nat}
    (ordered : Bool) (described : loop.Described team) (fits : loop.Fits width)
    (valid : loop.Valid) (even : loop.schedtype = .staticEven)
    (member : tid < loop.teamSize) (counted : loop.Counted tid thread turn) :
    loop.Serves tid turn (nextStaticEven width ordered tid team thread).1
      (nextStaticEven width ordered tid team thread).2 := by
  unfold nextStaticEven
  by_cases first : thread.scheduleCount = 0
  · have zero : turn = 0 := by
      have := counted.count
      omega
    subst zero
    have trip : width.wrap
        (quotient width ⟨loop.lower, loop.upper, loop.incr, loop.chunk⟩ + 1) = loop.total :=
      fits.tripCount valid
    obtain ⟨lower, upper⟩ := fits.firstBounds valid member
    rw [lower] at upper
    rw [if_neg (not_not.mpr first), described.locals fits]
    dsimp only
    rw [trip, described.teamSize, valid.evenStride_eq even, valid.evenBlock even, lower]
    have served (rest : Int) : loop.Counted tid
        (if ordered then
          { thread with
            scheduleCount := 1
            orderedCount := tid
            restIterCount := rest }
        else { thread with scheduleCount := 1 }) 1 := by
      refine ⟨?_, .inr even⟩
      split <;> rfl
    refine ⟨fun _ => ⟨Nat.zero_le _, served _, _, rfl, upper⟩, fun noMore => ?_⟩
    have later := valid.total_le_start tid even Nat.one_ne_zero
    refine ⟨?_, 1, served _, later⟩
    dsimp only at noMore
    split at noMore
    · cases noMore
    · rename_i few
      have less : width.Fits ((loop.total : Int) - 1) :=
        fits.total.of_le (by have := valid.total_pos; omega) (by omega)
      rw [width.wrap_eq_of_fits less, decide_eq_false_iff_not] at noMore
      have atLeast := Nat.le_mul_of_pos_right tid valid.size_pos
      rw [start_zero]
      omega
  · have behind : turn ≠ 0 := by
      have := counted.count
      omega
    have past := valid.total_le_start tid even behind
    rw [if_pos first]
    exact ⟨(nomatch ·), fun _ => ⟨past, turn, counted, past⟩⟩

theorem nextStatic_serves {thread : OmpVThread} {turn : Nat}
    (ordered : Bool) (described : loop.Described team) (fits : loop.Fits width)
    (valid : loop.Valid) (static : loop.schedtype = .static)
    (member : tid < loop.teamSize) (counted : loop.Counted tid thread turn) :
    loop.Serves tid turn (nextStatic width ordered tid team thread).1
      (nextStatic width ordered tid team thread).2 := by
  have asked : loop.Asked loop.total tid turn := counted.ready.resolve_right (by
    rw [static]
    exact OmpSched.noConfusion)
  have askedCount : loop.Asked loop.tripCount tid turn := by
    rw [valid.tripCount_eq]
    exact asked
  have trip : width.wrap
      (quotient width ⟨loop.lower, loop.upper, loop.incr, loop.size⟩ + 1) = loop.total :=
    fits.tripCount valid
  have number : width.wrap
      ((turn : Int) * loop.size * loop.teamSize + tid * loop.size + 1) =
        loop.start tid turn + 1 := by
    have starts : (turn : Int) * loop.size * loop.teamSize + tid * loop.size + 1 =
        (loop.start tid turn + 1 : Nat) := by
      unfold start
      push_cast
      ring
    rw [starts, width.wrap_eq_of_fits (fits.blocks.counts tid member turn askedCount)]
    push_cast
    rfl
  have smaller : (loop.size : Int) - 1 = (loop.size - 1 : Nat) := by
    have := valid.size_pos
    omega
  have strideIs := width.wrap_modEq (loop.size * loop.incr)
  have moved : loop.value (loop.start tid turn) =
      loop.lower + tid * (loop.size * loop.incr) +
        turn * (loop.size * loop.incr) * loop.teamSize := by
    unfold value start
    push_cast
    ring
  have lowerIs : loop.lower + tid * width.wrap (loop.size * loop.incr) +
      width.wrap (turn * width.wrap (loop.size * loop.incr) * loop.teamSize) ≡
        loop.value (loop.start tid turn) [ZMOD 2 ^ width.bits] := by
    rw [moved]
    exact ((strideIs.mul_left _).add_left _).add
      ((width.wrap_modEq _).trans ((strideIs.mul_left _).mul_right _))
  obtain ⟨lower, upper⟩ := fits.bounds valid member asked lowerIs
    (width.wrap_modEq ((loop.size - 1 : Nat) * loop.incr))
  rw [lower] at upper
  unfold nextStatic
  rw [described.locals fits, valid.chunk_eq static]
  dsimp only
  rw [trip, described.teamSize, counted.count, number, smaller, lower]
  split
  · rename_i past
    have none : loop.total ≤ loop.start tid turn := by omega
    exact ⟨(nomatch ·), fun _ => ⟨none, turn, counted, none⟩⟩
  · rename_i inside
    have several := valid.several
    have few : turn ≤ loop.start tid turn := calc
      turn ≤ tid + turn * loop.teamSize :=
        (Nat.le_mul_of_pos_right turn (by omega)).trans (Nat.le_add_left _ _)
      _ ≤ loop.start tid turn := Nat.le_mul_of_pos_right _ valid.size_pos
    refine ⟨fun _ => ⟨by omega, ⟨?_, .inl (.inr ⟨static, ?_⟩)⟩, _, rfl, upper⟩, (nomatch ·)⟩
    · split <;> exact (Nat.cast_succ turn).symm
    · rw [Nat.add_sub_cancel]
      omega

/-- Which branch serves the calls, and that it leaves the descriptor alone. -/
theorem nextBySchedule_static (described : loop.Described team) (isStatic : loop.IsStatic) :
    ∃ ordered,
      (loop.schedtype = .staticEven ∧ ∀ caller thread,
        nextBySchedule width caller team thread =
          .ok (team, nextStaticEven width ordered caller team thread)) ∨
      (loop.schedtype = .static ∧ ∀ caller thread,
        nextBySchedule width caller team thread =
          .ok (team, nextStatic width ordered caller team thread)) := by
  unfold nextBySchedule
  obtain even | static := isStatic
  · obtain plain | ordered := described.schedule
    · exact ⟨false, .inl ⟨even, fun caller thread => by rw [plain, even]⟩⟩
    · exact ⟨true, .inl ⟨even, fun caller thread => by rw [ordered, even]; rfl⟩⟩
  · obtain plain | ordered := described.schedule
    · exact ⟨false, .inr ⟨static, fun caller thread => by rw [plain, static]⟩⟩
    · exact ⟨true, .inr ⟨static, fun caller thread => by rw [ordered, static]; rfl⟩⟩

theorem nextBySchedule_called (described : loop.Described team) (isStatic : loop.IsStatic)
    (caller : Nat) (thread : OmpVThread) :
    ∃ after, nextBySchedule width caller team thread = .ok (team, after) := by
  obtain ⟨ordered, ⟨-, called⟩ | ⟨-, called⟩⟩ :=
    @nextBySchedule_static width loop team described isStatic
  · exact ⟨_, called caller thread⟩
  · exact ⟨_, called caller thread⟩

/-- A call under a static schedule serves the block of the thread's turn. -/
theorem nextBySchedule_serves {thread : OmpVThread} {turn : Nat}
    (described : loop.Described team) (fits : loop.Fits width)
    (valid : loop.Valid) (member : tid < loop.teamSize) (counted : loop.Counted tid thread turn) :
    ∃ after : OmpVThread × NextResult, nextBySchedule width tid team thread =
        .ok (team, after) ∧ loop.Serves tid turn after.1 after.2 := by
  obtain ⟨ordered, ⟨even, calls⟩ | ⟨static, calls⟩⟩ :=
    @nextBySchedule_static width loop team described valid.isStatic
  · exact ⟨_, calls tid thread,
      nextStaticEven_serves ordered described fits valid even member counted⟩
  · exact ⟨_, calls tid thread,
      nextStatic_serves ordered described fits valid static member counted⟩

/-! ## Runs of calls -/

theorem runCalls_static {mode : ExeMode} {root own : TeamRecords} {caller : Nat}
    {calls : List Nat} {after : OmpVThread × NextResult}
    (parallel : mode ≠ .sequential) (several : own.team.teamSize ≠ 1)
    (called : nextBySchedule width caller own.team (own.threads caller) = .ok (own.team, after)) :
    ∃ record : CallRecord, record.thread = caller ∧ record.result = after.2 ∧
      runCalls width mode root own (caller :: calls) =
        record :: runCalls width mode root (own.setThread caller after.1) calls := by
  have next : scheduleNext width mode caller root own =
      .ok (root, own.setThread caller after.1, after.2) := by
    have team : scheduleNextTeam width caller own =
        .ok (own.setThread caller after.1, after.2) := by
      rw [scheduleNextTeam, if_neg several, called]
      rfl
    cases mode with
    | sequential => exact absurd rfl parallel
    | normal | nested => exact congrArg (Except.map fun after => (root, after)) team
  refine ⟨⟨caller, own.team, after.2, after.1.orderedCount⟩, rfl, rfl, ?_⟩
  rw [runCalls, next]
  dsimp only
  rw [TeamRecords.setThread_self]

/-- The blocks of a thread from a turn on. -/
def fromTurn (loop : SharedLoop) (tid turn : Nat) : List Int :=
  (rounds loop.total loop.size (loop.teamSize * loop.size) loop.total
    (loop.start tid turn)).map loop.value

theorem fromTurn_past {turn : Nat} (past : loop.total ≤ loop.start tid turn) :
    loop.fromTurn tid turn = [] := by
  rw [fromTurn, rounds_past past]
  rfl

/-- The block of a turn, and those of the turns behind it. -/
theorem Valid.fromTurn_eq (valid : loop.Valid) (tid turn : Nat) :
    loop.fromTurn tid turn = loop.block (loop.start tid turn) ++ loop.fromTurn tid (turn + 1) := by
  have more : Enough loop.total (loop.teamSize * loop.size) (loop.total + 1)
      (loop.start tid turn) := valid.enough (Nat.le_succ _)
  rw [fromTurn, rounds_fuel (valid.enough (le_refl _)) more, rounds]
  by_cases inside : loop.start tid turn < loop.total
  · rw [if_pos inside, List.map_append, block, fromTurn, start_succ]
  · rw [if_neg inside, fromTurn_past (by rw [start_succ]; omega), block_past (Nat.not_lt.mp inside)]
    rfl

/--
Whatever the order of the calls, a thread is served the rest of its blocks in
turn, and a call returns 0 to it when it has made enough of them.
-/
theorem handsOut_fromTurn {mode : ExeMode} {root : TeamRecords}
    (fits : loop.Fits width) (valid : loop.Valid)
    (parallel : mode ≠ .sequential) (member : tid < loop.teamSize) (calls : List Nat) :
    ∀ (own : TeamRecords) (turn : Nat), loop.Described own.team →
      loop.Counted tid (own.threads tid) turn →
      HandsOut loop.upper tid (max 1 (loop.total + 2 - turn))
        (loop.fromTurn tid turn) calls (runCalls width mode root own calls) := by
  induction calls with
  | nil => exact fun _ _ _ _ => HandsOut.nil _ (le_max_left _ _)
  | cons caller calls ih =>
      intro own turn described counted
      have several : own.team.teamSize ≠ 1 := by
        have := valid.several
        rw [described.teamSize]
        omega
      by_cases same : caller = tid
      · subst same
        obtain ⟨after, called, serves⟩ := nextBySchedule_serves described fits valid member counted
        obtain ⟨record, thread, result, runs⟩ := @runCalls_static width mode root own caller
          calls after parallel several called
        rw [runs]
        rw [← result] at serves
        by_cases again : record.result.again = true
        · obtain ⟨few, recounted, last, chunk, lastIs⟩ := serves.more again
          rw [← own.setThread_self caller after.1] at recounted
          have rest := ih (own.setThread caller after.1) (turn + 1) described recounted
          have fewer : max 1 (loop.total + 2 - turn) =
              max 1 (loop.total + 2 - (turn + 1)) + 1 := by omega
          have block : record.values loop.upper = loop.block (loop.start caller turn) := by
            rw [CallRecord.values, chunk]
            exact valid.loopValues_eq lastIs
          rw [valid.fromTurn_eq, fewer]
          exact rest.again thread again block
        · obtain ⟨past, later, recounted, laterPast⟩ :=
            serves.done (Bool.not_eq_true _ ▸ again)
          rw [← own.setThread_self caller after.1] at recounted
          have rest := ih (own.setThread caller after.1) later described recounted
          rw [fromTurn_past laterPast] at rest
          rw [fromTurn_past past]
          exact rest.done thread (Bool.not_eq_true _ ▸ again)
      · obtain ⟨after, called⟩ := @nextBySchedule_called width loop own.team described
          valid.isStatic caller (own.threads caller)
        obtain ⟨record, thread, -, runs⟩ := @runCalls_static width mode root own caller
          calls after parallel several called
        rw [← own.setThread_other (Ne.symm same) after.1] at counted
        rw [runs]
        exact (ih (own.setThread caller after.1) turn described counted).other thread same

/-! ## The partition -/

/-- The threads share the iterations of a loop. -/
structure PartitionsLoop (loop : SharedLoop) (values : Nat → List Int) : Prop where
  inside : ∀ tid < loop.teamSize, ∀ value ∈ values tid,
    value ∈ loopIterations loop.lower loop.upper loop.incr
  once : ∀ tid < loop.teamSize, (values tid).Nodup
  disjoint : ∀ tid < loop.teamSize, ∀ other < loop.teamSize, tid ≠ other →
    (values tid).Disjoint (values other)
  complete : ∀ value ∈ loopIterations loop.lower loop.upper loop.incr,
    ∃ tid < loop.teamSize, value ∈ values tid

theorem value_injective (nonzero : loop.incr ≠ 0) : Function.Injective loop.value := by
  intro first second same
  have scaled : (first : Int) * loop.incr = second * loop.incr := by
    unfold value at same
    omega
  exact_mod_cast Int.eq_of_mul_eq_mul_right nonzero scaled

theorem Valid.mem_dealt (valid : loop.Valid) (member : tid < loop.teamSize) {number : Nat} :
    loop.value number ∈ loop.dealt tid ↔
      number < loop.total ∧ number / loop.size % loop.teamSize = tid := by
  rw [dealt, List.mem_map_of_injective (value_injective valid.nonzero),
    mem_deal valid.size_pos member]

theorem Valid.dealt_partitions (valid : loop.Valid) : loop.PartitionsLoop loop.dealt := by
  have iterations (value : Int) :
      value ∈ loopIterations loop.lower loop.upper loop.incr ↔
        ∃ number < loop.total, value = loop.value number :=
    mem_progression_iff valid.nonzero
  have ofDealt {tid : Nat} {value : Int} (dealtTo : value ∈ loop.dealt tid) :
      ∃ number, value = loop.value number := by
    obtain ⟨number, -, rfl⟩ := List.mem_map.mp dealtTo
    exact ⟨number, rfl⟩
  refine
    { inside := fun tid member value dealtTo => ?_
      once := fun tid member =>
        (deal_nodup member).map (value_injective valid.nonzero)
      disjoint := fun tid member other otherMember differ value dealtTo dealtOther => ?_
      complete := fun value inLoop => ?_ }
  · obtain ⟨number, rfl⟩ := ofDealt dealtTo
    exact (iterations _).mpr ⟨number, ((valid.mem_dealt member).mp dealtTo).1, rfl⟩
  · obtain ⟨number, rfl⟩ := ofDealt dealtTo
    refine differ ?_
    rw [← ((valid.mem_dealt member).mp dealtTo).2,
      ← ((valid.mem_dealt otherMember).mp dealtOther).2]
  · obtain ⟨number, below, rfl⟩ := (iterations _).mp inLoop
    have several : 0 < loop.teamSize := by
      have := valid.several
      omega
    have member := Nat.mod_lt (number / loop.size) several
    exact ⟨_, member, (valid.mem_dealt member).mpr ⟨below, rfl⟩⟩

/-- Both calls share out the loop, and in the same way. -/
def SharesOut (width : OmpWidth) (mode : ExeMode) (loop : SharedLoop) : Prop :=
  ∃ values : Nat → List Int, loop.PartitionsLoop values ∧
    ∀ tid < loop.teamSize,
      (∀ stride fuel, loop.total ≤ fuel →
        staticInitValues width mode tid loop.schedtype loop.teamSize
          ⟨loop.lower, loop.upper, stride⟩ loop.incr loop.chunk fuel =
            .ok (values tid)) ∧
      ∀ (root own : TeamRecords) (calls : List Nat),
        (∀ caller ∈ calls, caller < loop.teamSize) → loop.Ready own.team →
          (own.threads tid).scheduleCount = 0 →
          HandsOut loop.upper tid (loop.total + 2) (values tid) calls
            (runCalls width mode root own calls)

theorem Valid.sharesOut {mode : ExeMode} (valid : loop.Valid)
    (fits : loop.Fits width) (parallel : mode ≠ .sequential) :
    loop.SharesOut width mode := by
  refine ⟨loop.dealt, valid.dealt_partitions, fun tid member =>
    ⟨fun stride fuel plenty => staticInitValues_eq fits valid parallel member plenty,
      fun root own calls _ ready fresh => ?_⟩⟩
  have counted : loop.Counted tid (own.threads tid) 0 := ⟨fresh, .inl (firstAsked loop _ tid)⟩
  have described := ready.described (by have := valid.several; omega)
  have handsOut := @handsOut_fromTurn width loop tid mode root fits valid parallel
    member calls own 0 described counted
  rwa [fromTurn, start_zero] at handsOut

/--
Under a static schedule the threads of a team share the iterations of a loop
after `__ompc_static_init`, and each is handed the same ones, in the same
order, by `__ompc_schedule_next`.
-/
theorem staticSchedules_partition {mode : ExeMode} (valid : loop.Valid)
    (fits : loop.Fits width) (parallel : mode ≠ .sequential) :
    loop.SharesOut width mode :=
  valid.sharesOut fits parallel

end Fits

/-- `for (i = 10; i >= 0; i -= 3)`, in blocks of two for two threads. -/
def twoBlocks : SharedLoop where
  schedtype := .static
  teamSize := 2
  lower := 10
  upper := 0
  incr := -3
  chunk := 2

theorem twoBlocks_valid : twoBlocks.Valid :=
  ⟨.inr rfl, by decide, by decide, by decide, by decide⟩

theorem twoBlocks_fits : twoBlocks.Fits .four := by
  have few {tid turn : Nat} (asked : twoBlocks.Asked 4 tid turn) : turn ≤ 1 := by
    rcases asked with zero | ⟨-, inside⟩
    · omega
    · change (((tid + (turn - 1) * 2) * 2 : Nat) : Int) < 4 at inside
      omega
  refine ⟨by decide, by decide, by decide, by decide, by decide, by decide, ?_⟩
  refine ⟨fun tid member turn asked => ?_, fun tid member turn asked inside => ?_,
    fun tid member turn asked => ?_⟩
  all_goals
    have := few asked
    change tid < 2 at member
    interval_cases tid <;> interval_cases turn <;> decide

theorem staticSchedules_partition_twoBlocks : twoBlocks.SharesOut .four .normal :=
  staticSchedules_partition twoBlocks_valid twoBlocks_fits (by decide)

end SharedLoop

end OpenUH.Libopenmp.Scheduler
