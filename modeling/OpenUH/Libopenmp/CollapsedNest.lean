import OpenUH.Foundation.MixedRadix
import OpenUH.Foundation.Progression
import OpenUH.Libopenmp.CollapsedLoop
import Mathlib.Algebra.BigOperators.Ring.List

/-!
# The iteration space of a collapsed nest

The points of a nest, the order in which the nest runs through them, and when
the lengths and the vectors that the runtime computes are those of the nest.
-/

namespace OpenUH.Libopenmp.Collapse

open Foundation.MixedRadix
open Foundation.Progression
open Libopenmp.Scheduler

/-! ## The points of a nest -/

/-- The iterations of one loop. -/
def LoopLevel.iterations (level : LoopLevel) : Set Int :=
  progression level.stride level.lower level.upper

/-- How many they are. -/
def LoopLevel.count (level : LoopLevel) : Nat :=
  length level.stride level.lower level.upper

/-- The arguments are of their types, and the loop moves. -/
structure LoopLevel.Valid (level : LoopLevel) : Prop where
  lower : (indexWidth level.is64bit).Fits level.lower
  upper : (indexWidth level.is64bit).Fits level.upper
  stride : (indexWidth level.is64bit).Fits level.stride
  nonzero : level.stride ≠ 0

/-- The index vectors for which the nest runs its body. -/
def points (nest : List LoopLevel) : Set (List Int) :=
  { point | List.Forall₂
      (fun (index : Int) (level : LoopLevel) => index ∈ level.iterations)
      point nest }

/-- The nest runs through one vector before the other. -/
def NestBefore (nest : List LoopLevel) (left right : List Int) : Prop :=
  Before (fun level : LoopLevel => Precedes level.stride) nest left right

/-- The index vector of a number, the outermost loop open at its end. -/
def vector (nest : List LoopLevel) (number : Nat) : List Int :=
  symbols (fun (level : LoopLevel) (digit : Nat) =>
    level.lower + digit * level.stride) LoopLevel.count nest number

/-- The number of iterations of the nest. -/
def total (nest : List LoopLevel) : Nat :=
  (nest.map LoopLevel.count).prod

variable {nest : List LoopLevel} {level outer : LoopLevel}
  {number other : Nat} {point : List Int}

/-- The points of a nest are the vectors of the numbers below their number. -/
theorem mem_points_iff (moves : ∀ level ∈ nest, level.stride ≠ 0) :
    point ∈ points nest ↔ ∃ number < total nest, point = vector nest number := by
  constructor
  · intro member
    have numeral : ∃ numeral, Proper (nest.map LoopLevel.count) numeral ∧
        point = List.zipWith (fun (level : LoopLevel) (digit : Nat) =>
          level.lower + digit * level.stride) nest numeral := by
      have inside : List.Forall₂ (fun (index : Int) (level : LoopLevel) =>
        index ∈ level.iterations) point nest := member
      induction inside with
      | nil => exact ⟨[], .nil, rfl⟩
      | @cons index level rest inner here _ ih =>
          obtain ⟨count, below, rfl⟩ := (mem_progression_iff
            (moves level List.mem_cons_self)).1 here
          obtain ⟨numeral, proper, rfl⟩ := ih
            (fun level member => moves level (List.mem_cons_of_mem _ member))
            ‹_›
          exact ⟨count :: numeral, .cons below proper, rfl⟩
    obtain ⟨numeral, proper, rfl⟩ := numeral
    refine ⟨value (nest.map LoopLevel.count) numeral, value_lt proper, ?_⟩
    unfold vector symbols
    rw [digits_value proper]
  · rintro ⟨number, below, rfl⟩
    have proper := proper_digits below
    unfold vector symbols
    generalize digits (nest.map LoopLevel.count) number = numeral at proper
    clear below
    induction nest generalizing numeral with
    | nil =>
        cases proper
        exact .nil
    | cons level inner ih =>
        cases proper with
        | @cons digit _ rest _ below proper =>
            refine .cons ?_ (ih (fun level member =>
              moves level (List.mem_cons_of_mem _ member)) rest proper)
            exact (mem_progression_iff (moves level List.mem_cons_self)).2 ⟨digit, below, rfl⟩

/-- The nest runs through the vectors in the order of their numbers. -/
theorem nestBefore_vector (moves : ∀ level ∈ outer :: nest, level.stride ≠ 0)
    (positive : 0 < total nest) :
    NestBefore (outer :: nest) (vector (outer :: nest) number)
      (vector (outer :: nest) other) ↔ number < other := by
  refine before_symbols (fun level member digit digit' => ?_) positive
  rw [precedes_add_mul_iff (moves level member), Int.ofNat_lt]

/-- Different numbers have different vectors. -/
theorem vector_injOn (moves : ∀ level ∈ nest, level.stride ≠ 0) :
    Set.InjOn (vector nest) { number | number < total nest } := by
  intro number below other below' same
  have ordered : ∀ {low high}, low < total nest → high < total nest →
      vector nest low = vector nest high → ¬ low < high := by
    intro low high lowBelow highBelow same less
    have steps : ∀ level ∈ nest, ∀ digit digit' : Nat,
        Precedes level.stride (level.lower + digit * level.stride)
          (level.lower + digit' * level.stride) ↔ digit < digit' := by
      intro level member digit digit'
      rw [precedes_add_mul_iff (moves level member), Int.ofNat_lt]
    have before := (before_symbols_of_lt steps lowBelow highBelow).2 less
    have reflexive := (before_symbols_of_lt steps highBelow highBelow).1
    unfold vector at same
    rw [same] at before
    exact absurd (reflexive before) (Nat.lt_irrefl _)
  exact Nat.le_antisymm (Nat.le_of_not_lt (ordered below' below same.symm))
    (Nat.le_of_not_lt (ordered below below' same))

/-- The nest has as many points as the product of the lengths says. -/
theorem ncard_points (moves : ∀ level ∈ nest, level.stride ≠ 0) :
    (points nest).ncard = total nest := by
  have image : points nest = Set.image (vector nest) { number | number < total nest } := by
    ext point
    rw [mem_points_iff moves, Set.mem_image]
    constructor
    · rintro ⟨number, below, rfl⟩
      exact ⟨number, below, rfl⟩
    · rintro ⟨number, below, rfl⟩
      exact ⟨number, below, rfl⟩
  rw [image, Set.InjOn.ncard_image (vector_injOn moves)]
  have interval : { number | number < total nest } = (Finset.range (total nest) : Set Nat) := by
    ext number
    simp
  rw [interval, Set.ncard_coe_finset, Finset.card_range]

/-! ## The lengths -/

/--
The comparison of the bounds comes out as for the signed values: the loop has
64 bits, or both bounds have the same sign, or the distance of the bounds is
the one that wraps to a length of zero.
-/
def LoopLevel.Sized (level : LoopLevel) : Prop :=
  level.is64bit = true ∨
    0 ≤ level.lower ∧ 0 ≤ level.upper ∨
    level.lower < 0 ∧ level.upper < 0 ∨
    level.lower = 0 ∧ level.upper = -1 ∧ level.stride = 1 ∨
    level.lower = -1 ∧ level.upper = 0 ∧ level.stride = -1

instance (level : LoopLevel) : Decidable level.Sized :=
  inferInstanceAs (Decidable (_ ∨ _))

/-- The unsigned quotient of values that fit in. -/
theorem unsignedLen_of_fits {width : OmpWidth} {distance step : Int}
    (nonneg : 0 ≤ distance) (small : distance < 2 ^ width.bits)
    (positive : 0 < step) (fits : step < 2 ^ width.bits) :
    unsignedLen width distance step = (distance / step + 1).toNat % 2 ^ width.bits := by
  unfold unsignedLen unsigned
  rw [Int.emod_eq_of_lt nonneg small, Int.emod_eq_of_lt positive.le fits]
  have quotient : 0 ≤ distance / step := Int.ediv_nonneg nonneg positive.le
  have cast : ((distance.toNat / step.toNat + 1 : Nat) : Int) = distance / step + 1 := by
    push_cast
    rw [Int.toNat_of_nonneg nonneg, Int.toNat_of_nonneg positive.le]
  rw [cast]
  apply Int.ofNat_inj.1
  push_cast
  rw [Int.toNat_of_nonneg (Int.emod_nonneg _ (by positivity)), Int.toNat_of_nonneg (by omega)]

@[simp]
theorem cast_unsigned (width : OmpWidth) (value : Int) :
    (unsigned width value : Int) = value % 2 ^ width.bits := by
  unfold unsigned
  exact Int.toNat_of_nonneg (Int.emod_nonneg _ (by positivity))

@[simp]
theorem indexWidth_true : indexWidth true = .eight := rfl

@[simp]
theorem indexWidth_false : indexWidth false = .four := rfl

/-- The way through the unsigned type changes nothing. -/
theorem wrap_unsigned (width : OmpWidth) (value : Int) :
    width.wrap (unsigned width value) = width.wrap value := by
  unfold OmpWidth.wrap
  rw [cast_unsigned]
  have modulus : (2 : Int) ^ width.bits = ((2 ^ width.bits : Nat) : Int) := by
    push_cast
    rfl
  rw [modulus, Int.emod_bmod]

/-- What is read of a loop of 64 bits. -/
theorem readLevel_wide (valid : level.Valid) (wide : level.is64bit = true) :
    readLevel level =
      { is64bit := true
        lowerBound := level.lower
        upperBound := level.upper
        incr := level.stride } := by
  obtain ⟨lower, upper, stride, -⟩ := valid
  rw [wide, indexWidth_true] at lower upper stride
  unfold readLevel
  rw [if_pos wide, wrap_unsigned, wrap_unsigned,
    OmpWidth.wrap_eq_of_fits lower, OmpWidth.wrap_eq_of_fits upper,
    OmpWidth.wrap_eq_of_fits stride]

/-- What is read of a loop of 32 bits. -/
theorem readLevel_narrow (valid : level.Valid) (narrow : level.is64bit = false) :
    readLevel level =
      { is64bit := false
        lowerBound := level.lower % 2 ^ 32
        upperBound := level.upper % 2 ^ 32
        incr := level.stride } := by
  obtain ⟨-, -, stride, -⟩ := valid
  rw [narrow, indexWidth_false] at stride
  unfold readLevel
  rw [if_neg (by simp [narrow]), cast_unsigned, cast_unsigned, OmpWidth.wrap_eq_of_fits stride]
  rfl

/-- The length of a loop whose bounds are compared as they should be. -/
theorem loopLen_eq {info : OmpLoopInfo} (lower upper stride : Int) (nonzero : stride ≠ 0)
    (incr : info.incr = stride) (compared : info.lowerBound ≤ info.upperBound ↔ lower ≤ upper)
    (compared' : info.upperBound ≤ info.lowerBound ↔ upper ≤ lower)
    (distance : info.upperBound - info.lowerBound = upper - lower)
    (small : upper - lower < 2 ^ (indexWidth info.is64bit).bits ∧
      lower - upper < 2 ^ (indexWidth info.is64bit).bits)
    (fits : (indexWidth info.is64bit).Fits stride) :
    loopLen info = length stride lower upper % 2 ^ (indexWidth info.is64bit).bits := by
  have room := fits
  unfold OmpWidth.Fits at room
  have back : info.lowerBound - info.upperBound = lower - upper := by omega
  unfold loopLen length
  simp only [incr, ge_iff_le, gt_iff_lt, compared, compared', distance, back]
  by_cases upward : 0 < stride
  · rw [if_pos upward, if_pos upward]
    by_cases some : lower ≤ upper
    · rw [if_pos some, if_pos some]
      exact unsignedLen_of_fits (by omega) small.1 upward (by omega)
    · rw [if_neg some, if_neg some, Nat.zero_mod]
  · rw [if_neg upward, if_neg upward]
    by_cases some : upper ≤ lower
    · rw [if_pos some, if_pos some]
      exact unsignedLen_of_fits (by omega) small.2 (by omega) (by omega)
    · rw [if_neg some, if_neg some, Nat.zero_mod]

theorem loopLen_wide (valid : level.Valid) (wide : level.is64bit = true) :
    loopLen (readLevel level) = level.count % 2 ^ 64 := by
  rw [readLevel_wide valid wide]
  obtain ⟨lower, upper, stride, nonzero⟩ := valid
  rw [wide] at lower upper stride
  have lowerFits := lower
  have upperFits := upper
  simp only [OmpWidth.Fits, indexWidth, OmpWidth.eight, if_true]
    at lowerFits upperFits
  refine loopLen_eq level.lower level.upper level.stride nonzero rfl Iff.rfl Iff.rfl rfl ?_ stride
  simp only [indexWidth, OmpWidth.eight, if_true]
  omega

section

variable (valid : level.Valid) (narrow : level.is64bit = false)
  (signs : 0 ≤ level.lower ∧ 0 ≤ level.upper ∨ level.lower < 0 ∧ level.upper < 0)

include valid narrow signs

theorem loopLen_narrow :
    loopLen (readLevel level) = level.count % 2 ^ 32 := by
  rw [readLevel_narrow valid narrow]
  obtain ⟨lower, upper, stride, nonzero⟩ := valid
  rw [narrow] at lower upper stride
  have lowerFits := lower
  have upperFits := upper
  simp only [OmpWidth.Fits, indexWidth, OmpWidth.four, Bool.false_eq_true,
    if_false] at lowerFits upperFits
  refine loopLen_eq level.lower level.upper level.stride nonzero rfl ?_ ?_ ?_ ?_ stride
  all_goals
    simp only [indexWidth, OmpWidth.four, Bool.false_eq_true, if_false]
    omega

/-- With bounds of the same sign it is shorter than 32 bits can hold. -/
theorem count_narrow_lt : level.count < 2 ^ 32 := by
  obtain ⟨lower, upper, -, nonzero⟩ := valid
  rw [narrow, indexWidth_false] at lower upper
  simp only [OmpWidth.Fits, OmpWidth.four] at lower upper
  unfold LoopLevel.count length
  have bound : ∀ {distance step : Int}, distance < 2 ^ 31 → 0 < step →
      0 ≤ distance → (distance / step + 1).toNat < 2 ^ 32 := by
    intro distance step small positive nonneg
    have quotient : distance / step ≤ distance := Int.ediv_le_self _ nonneg
    omega
  split
  case isTrue upward =>
    split
    · exact bound (by omega) upward (by omega)
    · omega
  case isFalse downward =>
    split
    · exact bound (by omega) (by omega) (by omega)
    · omega

end

/-- The length of a loop is computed right, up to the width of its type. -/
theorem loopLen_of_sized (valid : level.Valid) (sized : level.Sized) :
    loopLen (readLevel level) = level.count % 2 ^ 64 := by
  cases width : level.is64bit with
  | true => exact loopLen_wide valid width
  | false =>
      rcases sized with wide | low | high | upwards | downwards
      · rw [width] at wide
        cases wide
      · have short := count_narrow_lt valid width (Or.inl low)
        rw [loopLen_narrow valid width (Or.inl low), Nat.mod_eq_of_lt short,
          Nat.mod_eq_of_lt (by omega)]
      · have short := count_narrow_lt valid width (Or.inr high)
        rw [loopLen_narrow valid width (Or.inr high), Nat.mod_eq_of_lt short,
          Nat.mod_eq_of_lt (by omega)]
      · obtain ⟨lower, upper, stride⟩ := upwards
        rw [readLevel_narrow valid width, LoopLevel.count, lower, upper, stride]
        decide
      · obtain ⟨lower, upper, stride⟩ := downwards
        rw [readLevel_narrow valid width, LoopLevel.count, lower, upper, stride]
        decide

/-! ## The lengths of a nest -/

/-- The entries of `loop_lenv` for a nest. -/
def lengths (nest : List LoopLevel) : List Nat :=
  (nest.map readLevel).map loopLen

theorem iterCount_eq (loopLenv : List Nat) : iterCount loopLenv = loopLenv.prod % 2 ^ 64 := by
  have wrapped : ∀ value : Nat, unsigned .eight value = value % 2 ^ 64 := by
    intro value
    apply Int.ofNat_inj.1
    rw [cast_unsigned]
    push_cast
    rfl
  have general : ∀ count, count < 2 ^ 64 →
      loopLenv.foldl (fun count len => unsigned .eight (count * len : Nat))
        count = count * loopLenv.prod % 2 ^ 64 := by
    induction loopLenv with
    | nil =>
        intro count small
        rw [List.foldl_nil, List.prod_nil, Nat.mul_one, Nat.mod_eq_of_lt small]
    | cons len rest ih =>
        intro count small
        rw [List.foldl_cons, wrapped,
          ih _ (Nat.mod_lt _ (by positivity)),
          List.prod_cons, Nat.mod_mul_mod, Nat.mul_assoc]
  unfold iterCount
  rw [general 1 (by norm_num), Nat.one_mul]

/-- The product of the lengths is right, up to 64 bits. -/
theorem prod_lengths_mod (valid : ∀ level ∈ nest, level.Valid)
    (sized : ∀ level ∈ nest, level.Sized) :
    (lengths nest).prod % 2 ^ 64 = total nest % 2 ^ 64 := by
  induction nest with
  | nil => rfl
  | cons level inner ih =>
      have here := loopLen_of_sized (valid level List.mem_cons_self)
        (sized level List.mem_cons_self)
      have rest := ih
        (fun other member => valid other (List.mem_cons_of_mem _ member))
        (fun other member => sized other (List.mem_cons_of_mem _ member))
      unfold lengths total at *
      simp only [List.map_cons, List.prod_cons]
      rw [Nat.mul_mod, rest, here, Nat.mod_mod, ← Nat.mul_mod]

theorem count_le_total (positive : 0 < total nest)
    (member : level ∈ nest) : level.count ≤ total nest :=
  Nat.le_of_dvd positive (List.dvd_prod (List.mem_map_of_mem (f := LoopLevel.count) member))

section

variable (valid : ∀ level ∈ nest, level.Valid) (sized : ∀ level ∈ nest, level.Sized)

include valid sized

/-- The lengths of a nest that is not empty are right. -/
theorem lengths_eq (positive : 0 < total nest) (small : total nest < 2 ^ 64) :
    lengths nest = nest.map LoopLevel.count := by
  unfold lengths
  rw [List.map_map]
  apply List.map_congr_left
  intro level member
  have below := count_le_total positive member
  rw [Function.comp_apply,
    loopLen_of_sized (valid level member) (sized level member),
    Nat.mod_eq_of_lt (by omega)]

/-- The product of the lengths is the number of iterations. -/
theorem prod_lengths (small : total nest < 2 ^ 64) :
    (lengths nest).prod = total nest := by
  rcases Nat.eq_zero_or_pos (total nest) with empty | positive
  · rw [empty]
    have member : (0 : Nat) ∈ nest.map LoopLevel.count := List.prod_eq_zero_iff.1 empty
    obtain ⟨level, inside, none⟩ := List.mem_map.1 member
    apply List.prod_eq_zero
    unfold lengths
    rw [List.map_map]
    refine List.mem_map.2 ⟨level, inside, ?_⟩
    rw [Function.comp_apply,
      loopLen_of_sized (valid level inside) (sized level inside), none,
      Nat.zero_mod]
  · rw [lengths_eq valid sized positive small]
    rfl

theorem iterCount_lengths (small : total nest < 2 ^ 64) :
    iterCount (lengths nest) = total nest := by
  rw [iterCount_eq, prod_lengths_mod valid sized, Nat.mod_eq_of_lt small]

end

/-! ## The vectors -/

/-- The end of the outermost loop fits into its index. -/
def OuterFits (nest : List LoopLevel) : Prop :=
  ∀ outer ∈ nest.head?, (indexWidth outer.is64bit).Fits
    (outer.lower + outer.count * outer.stride)

/-- The index of a digit is not wrapped where it fits in. -/
theorem index_eq (valid : level.Valid) {digit : Nat}
    (fits : (indexWidth level.is64bit).Fits (level.lower + digit * level.stride)) :
    (readLevel level).index digit = level.lower + digit * level.stride := by
  unfold OmpLoopInfo.index
  cases width : level.is64bit with
  | true =>
      rw [width, indexWidth_true] at fits
      rw [readLevel_wide valid width]
      simp only [indexWidth_true]
      rw [Int.mul_comm, OmpWidth.wrap_eq_of_fits fits]
  | false =>
      rw [width, indexWidth_false] at fits
      rw [readLevel_narrow valid width]
      simp only [indexWidth_false]
      rw [Int.mul_comm level.stride, ← OmpWidth.wrap_eq_of_fits fits]
      unfold OmpWidth.wrap
      have modulus : (2 : Int) ^ 32 = ((2 ^ OmpWidth.four.bits : Nat) : Int) := rfl
      rw [modulus, Int.emod_add_bmod]

/-- The index of an iteration fits in. -/
theorem fits_of_lt_count (valid : level.Valid) {digit : Nat} (below : digit < level.count) :
    (indexWidth level.is64bit).Fits (level.lower + digit * level.stride) := by
  obtain ⟨lower, upper, -, nonzero⟩ := valid
  have within := (within_iff_lt_length nonzero).2 below
  unfold OmpWidth.Fits Within at *
  by_cases upward : 0 < level.stride
  · have scaled : 0 ≤ (digit : Int) * level.stride :=
      Int.mul_nonneg (Int.natCast_nonneg digit) upward.le
    rw [if_pos upward] at within
    omega
  · have scaled : (digit : Int) * level.stride ≤ 0 :=
      Int.mul_nonpos_of_nonneg_of_nonpos (Int.natCast_nonneg digit) (by omega)
    rw [if_neg upward] at within
    omega

/-- The loops of a nest as the team keeps them, from the innermost on. -/
def levels (nest : List LoopLevel) : List (OmpLoopInfo × Nat) :=
  ((nest.map readLevel).zip (lengths nest)).reverse

theorem levels_eq (counts : lengths nest = nest.map LoopLevel.count) :
    levels nest = (nest.map fun level => (readLevel level, level.count)).reverse := by
  unfold levels
  rw [counts, List.zip_map']

/-- The vector of a number, by the innermost loop and the others. -/
theorem vector_concat (nonempty : nest ≠ []) :
    vector (nest ++ [level]) number =
      vector nest (number / level.count) ++
        [level.lower + (number % level.count : Nat) * level.stride] := by
  unfold vector symbols
  rw [List.map_append, List.map_singleton,
    digits_concat (by simpa using nonempty), List.zipWith_append (by simp)]
  rfl

theorem storeChunk_cons {info : OmpLoopInfo} {len myLower myUpper : Nat}
    {rest : List (OmpLoopInfo × Nat)} (nonempty : rest ≠ []) :
    storeChunk ((info, len) :: rest) myLower myUpper =
      (info.index (myLower % len), info.index (myUpper % len)) ::
        storeChunk rest (myLower / len) (myUpper / len) := by
  cases rest with
  | nil => exact absurd rfl nonempty
  | cons first rest => rfl

/-- A chunk is decoded into the vectors of its two numbers. -/
theorem storeChunk_eq {myLower myUpper : Nat} (valid : ∀ level ∈ outer :: nest, level.Valid)
    (positive : 0 < total (outer :: nest)) (fits : OuterFits (outer :: nest))
    (lowerLe : myLower ≤ total (outer :: nest)) (upperLe : myUpper ≤ total (outer :: nest)) :
    storeChunk (((outer :: nest).map fun level =>
          (readLevel level, level.count)).reverse) myLower myUpper =
      ((vector (outer :: nest) myLower).zip (vector (outer :: nest) myUpper)).reverse := by
  have outerFits := fits outer rfl
  induction nest using List.reverseRecOn generalizing myLower myUpper with
  | nil =>
      have outerValid := valid outer List.mem_cons_self
      have index : ∀ {number}, number ≤ total [outer] →
          (readLevel outer).index number = outer.lower + number * outer.stride := by
        intro number le
        apply index_eq outerValid
        rcases Nat.lt_or_ge number outer.count with below | above
        · exact fits_of_lt_count outerValid below
        · have last : number = outer.count := by
            simp only [total, List.map_cons, List.map_nil, List.prod_cons,
              List.prod_nil, Nat.mul_one] at le
            omega
          rw [last]
          exact outerFits
      simp only [List.map_cons, List.map_nil, List.reverse_singleton,
        storeChunk, index lowerLe, index upperLe, vector, symbols, digits,
        List.prod_nil, Nat.div_one, List.zipWith_cons_cons,
        List.zipWith_nil_left, List.zip_cons_cons, List.zip_nil_left]
  | append_singleton inner level ih =>
      have product : total (outer :: (inner ++ [level])) =
          total (outer :: inner) * level.count := by
        unfold total
        simp [Nat.mul_assoc]
      rw [product] at positive lowerLe upperLe
      have innerPositive := Nat.pos_of_mul_pos_right positive
      have countPositive := Nat.pos_of_mul_pos_left positive
      have levelValid := valid level (by simp)
      have innerFits : OuterFits (outer :: inner) := by
        intro first head
        rw [List.head?_cons, Option.mem_some_iff] at head
        rw [← head]
        exact outerFits
      have index : ∀ number, (readLevel level).index (number % level.count) =
          level.lower + (number % level.count : Nat) * level.stride :=
        fun number => index_eq levelValid (fits_of_lt_count levelValid (Nat.mod_lt _ countPositive))
      have quotient : ∀ {number},
          number ≤ total (outer :: inner) * level.count →
            number / level.count ≤ total (outer :: inner) := by
        intro number le
        rw [Nat.mul_comm] at le
        exact Nat.div_le_of_le_mul le
      have decoded := ih (fun other member => valid other (by
          simp only [List.mem_cons, List.mem_append] at member ⊢
          tauto)) innerPositive innerFits (quotient lowerLe) (quotient upperLe)
      rw [← List.cons_append, List.map_append, List.map_singleton,
        List.reverse_append, List.reverse_singleton, List.singleton_append,
        storeChunk_cons (by simp), decoded, vector_concat (by simp),
        vector_concat (by simp), List.zip_append (by simp [vector, symbols]),
        List.reverse_append, index, index]
      rfl

end OpenUH.Libopenmp.Collapse
