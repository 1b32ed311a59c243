import OpenUH.Cg.DivisionExactness
import OpenUH.Cg.RemainderExpansion

/-!
# Words of remainders

A TN of a type holds the word of its number.  The operations of a remainder are
operations on words; the last word is that of a number in the range of the type.
-/

namespace OpenUH.Cg

open Foundation

/-! ## Numbers and words -/

/-- The numbers of a type. -/
def MType.InRange (mtype : MType) (n : Int) : Prop :=
  if mtype.isSigned then -2 ^ (mtype.sizeReg - 1) ≤ n ∧ n < 2 ^ (mtype.sizeReg - 1)
  else 0 ≤ n ∧ n < 2 ^ mtype.sizeReg

/-- A TN holds a word, and no bits above it. -/
def Machine.Word (machine : Machine) (width tn : Nat) (n : Int) : Prop :=
  machine.tns tn = (BitVec.ofInt width n).setWidth 64

section

variable {machine : Machine} {mtype : MType} {tn : Nat} {n d val : Int}

theorem Machine.Holds.word (holds : machine.Holds mtype tn n) :
    machine.read mtype.sizeReg tn = BitVec.ofInt mtype.sizeReg n := by
  cases signed : mtype.isSigned with
  | true =>
      rw [← (MType.holds_signed signed).mp holds, BitVec.ofInt_toInt]
  | false =>
      obtain ⟨rfl, -⟩ := (MType.holds_unsigned signed).mp holds
      rw [BitVec.ofInt_natCast, ← Machine.setWidth_read mtype.sizeReg_le]
      refine BitVec.eq_of_toNat_eq ?_
      rw [BitVec.toNat_setWidth, BitVec.toNat_ofNat]

theorem Machine.Holds.inRange (holds : machine.Holds mtype tn n) : mtype.InRange n := by
  unfold MType.InRange
  cases signed : mtype.isSigned with
  | true =>
      rw [MType.holds_signed signed] at holds
      exact ⟨holds ▸ BitVec.le_toInt _, holds ▸ BitVec.toInt_lt⟩
  | false =>
      obtain ⟨same, below⟩ := (MType.holds_unsigned signed).mp holds
      exact ⟨same ▸ Int.natCast_nonneg _, below⟩

theorem Machine.Word.read (word : machine.Word mtype.sizeReg tn n) :
    machine.read mtype.sizeReg tn = BitVec.ofInt mtype.sizeReg n := by
  unfold Machine.read
  rw [word, BitVec.setWidth_setWidth_of_le _ mtype.sizeReg_le, BitVec.setWidth_eq]

/-- A word of a number in range holds that number. -/
theorem Machine.Word.holds (word : machine.Word mtype.sizeReg tn n)
    (inRange : mtype.InRange n) : machine.Holds mtype tn n := by
  unfold MType.InRange at inRange
  cases signed : mtype.isSigned with
  | true =>
      rw [signed] at inRange
      rw [MType.holds_signed signed, word.read]
      exact BitVec.toInt_ofInt_eq_self mtype.sizeReg_pos inRange.1 inRange.2
  | false =>
      rw [signed] at inRange
      obtain ⟨low, high⟩ := inRange
      rw [MType.holds_unsigned signed]
      refine ⟨?_, high⟩
      unfold Machine.read
      rw [word, BitVec.setWidth_eq, BitVec.toNat_setWidth_of_le mtype.sizeReg_le,
        BitVec.toNat_ofInt, Int.toNat_of_nonneg (Int.emod_nonneg _ (by positivity))]
      exact_mod_cast Int.emod_eq_of_lt low high

/-- A TN holds one number. -/
theorem Machine.Holds.unique {other : Int} (holds : machine.Holds mtype tn n)
    (again : machine.Holds mtype tn other) : n = other := by
  cases mtype with
  | I4 | I8 | U8 => exact holds.symm.trans again
  | U4 => exact holds.1.symm.trans again.1

/-- The word of a divisor is that of its host value. -/
theorem MType.Represents.word (represents : mtype.Represents val d) :
    BitVec.ofInt mtype.sizeReg val = BitVec.ofInt mtype.sizeReg d := by
  have residue : ∀ width : Nat, BitVec.ofInt width (Int.bmod d (2 ^ width)) =
      BitVec.ofInt width d := by
    intro width
    refine BitVec.eq_of_toInt_eq ?_
    rw [BitVec.toInt_ofInt, BitVec.toInt_ofInt, Int.bmod_bmod]
  cases mtype with
  | I4 | I8 => rw [represents.1]
  | U4 =>
      rcases represents.1 with same | same
      · rw [same]
      · rw [same]
        exact residue 32
  | U8 =>
      rw [represents.1]
      exact residue 64

/-- A divisor that has a host value is in the range of its type. -/
theorem MType.Represents.inRange (represents : mtype.Represents val d) : mtype.InRange d := by
  unfold MType.InRange
  split
  case isTrue signed => exact (MType.represents_signed signed represents).2
  case isFalse unsigned =>
    exact MType.represents_unsigned (Bool.eq_false_iff.mpr unsigned) represents

/-- The remainder is in the range of the numerator. -/
theorem MType.InRange.tmod (inRange : mtype.InRange n) : mtype.InRange (n.tmod d) := by
  have size := Int.natAbs_tmod n d
  have less := Nat.mod_le n.natAbs d.natAbs
  unfold MType.InRange at inRange ⊢
  split at inRange
  case isTrue signed =>
    rw [if_pos signed]
    rcases Int.lt_or_le n 0 with negative | nonnegative
    · have sign : n.tmod d ≤ 0 := by
        rw [← Int.neg_nonneg, ← Int.neg_tmod]
        exact Int.tmod_nonneg d (by omega)
      omega
    · have sign := Int.tmod_nonneg d nonnegative
      omega
  case isFalse unsigned =>
    rw [if_neg unsigned]
    have sign := Int.tmod_nonneg d inRange.1
    omega

/-! ## Masks -/

/-- A mask takes the remainder by a power of two. -/
theorem ofInt_and_mask {width i : Nat} {value : Int} (inside : i ≤ width) :
    BitVec.ofInt width value &&& BitVec.ofInt width (2 ^ i - 1) =
      BitVec.ofInt width (value % 2 ^ i) := by
  have mask : BitVec.ofInt width (2 ^ i - 1) = BitVec.ofNat width (2 ^ i - 1) := by
    rw [← BitVec.ofInt_natCast]
    congr 1
    push_cast [Nat.one_le_two_pow]
    rfl
  have divides : (2 : Int) ^ i ∣ 2 ^ width := pow_dvd_pow 2 inside
  have bound : 2 ^ i ≤ 2 ^ width := Nat.pow_le_pow_right (by omega) inside
  have positive := Nat.two_pow_pos i
  rw [mask]
  refine BitVec.eq_of_toNat_eq ?_
  rw [BitVec.toNat_and, BitVec.toNat_ofNat, Nat.mod_eq_of_lt (by omega),
    Nat.and_two_pow_sub_one_eq_mod, BitVec.toNat_ofInt, BitVec.toNat_ofInt]
  zify
  rw [Int.toNat_of_nonneg (Int.emod_nonneg _ (by positivity)),
    Int.toNat_of_nonneg (Int.emod_nonneg _ (by positivity))]
  have small : value % 2 ^ i % 2 ^ width = value % 2 ^ i :=
    Int.emod_eq_of_lt (Int.emod_nonneg _ (by positivity))
      (lt_of_lt_of_le (Int.emod_lt_of_pos _ (by positivity)) (pow_le_pow_right₀ (by decide) inside))
  rw [Int.emod_emod_of_dvd _ divides, small]

theorem ofInt_powerMask {width i : Nat} (wide : width ≤ 64) :
    BitVec.ofInt width (powerMask i) = BitVec.ofInt width (2 ^ i - 1) := by
  rw [powerMask, ofInt_int64 wide, Words.ofInt_sub, ofInt_int64 wide, ← Words.ofInt_sub]

end

/-! ## Bit operations with a literal -/

section

variable {settings : RemainderSettings} {processor : Processor}
  {result src1 next : Nat} {mtype : MType} {val : Int}

/-- A literal of all ones. -/
theorem ofInt_allOnes (ones : val = -1 ∨ ¬mtype.isDouble ∧ Int.bmod val (2 ^ 32) = -1) :
    BitVec.ofInt mtype.sizeReg val = BitVec.allOnes mtype.sizeReg := by
  have allOnes : ∀ width : Nat, BitVec.ofInt width (-1) = BitVec.allOnes width := by
    intro width
    rw [BitVec.ofInt_neg, ← BitVec.neg_one_eq_allOnes]
    rfl
  rcases ones with rfl | ⟨narrow, ones⟩
  · exact allOnes _
  · have bits : mtype.sizeReg = 32 := if_neg narrow
    rw [bits, ← allOnes 32]
    refine BitVec.eq_of_toInt_eq ?_
    rw [BitVec.toInt_ofInt, BitVec.toInt_ofInt, ones]
    rfl

/-- A zero extension is the bit operation with a literal of ones. -/
theorem setWidth_eq_and {width bits : Nat} {x : BitVec 64} (inside : bits ≤ width)
    (wide : width ≤ 64) :
    (x.setWidth bits).setWidth 64 =
      (x.setWidth width &&& BitVec.ofInt width (2 ^ bits - 1)).setWidth 64 := by
  have word : x.setWidth width = BitVec.ofInt width (x.toNat : Int) := by
    refine BitVec.eq_of_toNat_eq ?_
    rw [BitVec.ofInt_natCast, BitVec.toNat_setWidth, BitVec.toNat_ofNat]
  have less : x.toNat % 2 ^ bits < 2 ^ width := lt_of_lt_of_le
    (Nat.mod_lt _ (Nat.two_pow_pos _)) (Nat.pow_le_pow_right (by omega) inside)
  rw [word, ofInt_and_mask inside]
  refine BitVec.eq_of_toNat_eq ?_
  have natural : (x.toNat : Int) % 2 ^ bits = ((x.toNat % 2 ^ bits : Nat) : Int) := by
    push_cast
    rfl
  rw [natural, BitVec.ofInt_natCast, BitVec.toNat_setWidth_of_le (inside.trans wide),
    BitVec.toNat_setWidth_of_le wide, BitVec.toNat_setWidth, BitVec.toNat_ofNat,
    Nat.mod_eq_of_lt less]

/-- The word of `Expand_Binary_And` with a literal. -/
theorem expandBinaryAnd_word (old : src1 < next) :
    ∃ after, processor.exec (expandBinaryAnd settings result src1 next val mtype) =
        some after ∧
      after.machine.tns result = (processor.machine.read mtype.sizeReg src1 &&&
        BitVec.ofInt mtype.sizeReg val).setWidth 64 := by
  have wide := mtype.sizeReg_le
  unfold expandBinaryAnd
  split
  case isTrue ones =>
    refine ⟨_, rfl, ?_⟩
    rw [ofInt_allOnes ones, BitVec.and_allOnes]
    exact Function.update_self _ _ _
  case isFalse general =>
  split
  case isTrue byte =>
    subst byte
    exact ⟨_, rfl, (Function.update_self _ _ _).trans (setWidth_eq_and
      (show 8 ≤ mtype.sizeReg by cases mtype <;> decide) wide)⟩
  case isFalse noByte =>
  split
  case isTrue half =>
    subst half
    exact ⟨_, rfl, (Function.update_self _ _ _).trans (setWidth_eq_and
      (show 16 ≤ mtype.sizeReg by cases mtype <;> decide) wide)⟩
  case isFalse noHalf =>
  split
  case isTrue immediate =>
    exact ⟨_, rfl, Function.update_self _ _ _⟩
  case isFalse large =>
    have bits : mtype.sizeReg = 64 := if_pos (by
      by_contra narrow
      exact large (.inl narrow))
    rw [expandImmediate_64, bits]
    refine ⟨_, rfl, ?_⟩
    refine (Function.update_self _ _ _).trans ?_
    congr 2
    · exact Machine.read_write_of_ne (Nat.ne_of_lt old)
    · exact Machine.read_write_self le_rfl

end

end OpenUH.Cg
