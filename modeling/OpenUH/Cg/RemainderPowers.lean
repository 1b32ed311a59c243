import OpenUH.Cg.RemainderWords

/-!
# Remainders and moduli of powers of two

The sequence for both signs leaves the truncated remainder.  The expansion with
a branch is right where the branch looks at the sign of the whole numerator.
-/

namespace OpenUH.Cg

open Foundation

/-- The truncated remainder by a power of two: the numerator is rounded towards
zero before it is masked. -/
theorem tmod_two_pow {n : Int} {i : Nat} :
    ((if n < 0 then 2 ^ i - 1 else 0) + n) % 2 ^ i -
      (if n < 0 then 2 ^ i - 1 else 0) = n.tmod (2 ^ i) := by
  have power : (0 : Int) < 2 ^ i := by positivity
  split
  · rename_i negative
    obtain ⟨x, rfl⟩ : ∃ x : Nat, n = -x := ⟨n.natAbs, by omega⟩
    have split := Int.emod_add_mul_ediv (x : Int) (2 ^ i)
    have low := Int.emod_nonneg (x : Int) power.ne'
    have high := Int.emod_lt_of_pos (x : Int) power
    have rounded : 2 ^ i - 1 + -(x : Int) =
        2 ^ i - 1 - (x : Int) % 2 ^ i + 2 ^ i * -((x : Int) / 2 ^ i) := by
      linarith
    rw [Int.neg_tmod, Int.tmod_eq_emod_of_nonneg (Int.natCast_nonneg x), rounded,
      Int.add_mul_emod_self_left,
      Int.emod_eq_of_lt (by linarith) (by linarith)]
    ring
  · rw [Int.zero_add, Int.sub_zero, Int.tmod_eq_emod_of_nonneg (by omega)]

/-- The size of a power of two, with either sign. -/
theorem tmod_natAbs {n d : Int} {i : Nat} (power : d.natAbs = 2 ^ i) :
    n.tmod (2 ^ i) = n.tmod d := by
  have size : (d.natAbs : Int) = 2 ^ i := by exact_mod_cast power
  rcases Int.natAbs_eq d with same | same
  · rw [same, size]
  · rw [same, size, Int.tmod_neg]

section

variable {settings : RemainderSettings} {processor : Processor}
  {result src1 next : Nat} {mtype : MType} {n d val : Int}

/-- The numerator has the range of its type. -/
theorem MType.InRange.signed (inRange : mtype.InRange n) (signed : mtype.isSigned = true) :
    -2 ^ (mtype.sizeReg - 1) ≤ n ∧ n < 2 ^ (mtype.sizeReg - 1) := by
  rwa [MType.InRange, if_pos signed] at inRange

/-- The sequence leaves the truncated remainder. -/
theorem powerRemSequence_word {i : Nat} (signed : mtype.isSigned = true)
    (old : src1 < next) (represents : mtype.Represents val d)
    (power : d.natAbs = 2 ^ i) (holds : processor.machine.Holds mtype src1 n) :
    ∃ after, processor.exec (powerRemSequence result src1 next val mtype) =
        some after ∧
      after.machine.Word mtype.sizeReg result (n.tmod d) := by
  have wide := mtype.sizeReg_le
  obtain ⟨low, high⟩ := holds.inRange.signed signed
  have inside := exponent_lt represents power
  obtain ⟨rfl, -⟩ := MType.represents_signed signed represents
  have mask := @ofInt_mask val _ _ wide power
  have numerator := holds.word
  unfold powerRemSequence
  simp only [Processor.exec_cons, Processor.exec_nil, Processor.step, Machine.step,
    Option.map_some, Option.bind_some]
  refine ⟨_, rfl, (Function.update_self _ _ _).trans ?_⟩
  simp (disch := omega) only [Machine.read_setFlags, Machine.read_write,
    Machine.read_write_of_ne, BitVec.setWidth_eq, mask, numerator]
  rw [sign_and mtype.sizeReg_pos low high, ← BitVec.ofInt_add,
    ofInt_and_mask inside.le, ← Words.ofInt_sub, tmod_two_pow, tmod_natAbs power]

/-- What the branch of the fast expansion is right for. -/
def SignSeen (mtype : MType) (d n : Int) : Prop :=
  mtype = .I8 → 0 ≤ n ∨ Int.bmod n (2 ^ 32) < 0 ∨ d ∣ n

/-- The sign that the branch looks at. -/
theorem read_sign (signed : mtype.isSigned = true) (holds : processor.machine.Holds mtype src1 n) :
    (processor.machine.read 32 src1).toInt = Int.bmod n (2 ^ 32) := by
  have word := holds.word
  cases mtype with
  | I4 =>
      show (processor.machine.read (MType.sizeReg .I4) src1).toInt = _
      rw [word]
      exact BitVec.toInt_ofInt n
  | I8 =>
      rw [← @Machine.setWidth_read _ 32 src1 (by decide)]
      have full : processor.machine.read 64 src1 = BitVec.ofInt 64 n := word
      rw [full, Words.setWidth_ofInt (by decide), BitVec.toInt_ofInt]
  | U4 => cases signed
  | U8 => cases signed

/-- A mask is the remainder of the numerators that are not negative, and of
multiples. -/
theorem mask_eq_tmod_iff {i : Nat} : n % 2 ^ i = n.tmod (2 ^ i) ↔ 0 ≤ n ∨ (2 : Int) ^ i ∣ n := by
  have power : (0 : Int) < 2 ^ i := by positivity
  rw [Int.tmod_eq_emod]
  split
  case isTrue sign => exact iff_of_true (Int.sub_zero _).symm sign
  case isFalse sign =>
    refine iff_of_false (fun same => ?_) sign
    have size : ((2 ^ i : Int).natAbs : Int) = 2 ^ i := by
      rw [Int.natAbs_of_nonneg power.le]
    omega

/-- The fast expansion leaves the remainder exactly where the literal fits and the
branch sees the sign. -/
theorem expandFastPowerOf2Rem_iff {i : Nat} (signed : mtype.isSigned = true)
    (old : src1 < next) (represents : mtype.Represents val d) (positive : 0 < val)
    (power : d.natAbs = 2 ^ i) (holds : processor.machine.Holds mtype src1 n) :
    (∃ blocks after,
      expandFastPowerOf2Rem settings result src1 next val mtype = .ok blocks ∧
        processor.run blocks = some after ∧
        after.machine.Holds mtype result (n.tmod d)) ↔
      d < 2 ^ 31 ∧ SignSeen mtype d n := by
  have inRange : mtype.InRange (n.tmod d) := holds.inRange.tmod
  have inside := exponent_lt represents power
  have hostValue := (MType.represents_signed signed represents).1
  have isPower : d = 2 ^ i := by
    have size : (d.natAbs : Int) = 2 ^ i := by exact_mod_cast power
    omega
  unfold expandFastPowerOf2Rem
  by_cases fits : d < 2 ^ 31
  · rw [if_pos (by omega), and_iff_right fits]
    have sign := read_sign signed holds
    by_cases seen : 0 ≤ Int.bmod n (2 ^ 32)
    · obtain ⟨after, executed, word⟩ :=
        @expandBinaryAnd_word settings processor result src1 next mtype (val - 1) old
      have masked : after.machine.Word mtype.sizeReg result (n % 2 ^ i) := by
        rw [Machine.Word, word, holds.word, hostValue, isPower, ofInt_and_mask inside.le]
      have least : mtype.InRange (n % 2 ^ i) := by
        rw [MType.InRange, if_pos signed]
        have low := Int.emod_nonneg n (show (2 : Int) ^ i ≠ 0 by positivity)
        have high := Int.emod_lt_of_pos n (show (0 : Int) < 2 ^ i by positivity)
        have bound := (MType.represents_signed signed represents).2.2
        constructor
        · exact le_trans (by simp) low
        · omega
      have here : (∃ blocks last,
          (Except.ok [Block.branch src1 (powerRemSequence result src1 next val mtype)
            (expandBinaryAnd settings result src1 next (val - 1) mtype)] :
              Host (List Block)) = .ok blocks ∧
            processor.run blocks = some last ∧
            last.machine.Holds mtype result (n.tmod d)) ↔ n % 2 ^ i = n.tmod d := by
        constructor
        · rintro ⟨blocks, last, same, ran, right⟩
          cases same
          rw [Processor.run_singleton, Processor.execBlock, sign, if_pos seen,
            executed, Option.some_inj] at ran
          exact (masked.holds least).unique (ran ▸ right)
        · intro same
          refine ⟨_, after, rfl, ?_, same ▸ masked.holds least⟩
          rw [Processor.run_singleton, Processor.execBlock, sign, if_pos seen]
          exact executed
      rw [here, isPower, mask_eq_tmod_iff, SignSeen]
      cases mtype with
      | I4 =>
          refine iff_of_true (.inl ?_) fun wide => nomatch wide
          have range := holds.inRange.signed signed
          have same : Int.bmod n (2 ^ 32) = n :=
            Int.bmod_eq_of_le (by exact range.1) (by exact range.2)
          omega
      | I8 =>
          constructor
          · exact fun known _ => known.imp_right .inr
          · intro known
            exact (known rfl).imp_right fun rest => rest.resolve_left (by omega)
      | U4 => cases signed
      | U8 => cases signed
    · obtain ⟨after, executed, word⟩ :=
        @powerRemSequence_word processor result src1 next mtype n d val i signed old
          represents power holds
      refine iff_of_true ⟨_, after, rfl, ?_, word.holds inRange⟩ fun _ =>
        .inr (.inl (by omega))
      rw [Processor.run_singleton, Processor.execBlock, sign, if_neg seen]
      exact executed
  · rw [if_neg (by omega)]
    refine iff_of_false ?_ fun both => fits both.1
    rintro ⟨blocks, after, impossible, -⟩
    cases impossible

/-! ## Moduli -/

/-- The exponent of the size of a signed divisor. -/
theorem getPowerOf2_size {i : Nat} (signed : mtype.isSigned = true)
    (represents : mtype.Represents val d) (power : d.natAbs = 2 ^ i) :
    getPowerOf2 (if val < 0 then int64 (-val) else val) mtype = .ok i := by
  have inside := exponent_lt represents power
  have same : powerPattern (if val < 0 then int64 (-val) else val) mtype =
      powerPattern val mtype := by
    obtain ⟨rfl, low, high⟩ := MType.represents_signed signed represents
    have bound : (2 : Int) ^ (mtype.sizeReg - 1) ≤ 2 ^ 63 := by
      cases mtype <;> decide
    have residue := @Int.bmod_emod (-val) (2 ^ 64)
    have range : -2 ^ 63 ≤ int64 (-val) ∧ int64 (-val) < 2 ^ 63 :=
      ⟨Int.le_bmod (by decide), Int.bmod_lt (by decide)⟩
    have notU4 : mtype ≠ .U4 := by
      rintro rfl
      cases signed
    unfold powerPattern
    simp only [signed, true_and, notU4, if_false]
    unfold uint64
    by_cases negative : val < 0
    · simp only [if_pos negative]
      unfold int64 at range ⊢
      split
      · omega
      · omega
    · simp only [if_neg negative]
  unfold getPowerOf2
  rw [same]
  exact getPowerOf2_eq represents power inside

/-- A negation, alone. -/
theorem exec_neg :
    ∃ after, processor.exec [.op (.neg mtype.sizeReg result src1)] = some after ∧
      after.machine.tns result = (-processor.machine.read mtype.sizeReg src1).setWidth 64 :=
  ⟨_, rfl, Function.update_self _ _ _⟩

/-- The modulus of a power of two. -/
theorem expandPowerOf2Mod_word {i : Nat} (signed : mtype.isSigned = true)
    (old : src1 < next) (represents : mtype.Represents val d)
    (power : d.natAbs = 2 ^ i) (holds : processor.machine.Holds mtype src1 n) :
    ∃ blocks after,
      expandPowerOf2Mod settings result src1 next val mtype = .ok blocks ∧
        processor.run blocks = some after ∧
        after.machine.Word mtype.sizeReg result (n.fmod d) := by
  have wide := mtype.sizeReg_le
  have inside := exponent_lt represents power
  have numerator := holds.word
  have exponent := getPowerOf2_size signed represents power
  have size : (d.natAbs : Int) = 2 ^ i := by exact_mod_cast power
  have hostValue := (MType.represents_signed signed represents).1
  show ∃ blocks after, (getPowerOf2 (if val < 0 then int64 (-val) else val) mtype >>= _) = _ ∧ _
  rw [exponent]
  show ∃ blocks after, (if mtype.isSigned = true ∧ val < 0 then _ else _) = _ ∧ _
  by_cases negative : val < 0
  · rw [if_pos ⟨signed, negative⟩]
    have isPower : d = -2 ^ i := by omega
    obtain ⟨middle, first, negated⟩ := @exec_neg processor next src1 mtype
    obtain ⟨masked, second, word⟩ := @expandBinaryAnd_word settings middle (next + 1)
      next (next + 2) mtype (powerMask i) (by omega)
    obtain ⟨after, third, last⟩ := @exec_neg masked result (next + 1) mtype
    refine ⟨_, after, rfl, ?_, ?_⟩
    · rw [Processor.run_singleton, Processor.execBlock,
        Processor.exec_append ((Processor.exec_append first).trans second)]
      exact third
    · have start : middle.machine.read mtype.sizeReg next = BitVec.ofInt mtype.sizeReg (-n) := by
        rw [Machine.read, negated, BitVec.setWidth_setWidth_of_le _ wide,
          BitVec.setWidth_eq, numerator, BitVec.ofInt_neg]
      have rest : masked.machine.read mtype.sizeReg (next + 1) =
          BitVec.ofInt mtype.sizeReg (-n % 2 ^ i) := by
        rw [Machine.read, word, BitVec.setWidth_setWidth_of_le _ wide,
          BitVec.setWidth_eq, start, ofInt_powerMask wide, ofInt_and_mask inside.le]
      rw [Machine.Word, last, rest, ← BitVec.ofInt_neg, isPower,
        ← Int.fmod_eq_emod_of_nonneg _ (by positivity), ← Int.neg_fmod_neg, Int.neg_neg]
  · rw [if_neg fun both => negative both.2]
    have isPower : d = 2 ^ i := by omega
    obtain ⟨after, executed, word⟩ :=
      @expandBinaryAnd_word settings processor result src1 next mtype (powerMask i) old
    refine ⟨_, after, rfl, ?_, ?_⟩
    · rw [Processor.run_singleton]
      exact executed
    · rw [Machine.Word, word, numerator, ofInt_powerMask wide, ofInt_and_mask inside.le,
        isPower, Int.fmod_eq_emod_of_nonneg _ (by positivity)]

end

end OpenUH.Cg
