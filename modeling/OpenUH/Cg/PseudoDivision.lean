import OpenUH.Cg.PowerDivision

/-!
# Divisions by pseudo-inverses

The sequences with a pseudo-inverse multiply the size of a signed numerator,
or an unsigned one, and select the sign of the quotient afterwards.
-/

namespace OpenUH.Cg

open Foundation

/-! ## Words -/

/-- A negation that is taken back where it is negative gives the size. -/
theorem toNat_magnitude {width : Nat} (positive : 0 < width) (x : BitVec width) :
    (if (negFlags x).sign = true then x else -x).toNat = x.toInt.natAbs := by
  have host := x.isLt
  have double : 2 ^ width = 2 * 2 ^ (width - 1) := by
    rw [← pow_succ']
    congr 1
    omega
  have bits := Nat.two_pow_pos (width - 1)
  have signed := BitVec.toInt_eq_toNat_cond x
  have negated := BitVec.toNat_neg x
  have sign : (negFlags x).sign = true ↔ 2 ^ (width - 1) ≤ (-x).toNat := by
    rw [negFlags, BitVec.msb_eq_decide, decide_eq_true_eq]
  have value : (-x).toNat = if x.toNat = 0 then 0 else 2 ^ width - x.toNat := by
    rw [negated]
    split
    · rename_i zero
      rw [zero, Nat.sub_zero, Nat.mod_self]
    · exact Nat.mod_eq_of_lt (by omega)
  rw [double] at host signed value
  by_cases moved : 2 ^ (width - 1) ≤ (-x).toNat
  · rw [if_pos (sign.mpr moved)]
    split at signed <;> split at value <;> omega
  · rw [if_neg fun still => moved (sign.mp still)]
    split at signed <;> split at value <;> omega

/-- The upper half of an unsigned product. -/
theorem toNat_highProduct {width : Nat} {x y : BitVec width} :
    (highProduct x y).toNat = x.toNat * y.toNat / 2 ^ width := by
  have product : x.toNat * y.toNat < 2 ^ width * 2 ^ width :=
    Nat.mul_lt_mul_of_lt_of_lt x.isLt y.isLt
  rw [highProduct, BitVec.toNat_ofNat, Nat.mod_eq_of_lt]
  exact Nat.div_lt_of_lt_mul product

/-- A shift of a product without its highest bit. -/
theorem toNat_shift_highProduct {width amount : Nat} {x y : BitVec width}
    (below : x.toNat * y.toNat / 2 ^ width < 2 ^ (width - 1)) :
    (shiftValue .aright (highProduct x y) amount).toNat =
      x.toNat * y.toNat / 2 ^ width / 2 ^ amount := by
  have noSign : (highProduct x y).msb = false := by
    rw [BitVec.msb_eq_decide, toNat_highProduct, decide_eq_false_iff_not]
    omega
  rw [shiftValue, BitVec.sshiftRight_eq_of_msb_false noSign,
    BitVec.toNat_ushiftRight, Nat.shiftRight_eq_div_pow, toNat_highProduct]

/-- An immediate stands in the lower bits of its TN. -/
theorem step_expandImmediate {settings : Settings} {machine : Machine}
    {width dest : Nat} {val : Int} (size : width = 32 ∨ width = 64) :
    ∃ (other : Nat) (word : BitVec other),
      machine.step (expandImmediate settings width dest val) =
        some (machine.write other dest word) ∧
      word.setWidth width = BitVec.ofInt width val := by
  unfold expandImmediate
  rcases size with rfl | rfl
  · rw [if_neg (by decide)]
    split
    · exact ⟨32, _, rfl, BitVec.setWidth_eq _⟩
    · split
      · refine ⟨32, _, rfl, ?_⟩
        rw [BitVec.setWidth_eq]
        refine BitVec.eq_of_toNat_eq ?_
        rw [BitVec.toNat_ofInt, BitVec.toNat_ofInt]
        congr 1
        exact Int.emod_emod _ _
      · exact ⟨64, _, rfl, Words.setWidth_ofInt (by decide)⟩
  · rw [if_pos rfl]
    exact ⟨64, _, rfl, BitVec.setWidth_eq _⟩

/-- A truncated quotient by its size and its sign. -/
theorem tdiv_eq_size {n d : Int} (nonzero : d ≠ 0) :
    n.tdiv d = if 0 < d ↔ 0 ≤ n then ((n.natAbs / d.natAbs : Nat) : Int)
      else -((n.natAbs / d.natAbs : Nat) : Int) := by
  rcases Int.lt_or_le n 0 with negativeNumerator | nonnegative
  all_goals rcases Int.lt_or_gt_of_ne nonzero with negative | positive
  · obtain ⟨x, rfl⟩ : ∃ x : Nat, n = -x := ⟨n.natAbs, by omega⟩
    obtain ⟨y, rfl⟩ : ∃ y : Nat, d = -y := ⟨d.natAbs, by omega⟩
    rw [if_pos (by omega), Int.neg_tdiv_neg, Int.natAbs_neg, Int.natAbs_neg]
    rfl
  · obtain ⟨x, rfl⟩ : ∃ x : Nat, n = -x := ⟨n.natAbs, by omega⟩
    obtain ⟨y, rfl⟩ := Int.eq_ofNat_of_zero_le positive.le
    rw [if_neg (by omega), Int.neg_tdiv, Int.natAbs_neg]
    rfl
  · obtain ⟨x, rfl⟩ := Int.eq_ofNat_of_zero_le nonnegative
    obtain ⟨y, rfl⟩ : ∃ y : Nat, d = -y := ⟨d.natAbs, by omega⟩
    rw [if_neg (by omega), Int.tdiv_neg, Int.natAbs_neg]
    rfl
  · obtain ⟨x, rfl⟩ := Int.eq_ofNat_of_zero_le nonnegative
    obtain ⟨y, rfl⟩ := Int.eq_ofNat_of_zero_le positive.le
    rw [if_pos (by omega)]
    rfl

/-! ## Signed divisions -/

section Sequences

variable {settings : Settings} {result numer next width : Nat}
  {machine : Machine}

/-- The first half of the signed sequence: the quotient of the sizes. -/
theorem exec_size {D n : Nat} (size : width = 32 ∨ width = 64)
    (numerOld : numer < next) (host : D < 2 ^ width)
    (below : (machine.read width numer).toInt.natAbs * D / 2 ^ width < 2 ^ (width - 1)) :
    ∃ middle,
      machine.exec [expandImmediate settings width next (int64 D),
          .neg width (next + 1) numer, .cmov .s (next + 1) numer,
          .mul width (next + 3) (next + 2) (next + 1) next,
          .shift width .aright (next + 4) (next + 2) n] = some middle ∧
        (middle.read width (next + 4)).toNat =
          (machine.read width numer).toInt.natAbs * D / 2 ^ width / 2 ^ n ∧
        ∀ tn < next, ∀ other, middle.read other tn = machine.read other tn := by
  have wide : width ≤ 64 := by omega
  have magnitude := toNat_magnitude (by omega : 0 < width) (machine.read width numer)
  obtain ⟨other, word, stepped, lower⟩ :=
    @step_expandImmediate settings machine width next (int64 D) size
  have divisor : (BitVec.ofInt width (int64 D)).toNat = D := by
    rw [ofInt_int64 wide, BitVec.ofInt_natCast, BitVec.toNat_ofNat, Nat.mod_eq_of_lt host]
  rw [Machine.exec_cons, stepped, Option.bind_some]
  by_cases sign : (negFlags (machine.read width numer)).sign = true
  · rw [if_pos sign] at magnitude
    simp (disch := omega) only [Machine.exec_cons, Machine.exec_nil, Machine.step,
      Option.bind_some, Machine.flags_setFlags, Option.map_some,
      Machine.read_write_of_ne, Condition.holds, sign, if_true]
    refine ⟨_, rfl, ?_, ?_⟩
    · simp (disch := omega) only [Machine.read_setFlags, Machine.read_write,
        Machine.read_write_of_ne, BitVec.setWidth_eq, Machine.setWidth_read,
        lower]
      rw [← magnitude] at below ⊢
      rw [← divisor] at below
      rw [toNat_shift_highProduct below, divisor]
    · intro tn old other
      simp (disch := omega) only [Machine.read_setFlags, Machine.read_write_of_ne]
  · rw [if_neg sign] at magnitude
    simp (disch := omega) only [Machine.exec_cons, Machine.exec_nil, Machine.step,
      Option.bind_some, Machine.flags_setFlags, Option.map_some,
      Machine.read_write_of_ne, Condition.holds, sign,
      Bool.false_eq_true, if_false]
    refine ⟨_, rfl, ?_, ?_⟩
    · simp (disch := omega) only [Machine.read_setFlags, Machine.read_write,
        Machine.read_write_of_ne, BitVec.setWidth_eq, lower]
      rw [← magnitude] at below ⊢
      rw [← divisor] at below
      rw [toNat_shift_highProduct below, divisor]
    · intro tn old other
      simp (disch := omega) only [Machine.read_setFlags, Machine.read_write_of_ne]

/-- The second half of the signed sequence: the sign of the quotient. -/
theorem exec_sign {condition : Condition} {source : Nat} (wide : width ≤ 64)
    (resultOld : result ≠ next + 4) (sourceOther : source ≠ result) :
    ∃ after,
      machine.exec [.neg width result (next + 4), .test width source source,
          .cmov condition result (next + 4)] = some after ∧
        after.read width result =
          if condition.holds (testFlags (machine.read width source)) = true then
            machine.read width (next + 4)
          else -machine.read width (next + 4) := by
  simp (disch := omega) only [Machine.exec_cons, Machine.exec_nil, Machine.step,
    Option.bind_some, Machine.flags_setFlags, Option.map_some,
    Machine.read_setFlags, Machine.read_write_of_ne, BitVec.and_self]
  refine ⟨_, rfl, ?_⟩
  split
  · simp (disch := omega) only [Machine.read_write, Machine.setWidth_read]
  · simp (disch := omega) only [Machine.read_setFlags, Machine.read_write, BitVec.setWidth_eq]

/-- A numerator that the result would overwrite is copied. -/
theorem exec_copied_sign {condition : Condition} (wide : width ≤ 64)
    (numerOld : numer < next) (resultOld : result < next) :
    ∃ after,
      machine.exec
          ((if result = numer then [.copy width (next + 5) numer] else []) ++
            [.neg width result (next + 4),
              .test width (if result = numer then next + 5 else numer)
                (if result = numer then next + 5 else numer),
              .cmov condition result (next + 4)]) = some after ∧
        after.read width result =
          if condition.holds (testFlags (machine.read width numer)) = true then
            machine.read width (next + 4)
          else -machine.read width (next + 4) := by
  by_cases same : result = numer
  · simp only [if_pos same, List.cons_append, List.nil_append]
    rw [Machine.exec_cons, Machine.step, Option.bind_some]
    obtain ⟨after, executed, word⟩ :=
      @exec_sign result next width
        (machine.write width (next + 5) (machine.read width numer)) condition
        (next + 5) wide (by omega) (by omega)
    refine ⟨after, executed, ?_⟩
    rw [word, Machine.read_write_self wide, Machine.read_write_of_ne (by omega)]
  · simp only [if_neg same, List.nil_append]
    exact exec_sign wide (by omega) (by omega)

end Sequences

/-- The bits of a numerator's size. -/
theorem MType.signed_precision {mtype : MType} :
    (if mtype.isDouble then 63 else 31) = mtype.sizeReg - 1 := by
  cases mtype <;> rfl

section Expansion

variable {settings : Settings} {result numer next : Nat} {mtype : MType}
  {denom_val d : Int}

/-- A divisor that is no power of two is larger than two. -/
theorem two_lt_of_noPower (nonzero : d ≠ 0) (noPower : ∀ i, d.natAbs ≠ 2 ^ i) : 2 < d.natAbs := by
  have one := noPower 0
  have two := noPower 1
  omega

/-- The condition that selects the quotient of the sizes. -/
theorem selects {width : Nat} {x : BitVec width} :
    (if denom_val > 0 then Condition.ge else Condition.l).holds (testFlags x) =
      true ↔ (0 < denom_val ↔ 0 ≤ x.toInt) := by
  have sign : (testFlags x).less = decide (x.toInt < 0) := BitVec.msb_eq_toInt
  split
  · rw [Condition.holds, sign]
    simp
    omega
  · rw [Condition.holds, sign]
    simp
    omega

theorem shiftInRange_expandImmediate {width dest : Nat} {val : Int} :
    (expandImmediate settings width dest val).shiftInRange = true := by
  unfold expandImmediate
  split
  · rfl
  · split
    · rfl
    · split <;> rfl

theorem signedPseudo_divides (numerOld : numer < next) (resultOld : result < next)
    (signed : mtype.isSigned = true) (represents : mtype.Represents denom_val d) (nonzero : d ≠ 0)
    (noPower : ∀ i, d.natAbs ≠ 2 ^ i) :
    ∃ outcome, signedPseudo settings result numer next denom_val mtype =
        .ok outcome ∧
      ∀ ops, outcome = some ops → Divides ops mtype result numer d := by
  have large := two_lt_of_noPower nonzero noPower
  have pattern := MType.uint64_size signed represents
  have host : d.natAbs < 2 ^ 64 := by
    rw [← pattern]
    unfold uint64
    omega
  obtain ⟨n, computed, least, -, wide, narrow⟩ :=
    determinePseudoInverse_spec large host (mtype.sizeReg - 1)
  obtain ⟨rfl, low, high⟩ := MType.represents_signed signed represents
  have size := mtype.sizeReg_eq
  unfold signedPseudo
  rw [pattern]
  simp only [MType.signed_precision, computed]
  split
  · exact ⟨none, rfl, fun ops impossible => nomatch impossible⟩
  · rename_i fits
    have bits : mtype.sizeReg - 1 + 1 = mtype.sizeReg := by omega
    have word := pseudoReciprocal_lt least narrow (Nat.not_lt.mp fits)
    rw [bits] at word
    generalize reciprocalIs : pseudoReciprocal denom_val.natAbs (n + (mtype.sizeReg - 1)) = D at *
    have hostWord : D % 2 ^ 64 = D :=
      Nat.mod_eq_of_lt (lt_of_lt_of_le word (Nat.pow_le_pow_right (by omega) (by omega)))
    rw [hostWord]
    simp only [if_pos (by omega : n > 0), if_neg (by omega : ¬next + 4 = result),
      apply_ite Prod.fst, apply_ite Prod.snd, ite_self]
    refine ⟨_, emit_of_all ?_, ?_⟩
    · rw [List.all_append, List.all_append, List.all_append]
      simp only [List.all_cons, shiftInRange_expandImmediate]
      split <;> simp [Op.shiftInRange] <;> omega
    intro ops given machine x holds apart
    cases given
    rw [MType.holds_signed signed] at holds
    have lowNumerator : -2 ^ (mtype.sizeReg - 1) ≤ x := holds ▸ BitVec.le_toInt _
    have highNumerator : x < 2 ^ (mtype.sizeReg - 1) := holds ▸ BitVec.toInt_lt
    have numerator := natAbs_le_two_pow lowNumerator highNumerator
    have quotient := pseudo_quotient (by omega) wide numerator
    rw [reciprocalIs] at quotient
    have below : x.natAbs * D / 2 ^ mtype.sizeReg < 2 ^ (mtype.sizeReg - 1) := by
      refine Nat.div_lt_of_lt_mul ?_
      rw [Nat.mul_comm (2 ^ mtype.sizeReg)]
      exact Nat.mul_lt_mul_of_le_of_lt numerator word (Nat.two_pow_pos _)
    obtain ⟨middle, first, sizes, kept⟩ :=
      @exec_size settings numer next mtype.sizeReg machine D (n - 1) size
        numerOld word (by rw [holds]; exact below)
    obtain ⟨after, second, final⟩ :=
      @exec_copied_sign result numer next mtype.sizeReg middle
        (if denom_val > 0 then .ge else .l) mtype.sizeReg_le numerOld resultOld
    refine ⟨after, ?_, ?_⟩
    · rw [List.append_assoc, ← second]
      exact Machine.exec_append first
    · have exponent : mtype.sizeReg + (n - 1) = n + (mtype.sizeReg - 1) := by omega
      have magnitude : middle.read mtype.sizeReg (next + 4) =
          BitVec.ofInt mtype.sizeReg ((x.natAbs / denom_val.natAbs : Nat) : Int) := by
        rw [holds, Reciprocal.div_div, exponent, quotient] at sizes
        rw [BitVec.ofInt_natCast, ← sizes, BitVec.ofNat_toNat, BitVec.setWidth_eq]
      obtain ⟨least, most⟩ := @tdiv_range (2 ^ (mtype.sizeReg - 1)) x denom_val
        lowNumerator highNumerator fun special => apart ⟨signed, special⟩
      rw [MType.holds_signed signed, final, magnitude, kept numer numerOld,
        ← BitVec.ofInt_neg, ← apply_ite (BitVec.ofInt mtype.sizeReg),
        ite_congr (propext selects) (fun _ => rfl) (fun _ => rfl), holds,
        ← tdiv_eq_size nonzero]
      exact BitVec.toInt_ofInt_eq_self mtype.sizeReg_pos least most

/-- The bits of an unsigned numerator. -/
theorem MType.unsigned_precision {mtype : MType} :
    (if mtype.isDouble then 64 else 32) = mtype.sizeReg := by
  cases mtype <;> rfl

/-- The lower bits of a pseudo-inverse. -/
theorem toNat_ofInt_int64 {width value : Nat} (wide : width ≤ 64) :
    (BitVec.ofInt width (int64 ((value % 2 ^ 64 : Nat) : Int))).toNat = value % 2 ^ width := by
  rw [ofInt_int64 wide, BitVec.ofInt_natCast, BitVec.toNat_ofNat,
    Nat.mod_mod_of_dvd _ (Nat.pow_dvd_pow 2 wide)]

/-- The sequence of an odd divisor, whose pseudo-inverse has one bit more than
the words. -/
theorem exec_odd {width D n a : Nat} {machine : Machine}
    (size : width = 32 ∨ width = 64) (numerOld : numer < next)
    (low : 2 ^ width ≤ D) (high : D < 2 ^ (width + 1))
    (numerator : (machine.read width numer).toNat = a) :
    ∃ after,
      machine.exec [expandImmediate settings width (next + 1)
            (int64 ((D % 2 ^ 64 : Nat) : Int)),
          .mul width (next + 3) (next + 2) numer (next + 1),
          .sub width (next + 4) numer (next + 2),
          .shift width .lright (next + 5) (next + 4) 1,
          .add width (next + 6) (next + 2) (next + 5),
          .shift width .lright result (next + 6) n] = some after ∧
        (after.read 64 result).toNat = a * D / 2 ^ (width + 1 + n) := by
  have wide : width ≤ 64 := by omega
  obtain ⟨m, rfl⟩ : ∃ m, D = 2 ^ width + m := ⟨D - 2 ^ width, by omega⟩
  have word : m < 2 ^ width := by
    rw [pow_succ] at high
    omega
  obtain ⟨other, immediate, stepped, lower⟩ :=
    @step_expandImmediate settings machine width (next + 1)
      (int64 (((2 ^ width + m) % 2 ^ 64 : Nat) : Int)) size
  have divisor : (immediate.setWidth width).toNat = m := by
    rw [lower, toNat_ofInt_int64 wide, Nat.add_mod_left, Nat.mod_eq_of_lt word]
  have product : (highProduct (machine.read width numer)
      (immediate.setWidth width)).toNat = a * m / 2 ^ width := by
    rw [toNat_highProduct, numerator, divisor]
  rw [Machine.exec_cons, stepped, Option.bind_some]
  simp (disch := omega) only [Machine.exec_cons, Machine.exec_nil, Machine.step, Option.bind_some]
  refine ⟨_, rfl, ?_⟩
  simp (disch := omega) only [Machine.read_setFlags, Machine.read_write,
    Machine.read_write_of_ne, BitVec.setWidth_eq]
  rw [BitVec.toNat_setWidth_of_le wide, BitVec.add_comm,
    toNat_average numerator product
      (Nat.div_le_of_le_mul (Nat.mul_comm a m ▸ Nat.mul_le_mul_right a word.le)),
    Reciprocal.averaged word]

/-- The sequence of an even divisor: one bit is shifted out of both. -/
theorem exec_even {width D n a : Nat} {machine : Machine} (size : width = 32 ∨ width = 64)
    (high : D < 2 ^ width) (numerator : (machine.read width numer).toNat = a) :
    ∃ after,
      machine.exec [.shift width .lright next numer 1,
          expandImmediate settings width (next + 1) (int64 ((D % 2 ^ 64 : Nat) : Int)),
          .mul width (next + 3) (next + 2) next (next + 1),
          .shift width .lright result (next + 2) n] = some after ∧
        (after.read 64 result).toNat = a / 2 * D / 2 ^ (width + n) := by
  have wide : width ≤ 64 := by omega
  rw [Machine.exec_cons, Machine.step, Option.bind_some]
  obtain ⟨other, immediate, stepped, lower⟩ :=
    @step_expandImmediate settings
      ((machine.write width next (shiftValue .lright (machine.read width numer) 1)).setFlags none)
      width (next + 1) (int64 ((D % 2 ^ 64 : Nat) : Int)) size
  have divisor : (immediate.setWidth width).toNat = D := by
    rw [lower, toNat_ofInt_int64 wide, Nat.mod_eq_of_lt high]
  rw [Machine.exec_cons, stepped, Option.bind_some]
  simp (disch := omega) only [Machine.exec_cons, Machine.exec_nil, Machine.step, Option.bind_some]
  refine ⟨_, rfl, ?_⟩
  simp (disch := omega) only [Machine.read_setFlags, Machine.read_write,
    Machine.read_write_of_ne, BitVec.setWidth_eq]
  rw [BitVec.toNat_setWidth_of_le wide, toNat_shiftValue_lright,
    toNat_highProduct, toNat_shiftValue_lright, numerator, divisor, pow_one,
    Reciprocal.div_div]

theorem unsignedPseudo_divides (numerOld : numer < next) (unsigned : mtype.isSigned = false)
    (represents : mtype.Represents denom_val d) (nonzero : d ≠ 0)
    (noPower : ∀ i, d.natAbs ≠ 2 ^ i) :
    ∃ outcome, unsignedPseudo settings result numer next denom_val mtype =
        .ok outcome ∧
      ∀ ops, outcome = some ops → Divides ops mtype result numer d := by
  have large := two_lt_of_noPower nonzero noPower
  have notFour := noPower 2
  have size := mtype.sizeReg_eq
  have host : uint64 denom_val < 2 ^ 64 := by
    unfold uint64
    omega
  obtain ⟨nonnegative, -⟩ := MType.represents_unsigned unsigned represents
  have cases := MType.uint64_cases unsigned represents
  unfold unsignedPseudo
  generalize uint64 denom_val = b at *
  by_cases odd : b % 2 = 1
  · obtain ⟨n, computed, least, -, wide, narrow⟩ :=
      determinePseudoInverse_spec (by omega) host mtype.sizeReg
    have full : mtype.sizeReg = 64 ∨ mtype.sizeReg = 32 := size.symm
    simp only [if_pos odd, MType.unsigned_precision, computed, if_pos full]
    split
    · exact ⟨none, rfl, fun ops impossible => nomatch impossible⟩
    · rename_i fits
      have most : 2 ^ n ≤ 2 ^ mtype.sizeReg := Nat.pow_le_pow_right (by omega) (by omega)
      have same : b = d.natAbs := by
        rcases cases with same | ⟨far, small⟩
        · exact same
        · rw [small] at most
          omega
      subst same
      refine ⟨_, emit_of_all ?_, ?_⟩
      · rw [List.all_append, List.all_append]
        simp only [List.all_cons, shiftInRange_expandImmediate]
        simp [Op.shiftInRange]
        omega
      intro ops given machine x holds _
      cases given
      rw [MType.holds_unsigned unsigned] at holds
      obtain ⟨rfl, small⟩ := holds
      have below : (machine.read 64 numer).toNat < 2 ^ mtype.sizeReg := by
        exact_mod_cast small
      obtain ⟨after, executed, quotient⟩ :=
        @exec_odd settings result numer next mtype.sizeReg _ (n - 1) _ machine
          size numerOld (le_pseudoReciprocal (by omega) wide)
          (pseudoReciprocal_lt least narrow (Nat.not_lt.mp fits))
          (toNat_read mtype.sizeReg_le rfl below)
      refine ⟨after, executed, ?_⟩
      have exponent : mtype.sizeReg + 1 + (n - 1) = n + mtype.sizeReg := by omega
      rw [exponent, pseudo_quotient (by omega) wide below.le] at quotient
      have natural : d = (d.natAbs : Int) := by omega
      rw [natural]
      exact MType.holds_of_toNat unsigned below quotient
  · obtain ⟨n, computed, least, -, wide, narrow⟩ :=
      @determinePseudoInverse_spec (b / 2) (by omega) (by omega) (mtype.sizeReg - 1)
    have half : ¬(mtype.sizeReg - 1 = 64 ∨ mtype.sizeReg - 1 = 32) := by omega
    simp only [if_neg odd, MType.signed_precision, computed, if_neg half]
    split
    · exact ⟨none, rfl, fun ops impossible => nomatch impossible⟩
    · rename_i fits
      have most : 2 ^ n ≤ 2 ^ (mtype.sizeReg - 1) := Nat.pow_le_pow_right (by omega) (by omega)
      have same : b = d.natAbs := by
        rcases cases with same | ⟨far, small⟩
        · exact same
        · rw [small] at most
          omega
      subst same
      refine ⟨_, emit_of_all ?_, ?_⟩
      · rw [List.all_append, List.all_append]
        simp only [List.all_cons, shiftInRange_expandImmediate]
        simp [Op.shiftInRange]
        omega
      intro ops given machine x holds _
      cases given
      rw [MType.holds_unsigned unsigned] at holds
      obtain ⟨rfl, small⟩ := holds
      have below : (machine.read 64 numer).toNat < 2 ^ mtype.sizeReg := by
        exact_mod_cast small
      have bits : mtype.sizeReg - 1 + 1 = mtype.sizeReg := by omega
      have high := pseudoReciprocal_lt least narrow (Nat.not_lt.mp fits)
      rw [bits] at high
      obtain ⟨after, executed, quotient⟩ :=
        @exec_even settings result numer next mtype.sizeReg _ (n - 1) _ machine
          size high (toNat_read mtype.sizeReg_le rfl below)
      refine ⟨after, executed, ?_⟩
      have exponent : mtype.sizeReg + (n - 1) = n + (mtype.sizeReg - 1) := by omega
      have numerator : (machine.read 64 numer).toNat / 2 ≤ 2 ^ (mtype.sizeReg - 1) := by
        have double : 2 ^ mtype.sizeReg = 2 * 2 ^ (mtype.sizeReg - 1) := by
          rw [← pow_succ', bits]
        omega
      have whole : 2 * (d.natAbs / 2) = d.natAbs := by omega
      rw [exponent, pseudo_quotient (by omega) wide numerator,
        Nat.div_div_eq_div_mul, whole] at quotient
      have natural : d = (d.natAbs : Int) := by omega
      rw [natural]
      exact MType.holds_of_toNat unsigned below quotient

end Expansion

end OpenUH.Cg
