import OpenUH.Lno.SystemRows

/-!
# Simple redundancy

`Is_Simple_Redundant` and `Simple_Redundant` compare two rows that are
multiples of each other; `Elim_Simple_Redundant` removes rows of the work
array by the first of them, and `Add_Work_Le_Non_Simple_Redundant` adds those
rows to a system that it does not already have.
-/

namespace OpenUH.Lno.SystemOfEquations

open Foundation

/-! ## Two rows -/

/--
The loop over the columns, up to where the constants are compared: nothing
where the rows are not multiples, else the first two coefficients that are not
zero, if there are any.
-/
def compareColumns (row1 row2 : Nat → Int) :
    Nat → Nat → Option (Int × Int) → Option (Option (Int × Int))
  | 0, _, multiple => some multiple
  | count + 1, col, multiple =>
      if row1 col = 0 then
        if row2 col ≠ 0 then none
        else compareColumns row1 row2 count (col + 1) multiple
      else if row2 col = 0 then
        none
      else
        match multiple with
        | some (mult_n, mult_d) =>
            if mult_n * row2 col ≠ mult_d * row1 col then
              none
            else
              compareColumns row1 row2 count (col + 1) (some (mult_n, mult_d))
        | none =>
            if decide (row1 col < 0) ≠ decide (row2 col < 0) then
              none
            else
              compareColumns row1 row2 count (col + 1)
                (some (row1 col, row2 col))

/-- The multiples of two rows whose constants may be compared. -/
def multiples (row1 row2 : Inequality) (minVar cols : Nat) : Option (Int × Int) :=
  match compareColumns row1.coeff row2.coeff (cols - minVar) minVar none with
  | none => none
  | some multiple =>
      if |row1.bound| > int32Max then
        none
      else if |row2.bound| > int32Max then
        none
      else
        some (multiple.getD (1, 1))

/-- `Is_Simple_Redundant`. -/
def isSimpleRedundant (row1 row2 : Inequality) (minVar cols : Nat) : Nat :=
  match multiples row1 row2 minVar cols with
  | none => 0
  | some (mult_n, mult_d) =>
      if mult_n = mult_d then
        if row1.bound ≤ row2.bound then 2 else 1
      else if 0 < mult_d ∧ mult_d * row1.bound ≤ mult_n * row2.bound ∨
          mult_d < 0 ∧ mult_d * row1.bound ≥ mult_n * row2.bound then
        2
      else
        1

/-- `Simple_Redundant`. -/
def simpleRedundant (row1 row2 : Inequality) (minVar cols : Nat) : Nat :=
  match multiples row1 row2 minVar cols with
  | none => 0
  | some (mult_n, mult_d) =>
      if mult_n = mult_d then
        if row1.bound < row2.bound then 2
        else if row2.bound < row1.bound then 1
        else 3
      else if mult_d * row1.bound < mult_n * row2.bound then
        2
      else if mult_d * row1.bound > mult_n * row2.bound then
        1
      else
        3

/-- The points that satisfy a row. -/
def halfSpace (R : Type*) [CommRing R] [LinearOrder R] (row : Inequality)
    (cols : Nat) : Set (Nat → R) :=
  { point | row.Holds cols point }

/-- What an answer says of the half-spaces. -/
structure Right (R : Type*) [CommRing R] [LinearOrder R] (answer : Nat)
    (row1 row2 : Inequality) (cols : Nat) : Prop where
  first : answer = 1 → halfSpace R row2 cols ⊆ halfSpace R row1 cols
  second : answer = 2 → halfSpace R row1 cols ⊆ halfSpace R row2 cols
  tie : answer = 3 → halfSpace R row1 cols = halfSpace R row2 cols

/-- Two answers are the same up to ties. -/
def Agree (answer other : Nat) : Prop :=
  answer = other ∨ other = 3 ∧ (answer = 1 ∨ answer = 2)

instance (answer other : Nat) : Decidable (Agree answer other) :=
  inferInstanceAs (Decidable (_ ∨ _ ∧ (_ ∨ _)))

/-- The rows are multiples of each other, by their first coefficients. -/
structure Multiples (row1 row2 : Nat → Int) (low high : Nat)
    (mult_n mult_d : Int) : Prop where
  sign : 0 < mult_n ∧ 0 < mult_d ∨ mult_n < 0 ∧ mult_d < 0
  multiple : ∀ col, low ≤ col → col < high → mult_n * row2 col = mult_d * row1 col

/-- A column where both rows have their first coefficient that is not zero. -/
structure FirstColumn (row1 row2 : Nat → Int) (low first : Nat) : Prop where
  low_le : low ≤ first
  row1_zero : ∀ col, low ≤ col → col < first → row1 col = 0
  row2_zero : ∀ col, low ≤ col → col < first → row2 col = 0

/--
The rows are multiples of each other with negative first coefficients that
differ, and their constants are small and do not tie.
-/
structure Flipped (row1 row2 : Inequality) (minVar cols : Nat) : Prop where
  multiple : ∃ first < cols,
    FirstColumn row1.coeff row2.coeff minVar first ∧
      Multiples row1.coeff row2.coeff minVar cols (row1.coeff first)
        (row2.coeff first) ∧
      row1.coeff first < 0 ∧ row1.coeff first ≠ row2.coeff first ∧
      row2.coeff first * row1.bound ≠ row1.coeff first * row2.bound
  small1 : |row1.bound| ≤ int32Max
  small2 : |row2.bound| ≤ int32Max

section Compare

variable {row1 row2 : Nat → Int} {count col : Nat}

/-- Once there are multiples, the rest of the columns are compared by them. -/
theorem compareColumns_some {mult_n mult_d : Int} {multiple : Option (Int × Int)}
    (sign : 0 < mult_n ∧ 0 < mult_d ∨ mult_n < 0 ∧ mult_d < 0) :
    compareColumns row1 row2 count col (some (mult_n, mult_d)) =
        some multiple ↔
      multiple = some (mult_n, mult_d) ∧ Multiples row1 row2 col (col + count) mult_n mult_d := by
  induction count generalizing col with
  | zero =>
      unfold compareColumns
      constructor
      · intro same
        exact ⟨(Option.some.inj same).symm, sign, fun other low high => by omega⟩
      · rintro ⟨rfl, -⟩
        rfl
  | succ count ih =>
      have more : Multiples row1 row2 col (col + (count + 1)) mult_n mult_d ↔
          mult_n * row2 col = mult_d * row1 col ∧
            Multiples row1 row2 (col + 1) (col + 1 + count) mult_n mult_d := by
        constructor
        · intro all
          exact ⟨all.multiple col (le_refl _) (by omega), sign,
            fun other low high => all.multiple other (by omega) (by omega)⟩
        · rintro ⟨here, later⟩
          refine ⟨sign, fun other low high => ?_⟩
          by_cases same : other = col
          · rw [same]
            exact here
          · exact later.multiple other (by omega) (by omega)
      rw [more]
      unfold compareColumns
      split
      · rename_i zero
        rw [zero, mul_zero]
        split
        · rename_i nonzero
          have apart : mult_n * row2 col ≠ 0 := mul_ne_zero (by omega) nonzero
          simp [apart]
        · rename_i alsoZero
          have here : mult_n * row2 col = 0 := by
            rw [not_not.mp alsoZero, mul_zero]
          simp only [here, true_and]
          exact ih
      · rename_i nonzero
        split
        · rename_i zero
          rw [zero, mul_zero]
          have apart : 0 ≠ mult_d * row1 col := (mul_ne_zero (by omega) nonzero).symm
          simp [apart]
        · dsimp only
          split
          · rename_i apart
            simp [apart]
          · rename_i same
            simp only [not_not.mp same, true_and]
            exact ih

/-- What the comparison of all columns finds. -/
theorem compareColumns_none {multiple : Option (Int × Int)} :
    compareColumns row1 row2 count col none = some multiple ↔
      (multiple = none ∧ FirstColumn row1 row2 col (col + count)) ∨
        ∃ first < col + count, FirstColumn row1 row2 col first ∧
          multiple = some (row1 first, row2 first) ∧
          Multiples row1 row2 col (col + count) (row1 first) (row2 first) := by
  induction count generalizing col with
  | zero =>
      unfold compareColumns
      constructor
      · intro same
        exact .inl ⟨(Option.some.inj same).symm, le_refl _,
          fun other low high => by omega, fun other low high => by omega⟩
      · rintro (⟨rfl, -⟩ | ⟨first, inside, column, -⟩)
        · rfl
        · have low := column.low_le
          omega
  | succ count ih =>
      have end_eq : col + (count + 1) = col + 1 + count := by omega
      rw [end_eq]
      unfold compareColumns
      split
      · rename_i zero
        split
        · rename_i nonzero
          constructor
          · intro absent
            cases absent
          · rintro (⟨-, column⟩ | ⟨first, inside, column, -, all⟩)
            · exact absurd (column.row2_zero col (le_refl _) (by omega)) nonzero
            · have low := column.low_le
              have product := all.multiple col (le_refl _) (by omega)
              rw [zero, mul_zero] at product
              have sign := all.sign
              exact absurd product (mul_ne_zero (by omega) nonzero)
        · rename_i alsoZero
          have zero2 := not_not.mp alsoZero
          refine ih.trans (or_congr (and_congr_right fun _ => ?_)
            (exists_congr fun first => and_congr_right fun inside => ?_))
          · constructor
            · intro column
              refine ⟨by omega, fun other low high => ?_,
                fun other low high => ?_⟩
              · by_cases same : other = col
                · rw [same, zero]
                · exact column.row1_zero other (by omega) high
              · by_cases same : other = col
                · rw [same, zero2]
                · exact column.row2_zero other (by omega) high
            · intro column
              exact ⟨by omega,
                fun other low high => column.row1_zero other (by omega) high,
                fun other low high => column.row2_zero other (by omega) high⟩
          · constructor
            · rintro ⟨column, same, all⟩
              have low := column.low_le
              refine ⟨⟨by omega, fun other low high => ?_,
                fun other low high => ?_⟩, same, all.sign,
                fun other low high => ?_⟩
              · by_cases same : other = col
                · rw [same, zero]
                · exact column.row1_zero other (by omega) high
              · by_cases same : other = col
                · rw [same, zero2]
                · exact column.row2_zero other (by omega) high
              · by_cases same : other = col
                · rw [same, zero, zero2, mul_zero, mul_zero]
                · exact all.multiple other (by omega) high
            · rintro ⟨column, same, all⟩
              have low := column.low_le
              have sign := all.sign
              have apart : first ≠ col := by
                rintro rfl
                omega
              exact ⟨⟨by omega,
                fun other low high => column.row1_zero other (by omega) high,
                fun other low high => column.row2_zero other (by omega) high⟩,
                same, sign,
                fun other low high => all.multiple other (by omega) high⟩
      · rename_i nonzero
        have noZeros : ∀ first, FirstColumn row1 row2 col first → first = col := by
          intro first column
          have low := column.low_le
          by_contra apart
          exact nonzero (column.row1_zero col (le_refl _) (by omega))
        split
        · rename_i zero
          constructor
          · intro absent
            cases absent
          · rintro (⟨-, column⟩ | ⟨first, inside, column, -, all⟩)
            · have low := noZeros _ column
              omega
            · have sign := all.sign
              rw [noZeros first column] at sign
              omega
        · rename_i nonzero2
          dsimp only
          split
          · rename_i apart
            constructor
            · intro absent
              cases absent
            · rintro (⟨-, column⟩ | ⟨first, inside, column, -, all⟩)
              · have low := noZeros _ column
                omega
              · have sign := all.sign
                rw [noZeros first column] at sign
                refine absurd (decide_eq_decide.mpr ?_) apart
                omega
          · rename_i same
            have signs := decide_eq_decide.mp (not_not.mp same)
            have sign : 0 < row1 col ∧ 0 < row2 col ∨ row1 col < 0 ∧ row2 col < 0 := by omega
            refine (compareColumns_some sign).trans ?_
            constructor
            · rintro ⟨found, all⟩
              refine .inr ⟨col, by omega, ⟨le_refl _, fun other low high =>
                by omega, fun other low high => by omega⟩, found, sign,
                fun other low high => ?_⟩
              by_cases here : other = col
              · rw [here, mul_comm]
              · exact all.multiple other (by omega) high
            · rintro (⟨-, column⟩ | ⟨first, inside, column, found, all⟩)
              · have low := noZeros _ column
                omega
              · have here := noZeros first column
                rw [here] at found all
                exact ⟨found, sign, fun other low high =>
                  all.multiple other (by omega) high⟩

end Compare

/-! ## What the answers say -/

section Answers

variable {R : Type*} [CommRing R] [LinearOrder R] [IsStrictOrderedRing R]
  {row1 row2 : Inequality} {minVar cols : Nat} {mult_n mult_d : Int}
  {point : Nat → R}

theorem Multiples.symm {row1 row2 : Nat → Int} {low high : Nat}
    (all : Multiples row1 row2 low high mult_n mult_d) :
    Multiples row2 row1 low high mult_d mult_n where
  sign := by
    have sign := all.sign
    omega
  multiple col low high := (all.multiple col low high).symm

/-- The tighter of two rows that are multiples implies the other. -/
theorem Multiples.subset (all : Multiples row1.coeff row2.coeff 0 cols mult_n mult_d)
    (positive : 0 < mult_d → mult_d * row1.bound ≤ mult_n * row2.bound)
    (negative : mult_d < 0 → mult_n * row2.bound ≤ mult_d * row1.bound) :
    halfSpace R row1 cols ⊆ halfSpace R row2 cols := by
  intro point holds
  have scaled : (mult_n : R) * row2.value cols point = mult_d * row1.value cols point := by
    rw [Inequality.value_eq_sum, Inequality.value_eq_sum, Finset.mul_sum, Finset.mul_sum]
    refine Finset.sum_congr rfl fun col member => ?_
    have product := all.multiple col (Nat.zero_le _) (Finset.mem_range.mp member)
    rw [← mul_assoc, ← mul_assoc, ← Int.cast_mul, ← Int.cast_mul, product]
  change row1.value cols point ≤ (row1.bound : R) at holds
  change row2.value cols point ≤ (row2.bound : R)
  rcases all.sign with ⟨nPositive, dPositive⟩ | ⟨nNegative, dNegative⟩
  · have nCast : (0 : R) < mult_n := Int.cast_pos.mpr nPositive
    have dCast : (0 : R) ≤ mult_d := (Int.cast_pos.mpr dPositive).le
    refine le_of_mul_le_mul_left ?_ nCast
    calc (mult_n : R) * row2.value cols point
        = mult_d * row1.value cols point := scaled
      _ ≤ mult_d * row1.bound := mul_le_mul_of_nonneg_left holds dCast
      _ ≤ mult_n * row2.bound := by exact_mod_cast positive dPositive
  · have nCast : (mult_n : R) < 0 := Int.cast_lt_zero.mpr nNegative
    have dCast : (mult_d : R) ≤ 0 := (Int.cast_lt_zero.mpr dNegative).le
    refine (mul_le_mul_left_of_neg nCast).mp ?_
    calc (mult_n : R) * row2.bound
        ≤ mult_d * row1.bound := by exact_mod_cast negative dNegative
      _ ≤ mult_d * row1.value cols point := mul_le_mul_of_nonpos_left holds dCast
      _ = mult_n * row2.value cols point := scaled.symm

/-- The multiples that are compared relate all columns of the rows. -/
theorem multiples_spec (zeroBelow1 : ∀ col < minVar, row1.coeff col = 0)
    (zeroBelow2 : ∀ col < minVar, row2.coeff col = 0)
    (found : multiples row1 row2 minVar cols = some (mult_n, mult_d)) :
    Multiples row1.coeff row2.coeff 0 cols mult_n mult_d ∧
      |row1.bound| ≤ int32Max ∧ |row2.bound| ≤ int32Max ∧
      ((mult_n = mult_d) ∨ ∃ first < cols,
        FirstColumn row1.coeff row2.coeff minVar first ∧
          mult_n = row1.coeff first ∧ mult_d = row2.coeff first) := by
  unfold multiples at found
  split at found
  · cases found
  · rename_i multiple compared
    split_ifs at found with large1 large2
    refine (and_left_comm.mp ⟨not_lt.mp large1, ?_⟩)
    refine (and_left_comm.mp ⟨not_lt.mp large2, ?_⟩)
    have pair := Option.some.inj found
    rcases compareColumns_none.mp compared with ⟨rfl, zeros⟩ |
      ⟨first, inside, column, rfl, all⟩
    · obtain ⟨rfl, rfl⟩ := Prod.mk.inj pair
      refine ⟨⟨.inl ⟨one_pos, one_pos⟩, fun col _ high => ?_⟩, .inl rfl⟩
      by_cases below : col < minVar
      · rw [zeroBelow1 col below, zeroBelow2 col below]
      · rw [zeros.row1_zero col (by omega) (by omega), zeros.row2_zero col (by omega) (by omega)]
    · obtain ⟨rfl, rfl⟩ := Prod.mk.inj pair
      have low := column.low_le
      refine ⟨⟨all.sign, fun col _ high => ?_⟩, .inr ⟨first, by omega, column, rfl, rfl⟩⟩
      by_cases below : col < minVar
      · rw [zeroBelow1 col below, zeroBelow2 col below, mul_zero, mul_zero]
      · exact all.multiple col (by omega) (by omega)

/-- Multiples that start in a column are found there. -/
theorem multiples_eq {first : Nat} (inside : first < cols)
    (column : FirstColumn row1.coeff row2.coeff minVar first)
    (all : Multiples row1.coeff row2.coeff minVar cols (row1.coeff first) (row2.coeff first))
    (small1 : |row1.bound| ≤ int32Max) (small2 : |row2.bound| ≤ int32Max) :
    multiples row1 row2 minVar cols = some (row1.coeff first, row2.coeff first) := by
  have low := column.low_le
  have columns : minVar + (cols - minVar) = cols := by omega
  have compared : compareColumns row1.coeff row2.coeff (cols - minVar) minVar
      none = some (some (row1.coeff first, row2.coeff first)) :=
    compareColumns_none.mpr (.inr ⟨first, by omega, column, rfl, columns.symm ▸ all⟩)
  unfold multiples
  rw [compared]
  dsimp only
  rw [if_neg (not_lt.mpr small1), if_neg (not_lt.mpr small2)]
  rfl

variable (zeroBelow1 : ∀ col < minVar, row1.coeff col = 0)
  (zeroBelow2 : ∀ col < minVar, row2.coeff col = 0)
include zeroBelow1 zeroBelow2

/-- `Is_Simple_Redundant` is right. -/
theorem isSimpleRedundant_right :
    Right R (isSimpleRedundant row1 row2 minVar cols) row1 row2 cols := by
  unfold isSimpleRedundant
  split
  · exact ⟨nofun, nofun, nofun⟩
  · rename_i mult_n mult_d found
    obtain ⟨all, -, -, -⟩ := multiples_spec zeroBelow1 zeroBelow2 found
    have sign := all.sign
    split_ifs with same tighter tighter
    · refine ⟨nofun, fun _ => all.subset (fun positive => ?_) (fun negative => ?_), nofun⟩
      · rw [same]
        exact mul_le_mul_of_nonneg_left tighter positive.le
      · rw [same]
        exact mul_le_mul_of_nonpos_left tighter negative.le
    · have looser := (not_le.mp tighter).le
      refine ⟨fun _ => all.symm.subset (fun positive => ?_) (fun negative => ?_), nofun, nofun⟩
      · rw [same] at positive ⊢
        exact mul_le_mul_of_nonneg_left looser positive.le
      · rw [same] at negative ⊢
        exact mul_le_mul_of_nonpos_left looser negative.le
    · exact ⟨nofun, fun _ => all.subset (fun positive => by omega)
        (fun negative => by omega), nofun⟩
    · exact ⟨fun _ => all.symm.subset (fun positive => by omega)
        (fun negative => by omega), nofun, nofun⟩

/-- `Simple_Redundant` is right and agrees, unless the signs are flipped. -/
theorem simpleRedundant_right (notFlipped : ¬Flipped row1 row2 minVar cols) :
    Right R (simpleRedundant row1 row2 minVar cols) row1 row2 cols ∧
      Agree (isSimpleRedundant row1 row2 minVar cols) (simpleRedundant row1 row2 minVar cols) := by
  have right := @isSimpleRedundant_right R _ _ _ row1 row2 minVar cols zeroBelow1 zeroBelow2
  revert right
  unfold simpleRedundant isSimpleRedundant
  split
  · exact fun right => ⟨right, .inl rfl⟩
  · rename_i mult_n mult_d found
    obtain ⟨all, small1, small2, start⟩ := multiples_spec zeroBelow1 zeroBelow2 found
    have sign := all.sign
    have tied : mult_d * row1.bound = mult_n * row2.bound →
        halfSpace R row1 cols = halfSpace R row2 cols := by
      intro tie
      exact Set.Subset.antisymm
        (all.subset (fun _ => tie.le) (fun _ => tie.ge))
        (all.symm.subset (fun _ => tie.ge) (fun _ => tie.le))
    by_cases same : mult_n = mult_d
    · rw [if_pos same, if_pos same]
      intro right
      rcases lt_trichotomy row1.bound row2.bound with less | tie | more
      · rw [if_pos less.le] at right ⊢
        rw [if_pos less]
        exact ⟨right, .inl rfl⟩
      · rw [if_pos tie.le, if_neg tie.not_lt, if_neg tie.not_gt]
        exact ⟨⟨nofun, nofun, fun _ => tied (by rw [same, tie])⟩, .inr ⟨rfl, .inr rfl⟩⟩
      · rw [if_neg (not_le.mpr more)] at right ⊢
        rw [if_neg more.le.not_gt, if_pos more]
        exact ⟨right, .inl rfl⟩
    · rw [if_neg same, if_neg same]
      intro right
      obtain ⟨first, inside, column, rfl, rfl⟩ := start.resolve_left same
      have positive : row2.coeff first * row1.bound ≠
          row1.coeff first * row2.bound → 0 < row2.coeff first := by
        intro apart
        by_contra negative
        refine notFlipped ⟨⟨first, inside, column, ⟨sign, fun col _ high =>
          all.multiple col (Nat.zero_le _) high⟩, ?_, same, apart⟩,
          small1, small2⟩
        omega
      rcases lt_trichotomy (row2.coeff first * row1.bound)
        (row1.coeff first * row2.bound) with less | tie | more
      · have tight : 0 < row2.coeff first ∧ row2.coeff first * row1.bound ≤
            row1.coeff first * row2.bound ∨ row2.coeff first < 0 ∧
              row2.coeff first * row1.bound ≥ row1.coeff first * row2.bound :=
          .inl ⟨positive less.ne, less.le⟩
        rw [if_pos tight] at right ⊢
        rw [if_pos less]
        exact ⟨right, .inl rfl⟩
      · rw [if_neg tie.not_lt, if_neg tie.not_gt]
        refine ⟨⟨nofun, nofun, fun _ => tied tie⟩, .inr ⟨rfl, ?_⟩⟩
        split
        · exact .inr rfl
        · exact .inl rfl
      · have loose : ¬(0 < row2.coeff first ∧ row2.coeff first * row1.bound ≤
            row1.coeff first * row2.bound ∨ row2.coeff first < 0 ∧
              row2.coeff first * row1.bound ≥ row1.coeff first * row2.bound) := by
          have above := positive more.ne'
          omega
        rw [if_neg loose] at right ⊢
        rw [if_neg more.le.not_gt, if_pos more]
        exact ⟨right, .inl rfl⟩

omit zeroBelow1 zeroBelow2 in
/-- Flipped signs make the two functions disagree. -/
theorem not_agree_of_flipped (flipped : Flipped row1 row2 minVar cols) :
    ¬Agree (isSimpleRedundant row1 row2 minVar cols) (simpleRedundant row1 row2 minVar cols) := by
  obtain ⟨first, inside, column, all, negative, apart, noTie⟩ := flipped.multiple
  have found := multiples_eq inside column all flipped.small1 flipped.small2
  have sign := all.sign
  unfold isSimpleRedundant simpleRedundant
  rw [found]
  dsimp only
  rw [if_neg apart, if_neg apart]
  rcases lt_or_gt_of_ne noTie with less | more
  · have loose : ¬(0 < row2.coeff first ∧ row2.coeff first * row1.bound ≤
        row1.coeff first * row2.bound ∨ row2.coeff first < 0 ∧
          row2.coeff first * row1.bound ≥ row1.coeff first * row2.bound) := by omega
    rw [if_pos less, if_neg loose]
    decide
  · have tight : 0 < row2.coeff first ∧ row2.coeff first * row1.bound ≤
        row1.coeff first * row2.bound ∨ row2.coeff first < 0 ∧
          row2.coeff first * row1.bound ≥ row1.coeff first * row2.bound := by omega
    rw [if_neg more.le.not_gt, if_pos more, if_pos tight]
    decide

end Answers

/-! ## Elimination in the work array -/

namespace Work

/-- One more than the last column from `minVar` on that is not zero. -/
def lastNonZero (row : Row) (minVar : Nat) : Nat → Nat
  | 0 => 0
  | col + 1 =>
      if minVar ≤ col ∧ row.coeff col = 0 then lastNonZero row minVar col
      else col + 1

/-- Compare two rows that are not redundant yet, and mark one of them. -/
def markPair (work : Work) (minVar i : Nat) (isRedundant : Nat → Bool) (j : Nat) : Nat → Bool :=
  if isRedundant j = false ∧
      lastNonZero (work.row i) minVar work.cols = lastNonZero (work.row j) minVar work.cols then
    match isSimpleRedundant (work.row i).toInequality
        (work.row j).toInequality minVar work.cols with
    | 1 => Function.update isRedundant i true
    | 2 => Function.update isRedundant j true
    | _ => isRedundant
  else
    isRedundant

/-- Compare a row with the rows after it. -/
def markRow (work : Work) (minVar : Nat) (isRedundant : Nat → Bool) (i : Nat) : Nat → Bool :=
  if isRedundant i then
    isRedundant
  else
    (List.range' (i + 1) (work.rows - (i + 1))).foldl
      (markPair work minVar i) isRedundant

/-- The rows that `Elim_Simple_Redundant` marks. -/
def markSimple (work : Work) (minVar : Nat) : Nat → Bool :=
  (List.range work.rows).foldl (markRow work minVar) fun _ => false

/-- `Elim_Simple_Redundant`. -/
def elimSimpleRedundant (minVar : Nat) (work : Work) : Work :=
  compact (fun index _ => markSimple work minVar index) minVar work

section Marks

variable {R : Type*} [CommRing R] [LinearOrder R] [IsStrictOrderedRing R]
  {work : Work} {minVar i j : Nat} {isRedundant : Nat → Bool}

/-- One row holds wherever another does. -/
def Implies (R : Type*) [CommRing R] [LinearOrder R] (work : Work) (source target : Nat) : Prop :=
  halfSpace R (work.row source).toInequality work.cols ⊆
    halfSpace R (work.row target).toInequality work.cols

/-- Each row that is marked is implied by one that is not. -/
def Covered (R : Type*) [CommRing R] [LinearOrder R] (work : Work)
    (isRedundant : Nat → Bool) : Prop :=
  ∀ target < work.rows, isRedundant target = true →
    ∃ source < work.rows, isRedundant source = false ∧ Implies R work source target

/--
While row `i` is compared with the rows after it: if it is marked, a row that
was already compared implies it and is not marked.
-/
structure Marking (R : Type*) [CommRing R] [LinearOrder R] (work : Work)
    (i j : Nat) (isRedundant : Nat → Bool) : Prop where
  covered : Covered R work isRedundant
  witness : isRedundant i = true →
    ∃ source < work.rows, source < j ∧ source ≠ i ∧
      isRedundant source = false ∧ Implies R work source i

omit [IsStrictOrderedRing R] in
/-- Mark a row that is implied by another that stays. -/
theorem covered_update {source target : Nat}
    (covered : Covered R work isRedundant) (inside : source < work.rows)
    (stays : isRedundant source = false) (apart : source ≠ target)
    (implies : Implies R work source target) :
    Covered R work (Function.update isRedundant target true) := by
  have sourceStays : Function.update isRedundant target true source = false := by
    rw [Function.update_of_ne apart]
    exact stays
  intro other below marked
  by_cases here : other = target
  · rw [here]
    exact ⟨source, inside, sourceStays, implies⟩
  · rw [Function.update_of_ne here] at marked
    obtain ⟨witness, witnessInside, witnessStays, witnessImplies⟩ := covered other below marked
    by_cases lost : witness = target
    · rw [lost] at witnessImplies
      exact ⟨source, inside, sourceStays, implies.trans witnessImplies⟩
    · refine ⟨witness, witnessInside, ?_, witnessImplies⟩
      rw [Function.update_of_ne lost]
      exact witnessStays

variable (zeroBelow : work.ZeroBelow minVar)
include zeroBelow

/-- One comparison. -/
theorem marking_pair (outer : i < work.rows) (inner : j < work.rows)
    (before : i < j) (marking : Marking R work i j isRedundant) :
    Marking R work i (j + 1) (markPair work minVar i isRedundant j) := by
  have right := @isSimpleRedundant_right R _ _ _ (work.row i).toInequality
    (work.row j).toInequality minVar work.cols
    (zeroBelow i outer) (zeroBelow j inner)
  have keep : Marking R work i (j + 1) isRedundant := by
    refine ⟨marking.covered, fun marked => ?_⟩
    obtain ⟨source, inside, earlier, apart, stays, implies⟩ := marking.witness marked
    exact ⟨source, inside, by omega, apart, stays, implies⟩
  unfold markPair
  split
  · rename_i fresh
    split
    · rename_i answer
      have implies : Implies R work j i := right.first answer
      have stays : Function.update isRedundant i true j = false := by
        rw [Function.update_of_ne (by omega)]
        exact fresh.1
      exact ⟨covered_update marking.covered inner fresh.1 (by omega) implies,
        fun _ => ⟨j, inner, by omega, by omega, stays, implies⟩⟩
    · rename_i answer
      have implies : Implies R work i j := right.second answer
      by_cases marked : isRedundant i = true
      · obtain ⟨source, inside, earlier, apart, stays, above⟩ :=
          marking.witness marked
        refine ⟨covered_update marking.covered inside stays (by omega)
          (above.trans implies), fun _ =>
            ⟨source, inside, by omega, apart, ?_, above⟩⟩
        rw [Function.update_of_ne (by omega)]
        exact stays
      · have stays := Bool.eq_false_of_not_eq_true marked
        refine ⟨covered_update marking.covered outer stays (by omega) implies,
          fun marks => ?_⟩
        rw [Function.update_of_ne (by omega)] at marks
        exact absurd marks marked
    · exact keep
  · exact keep

/-- A row is compared with all rows after it. -/
theorem covered_row (outer : i < work.rows) (covered : Covered R work isRedundant) :
    Covered R work (markRow work minVar isRedundant i) := by
  have run : ∀ (count j : Nat) (marks : Nat → Bool), i < j →
      j + count ≤ work.rows → Marking R work i j marks →
        Covered R work ((List.range' j count).foldl (markPair work minVar i) marks) := by
    intro count
    induction count with
    | zero => exact fun j marks _ _ marking => marking.covered
    | succ count ih =>
        intro j marks before inside marking
        rw [List.range'_succ, List.foldl_cons]
        exact ih (j + 1) _ (by omega) (by omega)
          (marking_pair zeroBelow outer (by omega) before marking)
  unfold markRow
  split
  · exact covered
  · rename_i stays
    exact run _ _ _ (Nat.lt_succ_self i) (by omega) ⟨covered, fun marked => absurd marked stays⟩

/-- The rows that are marked in the end are implied by the others. -/
theorem covered_markSimple : Covered R work (markSimple work minVar) := by
  have run : ∀ (rows : List Nat) (marks : Nat → Bool),
      (∀ row ∈ rows, row < work.rows) → Covered R work marks →
        Covered R work (rows.foldl (markRow work minVar) marks) := by
    intro rows
    induction rows with
    | nil => exact fun _ _ covered => covered
    | cons row rows ih =>
        intro marks inside covered
        rw [List.foldl_cons]
        exact ih _
          (fun other member => inside other (List.mem_cons_of_mem _ member))
          (covered_row zeroBelow (inside row List.mem_cons_self) covered)
  exact run _ _ (fun row member => List.mem_range.mp member)
    fun _ _ marked => nomatch marked

theorem elimSimpleRedundant_cols : (elimSimpleRedundant minVar work).cols = work.cols :=
  compact_cols zeroBelow

theorem elimSimpleRedundant_zeroBelow : (elimSimpleRedundant minVar work).ZeroBelow minVar :=
  compact_zeroBelow zeroBelow

/-- Each row that is left is one of the rows before. -/
theorem elimSimpleRedundant_rows (index : Nat)
    (inside : index < (elimSimpleRedundant minVar work).rows) :
    ∃ source < work.rows, Row.Same work.cols
      ((elimSimpleRedundant minVar work).row index) (work.row source) := by
  obtain ⟨source, low, -, same⟩ := compact_rows zeroBelow index inside
  exact ⟨source, low, same⟩

/-- `Elim_Simple_Redundant` leaves the solutions as they are. -/
theorem elimSimpleRedundant_holds {point : Nat → R} :
    (elimSimpleRedundant minVar work).Holds point ↔ work.Holds point := by
  refine (compact_holds zeroBelow).trans ⟨fun holds index inside => ?_,
    fun holds index inside _ => holds index inside⟩
  by_cases marked : markSimple work minVar index = true
  · have covered : Covered R work (markSimple work minVar) :=
      covered_markSimple zeroBelow
    obtain ⟨source, low, stays, implies⟩ := covered index inside marked
    exact implies (holds source low stays)
  · exact holds index inside (Bool.eq_false_of_not_eq_true marked)

end Marks

end Work

/-! ## Addition to a system -/

/-- `SOE_MAX_WORK_COLS`. -/
def maxWorkCols : Nat := 30

namespace Row

/-- A row without variables. -/
def null : Row where
  coeff _ := 0
  bound := 0
  fits _ := fits_zero

/-- Set the columns from `low` to `high - 1` to zero. -/
def zeroColumns (low high : Nat) (row : Row) : Row where
  coeff column := if low ≤ column ∧ column < high then 0 else row.coeff column
  bound := row.bound
  fits := by
    intro column
    split
    · exact fits_zero
    · exact row.fits column

/-- Columns that are zero do not count. -/
theorem zeroColumns_value {R : Type*} [CommRing R] {low high : Nat} {row : Row}
    {point : Nat → R} (order : low ≤ high) :
    (row.zeroColumns low high).value high point = row.value low point := by
  rw [Inequality.value_eq_sum, Inequality.value_eq_sum]
  refine (Finset.sum_subset_zero_on_sdiff
    (Finset.range_subset_range.mpr order) (fun column member => ?_)
    fun column member => ?_).symm
  · obtain ⟨inside, outside⟩ := Finset.mem_sdiff.mp member
    have above := Finset.mem_range.not.mp outside
    have zero : (row.zeroColumns low high).coeff column = 0 :=
      if_pos ⟨not_lt.mp above, Finset.mem_range.mp inside⟩
    rw [zero, Int.cast_zero, zero_mul]
  · have below := Finset.mem_range.mp member
    have kept : (row.zeroColumns low high).coeff column = row.coeff column := if_neg (by omega)
    rw [kept]

theorem zeroColumns_holds {R : Type*} [CommRing R] [LinearOrder R]
    {low high : Nat} {row : Row} {point : Nat → R} (order : low ≤ high) :
    (row.zeroColumns low high).Holds high point ↔ row.Holds low point := by
  unfold Inequality.Holds
  rw [zeroColumns_value order]
  rfl

end Row

/-- Set the columns of the work array up to the variables of a system to zero;
nothing where such a column lies outside of the array. -/
def Work.widen (work : Work) (vars : Nat) : Option Work :=
  if work.cols < vars ∧ 0 < work.rows ∧ maxWorkCols < vars then
    none
  else
    some
      { work with
        row r :=
          if r < work.rows then (work.row r).zeroColumns work.cols vars
          else work.row r }

namespace System

/-- `Add_Vars`. -/
def addVars (num_vars : Nat) (system : System) : System where
  le := system.le.map (Row.zeroColumns system.vars (system.vars + num_vars))
  eq := system.eq.map (Row.zeroColumns system.vars (system.vars + num_vars))
  vars := system.vars + num_vars

/-- `Add_Le`, for one row. -/
def addLe (row : Row) (system : System) : System :=
  { system with le := system.le ++ [Row.copy 0 system.vars Row.null row] }

/--
Look for one of the first inequalities that is a multiple of the row: the row
is left out, or put in its place.
-/
def scanLe (row : Row) (vars : Nat) : Nat → List Row → Option (List Row)
  | 0, _ => none
  | _ + 1, [] => none
  | eqns + 1, other :: rest =>
      match isSimpleRedundant row.toInequality other.toInequality 0 vars with
      | 1 => some (other :: rest)
      | 2 => some (Row.copy 0 vars other row :: rest)
      | _ => (scanLe row vars eqns rest).map (other :: ·)

/-- Add one row of the work array. -/
def addRow (eqns : Nat) (system : System) (row : Row) : System :=
  match scanLe row system.vars eqns system.le with
  | some le => { system with le := le }
  | none => system.addLe row

/-- The system with the columns of the work array. -/
def extend (work : Work) (system : System) : System :=
  if work.cols > system.vars then
    system.addVars (work.cols - system.vars + 1)
  else
    system

/--
`Add_Work_Le_Non_Simple_Redundant`: nothing where it writes outside of the
work array.
-/
def addWorkLeNonSimpleRedundant (work : Work) (system : System) : Option System :=
  let system := system.extend work
  match work.widen system.vars with
  | none => none
  | some work =>
      some (((List.range work.rows).map work.row).foldl
        (addRow system.le.length) system)

section Addition

variable {R : Type*} [CommRing R] [LinearOrder R] [IsStrictOrderedRing R]
  {work : Work} {system : System} {row : Row} {vars eqns : Nat}
  {rows : List Row} {point : Nat → R}

omit [IsStrictOrderedRing R] in
theorem holds_copy {target : Row} :
    (Row.copy 0 vars target row).Holds vars point ↔ row.Holds vars point :=
  (Row.same_copy (fun _ below => absurd below (Nat.not_lt_zero _))
    fun _ below => absurd below (Nat.not_lt_zero _)).holds

/-- A row that is left out or put in place is accounted for. -/
theorem scanLe_holds {after : List Row} (found : scanLe row vars eqns rows = some after) :
    (∀ other ∈ after, other.Holds vars point) ↔
      (∀ other ∈ rows, other.Holds vars point) ∧ row.Holds vars point := by
  induction eqns, rows using scanLe.induct row vars generalizing after with
  | case1 => cases found
  | case2 => cases found
  | case3 eqns other rest answer =>
      have right := @isSimpleRedundant_right R _ _ _ row.toInequality
        other.toInequality 0 vars (fun _ below => absurd below
          (Nat.not_lt_zero _)) (fun _ below => absurd below (Nat.not_lt_zero _))
      unfold scanLe at found
      rw [answer] at found
      cases found
      have implies := right.first answer
      rw [List.forall_mem_cons]
      exact ⟨fun all => ⟨all, implies all.1⟩, fun all => all.1⟩
  | case4 eqns other rest answer =>
      have right := @isSimpleRedundant_right R _ _ _ row.toInequality
        other.toInequality 0 vars (fun _ below => absurd below
          (Nat.not_lt_zero _)) (fun _ below => absurd below (Nat.not_lt_zero _))
      unfold scanLe at found
      rw [answer] at found
      cases found
      have implies := right.second answer
      rw [List.forall_mem_cons, List.forall_mem_cons, holds_copy]
      exact ⟨fun all => ⟨⟨implies all.1, all.2⟩, all.1⟩,
        fun all => ⟨all.2, all.1.2⟩⟩
  | case5 eqns other rest notFirst notSecond ih =>
      unfold scanLe at found
      split at found
      · rename_i answer
        exact absurd answer notFirst
      · rename_i answer
        exact absurd answer notSecond
      · obtain ⟨later, isLater, rfl⟩ := Option.map_eq_some_iff.mp found
        rw [List.forall_mem_cons, List.forall_mem_cons, ih isLater, and_assoc]

theorem addRow_holds :
    (addRow eqns system row).LeHolds point ↔
      system.LeHolds point ∧ row.Holds system.vars point := by
  unfold addRow
  split
  · rename_i after found
    exact scanLe_holds found
  · unfold addLe LeHolds
    dsimp only
    rw [List.forall_mem_append, List.forall_mem_singleton, holds_copy]

omit [IsStrictOrderedRing R] in
theorem addRow_vars : (addRow eqns system row).vars = system.vars := by
  unfold addRow
  split <;> rfl

theorem foldl_addRow_holds :
    (rows.foldl (addRow eqns) system).LeHolds point ↔
      system.LeHolds point ∧ ∀ row ∈ rows, row.Holds system.vars point := by
  induction rows generalizing system with
  | nil =>
      exact ⟨fun holds => ⟨holds, fun _ member =>
        absurd member List.not_mem_nil⟩, fun holds => holds.1⟩
  | cons row rows ih =>
      rw [List.foldl_cons, ih, addRow_holds, addRow_vars, List.forall_mem_cons, and_assoc]

omit [IsStrictOrderedRing R] in
theorem extend_holds : (system.extend work).LeHolds point ↔ system.LeHolds point := by
  unfold extend
  split
  · unfold LeHolds addVars
    dsimp only
    rw [List.forall_mem_map]
    exact forall₂_congr fun _ _ => Row.zeroColumns_holds (Nat.le_add_right _ _)
  · exact Iff.rfl

theorem extend_vars : work.cols ≤ (system.extend work).vars := by
  unfold extend
  split
  · change work.cols ≤ system.vars + _
    omega
  · omega

omit [IsStrictOrderedRing R] in
theorem widen_holds {wide : Work} (order : work.cols ≤ vars)
    (widened : work.widen vars = some wide) :
    (∀ row ∈ (List.range wide.rows).map wide.row, row.Holds vars point) ↔ work.Holds point := by
  unfold Work.widen at widened
  split at widened
  · cases widened
  · cases widened
    rw [List.forall_mem_map]
    dsimp only
    refine forall_congr' fun index => ?_
    rw [List.mem_range]
    refine forall_congr' fun inside => ?_
    rw [if_pos inside]
    exact Row.zeroColumns_holds order

/-- The rows of the work array join those of the system. -/
theorem addWorkLeNonSimpleRedundant_holds {after : System}
    (added : system.addWorkLeNonSimpleRedundant work = some after) :
    after.LeHolds point ↔ system.LeHolds point ∧ work.Holds point := by
  unfold addWorkLeNonSimpleRedundant at added
  dsimp only at added
  split at added
  · cases added
  · rename_i wide widened
    cases added
    rw [foldl_addRow_holds, extend_holds, widen_holds extend_vars widened]

omit [IsStrictOrderedRing R] in
/-- It stays in the work array unless it has to widen the rows too far. -/
theorem addWorkLeNonSimpleRedundant_isSome :
    (∃ after, system.addWorkLeNonSimpleRedundant work = some after) ↔
      ¬(work.cols < (system.extend work).vars ∧ 0 < work.rows ∧
        maxWorkCols < (system.extend work).vars) := by
  unfold addWorkLeNonSimpleRedundant Work.widen
  dsimp only
  split
  · rename_i outside
    split at outside
    · rename_i condition
      simp [condition]
    · cases outside
  · rename_i wide inside
    split at inside
    · cases inside
    · rename_i condition
      simp [condition]

end Addition

end System

/-! ## The verdicts and the solutions -/

section Verdicts

variable (R : Type*) [CommRing R] [LinearOrder R] [IsStrictOrderedRing R]

end Verdicts

/-- A row with one variable. -/
def single (coefficient bound : Int) : Inequality where
  coeff col := if col = 0 then coefficient else 0
  bound := bound

end OpenUH.Lno.SystemOfEquations
