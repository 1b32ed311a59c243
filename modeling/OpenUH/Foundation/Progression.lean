import Mathlib.Data.Set.Card
import Mathlib.Data.Int.Interval
import Mathlib.Tactic.Ring
import Mathlib.Tactic.Linarith
import Mathlib.Order.CompletePartialOrder

/-!
# Bounded arithmetic progressions

The values a counted loop runs through: from `first` in steps of `stride`, as
long as `last` is not passed.  A positive stride runs upwards and a negative
one downwards; the rules below treat both at once.
-/

namespace OpenUH.Foundation.Progression

/-- `value` has not passed `last` in the direction of `stride`. -/
def Within (stride last value : Int) : Prop :=
  if 0 < stride then value ≤ last else last ≤ value

/-- `earlier` is passed before `later`. -/
def Precedes (stride earlier later : Int) : Prop :=
  if 0 < stride then earlier < later else later < earlier

/-- The bound that is passed first. -/
def clip (stride last bound : Int) : Int :=
  if 0 < stride then min last bound else max last bound

instance (stride last value : Int) : Decidable (Within stride last value) :=
  inferInstanceAs (Decidable (if 0 < stride then _ else _))

/-- The values of a counted loop. -/
def progression (stride first last : Int) : Set Int :=
  { value | (∃ count : Nat, value = first + count * stride) ∧
      Within stride last value }

variable {stride first last value : Int}

theorem within_clip {bound : Int} :
    Within stride (clip stride last bound) value ↔
      Within stride last value ∧ Within stride bound value := by
  unfold Within clip
  by_cases upward : 0 < stride
  · simp [upward]
  · simp [upward]

theorem precedes_iff_not_within : Precedes stride last value ↔ ¬ Within stride last value := by
  unfold Precedes Within
  by_cases upward : 0 < stride
  · simp [upward]
  · simp [upward]

/-- A value that precedes another is within the bound the other is within. -/
theorem Within.of_precedes {later : Int} (within : Within stride last later)
    (before : Precedes stride value later) :
    Within stride last value := by
  unfold Within Precedes at *
  by_cases upward : 0 < stride
  · simp only [upward, if_true] at *
    omega
  · simp only [upward, if_false] at *
    omega

theorem precedes_add_mul (nonzero : stride ≠ 0) {fewer more : Int} (less : fewer < more) :
    Precedes stride (first + fewer * stride) (first + more * stride) := by
  unfold Precedes
  by_cases upward : 0 < stride
  · rw [if_pos upward]
    have scaled : fewer * stride < more * stride := Int.mul_lt_mul_of_pos_right less upward
    omega
  · rw [if_neg upward]
    have downward : stride < 0 := by omega
    have scaled : more * stride < fewer * stride := Int.mul_lt_mul_of_neg_right less downward
    omega

theorem Precedes.trans {middle : Int} (left : Precedes stride first middle)
    (right : Precedes stride middle last) :
    Precedes stride first last := by
  unfold Precedes at *
  by_cases upward : 0 < stride
  · simp only [upward, if_true] at *
    omega
  · simp only [upward, if_false] at *
    omega

theorem first_mem_progression (within : Within stride last first) :
    first ∈ progression stride first last :=
  ⟨⟨0, by simp⟩, within⟩

/-- A loop that starts past its bound runs no iteration. -/
theorem progression_eq_empty (nonzero : stride ≠ 0) (past : ¬ Within stride last first) :
    progression stride first last = ∅ := by
  apply Set.eq_empty_of_forall_notMem
  rintro value ⟨⟨count, rfl⟩, within⟩
  apply past
  rcases Nat.eq_zero_or_pos count with zero | positive
  · simpa [zero] using within
  · apply within.of_precedes
    have start : first + 0 * stride = first := by ring
    rw [← start]
    conv_rhs => rw [start]
    exact precedes_add_mul nonzero (by omega)

/-- The first values, those up to the last of `count` steps, and the rest. -/
theorem progression_split (nonzero : stride ≠ 0) {count : Int} (positive : 0 < count) :
    progression stride first last =
      progression stride first
          (clip stride last (first + (count - 1) * stride)) ∪
        progression stride (first + count * stride) last := by
  ext value
  constructor
  · rintro ⟨⟨steps, rfl⟩, within⟩
    by_cases early : (steps : Int) < count
    · left
      refine ⟨⟨steps, rfl⟩, within_clip.mpr ⟨within, ?_⟩⟩
      by_contra past
      have precedes := precedes_iff_not_within.mpr past
      have atMost : (steps : Int) ≤ count - 1 := by omega
      rcases atMost.lt_or_eq with less | equality
      · have opposite : Precedes stride (first + steps * stride) (first + (count - 1) * stride) :=
          precedes_add_mul nonzero less
        have loop := precedes.trans opposite
        unfold Precedes at loop
        split at loop <;> omega
      · rw [← equality] at precedes
        unfold Precedes at precedes
        split at precedes <;> omega
    · right
      refine ⟨⟨(steps - count).toNat, ?_⟩, within⟩
      have rest : ((steps - count).toNat : Int) = steps - count := by omega
      rw [rest]
      ring
  · rintro (⟨steps, within⟩ | ⟨⟨steps, rfl⟩, within⟩)
    · exact ⟨steps, (within_clip.mp within).1⟩
    · refine ⟨⟨count.toNat + steps, ?_⟩, within⟩
      have rest : ((count.toNat + steps : Nat) : Int) = count + steps := by
        omega
      rw [rest]
      ring

/-- The values of the first part precede those of the rest. -/
theorem precedes_of_split (nonzero : stride ≠ 0) {count earlier later : Int}
    (inFirst : earlier ∈ progression stride first (clip stride last (first + (count - 1) * stride)))
    (inRest : later ∈ progression stride (first + count * stride) last) :
    Precedes stride earlier later := by
  obtain ⟨⟨few, rfl⟩, within⟩ := inFirst
  obtain ⟨⟨more, rfl⟩, -⟩ := inRest
  have few_lt : (few : Int) < count := by
    by_contra many
    have precedes : Precedes stride (first + (count - 1) * stride) (first + few * stride) :=
      precedes_add_mul nonzero (by omega)
    exact precedes_iff_not_within.mp precedes (within_clip.mp within).2
  have shifted : first + count * stride + more * stride = first + (count + more) * stride := by ring
  rw [shifted]
  exact precedes_add_mul nonzero (by omega)

theorem Precedes.ne {earlier later : Int}
    (precedes : Precedes stride earlier later) : earlier ≠ later := by
  rintro rfl
  unfold Precedes at precedes
  split at precedes <;> omega

theorem disjoint_of_precedes {left right : Set Int}
    (ordered : ∀ earlier ∈ left, ∀ later ∈ right, Precedes stride earlier later) :
    Disjoint left right := by
  rw [Set.disjoint_left]
  intro value inLeft inRight
  exact (ordered value inLeft value inRight).ne rfl

theorem progression_finite : (progression stride first last).Finite := by
  by_cases upward : 0 < stride
  · apply (Set.finite_Icc first last).subset
    rintro value ⟨⟨count, rfl⟩, within⟩
    have scaled : 0 ≤ (count : Int) * stride := Int.mul_nonneg (Int.natCast_nonneg count) upward.le
    simp only [Within, upward, if_true] at within
    exact ⟨by omega, within⟩
  · apply (Set.finite_Icc last first).subset
    rintro value ⟨⟨count, rfl⟩, within⟩
    have scaled : (count : Int) * stride ≤ 0 :=
      Int.mul_nonpos_of_nonneg_of_nonpos (Int.natCast_nonneg count) (by omega)
    simp only [Within, upward, if_false] at within
    exact ⟨within, by omega⟩

/-- Splitting off a first part leaves fewer values. -/
theorem ncard_split (nonzero : stride ≠ 0) {count : Int}
    (positive : 0 < count) (within : Within stride last first) :
    (progression stride (first + count * stride) last).ncard <
      (progression stride first last).ncard := by
  apply Set.ncard_lt_ncard _ progression_finite
  rw [Set.ssubset_iff_of_subset]
  · refine ⟨first, first_mem_progression within, ?_⟩
    intro inRest
    have inFirst : first ∈ progression stride first
        (clip stride last (first + (count - 1) * stride)) := by
      apply first_mem_progression
      rw [within_clip]
      refine ⟨within, ?_⟩
      unfold Within
      split
      · have scaled : 0 ≤ (count - 1) * stride :=
          Int.mul_nonneg (by omega) (by omega)
        omega
      · have scaled : (count - 1) * stride ≤ 0 :=
          Int.mul_nonpos_of_nonneg_of_nonpos (by omega) (by omega)
        omega
    exact (precedes_of_split nonzero inFirst inRest).ne rfl
  · intro value inRest
    rw [progression_split nonzero positive]
    exact Or.inr inRest

/-! ## The number of values -/

/-- How many values a loop runs through. -/
def length (stride first last : Int) : Nat :=
  if 0 < stride then
    if first ≤ last then ((last - first) / stride + 1).toNat else 0
  else
    if last ≤ first then ((first - last) / (-stride) + 1).toNat else 0

/-- The values within the bound are the first ones, as many as the length. -/
theorem within_iff_lt_length (nonzero : stride ≠ 0) {count : Nat} :
    Within stride last (first + count * stride) ↔ count < length stride first last := by
  unfold Within length
  by_cases upward : 0 < stride
  · rw [if_pos upward, if_pos upward]
    by_cases some : first ≤ last
    · rw [if_pos some]
      have quotient : (count : Int) ≤ (last - first) / stride ↔
          count * stride ≤ last - first := Int.le_ediv_iff_mul_le upward
      have positive : 0 ≤ (last - first) / stride := Int.ediv_nonneg (by omega) upward.le
      omega
    · rw [if_neg some]
      have scaled : 0 ≤ (count : Int) * stride :=
        Int.mul_nonneg (Int.natCast_nonneg count) upward.le
      omega
  · rw [if_neg upward, if_neg upward]
    have downward : 0 < -stride := by omega
    by_cases some : last ≤ first
    · rw [if_pos some]
      have quotient : (count : Int) ≤ (first - last) / (-stride) ↔
          count * -stride ≤ first - last := Int.le_ediv_iff_mul_le downward
      have positive : 0 ≤ (first - last) / (-stride) := Int.ediv_nonneg (by omega) downward.le
      rw [Int.mul_neg] at quotient
      omega
    · rw [if_neg some]
      have scaled : 0 ≤ (count : Int) * -stride :=
        Int.mul_nonneg (Int.natCast_nonneg count) downward.le
      rw [Int.mul_neg] at scaled
      omega

theorem mem_progression_iff (nonzero : stride ≠ 0) :
    value ∈ progression stride first last ↔
      ∃ count < length stride first last, value = first + count * stride := by
  constructor
  · rintro ⟨⟨count, rfl⟩, within⟩
    exact ⟨count, (within_iff_lt_length nonzero).1 within, rfl⟩
  · rintro ⟨count, below, rfl⟩
    exact ⟨⟨count, rfl⟩, (within_iff_lt_length nonzero).2 below⟩

theorem precedes_add_mul_iff (nonzero : stride ≠ 0) {fewer more : Int} :
    Precedes stride (first + fewer * stride) (first + more * stride) ↔ fewer < more := by
  constructor
  · intro precedes
    by_contra less
    rcases (Int.not_lt.1 less).lt_or_eq with reversed | same
    · have loop := precedes.trans (precedes_add_mul nonzero reversed)
      exact loop.ne rfl
    · exact precedes.ne (by rw [same])
  · exact precedes_add_mul nonzero

end OpenUH.Foundation.Progression
