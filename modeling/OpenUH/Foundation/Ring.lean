import Mathlib.Data.Nat.ModEq

/-!
# Rings of slots

A block of `size` slots used as a ring: position `start + k` is the slot
`(start + k) % size`.  A slice reads some slots in a row, from any position.
The lemmas say how a slice changes when it grows at either end, when a slot
outside it is written, and when the ring is laid out in a larger block.
-/

namespace OpenUH.Foundation.Ring

universe u

variable {α : Type u} {memory memory' : Nat → α}
  {size size' start start' count position : Nat}

/-- The contents of `count` slots of the ring, from position `start` on. -/
def slice (memory : Nat → α) (size start : Nat) : Nat → List α
  | 0 => []
  | count + 1 => memory (start % size) :: slice memory size (start + 1) count

@[simp]
theorem slice_zero : slice memory size start 0 = [] :=
  rfl

theorem slice_succ :
    slice memory size start (count + 1) =
      memory (start % size) :: slice memory size (start + 1) count :=
  rfl

@[simp]
theorem length_slice : (slice memory size start count).length = count := by
  induction count generalizing start with
  | zero => rfl
  | succ count ih =>
      rw [slice_succ, List.length_cons, ih]

/-- A slice grows at its end by the next slot. -/
theorem slice_concat :
    slice memory size start (count + 1) =
      slice memory size start count ++ [memory ((start + count) % size)] := by
  induction count generalizing start with
  | zero => rfl
  | succ count ih =>
      rw [slice_succ, ih, slice_succ, List.cons_append, Nat.add_right_comm, Nat.add_assoc]

/-- A slice is read in two parts. -/
theorem slice_add {more : Nat} :
    slice memory size start (count + more) =
      slice memory size start count ++ slice memory size (start + count) more := by
  induction more with
  | zero => rw [slice_zero, List.append_nil, Nat.add_zero]
  | succ more ih =>
      rw [← Nat.add_assoc, slice_concat, ih, slice_concat, List.append_assoc, Nat.add_assoc]

/-- Where two memories agree on the slots read, so do the slices. -/
theorem slice_congr
    (same : ∀ offset < count,
      memory ((start + offset) % size) = memory' ((start' + offset) % size')) :
    slice memory size start count = slice memory' size' start' count := by
  induction count generalizing start start' with
  | zero => rfl
  | succ count ih =>
      rw [slice_succ, slice_succ]
      congr 1
      · exact same 0 (Nat.succ_pos count)
      · apply ih
        intro offset inside
        rw [Nat.add_assoc, Nat.add_assoc, Nat.add_comm 1]
        exact same (offset + 1) (Nat.succ_lt_succ inside)

/-- A slice starts anew after each turn around the ring. -/
theorem slice_of_modEq (same : start ≡ start' [MOD size]) :
    slice memory size start count = slice memory size start' count :=
  slice_congr fun offset _ => congrArg memory (same.add_right offset)

/-- Two positions less than a turn apart are different slots. -/
theorem position_ne {offset : Nat} (further : offset ≠ 0) (inside : offset < size) :
    (position + offset) % size ≠ position % size := by
  intro same
  have turned : position + offset ≡ position + 0 [MOD size] := same
  have none := Nat.ModEq.add_left_cancel' position turned
  rw [Nat.ModEq, Nat.mod_eq_of_lt inside, Nat.zero_mod] at none
  exact further none

/-- Writing the slot behind a slice leaves the slice as it was. -/
theorem slice_update_behind {value : α} (room : count < size) :
    slice (Function.update memory ((start + count) % size) value) size start
        count =
      slice memory size start count := by
  apply slice_congr
  intro offset inside
  apply Function.update_of_ne
  have split : start + count = start + offset + (count - offset) := by omega
  rw [split]
  exact (position_ne (by omega) (by omega)).symm

/-- Writing the slot in front of a slice leaves the slice as it was. -/
theorem slice_update_front {value : α} (room : count < size) :
    slice (Function.update memory (start % size) value) size (start + 1)
        count =
      slice memory size (start + 1) count := by
  apply slice_congr
  intro offset inside
  apply Function.update_of_ne
  rw [Nat.add_assoc]
  exact position_ne (by omega) (by omega)

/-- The index before the next one, as it is computed without negative numbers. -/
theorem predecessor_eq {index : Nat} (positive : 0 < size)
    (next : index ≡ position + 1 [MOD size]) :
    (if index ≠ 0 then (index - 1) % size else size - 1) = position % size := by
  have goal : (if index ≠ 0 then index - 1 else size - 1) ≡ position [MOD size] := by
    apply Nat.ModEq.add_right_cancel' 1
    refine Nat.ModEq.trans ?_ next
    split <;> rename_i first
    · rw [Nat.sub_add_cancel (Nat.one_le_iff_ne_zero.mpr first)]
    · rw [Nat.sub_add_cancel positive, not_not.mp first]
      exact Nat.modEq_zero_iff_dvd.mpr (Nat.dvd_refl size)
  rw [← show _ % size = position % size from goal]
  split <;> rename_i first
  · rfl
  · exact (Nat.mod_eq_of_lt (Nat.sub_one_lt_of_lt positive)).symm

/-- A slice that is laid out in a larger block without wrapping around. -/
theorem slice_larger (fits : start + count ≤ size')
    (copied : ∀ index, start ≤ index → index < start + count →
      memory' index = memory (index % size)) :
    slice memory' size' start count = slice memory size start count := by
  apply slice_congr
  intro offset inside
  rw [Nat.mod_eq_of_lt (by omega)]
  exact copied (start + offset) (Nat.le_add_right ..) (by omega)

end OpenUH.Foundation.Ring
