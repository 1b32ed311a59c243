import Mathlib.Tactic.Ring

/-!
# Odometers

A nest of counting loops is run by one counter.  The dimensions of the nest are
listed with the innermost first, so that each digit of the counter is taken off
by a division, and a turn of the counter carries from one dimension to the next.
-/

namespace OpenUH.Foundation.Odometer

/-- The index tuples of a nest of loops, in the order of the nest. -/
def indices : List Nat → List (List Nat)
  | [] => [[]]
  | count :: outer =>
      (indices outer).flatMap fun rest =>
        (List.range count).map fun index => index :: rest

/-- The digits of a counter, the innermost first. -/
def numeral : List Nat → Nat → List Nat
  | [], _ => []
  | count :: outer, counter =>
      counter % count :: numeral outer (counter / count)

variable {counts outer : List Nat} {count counter : Nat}

/-! ## Index tuples -/

/-- Counting through a row of the innermost dimension. -/
theorem range_mul :
    List.range (count * counter) = (List.range counter).flatMap fun row =>
        (List.range count).map fun index => index + count * row := by
  induction counter with
  | zero => simp
  | succ counter ih =>
      rw [Nat.mul_succ, List.range_add, ih, List.range_succ, List.flatMap_append]
      simp [Nat.add_comm]

/-- The counter runs through the index tuples in the order of the nest. -/
theorem indices_eq : indices counts = (List.range counts.prod).map (numeral counts) := by
  induction counts with
  | nil => rfl
  | cons count outer ih =>
      rw [indices, ih, List.prod_cons, range_mul, List.map_flatMap, List.flatMap_map]
      congr 1
      funext row
      rw [List.map_map]
      apply List.map_congr_left
      intro index member
      have below := List.mem_range.1 member
      have positive := Nat.zero_lt_of_lt below
      show index :: numeral outer row = numeral (count :: outer) _
      rw [numeral, Nat.add_mul_mod_self_left, Nat.mod_eq_of_lt below,
        Nat.add_mul_div_left _ _ positive, Nat.div_eq_of_lt below,
        Nat.zero_add]

/-! ## Displacements -/

universe u

variable {R : Type u} [CommRing R]

/-- How far an index tuple lies from the start, with the strides given. -/
def displacement (strides : List R) (index : List Nat) : R :=
  (List.zipWith (fun (stride : R) (digit : Nat) => digit * stride)
    strides index).sum

@[simp]
theorem displacement_nil (index : List Nat) : displacement ([] : List R) index = 0 := by
  simp [displacement]

@[simp]
theorem displacement_cons (stride : R) (strides : List R) (digit : Nat) (rest : List Nat) :
    displacement (stride :: strides) (digit :: rest) =
      digit * stride + displacement strides rest := by
  simp [displacement]

@[simp]
theorem displacement_zero (strides : List R) : displacement strides (numeral counts 0) = 0 := by
  induction counts generalizing strides with
  | nil => cases strides <;> simp [numeral, displacement]
  | cons count outer ih =>
      cases strides with
      | nil => simp
      | cons stride strides => simp [numeral, ih]

/--
The position after a turn of the counter.  A dimension that rolls over is
rewound, and the first one that does not moves on.
-/
def advance : List (Nat × R) → Nat → R → R
  | [], _, position => position
  | (count, stride) :: outer, counter, position =>
      if counter % count = 0 then
        advance outer (counter / count) (position - (count - 1 : Nat) * stride)
      else
        position + stride

/-- A counter below its end moves from one index tuple to the next. -/
theorem advance_displacement (levels : List (Nat × R)) (start : R)
    (below : counter + 1 < (levels.map Prod.fst).prod) :
    advance levels (counter + 1)
        (start + displacement (levels.map Prod.snd) (numeral (levels.map Prod.fst) counter)) =
      start + displacement (levels.map Prod.snd) (numeral (levels.map Prod.fst) (counter + 1)) := by
  induction levels generalizing counter start with
  | nil => simp at below
  | cons level outer ih =>
      obtain ⟨count, stride⟩ := level
      rw [List.map_cons, List.prod_cons] at below
      have positive : 0 < count := by
        by_contra zero
        rw [Nat.eq_zero_of_not_pos zero, Nat.zero_mul] at below
        exact absurd below (Nat.not_lt_zero _)
      simp only [List.map_cons, numeral, displacement_cons, advance]
      by_cases rolls : (counter + 1) % count = 0
      · have quotient : (counter + 1) / count = counter / count + 1 := by
          rw [Nat.succ_div, if_pos (Nat.dvd_of_mod_eq_zero rolls)]
        have digit : counter % count = count - 1 := by
          have := Nat.div_add_mod (counter + 1) count
          have := Nat.div_add_mod counter count
          rw [quotient, Nat.mul_add, Nat.mul_one, rolls] at *
          omega
        have inner : counter / count + 1 < (outer.map Prod.fst).prod := by
          rw [← quotient]
          exact (Nat.div_lt_iff_lt_mul positive).2 (by rwa [Nat.mul_comm])
        rw [if_pos rolls, rolls, quotient, digit]
        have step := ih start inner
        rw [show start + ((count - 1 : Nat) * stride +
              displacement (outer.map Prod.snd) (numeral (outer.map Prod.fst) (counter / count))) -
            (count - 1 : Nat) * stride =
          start + displacement (outer.map Prod.snd)
            (numeral (outer.map Prod.fst) (counter / count)) by ring, step]
        simp
      · have quotient : (counter + 1) / count = counter / count := by
          rw [Nat.succ_div, if_neg fun divides =>
            rolls (Nat.mod_eq_zero_of_dvd divides)]
          rfl
        have digit : (counter + 1) % count = counter % count + 1 := by
          have := Nat.div_add_mod (counter + 1) count
          have := Nat.div_add_mod counter count
          rw [quotient] at *
          omega
        rw [if_neg rolls, quotient, digit]
        push_cast
        ring

end OpenUH.Foundation.Odometer
