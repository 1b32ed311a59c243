import Mathlib.Algebra.Order.BigOperators.Group.List

/-!
# Mixed radix numerals

A number is written with one digit for each radix of a list, the most
significant first.  The first digit is not bounded, so that every number has a
numeral; the order of the numbers is the lexicographic order of the numerals.
-/

namespace OpenUH.Foundation.MixedRadix

/-- The digits of a number, the most significant first. -/
def digits : List Nat → Nat → List Nat
  | [], _ => []
  | _ :: inner, number =>
      number / inner.prod :: digits inner (number % inner.prod)

/-- The number that has the digits. -/
def value : List Nat → List Nat → Nat
  | _ :: inner, digit :: rest => digit * inner.prod + value inner rest
  | _, _ => 0

/-- Every digit is below its radix. -/
def Proper (radices digits : List Nat) : Prop :=
  List.Forall₂ (fun digit radix => digit < radix) digits radices

variable {radices inner : List Nat} {number other radix : Nat}

@[simp]
theorem length_digits : (digits radices number).length = radices.length := by
  induction radices generalizing number with
  | nil => rfl
  | cons radix inner ih =>
      simp [digits, ih]

/-- A number below the product of the radices has proper digits. -/
theorem proper_digits (below : number < radices.prod) : Proper radices (digits radices number) := by
  induction radices generalizing number with
  | nil => exact .nil
  | cons radix inner ih =>
      rw [List.prod_cons] at below
      have positive : 0 < inner.prod := by
        by_contra none
        rw [Nat.eq_zero_of_not_pos none, Nat.mul_zero] at below
        exact absurd below (Nat.not_lt_zero _)
      refine .cons ?_ (ih (Nat.mod_lt _ positive))
      rwa [Nat.div_lt_iff_lt_mul positive]

/-- Proper digits are those of a number below the product. -/
theorem value_lt {numeral : List Nat} (proper : Proper radices numeral) :
    value radices numeral < radices.prod := by
  induction proper with
  | nil => simp [value]
  | @cons digit radix rest inner below _ ih =>
      rw [value, List.prod_cons]
      calc digit * inner.prod + value inner rest
          < digit * inner.prod + inner.prod := by omega
        _ = (digit + 1) * inner.prod := by rw [Nat.succ_mul]
        _ ≤ radix * inner.prod := Nat.mul_le_mul_right _ below

theorem digits_value {numeral : List Nat} (proper : Proper radices numeral) :
    digits radices (value radices numeral) = numeral := by
  induction proper with
  | nil => rfl
  | @cons digit radix rest inner below tail ih =>
      have small := value_lt tail
      have positive : 0 < inner.prod := Nat.zero_lt_of_lt small
      rw [digits, value, Nat.mul_comm, Nat.mul_add_div positive,
        Nat.div_eq_of_lt small, Nat.add_zero, Nat.mul_add_mod,
        Nat.mod_eq_of_lt small, ih]

/-- The least significant digit is taken off by a division. -/
theorem digits_concat (nonempty : radices ≠ []) :
    digits (radices ++ [radix]) number = digits radices (number / radix) ++ [number % radix] := by
  induction radices generalizing number with
  | nil => exact absurd rfl nonempty
  | cons first inner ih =>
      rw [List.cons_append, digits, digits, List.cons_append, List.prod_append, List.prod_singleton]
      have quotient : number / (inner.prod * radix) = number / radix / inner.prod := by
        rw [Nat.div_div_eq_div_mul, Nat.mul_comm]
      rw [quotient]
      cases inner with
      | nil => simp [digits]
      | cons second rest =>
          rw [ih (by simp), Nat.mul_comm, Nat.mod_mul_right_div_self, Nat.mod_mul_right_mod]

/-! ## Lexicographic order -/

universe u v

variable {Place : Type u} {Symbol : Type v}

/-- Lists in lexicographic order, where each place has an order of its own. -/
def Before (less : Place → Symbol → Symbol → Prop) :
    List Place → List Symbol → List Symbol → Prop
  | place :: places, first :: left, second :: right =>
      less place first second ∨ first = second ∧ Before less places left right
  | _, _, _ => False

/-- The symbols that stand for the digits, place by place. -/
def symbols (encode : Place → Nat → Symbol) (radix : Place → Nat)
    (places : List Place) (number : Nat) : List Symbol :=
  List.zipWith encode places (digits (places.map radix) number)

variable {less : Place → Symbol → Symbol → Prop}
  {encode : Place → Nat → Symbol} {size : Place → Nat}
  {place : Place} {places : List Place}

theorem symbols_cons :
    symbols encode size (place :: places) number =
      encode place (number / (places.map size).prod) ::
        symbols encode size places (number % (places.map size).prod) := rfl

/-- Two digits that stand for the same symbol are equal. -/
theorem encode_injective
    (ordered : ∀ digit digit',
      less place (encode place digit) (encode place digit') ↔ digit < digit')
    {digit digit' : Nat} :
    encode place digit = encode place digit' ↔ digit = digit' := by
  constructor
  · intro same
    have unlike : ∀ {low high : Nat}, encode place low = encode place high → ¬ low < high := by
      intro low high same less
      have := (ordered low high).2 less
      rw [same, ordered] at this
      exact absurd this (Nat.lt_irrefl _)
    exact Nat.le_antisymm (Nat.le_of_not_lt (unlike same.symm)) (Nat.le_of_not_lt (unlike same))
  · rintro rfl
    rfl

/-- A digit decides, and the rest decides where the digits are the same. -/
theorem lt_iff_div_mod {modulus : Nat} (positive : 0 < modulus) :
    number < other ↔ number / modulus < other / modulus ∨
      number / modulus = other / modulus ∧ number % modulus < other % modulus := by
  have first := Nat.div_add_mod number modulus
  have second := Nat.div_add_mod other modulus
  have firstRest := Nat.mod_lt number positive
  have secondRest := Nat.mod_lt other positive
  constructor
  · intro less
    rcases Nat.lt_trichotomy (number / modulus) (other / modulus) with lower | same | higher
    · exact Or.inl lower
    · refine Or.inr ⟨same, ?_⟩
      rw [same] at first
      omega
    · exact absurd (Nat.div_le_div_right less.le) (Nat.not_le.2 higher)
  · rintro (lower | ⟨same, rest⟩)
    · by_contra more
      exact absurd (Nat.div_le_div_right (Nat.le_of_not_lt more)) (Nat.not_le.2 lower)
    · rw [same] at first
      omega

/-- Numbers below the product are ordered as their symbols are. -/
theorem before_symbols_of_lt
    (ordered : ∀ place ∈ places, ∀ digit digit',
      less place (encode place digit) (encode place digit') ↔ digit < digit')
    (below : number < (places.map size).prod)
    (below' : other < (places.map size).prod) :
    Before less places (symbols encode size places number)
      (symbols encode size places other) ↔ number < other := by
  induction places generalizing number other with
  | nil =>
      simp only [List.map_nil, List.prod_nil] at below below'
      simp only [Before, false_iff]
      omega
  | cons place places ih =>
      rw [List.map_cons, List.prod_cons] at below below'
      have positive : 0 < (places.map size).prod := by
        by_contra none
        rw [Nat.eq_zero_of_not_pos none, Nat.mul_zero] at below
        exact absurd below (Nat.not_lt_zero _)
      have here := ordered place List.mem_cons_self
      rw [symbols_cons, symbols_cons, Before, here, encode_injective here,
        ih
          (fun inner member => ordered inner (List.mem_cons_of_mem _ member))
          (Nat.mod_lt _ positive) (Nat.mod_lt _ positive),
        ← lt_iff_div_mod positive]

/-- So are all numbers, as the first digit is not bounded. -/
theorem before_symbols
    (ordered : ∀ inner ∈ place :: places, ∀ digit digit',
      less inner (encode inner digit) (encode inner digit') ↔ digit < digit')
    (positive : 0 < (places.map size).prod) :
    Before less (place :: places)
      (symbols encode size (place :: places) number)
      (symbols encode size (place :: places) other) ↔ number < other := by
  have here := ordered place List.mem_cons_self
  rw [symbols_cons, symbols_cons, Before, here, encode_injective here,
    before_symbols_of_lt
      (fun inner member => ordered inner (List.mem_cons_of_mem _ member))
      (Nat.mod_lt _ positive) (Nat.mod_lt _ positive),
    ← lt_iff_div_mod positive]

end OpenUH.Foundation.MixedRadix
