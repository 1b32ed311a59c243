import Mathlib.Tactic.Ring

/-!
# Blocks dealt in turn

The numbers below a total are cut into blocks of one size, and the blocks are
dealt to a count of players in turn.  `rounds` lists the numbers of a player,
block after block; every number is dealt to exactly one of the players.
-/

namespace OpenUH.Foundation.BlockCyclic

variable {total size stride count fuel start number position : Nat}

/-- The numbers below `total` in blocks that start `stride` apart. -/
def rounds (total size stride : Nat) : Nat → Nat → List Nat
  | 0, _ => []
  | fuel + 1, start =>
      if start < total then
        List.range' start (min size (total - start)) ++
          rounds total size stride fuel (start + stride)
      else
        []

/-- The numbers of a player. -/
def deal (total size count position : Nat) : List Nat :=
  rounds total size (count * size) total (position * size)

theorem rounds_past (past : total ≤ start) : rounds total size stride fuel start = [] := by
  cases fuel with
  | zero => rfl
  | succ fuel => exact if_neg (Nat.not_lt.mpr past)

/-- There is fuel for all blocks that start below the total. -/
def Enough (total stride fuel start : Nat) : Prop :=
  total ≤ start + fuel * stride

theorem Enough.next (enough : Enough total stride (fuel + 1) start) :
    Enough total stride fuel (start + stride) := by
  unfold Enough at *
  rw [Nat.succ_mul] at enough
  omega

/-- More fuel changes nothing. -/
theorem rounds_fuel {fuel' : Nat} (enough : Enough total stride fuel start)
    (enough' : Enough total stride fuel' start) :
    rounds total size stride fuel start = rounds total size stride fuel' start := by
  induction fuel generalizing start fuel' with
  | zero =>
      unfold Enough at enough
      rw [rounds_past (by omega), rounds_past (by omega)]
  | succ fuel ih =>
      cases fuel' with
      | zero =>
          unfold Enough at enough'
          rw [rounds_past (by omega), rounds_past (by omega)]
      | succ fuel' =>
          rw [rounds, rounds, ih enough.next enough'.next]

/-- The numbers of one block. -/
theorem rounds_one :
    rounds total size stride 1 start = List.range' start (min size (total - start)) := by
  rw [rounds, rounds, List.append_nil]
  split
  · rfl
  · rw [Nat.sub_eq_zero_of_le (by omega), Nat.min_zero, List.range'_zero]

/-- A number is listed where one of the blocks holds it. -/
theorem mem_rounds (enough : Enough total stride fuel start) :
    number ∈ rounds total size stride fuel start ↔
      number < total ∧ ∃ turn, start + turn * stride ≤ number ∧
        number < start + turn * stride + size := by
  induction fuel generalizing start with
  | zero =>
      unfold Enough at enough
      rw [rounds_past (by omega)]
      refine iff_of_false List.not_mem_nil ?_
      rintro ⟨below, turn, above, -⟩
      omega
  | succ fuel ih =>
      rw [rounds]
      split
      · rename_i inside
        rw [List.mem_append, List.mem_range'_1, ih enough.next]
        constructor
        · rintro (⟨above, below⟩ | ⟨below, turn, above, within⟩)
          · exact ⟨by omega, 0, by omega, by omega⟩
          · refine ⟨below, turn + 1, ?_, ?_⟩
            · rw [Nat.succ_mul]
              omega
            · rw [Nat.succ_mul]
              omega
        · rintro ⟨below, turn, above, within⟩
          cases turn with
          | zero => exact .inl ⟨by omega, by omega⟩
          | succ turn =>
              rw [Nat.succ_mul] at above within
              exact .inr ⟨below, turn, by omega, by omega⟩
      · rename_i past
        refine iff_of_false List.not_mem_nil ?_
        rintro ⟨below, turn, above, -⟩
        omega

/-- The numbers come in order. -/
theorem rounds_ordered (apart : size ≤ stride) :
    (rounds total size stride fuel start).Pairwise (· < ·) ∧
      ∀ number ∈ rounds total size stride fuel start, start ≤ number := by
  induction fuel generalizing start with
  | zero => exact ⟨List.Pairwise.nil, nofun⟩
  | succ fuel ih =>
      obtain ⟨ordered, above⟩ := @ih (start + stride)
      rw [rounds]
      split
      · refine ⟨List.pairwise_append.mpr ⟨List.pairwise_lt_range', ordered, ?_⟩, ?_⟩
        · intro first inBlock second inRest
          have low := (List.mem_range'_1.mp inBlock).2
          have high := above second inRest
          omega
        · intro number member
          rcases List.mem_append.mp member with inBlock | inRest
          · exact (List.mem_range'_1.mp inBlock).1
          · have := above number inRest
            omega
      · exact ⟨List.Pairwise.nil, nofun⟩

/-- The player of a number is the one whose turn its block is. -/
theorem mem_deal (some : 0 < size) (player : position < count) :
    number ∈ deal total size count position ↔
      number < total ∧ number / size % count = position := by
  have apart : 0 < count * size := Nat.mul_pos (Nat.zero_lt_of_lt player) some
  have enough : Enough total (count * size) total (position * size) := by
    unfold Enough
    have := Nat.le_mul_of_pos_right total apart
    omega
  rw [deal, mem_rounds enough]
  refine and_congr_right fun _ => ?_
  have block (turn : Nat) :
      (position * size + turn * (count * size) ≤ number ∧
        number < position * size + turn * (count * size) + size) ↔
        number / size = position + count * turn := by
    have same : position * size + turn * (count * size) =
        (position + count * turn) * size := by ring
    rw [same, ← Nat.le_div_iff_mul_le some, ← Nat.succ_mul, ← Nat.div_lt_iff_lt_mul some]
    omega
  simp only [block]
  constructor
  · rintro ⟨turn, equal⟩
    rw [equal, Nat.add_mul_mod_self_left, Nat.mod_eq_of_lt player]
  · intro equal
    refine ⟨number / size / count, ?_⟩
    rw [← equal, Nat.mod_add_div]

theorem deal_nodup (player : position < count) : (deal total size count position).Nodup := by
  have apart : size ≤ count * size := Nat.le_mul_of_pos_left size (Nat.zero_lt_of_lt player)
  exact (rounds_ordered apart).1.imp fun less => Nat.ne_of_lt less

end OpenUH.Foundation.BlockCyclic
