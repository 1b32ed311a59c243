import Mathlib.Data.Nat.Log
import Mathlib.Data.Nat.ModEq
import Mathlib.Tactic.Ring

/-!
# Dissemination around a ring

Parties sit on a ring.  In round `r` every party sends to the one `2 ^ r`
places ahead and hears from the one `2 ^ r` places behind, and it sends in a
round only after it heard in the round before.  Repeated episodes are counted:
`begun`, `sent` and `heard` say in how many episodes a party got that far.
-/

namespace OpenUH.Foundation.Dissemination

/-- The place `distance` behind `place` on a ring of `size` places. -/
def behind (size place distance : Nat) : Nat :=
  (place + size - distance % size) % size

/-- The place `distance` ahead of `place`. -/
def ahead (size place distance : Nat) : Nat :=
  (place + distance) % size

/-- How many rounds a dissemination among `size` parties takes. -/
def rounds (size : Nat) : Nat :=
  Nat.clog 2 size

variable {size : Nat}

variable {place : Nat}

theorem behind_lt (inside : place < size) (distance : Nat) :
    behind size place distance < size :=
  Nat.mod_lt _ (by omega)

theorem ahead_lt (inside : place < size) (distance : Nat) :
    ahead size place distance < size :=
  Nat.mod_lt _ (by omega)

theorem behind_zero (inside : place < size) : behind size place 0 = place := by
  simp [behind, Nat.mod_eq_of_lt inside]

/-- Going back and then ahead by the same distance leads nowhere. -/
theorem behind_modEq (inside : place < size) (distance : Nat) :
    behind size place distance + distance ≡ place [MOD size] := by
  have below : distance % size < size := Nat.mod_lt _ (by omega)
  calc behind size place distance + distance
      ≡ (place + size - distance % size) + distance % size [MOD size] :=
        (Nat.mod_modEq _ _).add (Nat.mod_modEq _ _).symm
    _ = place + size := by omega
    _ ≡ place [MOD size] := by simp [Nat.ModEq]

theorem eq_behind_of_modEq {place other distance : Nat}
    (inside : place < size) (otherInside : other < size)
    (congruent : other + distance ≡ place [MOD size]) :
    other = behind size place distance := by
  have both : other + distance ≡ behind size place distance + distance [MOD size] :=
    congruent.trans (behind_modEq inside distance).symm
  exact Nat.ModEq.eq_of_lt_of_lt (Nat.ModEq.add_right_cancel' distance both)
    otherInside (behind_lt inside distance)

theorem behind_ahead (inside : place < size) (distance : Nat) :
    behind size (ahead size place distance) distance = place := by
  refine (eq_behind_of_modEq (ahead_lt inside distance) inside ?_).symm
  exact (Nat.mod_modEq _ _).symm

theorem ahead_behind (inside : place < size) (distance : Nat) :
    ahead size (behind size place distance) distance = place := by
  have congruent := behind_modEq inside distance
  unfold Nat.ModEq at congruent
  rw [ahead, congruent, Nat.mod_eq_of_lt inside]

theorem behind_behind (inside : place < size) (first second : Nat) :
    behind size (behind size place first) second = behind size place (first + second) := by
  have firstInside := behind_lt inside first
  refine eq_behind_of_modEq inside (behind_lt firstInside second) ?_
  calc behind size (behind size place first) second + (first + second)
      = behind size (behind size place first) second + second + first := by
        ring
    _ ≡ behind size place first + first [MOD size] :=
        (behind_modEq firstInside second).add_right first
    _ ≡ place [MOD size] := behind_modEq inside first

/-- Every place is behind every other by less than the whole ring. -/
theorem exists_behind {place other : Nat} (inside : place < size) (otherInside : other < size) :
    ∃ distance < size, behind size place distance = other := by
  refine ⟨(place + size - other) % size, Nat.mod_lt _ (by omega), ?_⟩
  refine (eq_behind_of_modEq inside otherInside ?_).symm
  calc other + (place + size - other) % size
      ≡ other + (place + size - other) [MOD size] := (Nat.mod_modEq _ _).add_left other
    _ = place + size := by omega
    _ ≡ place [MOD size] := by simp [Nat.ModEq]

/-! ## What hearing in all rounds tells -/

/-- The order in which each party passes the rounds, and who it hears from. -/
structure Counts (size : Nat) (begun : Nat → Nat)
    (sent heard : Nat → Nat → Nat) : Prop where
  first : ∀ place < size, sent place 0 ≤ begun place
  own : ∀ place < size, ∀ round < rounds size,
    heard place round ≤ sent place round
  next : ∀ place < size, ∀ round, round + 1 < rounds size →
    sent place (round + 1) ≤ heard place round
  source : ∀ place < size, ∀ round < rounds size,
    heard place round ≤ sent (behind size place (2 ^ round)) round

namespace Counts

variable {begun : Nat → Nat} {sent heard : Nat → Nat → Nat}

/-- After round `r` a party knows of the `2 ^ (r + 1)` places behind it. -/
theorem heard_le_begun (counts : Counts size begun sent heard)
    {round : Nat} (isRound : round < rounds size) (inside : place < size)
    {distance : Nat} (near : distance < 2 ^ (round + 1)) :
    heard place round ≤ begun (behind size place distance) := by
  induction round generalizing place distance with
  | zero =>
      have cases : distance = 0 ∨ distance = 1 := by omega
      rcases cases with rfl | rfl
      · rw [behind_zero inside]
        exact (counts.own place inside 0 isRound).trans (counts.first place inside)
      · have fromSource := counts.source place inside 0 isRound
        rw [pow_zero] at fromSource
        exact fromSource.trans (counts.first _ (behind_lt inside 1))
  | succ round ih =>
      have before : round < rounds size := by omega
      by_cases close : distance < 2 ^ (round + 1)
      · calc heard place (round + 1)
            ≤ sent place (round + 1) := counts.own place inside _ isRound
          _ ≤ heard place round := counts.next place inside round isRound
          _ ≤ begun (behind size place distance) := ih before inside close
      · have rest : distance - 2 ^ (round + 1) < 2 ^ (round + 1) := by
          have double : 2 ^ (round + 1 + 1) = 2 * 2 ^ (round + 1) := by ring
          omega
        have sourceInside := behind_lt inside (2 ^ (round + 1))
        have reached := ih before sourceInside rest
        rw [behind_behind inside,
          show 2 ^ (round + 1) + (distance - 2 ^ (round + 1)) = distance by
            omega] at reached
        calc heard place (round + 1)
            ≤ sent (behind size place (2 ^ (round + 1))) (round + 1) :=
              counts.source place inside _ isRound
          _ ≤ heard (behind size place (2 ^ (round + 1))) round :=
              counts.next _ sourceInside round isRound
          _ ≤ begun (behind size place distance) := reached

/--
What a party finished after its last round is at most what any party began.
-/
theorem finished_le_begun (counts : Counts size begun sent heard) {finished : Nat → Nat}
    (last : ∀ place < size, ∀ round, round + 1 = rounds size → finished place ≤ heard place round)
    (alone : ∀ place < size, finished place ≤ begun place)
    {place other : Nat} (inside : place < size) (otherInside : other < size) :
    finished place ≤ begun other := by
  obtain ⟨distance, near, rfl⟩ := exists_behind inside otherInside
  have enough : size ≤ 2 ^ rounds size := Nat.le_pow_clog (by decide) size
  cases total : rounds size with
  | zero =>
      rw [total, pow_zero] at enough
      obtain rfl : distance = 0 := by omega
      rw [behind_zero inside]
      exact alone place inside
  | succ round =>
      rw [total] at enough
      exact (last place inside round total.symm).trans
        (counts.heard_le_begun (by omega) inside (by omega))

end Counts

end OpenUH.Foundation.Dissemination
