import Mathlib.Tactic.Ring

/-!
# Sense-reversing flags

Episodes are numbered from 0.  An episode writes one of two flags, the one of
its parity, and the value it writes changes every second episode.  A writer
that is at most one episode behind and one ahead of the reader is told apart
by the value alone.
-/

namespace OpenUH.Foundation.SenseReversal

/-- The flag an episode uses. -/
def parity (episode : Nat) : Nat :=
  episode % 2

/-- The sense left behind by the episodes before this one. -/
def senseBefore (episode : Nat) : Nat :=
  episode / 2 % 2

/-- The value an episode writes. -/
def written (episode : Nat) : Nat :=
  1 - senseBefore episode

/-- What the flag of a parity holds after `count` episodes wrote. -/
def held (count flag : Nat) : Nat :=
  (count + 1 - flag) / 2 % 2

@[simp]
theorem held_zero {flag : Nat} (isFlag : flag < 2) : held 0 flag = 0 := by
  have cases : flag = 0 ∨ flag = 1 := by omega
  rcases cases with rfl | rfl <;> rfl

theorem parity_lt (episode : Nat) : parity episode < 2 :=
  Nat.mod_lt _ (by decide)

/-- Episode `count` writes its own flag and leaves the other. -/
theorem held_succ (count : Nat) {flag : Nat} (isFlag : flag < 2) :
    held (count + 1) flag =
      if flag = parity count then written count else held count flag := by
  unfold held parity written senseBefore
  split <;> omega

/-- The flag shows the episode's value exactly when the episode has written. -/
theorem held_eq_written_iff {episode count : Nat}
    (behind : episode ≤ count) (ahead : count ≤ episode + 2) :
    held count (parity episode) = written episode ↔ episode + 1 ≤ count := by
  unfold held parity written senseBefore
  omega

theorem parity_succ (episode : Nat) : parity (episode + 1) = 1 - parity episode := by
  unfold parity
  omega

/-- The sense turns after the second flag has been used. -/
theorem senseBefore_succ (episode : Nat) :
    senseBefore (episode + 1) =
      if parity episode = 1 then written episode else senseBefore episode := by
  unfold senseBefore parity written senseBefore
  split <;> omega

end OpenUH.Foundation.SenseReversal
