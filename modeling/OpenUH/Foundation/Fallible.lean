import Mathlib.Data.List.Basic

/-!
# Rules for fallible computations

Inversion rules for `Except`: what a successful `map`, `bind` or monadic fold
says about its parts.  The component models run their loops as `foldlM` in
`Except`; a fact about a whole loop follows from one about a single pass.
-/

namespace OpenUH.Foundation.Fallible

universe u v w

variable {ε : Type u} {α β : Type v}

@[simp]
theorem map_eq_ok {f : α → β} {result : Except ε α} {value : β} :
    result.map f = .ok value ↔ ∃ inner, result = .ok inner ∧ f inner = value := by
  cases result with
  | error | ok => simp [Except.map]

@[simp]
theorem bind_eq_ok {f : α → Except ε β} {result : Except ε α} {value : β} :
    result.bind f = .ok value ↔ ∃ inner, result = .ok inner ∧ f inner = .ok value := by
  cases result with
  | error | ok => simp [Except.bind]

/-- A computation goes on after a part that succeeded. -/
@[simp]
theorem ok_bind {value : α} {f : α → Except ε β} : ((.ok value : Except ε α) >>= f) = f value :=
  rfl

theorem toOption_eq_some {result : Except ε α} {value : α} :
    result.toOption = some value ↔ result = .ok value := by
  cases result <;> simp [Except.toOption]

theorem eq_ok_of_toOption {result : Except ε α} {value : α}
    (same : result.toOption = some value) : result = .ok value :=
  toOption_eq_some.mp same

/-- A relation kept by every pass relates the two ends of a loop. -/
theorem foldlM_induction {Element : Type w} {step : β → Element → Except ε β} (Kept : β → β → Prop)
    (refl : ∀ state, Kept state state)
    (trans : ∀ before middle after, Kept before middle → Kept middle after → Kept before after)
    (single : ∀ before element after, step before element = .ok after → Kept before after)
    {elements : List Element} {before after : β}
    (ran : elements.foldlM step before = .ok after) :
    Kept before after := by
  induction elements generalizing before with
  | nil =>
      cases ran
      exact refl _
  | cons element elements ih =>
      rw [List.foldlM_cons] at ran
      obtain ⟨middle, stepped, rest⟩ := bind_eq_ok.mp ran
      exact trans _ _ _ (single _ _ _ stepped) (ih rest)

/-! ## Counting loops -/

variable {step : β → Nat → Option β} {first turns : Nat} {start : β}

/-- A counting loop ends, and keeps what each of its turns keeps. -/
theorem countingLoop_ends (Holds : Nat → β → Prop) (initial : Holds 0 start)
    (turn : ∀ k state, k < turns → Holds k state →
      ∃ next, step state (first + k) = some next ∧ Holds (k + 1) next) :
    ∃ final, (List.range' first turns).foldlM step start = some final ∧ Holds turns final := by
  induction turns with
  | zero => exact ⟨start, rfl, initial⟩
  | succ turns ih =>
      obtain ⟨middle, ran, holds⟩ := ih fun k state less =>
        turn k state (Nat.lt_succ_of_lt less)
      obtain ⟨final, stepped, held⟩ := turn turns middle (Nat.lt_succ_self turns) holds
      refine ⟨final, ?_, held⟩
      rw [List.range'_1_concat, List.foldlM_append, ran]
      simpa using stepped

/-- A counting loop that ended has kept what each of its turns keeps. -/
theorem countingLoop_kept (Holds : Nat → β → Prop) (initial : Holds 0 start)
    (turn : ∀ k state next, k < turns → Holds k state →
      step state (first + k) = some next → Holds (k + 1) next)
    {final : β}
    (ran : (List.range' first turns).foldlM step start = some final) :
    Holds turns final := by
  induction turns generalizing final with
  | zero =>
      cases ran
      exact initial
  | succ turns ih =>
      rw [List.range'_1_concat, List.foldlM_append] at ran
      obtain ⟨middle, before, stepped⟩ := Option.bind_eq_some_iff.1 ran
      have kept := ih
        (fun k state next less => turn k state next (Nat.lt_succ_of_lt less))
        before
      exact turn turns middle final (Nat.lt_succ_self turns) kept (by simpa using stepped)

/-! ## Loops with a test -/

/-- Take turns while the test holds; nothing if it still holds without fuel. -/
def whileLoop (test : β → Bool) (turn : β → Option β) : Nat → β → Option β
  | 0, state => if test state then none else some state
  | fuel + 1, state =>
      if test state then (turn state).bind (whileLoop test turn fuel) else some state

/--
A loop ends where each of its turns keeps what holds with fewer turns to go.
-/
theorem whileLoop_ends {test : β → Bool} {turn : β → Option β} (Holds : Nat → β → Prop)
    (turns : ∀ left state, Holds left state → test state = true →
      ∃ next fewer, turn state = some next ∧ fewer < left ∧ Holds fewer next)
    {left fuel : Nat} {state : β}
    (holds : Holds left state) (enough : left ≤ fuel) :
    ∃ last rest, whileLoop test turn fuel state = some last ∧ Holds rest last ∧
      test last = false := by
  induction fuel generalizing left state with
  | zero =>
      cases goes : test state with
      | true =>
          obtain ⟨next, fewer, -, less, -⟩ := turns left state holds goes
          exact absurd enough (Nat.not_le.2 (Nat.lt_of_le_of_lt (Nat.zero_le _) less))
      | false =>
          refine ⟨state, left, ?_, holds, goes⟩
          rw [whileLoop, goes]
          rfl
  | succ fuel ih =>
      cases goes : test state with
      | true =>
          obtain ⟨next, fewer, taken, less, kept⟩ := turns left state holds goes
          rw [whileLoop, goes, if_pos rfl, taken]
          exact ih kept (Nat.le_of_lt_succ (Nat.lt_of_lt_of_le less enough))
      | false =>
          refine ⟨state, left, ?_, holds, goes⟩
          rw [whileLoop, goes]
          rfl

/-! ## Computations with fuel -/

/-- Enough fuel gives a value, and more fuel the same one. -/
def Settles (routine : Nat → Option α) (value : α) : Prop :=
  ∃ enough, ∀ fuel, enough ≤ fuel → routine fuel = some value

theorem settles_const (value : α) : Settles (fun _ => some value) value :=
  ⟨0, fun _ _ => rfl⟩

/-- A computation without fuel, before one with fuel. -/
theorem Settles.bind {routine : Nat → Option α} {next : α → Nat → Option β} {middle : α} {value : β}
    (ends : Settles routine middle) (goes : Settles (next middle) value) :
    Settles (fun fuel => (routine fuel).bind fun inner => next inner fuel)
      value := by
  obtain ⟨first, settled⟩ := ends
  obtain ⟨second, settles⟩ := goes
  refine ⟨max first second, fun fuel enough => ?_⟩
  show (routine fuel).bind _ = _
  rw [settled fuel (Nat.le_trans (Nat.le_max_left _ _) enough)]
  exact settles fuel (Nat.le_trans (Nat.le_max_right _ _) enough)

theorem Settles.map {routine : Nat → Option α} {value : α} (next : α → β)
    (ends : Settles routine value) :
    Settles (fun fuel => (routine fuel).map next) (next value) := by
  obtain ⟨enough, settled⟩ := ends
  refine ⟨enough, fun fuel most => ?_⟩
  show (routine fuel).map next = _
  rw [settled fuel most, Option.map_some]

/-- More fuel makes no difference to a loop that has ended. -/
theorem whileLoop_more {test : β → Bool} {turn : β → Option β} {fuel more : Nat}
    {state last : β} (ended : whileLoop test turn fuel state = some last) (enough : fuel ≤ more) :
    whileLoop test turn more state = some last := by
  induction fuel generalizing more state with
  | zero =>
      rw [whileLoop] at ended
      cases more with
      | zero => exact ended
      | succ more =>
          rw [whileLoop]
          cases goes : test state with
          | true =>
              rw [goes] at ended
              cases ended
          | false =>
              rw [goes] at ended
              exact ended
  | succ fuel ih =>
      cases more with
      | zero => exact absurd enough (Nat.not_succ_le_zero _)
      | succ more =>
          rw [whileLoop] at ended ⊢
          cases goes : test state with
          | true =>
              rw [goes, if_pos rfl] at ended
              rw [if_pos rfl]
              obtain ⟨next, taken, rest⟩ := Option.bind_eq_some_iff.1 ended
              rw [taken, Option.bind_some]
              exact ih rest (Nat.le_of_succ_le_succ enough)
          | false =>
              rw [goes] at ended
              exact ended

/-- A loop whose turns keep what holds with fewer turns to go settles. -/
theorem whileLoop_settles {test : β → Bool} {turn : β → Option β} (Holds : Nat → β → Prop)
    (turns : ∀ left state, Holds left state → test state = true →
      ∃ next fewer, turn state = some next ∧ fewer < left ∧ Holds fewer next)
    {left : Nat} {state : β} (holds : Holds left state) :
    ∃ last rest, Settles (fun fuel => whileLoop test turn fuel state) last ∧
      Holds rest last ∧ test last = false := by
  obtain ⟨last, rest, ended, held, stopped⟩ := whileLoop_ends Holds turns holds (Nat.le_refl left)
  exact ⟨last, rest, ⟨left, fun fuel enough => whileLoop_more ended enough⟩, held, stopped⟩

theorem Settles.unique {routine : Nat → Option α} {first second : α} (left : Settles routine first)
    (right : Settles routine second) :
    first = second := by
  obtain ⟨enough, settled⟩ := left
  obtain ⟨more, settles⟩ := right
  have one := settled (max enough more) (Nat.le_max_left _ _)
  have two := settles (max enough more) (Nat.le_max_right _ _)
  exact Option.some.inj (one.symm.trans two)

end OpenUH.Foundation.Fallible
