import OpenUH.Lno.SystemConsistency
import Mathlib.Data.List.GetD

/-!
# Redundant rows

`Mark_Redundant` and `Mark_New_Redundant` mark the rows whose inverse is
inconsistent with the other rows and the equations.  All marked rows together
may be deleted, although two of them may each follow from the other.
-/

namespace OpenUH.Lno.SystemOfEquations

open Foundation

/-! ## The routines -/

/-- What the test of the row before has left of the work space. -/
structure WorkSpace where
  work : Work
  marks : Nat → Bool

/-- The integer complement of a row; the coefficients are negated in 32 bits. -/
def Row.inverse (row : Row) : Row where
  coeff col := int32 (-row.coeff col)
  bound := -row.bound - 1
  fits _ := fits_int32 _

/-- What the test of a row says. -/
inductive RowAnswer where
  | returns
  | kept
  | redundant
  deriving DecidableEq

namespace System

/-- A row of the inequalities. -/
def leRow (system : System) (j : Nat) : Row :=
  system.le.getD j Row.null

/-- The calls of `Copy_To_Work` for single rows. -/
def copyEach (system : System) : List Nat → Work → Option Work
  | [], work => some work
  | j :: rows, work =>
      (system.copyRows [system.leRow j] work).bind (copyEach system rows)

/-- `Copy_Inverse_To_Work`. -/
def copyInverse (i : Nat) (system : System) (work : Work) : Option Work :=
  system.copyRows [(system.leRow i).inverse] work

/-- The rows that the row `i` is tested against, with its inverse. -/
def copyTest (others : List Nat) (i : Nat) (system : System) (work : Work) : Option Work :=
  (system.copyEach others { work with rows := 0 }).bind (system.copyInverse i)

/-- Test a row; nothing where the equations need more turns. -/
def testRow (turns : Nat) (allow : Bool) (others : List Nat) (i : Nat)
    (space : WorkSpace) (system : System) : Option RowAnswer :=
  match system.copyTest others i space.work with
  | none => some .returns
  | some copied =>
      match system.subInEqual turns copied with
      | none => none
      | some .failed => some .returns
      | some .inconsistent => some .redundant
      | some (.done work) =>
          some (if isConsistentWork allow space.marks work then .kept
            else .redundant)

/-- The unmarked rows before a row. -/
def earlier (flags : Nat → Bool) (i : Nat) : List Nat :=
  (List.range i).filter (!flags ·)

/-- The rows behind a row. -/
def later (system : System) (i : Nat) : List Nat :=
  List.range' (i + 1) (system.le.length - (i + 1))

/-- The rows that `Mark_Redundant` copies. -/
def othersAll (system : System) (flags : Nat → Bool) (i : Nat) : List Nat :=
  earlier flags i ++ system.later i

/-- The rows that `Mark_New_Redundant` copies. -/
def othersNew (system : System) (flags : Nat → Bool) (i : Nat) : List Nat :=
  earlier flags i ++ (system.later i).filter (!flags ·)

/-- The loop over the rows, with the number of rows found redundant. -/
def markLoop (turns : Nat) (allow : Bool) (spaces : Nat → WorkSpace)
    (others : (Nat → Bool) → Nat → List Nat) (system : System) :
    List Nat → (Nat → Bool) → Nat → Option ((Nat → Bool) × Nat)
  | [], flags, counter => some (flags, counter)
  | i :: rows, flags, counter =>
      match system.testRow turns allow (others flags i) i (spaces i) with
      | none => none
      | some .returns => some (flags, counter)
      | some .kept =>
          markLoop turns allow spaces others system rows flags counter
      | some .redundant =>
          markLoop turns allow spaces others system rows
            (Function.update flags i true) (counter + 1)

/-- `Mark_Redundant`. -/
def markRedundant (turns : Nat) (allow : Bool) (spaces : Nat → WorkSpace)
    (flags : Nat → Bool) (system : System) : Option (Nat → Bool) :=
  if system.le.length < 1 then
    some flags
  else
    (system.markLoop turns allow spaces system.othersAll
      (List.range system.le.length) (fun _ => false) 0).map Prod.fst

/-- `Mark_New_Redundant`, with the number it returns. -/
def markNewRedundant (turns : Nat) (allow : Bool) (spaces : Nat → WorkSpace)
    (flags : Nat → Bool) (system : System) : Option ((Nat → Bool) × Nat) :=
  if system.le.length < 1 then
    some (flags, 0)
  else
    system.markLoop turns allow spaces system.othersNew
      (List.range system.le.length) flags 0

/-- The system without the marked rows. -/
def deleteMarked (flags : Nat → Bool) (system : System) : System :=
  { system with
    le := ((List.range system.le.length).filter (!flags ·)).map system.leRow }

/-- Deleting the marked rows leaves the same integer solutions. -/
def SameSolutions (system : System) (flags : Nat → Bool) : Prop :=
  ∀ point : Nat → Int,
    (system.deleteMarked flags).Solves point ↔ system.Solves point

/-- A property of each row that is tested. -/
def AllTests (property : Nat → (Nat → Bool) → Prop) (turns : Nat)
    (allow : Bool) (spaces : Nat → WorkSpace)
    (others : (Nat → Bool) → Nat → List Nat) (system : System) :
    List Nat → (Nat → Bool) → Prop
  | [], _ => True
  | i :: rows, flags =>
      property i flags ∧
        (system.testRow turns allow (others flags i) i (spaces i) =
            some .kept →
          AllTests property turns allow spaces others system rows flags) ∧
        (system.testRow turns allow (others flags i) i (spaces i) =
            some .redundant →
          AllTests property turns allow spaces others system rows
            (Function.update flags i true))

/-- The test of a row negates, substitutes and tests without wrapping. -/
structure TestClear (allow : Bool) (others : List Nat) (i : Nat)
    (space : WorkSpace) (system : System) : Prop where
  inverse : (system.leRow i).NoSmallest system.vars
  clear : ∀ copied, system.copyTest others i space.work = some copied →
    SystemClear allow space.marks system copied

end System

/-! ## One row -/

section OneRow

variable {system : System} {work after copied : Work} {rows others : List Nat}
  {row : Row} {point : Nat → Int} {i turns : Nat} {allow : Bool}
  {space : WorkSpace} {flags : Nat → Bool}

/-- The inverse holds exactly where the row does not. -/
theorem inverse_holds {cols : Nat} (noSmallest : row.NoSmallest cols) :
    row.inverse.Holds cols point ↔ ¬row.Holds cols point := by
  have value : row.inverse.value cols point = -row.value cols point := by
    rw [Inequality.value_eq_sum, Inequality.value_eq_sum, ← Finset.sum_neg_distrib]
    refine Finset.sum_congr rfl fun col member => ?_
    have fits := row.fits col
    have low := fits.low
    have high := fits.high
    have apart := noSmallest col (Finset.mem_range.mp member)
    have negated : row.inverse.coeff col = -row.coeff col := Fits32.int32_eq ⟨by omega, by omega⟩
    rw [negated]
    push_cast
    ring
  unfold Inequality.Holds
  rw [value]
  change -row.value cols point ≤ (-row.bound - 1 : Int) ↔ _
  simp only [Int.cast_id]
  omega

/-- The equations of a system at a point. -/
def System.EqHolds (system : System) (point : Nat → Int) : Prop :=
  ∀ row ∈ system.eq, row.Solves system.vars point

/-- A list of the inequalities at a point. -/
def System.RowsHold (system : System) (rows : List Nat) (point : Nat → Int) : Prop :=
  ∀ j ∈ rows, (system.leRow j).Holds system.vars point

theorem copyEach_holds (agree : work.rows ≠ 0 → work.cols = system.vars)
    (ran : system.copyEach rows work = some after) :
    (after.rows ≠ 0 → after.cols = system.vars) ∧ (after.Holds point ↔
      work.Holds point ∧ system.RowsHold rows point) := by
  induction rows generalizing work with
  | nil =>
      cases ran
      refine ⟨agree, ⟨fun holds => ⟨holds, fun _ member => ?_⟩,
        fun both => both.1⟩⟩
      exact absurd member List.not_mem_nil
  | cons j rows ih =>
      obtain ⟨next, copied, rest⟩ := Option.bind_eq_some_iff.mp ran
      obtain ⟨cols, holds⟩ := @copyRows_holds work next _ system point agree copied
      obtain ⟨agrees, restHolds⟩ := ih (fun _ => cols) rest
      refine ⟨agrees, restHolds.trans ?_⟩
      unfold System.RowsHold
      rw [holds, List.forall_mem_singleton, List.forall_mem_cons, and_assoc]

/-- What is copied for a test. -/
theorem copyTest_holds (ran : system.copyTest others i work = some copied) :
    copied.cols = system.vars ∧ (copied.Holds point ↔
      system.RowsHold others point ∧ (system.leRow i).inverse.Holds system.vars point) := by
  obtain ⟨next, each, inverse⟩ := Option.bind_eq_some_iff.mp ran
  obtain ⟨agrees, eachHolds⟩ := @copyEach_holds system { work with rows := 0 }
    next others point (fun nonzero => absurd rfl nonzero) each
  obtain ⟨cols, holds⟩ := @copyRows_holds next copied _ system point agrees inverse
  refine ⟨cols, holds.trans ?_⟩
  rw [eachHolds, List.forall_mem_singleton]
  refine and_congr_left fun _ => ⟨fun both => both.2, fun rows => ⟨?_, rows⟩⟩
  exact fun index below => absurd below (Nat.not_lt_zero _)

/-- A row that is found redundant follows from those it is tested against. -/
theorem testRow_redundant (clear : system.TestClear allow others i space)
    (ran : system.testRow turns allow others i space = some .redundant)
    (holds : system.RowsHold others point) (solves : system.EqHolds point) :
    (system.leRow i).Holds system.vars point := by
  by_contra fails
  unfold System.testRow at ran
  split at ran
  · cases ran
  · rename_i copied isCopied
    obtain ⟨cols, copiedHolds⟩ := @copyTest_holds system space.work copied others point i isCopied
    have sound := @subInEqual_sound copied system point turns
      (clear.clear copied isCopied).equations cols
      (copiedHolds.mpr ⟨holds, (inverse_holds clear.inverse).mpr fails⟩) solves
    split at ran
    · cases ran
    · cases ran
    · rename_i solved
      exact sound solved
    · rename_i work solved
      obtain ⟨image, isImage⟩ := sound solved
      rw [isConsistentWork_sound ((clear.clear copied isCopied).tests turns work
        solved) isImage, if_pos rfl] at ran
      cases ran

end OneRow

/-! ## All rows -/

section AllRows

variable {system : System} {turns counter count low : Nat} {allow : Bool}
  {spaces : Nat → WorkSpace} {others : (Nat → Bool) → Nat → List Nat}
  {flags : Nat → Bool} {after : (Nat → Bool) × Nat} {point : Nat → Int}
  {property : Nat → (Nat → Bool) → Prop}

/-- What every test keeps holds of the flags that are returned. -/
theorem markLoop_invariant {Inv : Nat → (Nat → Bool) → Prop}
    (keep : ∀ i flags, Inv i flags → Inv (i + 1) flags)
    (mark : ∀ i flags, i < low + count → property i flags →
      system.testRow turns allow (others flags i) i (spaces i) =
          some .redundant →
        Inv i flags → Inv (i + 1) (Function.update flags i true))
    (tests : system.AllTests property turns allow spaces others (List.range' low count) flags)
    (start : Inv low flags)
    (ran : system.markLoop turns allow spaces others (List.range' low count)
      flags counter = some after) :
    ∃ i, Inv i after.1 := by
  induction count generalizing low flags counter with
  | zero =>
      cases ran
      exact ⟨low, start⟩
  | succ count ih =>
      rw [List.range'_succ] at ran tests
      obtain ⟨own, afterKept, afterMark⟩ := tests
      have onward : ∀ i flags, i < low + 1 + count → property i flags →
          system.testRow turns allow (others flags i) i (spaces i) =
              some .redundant →
            Inv i flags → Inv (i + 1) (Function.update flags i true) :=
        fun i flags below => mark i flags (by omega)
      unfold System.markLoop at ran
      split at ran
      · cases ran
      · cases ran
        exact ⟨low, start⟩
      · rename_i kept
        exact ih onward (afterKept kept) (keep low flags start) ran
      · rename_i redundant
        exact ih onward (afterMark redundant) (mark low flags (by omega) own redundant start) ran

/-- The unmarked rows at a point. -/
def System.UnmarkedHold (system : System) (flags : Nat → Bool) (point : Nat → Int) : Prop :=
  ∀ j < system.le.length, flags j = false → (system.leRow j).Holds system.vars point

theorem leHolds_iff : system.LeHolds point ↔ ∀ j < system.le.length,
    (system.leRow j).Holds system.vars point := by
  unfold System.LeHolds System.leRow
  rw [List.forall_mem_iff_getElem]
  refine forall₂_congr fun j below => ?_
  rw [List.getD_eq_getElem _ _ below]

theorem deleteMarked_solves : (system.deleteMarked flags).Solves point ↔
    system.UnmarkedHold flags point ∧ system.EqHolds point := by
  have rows : (system.deleteMarked flags).LeHolds point ↔ system.UnmarkedHold flags point := by
    unfold System.LeHolds System.deleteMarked System.UnmarkedHold
    dsimp only
    rw [List.forall_mem_map]
    simp only [List.mem_filter, List.mem_range, Bool.not_eq_true', and_imp]
  exact ⟨fun solution => ⟨rows.mp solution.le, solution.eq⟩,
    fun both => ⟨rows.mpr both.1, both.2⟩⟩

/-- Deleting rows keeps the solutions where the unmarked ones imply all. -/
theorem sameSolutions_iff : system.SameSolutions flags ↔
    ∀ point : Nat → Int, system.UnmarkedHold flags point →
      system.EqHolds point → ∀ j < system.le.length, (system.leRow j).Holds system.vars point := by
  constructor
  · intro same point unmarked equations
    exact leHolds_iff.mp ((same point).mp (deleteMarked_solves.mpr ⟨unmarked, equations⟩)).le
  · intro implied point
    rw [deleteMarked_solves]
    constructor
    · rintro ⟨unmarked, equations⟩
      exact ⟨leHolds_iff.mpr (implied point unmarked equations), equations⟩
    · intro solution
      exact ⟨fun j below _ => leHolds_iff.mp solution.le j below, solution.eq⟩

theorem mem_earlier {i j : Nat} : j ∈ System.earlier flags i ↔ j < i ∧ flags j = false := by
  unfold System.earlier
  rw [List.mem_filter, List.mem_range, Bool.not_eq_true']

theorem mem_later {i j : Nat} : j ∈ system.later i ↔ i < j ∧ j < system.le.length := by
  unfold System.later
  rw [List.mem_range'_1]
  omega

/-! ### The marks of `Mark_Redundant` -/

/-- A marked row follows from the unmarked ones before it and all behind it. -/
structure Stacked (system : System) (i : Nat) (flags : Nat → Bool) : Prop where
  ahead : ∀ j, i ≤ j → flags j = false
  implied : ∀ j < system.le.length, flags j = true → ∀ point : Nat → Int,
    system.RowsHold (system.othersAll flags j) point → system.EqHolds point →
      (system.leRow j).Holds system.vars point

/-- From the last row down, the unmarked rows imply all rows. -/
theorem Stacked.sameSolutions {i : Nat} (stacked : Stacked system i flags) :
    system.SameSolutions flags := by
  rw [sameSolutions_iff]
  intro point unmarked equations j below
  induction distance : system.le.length - j using Nat.strong_induction_on generalizing j with
  | _ size ih =>
      cases marked : flags j with
      | false => exact unmarked j below marked
      | true =>
          refine stacked.implied j below marked point (fun k member => ?_) equations
          rcases List.mem_append.mp member with before | behind
          · obtain ⟨less, isUnmarked⟩ := mem_earlier.mp before
            exact unmarked k (by omega) isUnmarked
          · obtain ⟨more, inside⟩ := mem_later.mp behind
            exact ih (system.le.length - k) (by omega) k inside rfl

/-- One more row is marked. -/
theorem Stacked.mark {i : Nat} (stacked : Stacked system i flags)
    (implied : ∀ point : Nat → Int,
      system.RowsHold (system.othersAll flags i) point →
        system.EqHolds point → (system.leRow i).Holds system.vars point) :
    Stacked system (i + 1) (Function.update flags i true) := by
  have before : ∀ j ≤ i,
      System.earlier (Function.update flags i true) j = System.earlier flags j := by
    intro j le
    unfold System.earlier
    refine List.filter_congr fun k member => ?_
    have less := List.mem_range.mp member
    rw [Function.update_of_ne (by omega)]
  refine ⟨fun j above => ?_, fun j below marked point => ?_⟩
  · rw [Function.update_of_ne (by omega)]
    exact stacked.ahead j (by omega)
  · by_cases here : j = i
    · unfold System.othersAll
      rw [before j here.le, here]
      exact implied point
    · rw [Function.update_of_ne here] at marked
      have less : j < i := by
        by_contra above
        rw [stacked.ahead j (by omega)] at marked
        cases marked
      unfold System.othersAll
      rw [before j less.le]
      exact stacked.implied j below marked point

theorem markRedundant_sameSolutions {marked : Nat → Bool}
    (tests : system.AllTests
      (fun i flags => system.TestClear allow (system.othersAll flags i) i
        (spaces i)) turns allow spaces system.othersAll
      (List.range system.le.length) (fun _ => false))
    (ran : system.markRedundant turns allow spaces flags = some marked) :
    system.SameSolutions marked := by
  unfold System.markRedundant at ran
  split at ran
  · rename_i empty
    rw [sameSolutions_iff]
    exact fun _ _ _ j below => by omega
  · obtain ⟨after, loop, rfl⟩ := Option.map_eq_some_iff.mp ran
    rw [List.range_eq_range'] at loop tests
    obtain ⟨i, stacked⟩ := @markLoop_invariant system turns 0 system.le.length 0
      allow spaces system.othersAll _ after _ (Stacked system)
      (fun i flags stacked => ⟨fun j above => stacked.ahead j (by omega), stacked.implied⟩)
      (fun i flags below clear redundant stacked =>
        stacked.mark fun point => testRow_redundant clear redundant)
      tests ⟨fun _ _ => rfl, fun _ _ marked => nomatch marked⟩ loop
    exact stacked.sameSolutions

/-! ### The marks of `Mark_New_Redundant` -/

/-- A row that follows from the other unmarked ones may be marked. -/
theorem SameSolutions.mark {i : Nat} (same : system.SameSolutions flags)
    (implied : ∀ point : Nat → Int,
      system.RowsHold (system.othersNew flags i) point →
        system.EqHolds point → (system.leRow i).Holds system.vars point) :
    system.SameSolutions (Function.update flags i true) := by
  rw [sameSolutions_iff] at same ⊢
  intro point unmarked equations
  have others : ∀ j < system.le.length, j ≠ i → flags j = false →
      (system.leRow j).Holds system.vars point := by
    intro j below apart isUnmarked
    refine unmarked j below ?_
    rw [Function.update_of_ne apart]
    exact isUnmarked
  refine same point (fun j below isUnmarked => ?_) equations
  by_cases here : j = i
  · rw [here]
    refine implied point (fun k member => ?_) equations
    rcases List.mem_append.mp member with before | behind
    · obtain ⟨less, isUnmarked⟩ := mem_earlier.mp before
      exact others k (by omega) (by omega) isUnmarked
    · obtain ⟨inLater, isUnmarked⟩ := List.mem_filter.mp behind
      obtain ⟨more, inside⟩ := mem_later.mp inLater
      exact others k inside (by omega) (by simpa using isUnmarked)
  · exact others j below here isUnmarked

theorem markNewRedundant_sameSolutions
    (tests : system.AllTests
      (fun i flags => system.TestClear allow (system.othersNew flags i) i
        (spaces i)) turns allow spaces system.othersNew
      (List.range system.le.length) flags)
    (same : system.SameSolutions flags)
    (ran : system.markNewRedundant turns allow spaces flags = some after) :
    system.SameSolutions after.1 := by
  unfold System.markNewRedundant at ran
  split at ran
  · cases ran
    exact same
  · rw [List.range_eq_range'] at ran tests
    obtain ⟨-, kept⟩ := @markLoop_invariant system turns 0 system.le.length 0
      allow spaces system.othersNew flags after _
      (fun _ flags => system.SameSolutions flags) (fun _ _ same => same)
      (fun i flags below clear redundant same =>
        SameSolutions.mark same fun point => testRow_redundant clear redundant)
      tests same ran
    exact kept

/-! ### Both routines -/

/--
The rows that either routine has marked when it returns may be deleted at once;
`Mark_New_Redundant` starts from marked rows that may be.
-/
structure MarksSafely (turns : Nat) (allow : Bool) (spaces : Nat → WorkSpace)
    (flags : Nat → Bool) (system : System) : Prop where
  all : ∀ marked, system.markRedundant turns allow spaces flags = some marked →
    system.SameSolutions marked
  new : ∀ marked counter, system.SameSolutions flags →
    system.markNewRedundant turns allow spaces flags = some (marked, counter) →
      system.SameSolutions marked

/-- The inequalities `x ≤ 0` and `x ≤ 1`. -/
def nestedSystem : System where
  le := [bound 1 0 fits_one, bound 1 1 fits_one]
  eq := []
  vars := 1

/-- An empty work space. -/
def emptySpaces (_ : Nat) : WorkSpace := ⟨noRows 0, fun _ => false⟩

/-- Tests without equations are clear where `SVPC` decides them. -/
theorem testClear_of_svpc {others : List Nat} {i : Nat} {space : WorkSpace}
    (noEquations : system.eq = []) (noSmallest : (system.leRow i).NoSmallest system.vars)
    (decides : ∀ copied, system.copyTest others i space.work = some copied →
      (svpc allow space.marks copied).1 ≠ .inapplicable) :
    system.TestClear allow others i space := by
  refine ⟨noSmallest, fun copied isCopied => ⟨fun start starts state reached => ?_,
    fun turns work ran => ?_⟩⟩
  · have startEqs : start.eqs = [] := by
      unfold System.copyToWorkEq at starts
      rw [noEquations] at starts
      split_ifs at starts <;> cases starts <;> rfl
    have stateEqs : state.eqs = [] := by
      induction reached with
      | start isStart =>
          rw [isStart]
          exact startEqs
      | tail _ moved ih =>
          obtain ⟨last, rest, eqs, -⟩ := moved
          rw [ih] at eqs
          cases eqs
    exact clear_of_nil stateEqs
  · have same : copied = work := by
      unfold System.subInEqual at ran
      rw [noEquations, List.length_nil, if_pos rfl] at ran
      cases ran
      rfl
    have never : ∀ found, svpc allow space.marks work ≠ (.inapplicable, found) := by
      intro found found'
      refine decides copied isCopied ?_
      rw [same, found']
    exact ⟨fun found ran => absurd ran (never found),
      fun found _ ran => absurd ran (never found)⟩

/-- The equation `x = 65536 y` and the inequality `65536 x ≤ 0`. -/
def halvedSystem : System where
  le := [bound 65536 0 fits_wide]
  eq := [multiple]
  vars := 2

end AllRows

end OpenUH.Lno.SystemOfEquations
