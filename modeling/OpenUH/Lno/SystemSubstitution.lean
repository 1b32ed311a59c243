import OpenUH.Lno.SystemEqualities

/-!
# Substitution keeps the integer solutions

Where no 32-bit operation is cut off, each turn of `Sub_In_Equal` maps the
integer solutions of the equations one-to-one to those of the equations that
are left, and the inequalities hold at a solution exactly if they hold at its
image.
-/

namespace OpenUH.Lno.SystemOfEquations

open Foundation
open Function (update_eq_self update_idem update_of_ne update_self)

/-! ## Equations -/

/-- An equation at an integer point. -/
def Row.Solves (row : Row) (cols : Nat) (point : Nat → Int) : Prop :=
  row.value cols point = row.bound

/-- The coefficients before a column are zero. -/
theorem Row.zeroBelow_of_firstNonZero {cols i : Nat} {row : Row}
    (found : row.firstNonZero cols = some i) :
    i < cols ∧ row.coeff i ≠ 0 ∧ row.ZeroBelow i := by
  unfold Row.firstNonZero at found
  obtain ⟨nonzero, front, back, split, zeros⟩ := List.find?_eq_some_iff_append.mp found
  have inside : i < cols := List.mem_range.mp (List.mem_of_find?_eq_some found)
  refine ⟨inside, of_decide_eq_true nonzero, fun col below => ?_⟩
  have member : col ∈ front := by
    have position : (List.range cols)[col]? = some col := by
      rw [List.getElem?_range (by omega)]
    have length : front.length = i := by
      have here : (List.range cols)[front.length]? = some i := by
        rw [split]
        simp
      have short : front.length < cols := by
        have total := congrArg List.length split
        simp at total
        omega
      rw [List.getElem?_range short] at here
      exact Option.some.inj here
    rw [split, List.getElem?_append_left (by omega)] at position
    exact List.mem_of_getElem? position
  have zero := zeros col member
  simpa using zero

/-- Where no coefficient is nonzero. -/
theorem Row.zero_of_firstNonZero {cols : Nat} {row : Row} (absent : row.firstNonZero cols = none) :
    ∀ col < cols, row.coeff col = 0 := by
  intro col inside
  have all := List.find?_eq_none.mp absent col (List.mem_range.mpr inside)
  simpa using all

/-- An equation without variables. -/
theorem Row.solves_of_zero {cols : Nat} {row : Row} {point : Nat → Int}
    (zero : ∀ col < cols, row.coeff col = 0) :
    row.Solves cols point ↔ row.bound = 0 := by
  have vanishes : row.value cols point = 0 := by
    rw [Inequality.value_eq_sum]
    refine Finset.sum_eq_zero fun col inside => ?_
    rw [zero col (Finset.mem_range.mp inside), Int.cast_zero, zero_mul]
  unfold Row.Solves
  rw [vanishes]
  exact eq_comm

/-- Equations that are multiples of each other have the same solutions. -/
theorem Row.solves_scaled {cols : Nat} {row other : Row} {factor : Int}
    {point : Nat → Int} (nonzero : factor ≠ 0)
    (coeffs : ∀ col < cols, row.coeff col = factor * other.coeff col)
    (bounds : row.bound = factor * other.bound) :
    row.Solves cols point ↔ other.Solves cols point := by
  have scaled : row.value cols point = factor * other.value cols point := by
    rw [Inequality.value_eq_sum, Inequality.value_eq_sum, Finset.mul_sum]
    refine Finset.sum_congr rfl fun col inside => ?_
    rw [coeffs col (Finset.mem_range.mp inside)]
    push_cast
    ring
  unfold Row.Solves
  rw [scaled, bounds]
  exact mul_right_inj' nonzero

theorem abs32_eq_one {value : Int} (fits : Fits32 value)
    (one : abs32 value = 1) : value = 1 ∨ value = -1 := by
  by_cases smallest : value = -2 ^ 31
  · rw [smallest] at one
    exact absurd one (by decide)
  · rw [abs32_eq fits smallest] at one
    exact eq_or_eq_neg_of_abs_eq one

/-! ## The greatest common divisor of an equation -/

/-- What is known of the columns that were looked at. -/
structure Searching (row : Row) (cols minvar : Nat) (high : Nat)
    (found : Search) : Prop where
  positive : 0 < found.g
  small : found.g ≤ int32Max
  divides : ∀ col, minvar ≤ col → col < high → found.g ∣ row.coeff col
  low : minvar ≤ found.smallest_pos
  inside : found.smallest_pos < cols

theorem abs32_range {row : Row} {col : Nat} (apart : row.coeff col ≠ -2 ^ 31) :
    abs32 (row.coeff col) = |row.coeff col| ∧
      |row.coeff col| ≤ int32Max := by
  have fits := row.fits col
  have low := fits.low
  have high := fits.high
  refine ⟨abs32_eq fits apart, ?_⟩
  unfold int32Max
  exact abs_le.mpr ⟨by omega, by omega⟩

theorem searching_column {row : Row} {cols minvar col : Nat} {found : Search}
    (apart : row.coeff col ≠ -2 ^ 31) (above : minvar ≤ col)
    (inside : col < cols) (searching : Searching row cols minvar col found) :
    Searching row cols minvar (col + 1) (searchColumn row found col) := by
  obtain ⟨absolute, small⟩ := abs32_range apart
  have extend : ∀ g : Int, g ∣ found.g → g ∣ row.coeff col →
      ∀ other, minvar ≤ other → other < col + 1 → g ∣ row.coeff other := by
    intro g divides own other low high
    by_cases here : other = col
    · rw [here]
      exact own
    · exact divides.trans (searching.divides other low (by omega))
  unfold searchColumn
  dsimp only
  rw [absolute]
  split
  · rename_i nonzero
    have positive := searching.positive
    have divisor : gcd found.g |row.coeff col| = (Int.gcd found.g |row.coeff col| : Int) :=
      gcd_eq positive.le searching.small (abs_nonneg _) small
    have left : gcd found.g |row.coeff col| ∣ found.g := divisor ▸ Int.gcd_dvd_left _ _
    have right : gcd found.g |row.coeff col| ∣ row.coeff col :=
      (dvd_abs _ _).mp (divisor ▸ Int.gcd_dvd_right _ _)
    have isPositive : 0 < gcd found.g |row.coeff col| := by
      rw [divisor]
      exact Int.natCast_pos.mpr (Int.gcd_pos_of_ne_zero_left _ positive.ne')
    have isSmall : gcd found.g |row.coeff col| ≤ int32Max :=
      (Int.le_of_dvd positive left).trans searching.small
    split
    · exact ⟨isPositive, isSmall, extend _ left right, above, inside⟩
    · exact ⟨isPositive, isSmall, extend _ left right, searching.low, searching.inside⟩
  · rename_i zero
    have vanishes : row.coeff col = 0 := abs_eq_zero.mp (not_not.mp zero)
    exact ⟨searching.positive, searching.small,
      extend _ (dvd_refl _) (vanishes ▸ dvd_zero _), searching.low,
      searching.inside⟩

/-- The divisor divides all coefficients from the first on. -/
theorem searchColumns_spec {row : Row} {cols minvar : Nat}
    (apart : ∀ col < cols, row.coeff col ≠ -2 ^ 31) (inside : minvar < cols)
    (nonzero : row.coeff minvar ≠ 0) :
    Searching row cols minvar cols (searchColumns cols minvar row) := by
  have run : ∀ (count col : Nat) (found : Search), minvar ≤ col →
      col + count ≤ cols → Searching row cols minvar col found →
        Searching row cols minvar (col + count)
          ((List.range' col count).foldl (searchColumn row) found) := by
    intro count
    induction count with
    | zero => exact fun col found _ _ searching => searching
    | succ count ih =>
        intro col found low high searching
        rw [List.range'_succ, List.foldl_cons,
          show col + (count + 1) = col + 1 + count by omega]
        exact ih (col + 1) _ (by omega) (by omega)
          (searching_column (apart col (by omega)) low (by omega) searching)
  obtain ⟨absolute, small⟩ := abs32_range (apart minvar inside)
  have start : Searching row cols minvar (minvar + 1)
      ⟨abs32 (row.coeff minvar), abs32 (row.coeff minvar), minvar⟩ := by
    rw [absolute]
    refine ⟨abs_pos.mpr nonzero, small, fun col low high => ?_, le_refl _, inside⟩
    have here : col = minvar := by omega
    rw [here]
    exact (abs_dvd _ _).mpr (dvd_refl _)
  have all := run (cols - (minvar + 1)) (minvar + 1) _ (by omega) (by omega) start
  rw [show minvar + 1 + (cols - (minvar + 1)) = cols by omega] at all
  exact all

/-- `Normalize_Eq_and_Find_Smallest` keeps the solutions, or there are none. -/
theorem normalize_spec {row : Row} {cols minvar : Nat}
    (apart : ∀ col < cols, row.coeff col ≠ -2 ^ 31) (inside : minvar < cols)
    (nonzero : row.coeff minvar ≠ 0) (zeroBelow : row.ZeroBelow minvar) :
    match normalize cols minvar row with
    | none => ∀ point : Nat → Int, ¬row.Solves cols point
    | some (divided, smallest) =>
        smallest < cols ∧ minvar ≤ smallest ∧ divided.ZeroBelow minvar ∧
        (∀ col < cols, row.coeff col = 0 → divided.coeff col = 0) ∧
        (∀ col < cols, divided.coeff col ≠ -2 ^ 31) ∧
          ∀ point : Nat → Int, row.Solves cols point ↔ divided.Solves cols point := by
  have found := searchColumns_spec apart inside nonzero
  unfold normalize
  dsimp only
  generalize searchColumns cols minvar row = search at found ⊢
  have positive := found.positive
  have divides : ∀ col < cols, search.g ∣ row.coeff col := by
    intro col isInside
    by_cases below : col < minvar
    · rw [zeroBelow col below]
      exact dvd_zero _
    · exact found.divides col (not_lt.mp below) isInside
  split
  · rename_i noMultiple
    split at noMultiple
    · rename_i remainder
      intro point solves
      refine remainder (Int.tmod_eq_zero_of_dvd ((dvd_abs _ _).mpr ?_))
      rw [← solves, Inequality.value_eq_sum]
      exact Finset.dvd_sum fun col member =>
        (divides col (Finset.mem_range.mp member)).mul_right _
    · cases noMultiple
  · rename_i divided smallest isDivided
    split at isDivided
    · cases isDivided
    · rename_i noRemainder
      cases isDivided
      have boundDivides : search.g ∣ row.bound :=
        (dvd_abs _ _).mp (Int.dvd_of_tmod_eq_zero (not_not.mp noRemainder))
      have coeffs : ∀ col < cols, row.coeff col =
          search.g * (row.divide search.g minvar cols).coeff col := by
        intro col isInside
        unfold Row.divide
        dsimp only
        split
        · have exactly := Int.mul_tdiv_cancel' (divides col isInside)
          have small : |(row.coeff col).tdiv search.g| ≤ |row.coeff col| := by
            rw [Int.abs_eq_natAbs, Int.abs_eq_natAbs, Int.natAbs_tdiv]
            exact_mod_cast Nat.div_le_self _ _
          rw [(fits_of_abs (small.trans (abs32_range (apart col isInside)).2)).int32_eq, exactly]
        · have below : col < minvar := by omega
          rw [zeroBelow col below, mul_zero]
      refine ⟨found.inside, found.low, fun col below => ?_,
        fun col isInside zero => ?_, fun col isInside smallestValue => ?_,
        fun point => Row.solves_scaled positive.ne' coeffs ?_⟩
      · have product := coeffs col (by omega)
        rw [zeroBelow col below] at product
        exact (mul_eq_zero.mp product.symm).resolve_left positive.ne'
      · have product := coeffs col isInside
        rw [zero] at product
        exact (mul_eq_zero.mp product.symm).resolve_left positive.ne'
      · have product := coeffs col isInside
        rw [smallestValue] at product
        have low := (row.fits col).low
        have own := apart col isInside
        omega
      · exact (Int.mul_tdiv_cancel' boundDivides).symm

/-! ## Solutions -/

/-- The integer solutions of the equations, over some of the columns. -/
def eqSolutions (state : State) (live : Set Nat) : Set (Nat → Int) :=
  { point | (∀ col ∉ live, point col = 0) ∧
      ∀ row ∈ state.eqs, row.Solves state.work.cols point }

/-- The columns that are still in use. -/
structure Live (state : State) (live : Set Nat) : Prop where
  inside : ∀ col ∈ live, col < state.work.cols
  le : ∀ index < state.work.rows, ∀ col < state.work.cols, col ∉ live →
    (state.work.row index).coeff col = 0
  eq : ∀ row ∈ state.eqs, ∀ col < state.work.cols, col ∉ live → row.coeff col = 0

/--
The solutions of the equations correspond one-to-one, with the coordinates that
survive kept, and the inequalities hold at corresponding solutions.
-/
structure Preserved (before : State) (liveBefore : Set Nat) (after : State)
    (liveAfter : Set Nat) : Prop where
  cols : before.work.cols ≤ after.work.cols
  old : ∀ col ∈ liveAfter, col < before.work.cols → col ∈ liveBefore
  bijection : ∃ image : (Nat → Int) → Nat → Int,
    Set.BijOn image (eqSolutions before liveBefore)
        (eqSolutions after liveAfter) ∧
      ∀ point ∈ eqSolutions before liveBefore,
        (before.work.Holds point ↔ after.work.Holds (image point)) ∧
          ∀ col ∈ liveAfter, col < before.work.cols → image point col = point col

theorem Preserved.refl (state : State) (live : Set Nat) :
    Preserved state live state live where
  cols := le_refl _
  old _ member _ := member
  bijection := ⟨id, Set.bijOn_id _, fun _ _ => ⟨Iff.rfl, fun _ _ _ => rfl⟩⟩

theorem Preserved.trans {before middle after : State} {liveBefore liveMiddle liveAfter : Set Nat}
    (first : Preserved before liveBefore middle liveMiddle)
    (second : Preserved middle liveMiddle after liveAfter) :
    Preserved before liveBefore after liveAfter := by
  obtain ⟨f, fBij, fKeeps⟩ := first.bijection
  obtain ⟨g, gBij, gKeeps⟩ := second.bijection
  have firstCols := first.cols
  have secondCols := second.cols
  refine ⟨by omega, fun col member below => first.old col
    (second.old col member (by omega)) below, g ∘ f, gBij.comp fBij,
    fun point member => ?_⟩
  have fMember := fBij.mapsTo member
  refine ⟨((fKeeps point member).1).trans (gKeeps _ fMember).1,
    fun col isLive below => ?_⟩
  exact ((gKeeps _ fMember).2 col isLive (by omega)).trans
    ((fKeeps point member).2 col (second.old col isLive (by omega)) below)

/-! ## Equations that are solved for a variable -/

/-- What substitution leaves of a row. -/
structure Substituted (cols i : Nat) (pivot row new : Row) : Prop where
  coeff : ∀ col < cols,
    new.coeff col = row.coeff col - row.coeff i * pivot.coeff col
  bound : new.bound = row.bound - row.coeff i * pivot.bound

/-- What substitution leaves of the other equations. -/
structure SubstitutedAll (cols i : Nat) (pivot : Row) (rest eqs : List Row) :
    Prop where
  forward : ∀ row ∈ rest, ∃ new ∈ eqs, Substituted cols i pivot row new
  backward : ∀ new ∈ eqs, ∃ row ∈ rest, Substituted cols i pivot row new

section Unary

variable {cols i : Nat} {pivot row new : Row} {point : Nat → Int}

section

variable (substituted : Substituted cols i pivot row new)

include substituted

theorem Substituted.value :
    new.value cols point = row.value cols point - row.coeff i * pivot.value cols point := by
  rw [Inequality.value_eq_sum, Inequality.value_eq_sum, Inequality.value_eq_sum,
    Finset.mul_sum, ← Finset.sum_sub_distrib]
  refine Finset.sum_congr rfl fun col member => ?_
  rw [substituted.coeff col (Finset.mem_range.mp member)]
  push_cast
  ring

theorem Substituted.holds (solves : pivot.Solves cols point) :
    new.Holds cols point ↔ row.Holds cols point := by
  unfold Row.Solves at solves
  unfold Inequality.Holds
  rw [substituted.value, substituted.bound, solves]
  push_cast
  exact sub_le_sub_iff_right _

theorem Substituted.solves (solves : pivot.Solves cols point) :
    new.Solves cols point ↔ row.Solves cols point := by
  unfold Row.Solves at solves ⊢
  rw [substituted.value, substituted.bound, solves]
  exact sub_left_inj

theorem Substituted.zero (inside : i < cols) (one : pivot.coeff i = 1) : new.coeff i = 0 := by
  rw [substituted.coeff i inside, one, mul_one, sub_self]

theorem Substituted.holds_update (inside : i < cols) (one : pivot.coeff i = 1) (amount : Int) :
    new.Holds cols (Function.update point i amount) ↔ new.Holds cols point := by
  unfold Inequality.Holds
  rw [Inequality.value_update_zero (substituted.zero inside one)]

theorem Substituted.solves_update (inside : i < cols) (one : pivot.coeff i = 1) (amount : Int) :
    new.Solves cols (Function.update point i amount) ↔ new.Solves cols point := by
  unfold Row.Solves
  rw [Inequality.value_update_zero (substituted.zero inside one)]

end

/-- The value of the variable that an equation is solved for. -/
theorem Row.solves_update (inside : i < cols) (one : pivot.coeff i = 1) (zero : point i = 0) :
    pivot.Solves cols (Function.update point i (pivot.bound - pivot.value cols point)) := by
  unfold Row.Solves
  rw [Inequality.value_update inside, one, zero]
  push_cast
  ring

theorem Row.eq_of_solves (inside : i < cols) (one : pivot.coeff i = 1)
    (solves : pivot.Solves cols point) :
    pivot.bound - pivot.value cols (Function.update point i 0) = point i := by
  unfold Row.Solves at solves
  rw [Inequality.value_update inside, solves, one]
  push_cast
  ring

variable {work after : Work} {last : Row} {rest eqs : List Row}
  {live : Set Nat}

/-- An equation that is solved for a variable. -/
theorem preserved_unary (isLive : Live ⟨work, last :: rest⟩ live)
    (inside : i < work.cols) (one : pivot.coeff i = 1)
    (pivotLive : ∀ col < work.cols, col ∉ live → pivot.coeff col = 0)
    (same : ∀ point : Nat → Int, last.Solves work.cols point ↔ pivot.Solves work.cols point)
    (afterCols : after.cols = work.cols) (afterRows : after.rows = work.rows)
    (les : ∀ index < work.rows, Substituted work.cols i pivot (work.row index) (after.row index))
    (others : SubstitutedAll work.cols i pivot rest eqs) :
    Preserved ⟨work, last :: rest⟩ live ⟨after, eqs⟩ (live \ {i}) ∧
      Live ⟨after, eqs⟩ (live \ {i}) := by
  have member : i ∈ live := by
    by_contra outside
    rw [pivotLive i inside outside] at one
    omega
  have restSolves : ∀ point : Nat → Int, pivot.Solves work.cols point →
      ((∀ row ∈ eqs, row.Solves work.cols point) ↔ ∀ row ∈ rest, row.Solves work.cols point) := by
    intro point solves
    constructor
    · intro all row isIn
      obtain ⟨new, isNew, substituted⟩ := others.forward row isIn
      exact (substituted.solves solves).mp (all new isNew)
    · intro all new isNew
      obtain ⟨row, isIn, substituted⟩ := others.backward new isNew
      exact (substituted.solves solves).mpr (all row isIn)
  have eqsUpdate : ∀ (point : Nat → Int) (amount : Int),
      (∀ row ∈ eqs, row.Solves work.cols (Function.update point i amount)) ↔
        ∀ row ∈ eqs, row.Solves work.cols point := by
    intro point amount
    refine forall₂_congr fun new isNew => ?_
    obtain ⟨row, isIn, substituted⟩ := others.backward new isNew
    exact substituted.solves_update inside one amount
  have worksHold : ∀ point : Nat → Int, pivot.Solves work.cols point →
      (work.Holds point ↔ after.Holds (Function.update point i 0)) := by
    intro point solves
    unfold Work.Holds
    rw [afterRows, afterCols]
    refine forall₂_congr fun index below => ?_
    rw [(les index below).holds_update inside one, (les index below).holds solves]
  refine ⟨⟨afterCols.ge, fun col isIn _ => isIn.1,
    fun point => Function.update point i 0, ?_, ?_⟩, ?_⟩
  · refine @Set.InvOn.bijOn _ _ _ _ _ (fun point =>
      Function.update point i (pivot.bound - pivot.value work.cols point))
      ⟨?_, ?_⟩ ?_ ?_
    · rintro point ⟨-, solves⟩
      have pivotSolves := (same point).mp (solves last List.mem_cons_self)
      dsimp only
      rw [Row.eq_of_solves inside one pivotSolves, update_idem, update_eq_self]
    · rintro point ⟨support, -⟩
      have zero : point i = 0 := support i fun isIn => isIn.2 rfl
      dsimp only
      rw [update_idem, ← zero, update_eq_self]
    · rintro point ⟨support, solves⟩
      have pivotSolves := (same point).mp (solves last List.mem_cons_self)
      refine ⟨fun col outside => ?_, ?_⟩
      · dsimp only
        by_cases here : col = i
        · rw [here, update_self]
        · rw [update_of_ne here]
          exact support col fun isIn => outside ⟨isIn, here⟩
      · dsimp only
        rw [afterCols, eqsUpdate, restSolves point pivotSolves]
        exact fun row isIn => solves row (List.mem_cons_of_mem _ isIn)
    · rintro point ⟨support, solves⟩
      have zero : point i = 0 := support i fun isIn => isIn.2 rfl
      have pivotSolves := Row.solves_update inside one zero
      dsimp only at solves
      rw [afterCols] at solves
      refine ⟨fun col outside => ?_, ?_⟩
      · have apart : col ≠ i := by
          rintro rfl
          exact outside member
        dsimp only
        rw [update_of_ne apart]
        exact support col fun isIn => outside isIn.1
      · intro row isIn
        rcases List.mem_cons.mp isIn with rfl | later
        · exact (same _).mpr pivotSolves
        · refine (restSolves _ pivotSolves).mp ?_ row later
          exact (eqsUpdate point _).mpr solves
  · rintro point ⟨support, solves⟩
    have pivotSolves := (same point).mp (solves last List.mem_cons_self)
    refine ⟨worksHold point pivotSolves, fun col isIn _ => ?_⟩
    exact update_of_ne isIn.2 _ _
  · have zeros : ∀ row new : Row, Substituted work.cols i pivot row new →
        (∀ col < work.cols, col ∉ live → row.coeff col = 0) →
          ∀ col < work.cols, col ∉ live \ {i} → new.coeff col = 0 := by
      intro row new substituted rowLive col below outside
      by_cases here : col = i
      · rw [here]
        exact substituted.zero inside one
      · have dead : col ∉ live := fun isIn => outside ⟨isIn, here⟩
        rw [substituted.coeff col below, rowLive col below dead,
          pivotLive col below dead, mul_zero, sub_zero]
    refine ⟨fun col isIn => ?_, fun index below => ?_, fun new isIn => ?_⟩
    · dsimp only
      rw [afterCols]
      exact isLive.inside col isIn.1
    · dsimp only at below ⊢
      rw [afterRows] at below
      rw [afterCols]
      exact zeros _ _ (les index below) (isLive.le index below)
    · dsimp only
      rw [afterCols]
      obtain ⟨row, isOld, substituted⟩ := others.backward new isIn
      exact zeros row new substituted (isLive.eq row (List.mem_cons_of_mem _ isOld))

end Unary

/-! ## Pugh's variable -/

/-- The operations for a symmetric residue fit in 32 bits. -/
structure ModFits (a b : Int) : Prop where
  num : Fits32 (2 * a + b)
  den : Fits32 (2 * b)

/-- `Mod_Hat` is a residue, and at most half of the divisor in size. -/
theorem modHat_spec {a b : Int} (positive : 0 < b) (fits : ModFits a b) :
    modHat a b = a - b * ((2 * a + b) / (2 * b)) ∧ |modHat a b| ≤ b := by
  have denHigh := fits.den.high
  have floorEq : ∀ num : Int,
      (if num ≥ 0 ∧ 2 * b > 0 ∨ num ≤ 0 ∧ 2 * b < 0 then num.tdiv (2 * b)
        else if num.tmod (2 * b) = 0 then num.tdiv (2 * b)
        else num.tdiv (2 * b) - 1) = num / (2 * b) := by
    intro num
    by_cases nonneg : 0 ≤ num
    · rw [if_pos (.inl ⟨nonneg, by omega⟩), Int.tdiv_eq_ediv_of_nonneg nonneg]
    · rw [if_neg (by omega)]
      split
      · rename_i divides
        exact Int.tdiv_eq_ediv_of_dvd (Int.dvd_of_tmod_eq_zero divides)
      · rename_i remains
        have apart : ¬(0 ≤ num ∨ 2 * b ∣ num) :=
          not_or.mpr ⟨nonneg, fun divides =>
            remains (Int.tmod_eq_zero_of_dvd divides)⟩
        rw [Int.tdiv_eq_ediv, if_neg apart, Int.sign_eq_one_of_pos (by omega), add_sub_cancel_right]
  have quotient := Int.mul_ediv_add_emod (2 * a + b) (2 * b)
  have low := Int.emod_nonneg (2 * a + b) (show 2 * b ≠ 0 by omega)
  have high := Int.emod_lt_of_pos (2 * a + b) (show 0 < 2 * b by omega)
  have product : 2 * (b * ((2 * a + b) / (2 * b))) = 2 * b * ((2 * a + b) / (2 * b)) := by ring
  have small : |a - b * ((2 * a + b) / (2 * b))| ≤ b := abs_le.mpr ⟨by omega, by omega⟩
  have exactly : modHat a b = a - b * ((2 * a + b) / (2 * b)) := by
    unfold modHat
    dsimp only
    rw [fits.num.int32_eq, fits.den.int32_eq, floorEq]
    refine (fits_of_abs (small.trans ?_)).int32_eq
    unfold int32Max
    omega
  exact ⟨exactly, exactly ▸ small⟩

/-- An equation with a new variable in the next column. -/
structure NewVariable (cols : Nat) (m : Int) (last new : Row) : Prop where
  positive : 0 < m
  own : new.coeff cols = m
  coeff : ∀ col < cols, m ∣ new.coeff col + last.coeff col
  bound : m ∣ new.bound + last.bound

section Modulus

variable {cols : Nat} {m : Int} {last new : Row} {point : Nat → Int}

/-- The value of the new variable. -/
def newValue (cols : Nat) (m : Int) (new : Row) (point : Nat → Int) : Int :=
  (new.bound - new.value cols point) / m

theorem value_succ (row : Row) : row.value (cols + 1) point =
    row.value cols point + row.coeff cols * point cols := by
  rw [Inequality.value_eq_sum, Inequality.value_eq_sum, Finset.sum_range_succ]
  rfl

/-- Columns that are not counted do not matter. -/
theorem value_update_outside (row : Row) (amount : Int) :
    row.value cols (Function.update point cols amount) = row.value cols point :=
  Inequality.value_congr (fun _ _ => rfl) fun _ below _ =>
    update_of_ne below.ne _ _

/-- A solution determines the new variable. -/
theorem NewVariable.solves_update (variable' : NewVariable cols m last new)
    (solves : last.Solves cols point) :
    new.Solves (cols + 1) (Function.update point cols (newValue cols m new point)) := by
  have divides : m ∣ new.bound - new.value cols point := by
    have sum : m ∣ new.value cols point + last.value cols point := by
      rw [Inequality.value_eq_sum, Inequality.value_eq_sum, ← Finset.sum_add_distrib]
      refine Finset.dvd_sum fun col member => ?_
      have product := (variable'.coeff col (Finset.mem_range.mp member)).mul_right (point col)
      rw [add_mul] at product
      exact product
    have difference := variable'.bound.sub sum
    unfold Row.Solves at solves
    rw [solves] at difference
    have cancel : new.bound + last.bound -
        (new.value cols point + last.bound) = new.bound - new.value cols point := by ring
    rwa [cancel] at difference
  unfold Row.Solves
  rw [value_succ, value_update_outside, update_self, variable'.own]
  unfold newValue
  rw [Int.mul_ediv_cancel' divides]
  ring

/-- The new variable is determined by its equation. -/
theorem NewVariable.eq_of_solves (variable' : NewVariable cols m last new)
    (solves : new.Solves (cols + 1) point) :
    newValue cols m new point = point cols := by
  unfold Row.Solves at solves
  rw [value_succ, variable'.own] at solves
  unfold newValue
  have product : new.bound - new.value cols point = m * point cols := by
    omega
  rw [product, Int.mul_ediv_cancel_left _ variable'.positive.ne']

variable {before after : State} {live : Set Nat}

/-- An equation with a new variable that is added. -/
theorem preserved_newVariable (isLive : Live before live)
    (variable' : NewVariable before.work.cols m last new)
    (implied : ∀ point ∈ eqSolutions before live, last.Solves before.work.cols point)
    (newLive : ∀ col < before.work.cols, col ∉ live → new.coeff col = 0)
    (cols : after.work.cols = before.work.cols + 1)
    (rows : after.work.rows = before.work.rows)
    (les : ∀ index < before.work.rows, after.work.row index =
      (before.work.row index).zeroColumns before.work.cols (before.work.cols + 1))
    (eqs : after.eqs = new :: before.eqs.map (Row.zeroColumns
      before.work.cols (before.work.cols + 1))) :
    Preserved before live after (insert before.work.cols live) ∧
      Live after (insert before.work.cols live) := by
  have outsideLive : before.work.cols ∉ live :=
    fun member => absurd (isLive.inside _ member) (lt_irrefl _)
  have oldSolves : ∀ point : Nat → Int,
      (∀ row ∈ before.eqs.map (Row.zeroColumns before.work.cols
        (before.work.cols + 1)), row.Solves (before.work.cols + 1) point) ↔
          ∀ row ∈ before.eqs, row.Solves before.work.cols point := by
    intro point
    rw [List.forall_mem_map]
    refine forall₂_congr fun row _ => ?_
    unfold Row.Solves
    rw [Row.zeroColumns_value (Nat.le_succ _)]
    rfl
  have oldUpdate : ∀ (point : Nat → Int) (amount : Int),
      (∀ row ∈ before.eqs, row.Solves before.work.cols
        (Function.update point before.work.cols amount)) ↔
          ∀ row ∈ before.eqs, row.Solves before.work.cols point := by
    intro point amount
    refine forall₂_congr fun row _ => ?_
    unfold Row.Solves
    rw [value_update_outside]
  have worksHold : ∀ (point : Nat → Int) (amount : Int),
      before.work.Holds point ↔ after.work.Holds
        (Function.update point before.work.cols amount) := by
    intro point amount
    unfold Work.Holds
    rw [rows, cols]
    refine forall₂_congr fun index below => ?_
    rw [les index below, Row.zeroColumns_holds (Nat.le_succ _)]
    unfold Inequality.Holds
    rw [value_update_outside]
  refine ⟨⟨by omega, fun col member below => ?_, fun point =>
    Function.update point before.work.cols (newValue before.work.cols m new point), ?_, ?_⟩, ?_⟩
  · exact (Set.mem_insert_iff.mp member).resolve_left below.ne
  · refine @Set.InvOn.bijOn _ _ _ _ _ (fun point =>
      Function.update point before.work.cols 0) ⟨?_, ?_⟩ ?_ ?_
    · rintro point ⟨support, -⟩
      dsimp only
      rw [update_idem, ← support _ outsideLive, update_eq_self]
    · rintro point ⟨-, solves⟩
      rw [eqs, cols] at solves
      have own := variable'.eq_of_solves (solves new List.mem_cons_self)
      dsimp only
      have same : newValue before.work.cols m new
          (Function.update point before.work.cols 0) = newValue before.work.cols m new point := by
        unfold newValue
        rw [value_update_outside]
      rw [same, own, update_idem, update_eq_self]
    · rintro point isIn
      obtain ⟨support, solves⟩ := isIn
      refine ⟨fun col outside => ?_, ?_⟩
      · obtain ⟨apart, dead⟩ := not_or.mp (fun member => outside (Set.mem_insert_iff.mpr member))
        dsimp only
        rw [update_of_ne apart]
        exact support col dead
      · rw [eqs, cols, List.forall_mem_cons, oldSolves, oldUpdate]
        exact ⟨variable'.solves_update (implied point ⟨support, solves⟩), solves⟩
    · rintro point ⟨support, solves⟩
      rw [eqs, cols, List.forall_mem_cons, oldSolves] at solves
      refine ⟨fun col dead => ?_, ?_⟩
      · dsimp only
        by_cases here : col = before.work.cols
        · rw [here, update_self]
        · rw [update_of_ne here]
          exact support col fun member =>
            (Set.mem_insert_iff.mp member).elim here dead
      · exact (oldUpdate point 0).mpr solves.2
  · rintro point -
    refine ⟨worksHold point _, fun col _ below => ?_⟩
    exact update_of_ne below.ne _ _
  · have zeros : ∀ row : Row,
        (∀ col < before.work.cols, col ∉ live → row.coeff col = 0) →
          ∀ col < before.work.cols + 1, col ∉ insert before.work.cols live →
            (row.zeroColumns before.work.cols (before.work.cols + 1)).coeff col = 0 := by
      intro row rowLive col below outside
      obtain ⟨apart, dead⟩ := not_or.mp (fun member => outside (Set.mem_insert_iff.mpr member))
      have inside : col < before.work.cols := by omega
      unfold Row.zeroColumns
      dsimp only
      rw [if_neg (by omega)]
      exact rowLive col inside dead
    refine ⟨fun col member => ?_, fun index below col inside outside => ?_,
      fun row isIn col inside outside => ?_⟩
    · rcases Set.mem_insert_iff.mp member with rfl | isOld
      · omega
      · have inside := isLive.inside col isOld
        omega
    · rw [rows] at below
      rw [cols] at inside
      rw [les index below]
      exact zeros _ (isLive.le index below) col inside outside
    · rw [eqs] at isIn
      rw [cols] at inside
      rcases List.mem_cons.mp isIn with rfl | isOld
      · obtain ⟨apart, dead⟩ := not_or.mp (fun member => outside (Set.mem_insert_iff.mpr member))
        exact newLive col (by omega) dead
      · obtain ⟨old, member, rfl⟩ := List.mem_map.mp isOld
        exact zeros _ (isLive.eq old member) col inside outside

end Modulus

/-! ## Steps that cut nothing off -/

/-- A new coefficient, without cutting off. -/
def exactCoeff (i : Nat) (pivot row : Row) (col : Nat) : Int :=
  row.coeff col - row.coeff i * pivot.coeff col

/-- The new coefficients of a row, without cutting off, fit in 32 bits. -/
def ExactSmall (i minvar cols : Nat) (pivot row : Row) : Prop :=
  row.coeff i = 0 ∨ ∀ col < cols, minvar ≤ col → |exactCoeff i pivot row col| ≤ int32Max

/--
The products of the inequalities fit in 32 bits, as far as they are computed
before a coefficient overflows.
-/
def ProductsFit (i minvar : Nat) (pivot : Row) (rest : List Row) (work : Work) : Prop :=
  (∀ row ∈ rest, ExactSmall i minvar work.cols pivot row) →
    ∀ le < work.rows,
      (∀ earlier < le, ExactSmall i minvar work.cols pivot (work.row earlier)) →
        ∀ col < work.cols, minvar ≤ col →
          (∀ earlier < col, minvar ≤ earlier →
            |exactCoeff i pivot (work.row le) earlier| ≤ int32Max) →
              (work.row le).coeff i ≠ 0 → (work.row le).coeff i ≠ 1 →
                (work.row le).coeff i ≠ -1 → Fits32 ((work.row le).coeff i * pivot.coeff col)

/-- The residues of an equation are computed in 32 bits. -/
structure ModulusFits (cols : Nat) (last : Row) (smallest : Nat) : Prop where
  coeff : ∀ col < cols, ModFits (last.coeff col) (|last.coeff smallest| + 1)
  constant : Fits32 last.bound
  bound : ModFits last.bound (|last.coeff smallest| + 1)

/-- The step on a state cuts nothing off, and has room. -/
structure Clear (state : State) : Prop where
  normalize : ∀ last rest i, state.eqs = last :: rest →
    last.firstNonZero state.work.cols = some i → abs32 (last.coeff i) ≠ 1 →
      ∀ col < state.work.cols, last.coeff col ≠ -2 ^ 31
  negate : ∀ last rest pivot i minvar, state.eqs = last :: rest →
    findPivot state.work.cols last = .unary pivot i minvar →
      pivot.coeff i = -1 → ∀ col < state.work.cols, minvar ≤ col → pivot.coeff col ≠ -2 ^ 31
  products : ∀ last rest pivot i minvar, state.eqs = last :: rest →
    findPivot state.work.cols last = .unary pivot i minvar →
      ProductsFit i minvar (orient i minvar state.work.cols pivot) rest
        state.work
  modulus : ∀ last rest pivot smallest, state.eqs = last :: rest →
    findPivot state.work.cols last = .modulus pivot smallest →
      ModulusFits state.work.cols pivot smallest
  room : NeedsVariable state → state.work.cols < maxWorkCols ∧ state.eqs.length < maxWorkRowsEq

/-- A coefficient of the rows after the step does not fit in 32 bits. -/
def Overflows (state : State) : Prop :=
  ∃ last rest pivot i minvar, state.eqs = last :: rest ∧
    findPivot state.work.cols last = .unary pivot i minvar ∧
    ¬((∀ row ∈ rest, ExactSmall i minvar state.work.cols
        (orient i minvar state.work.cols pivot) row) ∧
      ∀ le < state.work.rows, ExactSmall i minvar state.work.cols
        (orient i minvar state.work.cols pivot) (state.work.row le))

/-- Without equations there is nothing to cut off. -/
theorem clear_of_nil {state : State} (empty : state.eqs = []) : Clear state := by
  have never : ∀ last rest, state.eqs ≠ last :: rest := by
    intro last rest eqs
    rw [empty] at eqs
    cases eqs
  exact ⟨fun last rest _ eqs => absurd eqs (never last rest),
    fun last rest _ _ _ eqs => absurd eqs (never last rest),
    fun last rest _ _ _ eqs => absurd eqs (never last rest),
    fun last rest _ _ eqs => absurd eqs (never last rest),
    fun ⟨last, rest, _, _, eqs, _⟩ => absurd eqs (never last rest)⟩

/-- An equation that stands for another one. -/
structure Equivalent (cols : Nat) (last pivot : Row) : Prop where
  zero : ∀ col < cols, last.coeff col = 0 → pivot.coeff col = 0
  solves : ∀ point : Nat → Int, last.Solves cols point ↔ pivot.Solves cols point

theorem Equivalent.refl (cols : Nat) (last : Row) : Equivalent cols last last :=
  ⟨fun _ _ zero => zero, fun _ => Iff.rfl⟩

/-- The column that an equation is solved for. -/
structure UnaryPivot (cols i minvar : Nat) (pivot : Row) : Prop where
  inside : i < cols
  low : minvar ≤ i
  zeroBelow : pivot.ZeroBelow minvar

section Pivots

variable {cols i minvar smallest : Nat} {last pivot row new : Row}
  {rest eqs : List Row} {work after : Work}

/-- The choice of a pivot. -/
theorem findPivot_spec
    (normal : ∀ i, last.firstNonZero cols = some i →
      abs32 (last.coeff i) ≠ 1 → ∀ col < cols, last.coeff col ≠ -2 ^ 31) :
    match findPivot cols last with
    | .noVariables => ∀ col < cols, last.coeff col = 0
    | .unary pivot i minvar => UnaryPivot cols i minvar pivot ∧
        (pivot.coeff i = 1 ∨ pivot.coeff i = -1) ∧ Equivalent cols last pivot
    | .indivisible => ∀ point : Nat → Int, ¬last.Solves cols point
    | .modulus pivot smallest =>
        pivot.coeff smallest ≠ -2 ^ 31 ∧ Equivalent cols last pivot := by
  unfold findPivot
  cases first : last.firstNonZero cols with
  | none => exact Row.zero_of_firstNonZero first
  | some i =>
      obtain ⟨inside, nonzero, zeroBelow⟩ := Row.zeroBelow_of_firstNonZero first
      dsimp only
      by_cases one : abs32 (last.coeff i) = 1
      · rw [if_pos one]
        exact ⟨⟨inside, le_refl _, zeroBelow⟩, abs32_eq_one (last.fits i) one, Equivalent.refl _ _⟩
      · rw [if_neg one]
        have normalized := normalize_spec (normal i first one) inside nonzero zeroBelow
        cases result : normalize cols i last with
        | none =>
            rw [result] at normalized
            exact normalized
        | some pair =>
            obtain ⟨divided, smallest⟩ := pair
            rw [result] at normalized
            obtain ⟨isInside, low, dividedZero, zero, apart, solves⟩ := normalized
            dsimp only
            by_cases unit : abs32 (divided.coeff smallest) = 1
            · rw [if_pos unit]
              exact ⟨⟨isInside, low, dividedZero⟩, abs32_eq_one (divided.fits _) unit, zero, solves⟩
            · rw [if_neg unit]
              exact ⟨apart _ isInside, zero, solves⟩

/-- An equation with the coefficient one. -/
theorem orient_spec (unary : UnaryPivot cols i minvar last)
    (unit : last.coeff i = 1 ∨ last.coeff i = -1)
    (negates : last.coeff i = -1 → ∀ col < cols, minvar ≤ col → last.coeff col ≠ -2 ^ 31) :
    UnaryPivot cols i minvar (orient i minvar cols last) ∧
      (orient i minvar cols last).coeff i = 1 ∧
      Equivalent cols last (orient i minvar cols last) := by
  unfold orient
  split
  · rename_i negative
    have coeffs : ∀ col < cols, last.coeff col = -1 * (last.negate minvar cols).coeff col := by
      intro col inside
      unfold Row.negate
      dsimp only
      split
      · rename_i isIn
        have fits := last.fits col
        have low := fits.low
        have high := fits.high
        have apart := negates negative col inside isIn.1
        rw [Fits32.int32_eq ⟨by omega, by omega⟩]
        ring
      · rw [unary.zeroBelow col (by omega), mul_zero]
    refine ⟨⟨unary.inside, unary.low, fun col below => ?_⟩, ?_,
      fun col inside zero => ?_, fun point =>
        Row.solves_scaled (show (-1 : Int) ≠ 0 by decide) coeffs ?_⟩
    · have own := coeffs col (below.trans_le (unary.low.trans unary.inside.le))
      rw [unary.zeroBelow col below] at own
      omega
    · have own := coeffs i unary.inside
      omega
    · have own := coeffs col inside
      omega
    · change last.bound = -1 * -last.bound
      ring
  · rename_i notNegative
    exact ⟨unary, unit.resolve_right notNegative, Equivalent.refl _ _⟩

/-- Substitution in one row, where the products are exact. -/
theorem subRow_spec {product : Int → Int}
    (unary : UnaryPivot cols i minvar pivot) (one : pivot.coeff i = 1)
    (exactly : row.coeff i ≠ 0 → row.coeff i ≠ 1 → row.coeff i ≠ -1 →
      ∀ col < cols, minvar ≤ col →
        product (row.coeff i * pivot.coeff col) = row.coeff i * pivot.coeff col)
    (solved : subRow product i minvar cols pivot row = some new) :
    Substituted cols i pivot row new ∧ ExactSmall i minvar cols pivot row := by
  unfold subRow at solved
  split at solved
  · rename_i zero
    cases solved
    exact ⟨⟨fun col inside => by rw [zero, zero_mul, sub_zero],
      by rw [zero, zero_mul, sub_zero]⟩, .inl zero⟩
  · rename_i nonzero
    have coeffs : ∀ col < cols, minvar ≤ col →
        subCoeff product (row.coeff i) (row.coeff col) (pivot.coeff col) =
          exactCoeff i pivot row col := by
      intro col inside low
      unfold subCoeff exactCoeff
      split_ifs with isOne isNegative
      · rw [isOne, one_mul]
      · rw [isNegative]
        ring
      · rw [exactly nonzero isOne isNegative col inside low]
    split at solved
    · rename_i small
      cases solved
      refine ⟨⟨fun col inside => ?_, rfl⟩, .inr fun col inside low =>
        coeffs col inside low ▸ small col inside low⟩
      dsimp only
      split
      · rename_i here
        rw [here, one, mul_one, sub_self]
      · split
        · rename_i isIn
          exact coeffs col inside isIn.1
        · rw [unary.zeroBelow col (by omega), mul_zero, sub_zero]
    · cases solved

/-- Substitution in the other equations. -/
theorem subEqs_spec (unary : UnaryPivot cols i minvar pivot) (one : pivot.coeff i = 1)
    (solved : subEqs i minvar cols pivot rest = some eqs) :
    SubstitutedAll cols i pivot rest eqs ∧ ∀ row ∈ rest, ExactSmall i minvar cols pivot row := by
  induction rest generalizing eqs with
  | nil =>
      cases solved
      exact ⟨⟨nofun, nofun⟩, nofun⟩
  | cons first rest ih =>
      unfold subEqs at solved
      split at solved
      · rename_i new others isNew isOthers
        cases solved
        obtain ⟨substituted, small⟩ := subRow_spec unary one (fun _ _ _ _ _ _ => rfl) isNew
        obtain ⟨later, laterSmall⟩ := ih isOthers
        refine ⟨⟨fun row member => ?_, fun row member => ?_⟩, ?_⟩
        · rcases List.mem_cons.mp member with rfl | isLater
          · exact ⟨new, List.mem_cons_self, substituted⟩
          · obtain ⟨other, isOther, related⟩ := later.forward row isLater
            exact ⟨other, List.mem_cons_of_mem _ isOther, related⟩
        · rcases List.mem_cons.mp member with rfl | isLater
          · exact ⟨first, List.mem_cons_self, substituted⟩
          · obtain ⟨other, isOther, related⟩ := later.backward row isLater
            exact ⟨other, List.mem_cons_of_mem _ isOther, related⟩
        · exact List.forall_mem_cons.mpr ⟨small, laterSmall⟩
      · cases solved

/-- Substitution in the inequalities, whose products have 32 bits. -/
theorem subLes_spec (unary : UnaryPivot work.cols i minvar pivot)
    (one : pivot.coeff i = 1) (fits : ProductsFit i minvar pivot rest work)
    (restSmall : ∀ row ∈ rest, ExactSmall i minvar work.cols pivot row)
    (solved : subLes i minvar pivot work = some after) :
    (∀ le < work.rows, Substituted work.cols i pivot (work.row le)
      (after.row le)) ∧ after.cols = work.cols ∧ after.rows = work.rows ∧
      ∀ le < work.rows, ExactSmall i minvar work.cols pivot (work.row le) := by
  unfold subLes at solved
  dsimp only at solved
  split at solved
  swap
  · cases solved
  rename_i all
  cases solved
  have each : ∀ le < work.rows,
      ExactSmall i minvar work.cols pivot (work.row le) ∧
        Substituted work.cols i pivot (work.row le)
          ((subRow int32 i minvar work.cols pivot (work.row le)).getD (work.row le)) := by
    intro le
    induction le using Nat.strong_induction_on with
    | _ le earlier =>
        intro inside
        obtain ⟨new, isNew⟩ := Option.isSome_iff_exists.mp (all le inside)
        have before : ∀ other < le, ExactSmall i minvar work.cols pivot (work.row other) :=
          fun other below => (earlier other below (by omega)).1
        have small : (work.row le).coeff i ≠ 0 →
            ∀ col < work.cols, minvar ≤ col →
              |exactCoeff i pivot (work.row le) col| ≤ int32Max := by
          intro nonzero col
          have computed : SubSmall int32 i minvar work.cols pivot (work.row le) := by
            unfold subRow at isNew
            rw [if_neg nonzero] at isNew
            split at isNew
            · assumption
            · cases isNew
          induction col using Nat.strong_induction_on with
          | _ col previous =>
              intro isIn low
              have own := computed col isIn low
              unfold subCoeff at own
              unfold exactCoeff
              split_ifs at own with isOne isNegative
              · rw [isOne, one_mul]
                exact own
              · rw [isNegative, neg_one_mul, sub_neg_eq_add]
                exact own
              · rw [(fits restSmall le inside before col isIn low
                  (fun other below isLow => previous other below (by omega)
                    isLow) nonzero isOne isNegative).int32_eq] at own
                exact own
        have result := subRow_spec unary one (fun nonzero isOne isNegative col
          isIn low => (fits restSmall le inside before col isIn low
            (fun other below isLow => small nonzero other (by omega) isLow)
            nonzero isOne isNegative).int32_eq) isNew
        rw [isNew]
        exact ⟨result.2, result.1⟩
  exact ⟨fun le inside => (each le inside).2, rfl, rfl,
    fun le inside => (each le inside).1⟩

end Pivots

/-! ## Turns of the loop -/

section Turns

variable {cols smallest : Nat} {last pivot : Row} {rest : List Row}
  {work : Work} {live : Set Nat} {before after state start : State}

/-- The last equation may be replaced by an equivalent one. -/
theorem preserved_replace (isLive : Live ⟨work, last :: rest⟩ live)
    (equivalent : Equivalent work.cols last pivot) :
    Preserved ⟨work, last :: rest⟩ live ⟨work, pivot :: rest⟩ live ∧
      Live ⟨work, pivot :: rest⟩ live := by
  have same : eqSolutions ⟨work, last :: rest⟩ live = eqSolutions ⟨work, pivot :: rest⟩ live := by
    ext point
    refine and_congr_right fun _ => ?_
    rw [List.forall_mem_cons, List.forall_mem_cons]
    exact and_congr_left fun _ => equivalent.solves point
  refine ⟨⟨le_refl _, fun _ member _ => member, id, ?_,
    fun _ _ => ⟨Iff.rfl, fun _ _ _ => rfl⟩⟩, isLive.inside, isLive.le, ?_⟩
  · rw [same]
    exact Set.bijOn_id _
  · intro row member col inside dead
    rcases List.mem_cons.mp member with rfl | later
    · exact equivalent.zero col inside (isLive.eq last List.mem_cons_self col inside dead)
    · exact isLive.eq row (List.mem_cons_of_mem _ later) col inside dead

/-- The residues are the coefficients of the new variable's equation. -/
theorem modulusRow_spec (apart : last.coeff smallest ≠ -2 ^ 31)
    (fits : ModulusFits cols last smallest) :
    NewVariable cols (|last.coeff smallest| + 1) last
        (modulusRow (cols + 1) (last.zeroColumns cols (cols + 1))
          (int32 (abs32 (last.coeff smallest) + 1))) ∧
      ∀ col < cols, last.coeff col = 0 →
        (modulusRow (cols + 1) (last.zeroColumns cols (cols + 1))
          (int32 (abs32 (last.coeff smallest) + 1))).coeff col = 0 := by
  have absolute := abs_nonneg (last.coeff smallest)
  have denHigh := fits.bound.den.high
  have mEq : int32 (abs32 (last.coeff smallest) + 1) =
      |last.coeff smallest| + 1 := by
    rw [abs32_eq (last.fits _) apart]
    exact Fits32.int32_eq ⟨by omega, by omega⟩
  rw [mEq]
  have coeffFits := fits.coeff
  have boundFits := fits.bound
  have positive : 0 < |last.coeff smallest| + 1 := by omega
  generalize |last.coeff smallest| + 1 = m at positive coeffFits boundFits denHigh ⊢
  have residue : ∀ a, ModFits a m → int32 (-modHat a m) = m * ((2 * a + m) / (2 * m)) - a := by
    intro a aFits
    obtain ⟨exactly, small⟩ := modHat_spec positive aFits
    have range := abs_le.mp small
    rw [Fits32.int32_eq ⟨by omega, by omega⟩, exactly]
    ring
  have coeffs : ∀ col < cols,
      (modulusRow (cols + 1) (last.zeroColumns cols (cols + 1)) m).coeff col =
        m * ((2 * last.coeff col + m) / (2 * m)) - last.coeff col := by
    intro col below
    unfold modulusRow Row.zeroColumns
    dsimp only
    rw [Nat.add_sub_cancel, if_neg below.ne, if_pos below, if_neg (by omega)]
    exact residue _ (coeffFits col below)
  refine ⟨⟨positive, ?_, fun col below => ?_, ?_⟩, fun col below zero => ?_⟩
  · unfold modulusRow
    dsimp only
    rw [Nat.add_sub_cancel, if_pos rfl]
    exact Fits32.int32_eq ⟨by omega, by omega⟩
  · rw [coeffs col below, sub_add_cancel]
    exact dvd_mul_right _ _
  · change m ∣ int32 (-modHat (int32 last.bound) m) + last.bound
    rw [fits.constant.int32_eq, residue _ boundFits, sub_add_cancel]
    exact dvd_mul_right _ _
  · rw [coeffs col below, zero, mul_zero, zero_add,
      Int.ediv_eq_zero_of_lt positive.le (by omega), mul_zero, sub_zero]

/-- An equation with a new variable. -/
theorem preserved_addModulus (isLive : Live ⟨work, pivot :: rest⟩ live)
    (apart : pivot.coeff smallest ≠ -2 ^ 31) (fits : ModulusFits work.cols pivot smallest)
    (room : work.cols < maxWorkCols) :
    Preserved ⟨work, pivot :: rest⟩ live (addModulus pivot smallest rest work)
        (insert work.cols live) ∧
      Live (addModulus pivot smallest rest work) (insert work.cols live) := by
  obtain ⟨newVariable, zero⟩ := modulusRow_spec apart fits
  refine preserved_newVariable isLive newVariable
    (fun point member => member.2 pivot List.mem_cons_self)
    (fun col below dead => zero col below
      (isLive.eq pivot List.mem_cons_self col below dead)) ?_ ?_ ?_ ?_
  · exact (addModulus_sizes room).1
  · unfold addModulus addWorkVar
    dsimp only
    rw [if_neg (not_le.mpr room)]
  · unfold addModulus addWorkVar
    dsimp only
    rw [if_neg (not_le.mpr room)]
    exact fun index below => if_pos below
  · unfold addModulus addWorkVar
    dsimp only
    rw [if_neg (not_le.mpr room)]
    rfl

/-- One turn keeps the integer solutions. -/
theorem preserved_step (clear : Clear before) (isLive : Live before live)
    (moved : Step before after) :
    ∃ liveAfter, Preserved before live after liveAfter ∧ Live after liveAfter := by
  obtain ⟨last, rest, eqs, solved⟩ := moved
  obtain ⟨work, beforeEqs⟩ := before
  cases eqs
  have found := findPivot_spec (clear.normalize last rest · rfl)
  dsimp only at found solved
  unfold subLastEqual at solved
  split at solved
  · rename_i noVariables
    rw [noVariables] at found
    obtain ⟨rfl, consistent⟩ := Prod.mk.inj (Option.some.inj solved)
    have zeroBound : last.bound = 0 := by simpa using consistent
    have same : eqSolutions ⟨work, last :: rest⟩ live = eqSolutions ⟨work, rest⟩ live := by
      ext point
      refine and_congr_right fun _ => ?_
      rw [List.forall_mem_cons]
      exact and_iff_right ((Row.solves_of_zero found).mpr zeroBound)
    refine ⟨live, ⟨le_refl _, fun _ member _ => member, id, ?_,
      fun _ _ => ⟨Iff.rfl, fun _ _ _ => rfl⟩⟩, isLive.inside, isLive.le,
      fun row member => isLive.eq row (List.mem_cons_of_mem _ member)⟩
    rw [same]
    exact Set.bijOn_id _
  · rename_i pivot i minvar isUnary
    rw [isUnary] at found
    obtain ⟨unary, unit, equivalent⟩ := found
    obtain ⟨oriented, one, same⟩ := orient_spec unary unit
      (clear.negate last rest pivot i minvar rfl isUnary)
    obtain ⟨other, isOther, pair⟩ := Option.map_eq_some_iff.mp solved
    cases pair
    unfold subUnary at isOther
    dsimp only at isOther
    split at isOther
    · rename_i eqs les isEqs isLes
      cases isOther
      obtain ⟨others, restSmall⟩ := subEqs_spec oriented one isEqs
      obtain ⟨substituted, cols, rows, -⟩ := subLes_spec oriented one
        (clear.products last rest pivot i minvar rfl isUnary) restSmall isLes
      refine ⟨live \ {i}, preserved_unary isLive unary.inside one
        (fun col inside dead => same.zero col inside (equivalent.zero col inside
          (isLive.eq last List.mem_cons_self col inside dead)))
        (fun point => (equivalent.solves point).trans (same.solves point))
        cols rows substituted others⟩
    · cases isOther
  · cases solved
  · rename_i pivot smallest isModulus
    rw [isModulus] at found
    obtain ⟨apart, equivalent⟩ := found
    cases solved
    obtain ⟨replaced, liveReplaced⟩ := preserved_replace isLive equivalent
    obtain ⟨preserved, isLiveAfter⟩ := preserved_addModulus liveReplaced apart
      (clear.modulus last rest pivot smallest rfl isModulus)
      (clear.room ⟨last, rest, pivot, smallest, rfl, isModulus⟩).1
    exact ⟨_, replaced.trans preserved, isLiveAfter⟩

/-- A system that is proved inconsistent has no integer solution. -/
theorem not_solves_of_inconsistent (clear : Clear state) (eqs : state.eqs = last :: rest)
    (solved : subLastEqual last rest state.work = some (after, true))
    (point : Nat → Int) : ¬last.Solves state.work.cols point := by
  have found := findPivot_spec (clear.normalize last rest · eqs)
  unfold subLastEqual at solved
  split at solved
  · rename_i noVariables
    rw [noVariables] at found
    obtain ⟨-, inconsistent⟩ := Prod.mk.inj (Option.some.inj solved)
    rw [Row.solves_of_zero found]
    exact of_decide_eq_true inconsistent
  · obtain ⟨other, -, pair⟩ := Option.map_eq_some_iff.mp solved
    cases pair
  · rename_i indivisible
    rw [indivisible] at found
    exact found point
  · cases solved

/-- A coefficient that does not fit makes the turn fail. -/
theorem subLastEqual_eq_none (clear : Clear state)
    (eqs : state.eqs = last :: rest) (overflows : Overflows state) :
    subLastEqual last rest state.work = none := by
  obtain ⟨other, others, pivot, i, minvar, same, isUnary, large⟩ := overflows
  obtain ⟨rfl, rfl⟩ := List.cons.inj (eqs.symm.trans same)
  have found := findPivot_spec (clear.normalize last rest · eqs)
  rw [isUnary] at found
  obtain ⟨unary, unit, -⟩ := found
  obtain ⟨oriented, one, -⟩ := orient_spec unary unit
    (clear.negate last rest pivot i minvar eqs isUnary)
  unfold subLastEqual
  rw [isUnary]
  dsimp only
  rw [Option.map_eq_none_iff]
  unfold subUnary
  dsimp only
  split
  · rename_i newEqs les isEqs isLes
    obtain ⟨-, restSmall⟩ := subEqs_spec oriented one isEqs
    obtain ⟨-, -, -, lesSmall⟩ := subLes_spec oriented one
      (clear.products last rest pivot i minvar eqs isUnary) restSmall isLes
    exact absurd ⟨restSmall, lesSmall⟩ large
  · rfl

/-- A run of turns keeps the integer solutions. -/
theorem preserved_of_reached (clear : ∀ state, Reached start state → Clear state)
    (reached : Reached start state) :
    ∃ live, Preserved start { col | col < start.work.cols } state live ∧ Live state live := by
  induction reached with
  | start isStart =>
      rw [isStart]
      exact ⟨_, Preserved.refl _ _, fun _ member => member,
        fun _ _ col inside dead => absurd inside dead,
        fun _ _ col inside dead => absurd inside dead⟩
  | tail reached moved ih =>
      obtain ⟨live, preserved, isLive⟩ := ih
      obtain ⟨liveAfter, next, isLiveAfter⟩ := preserved_step (clear _ reached) isLive moved
      exact ⟨liveAfter, preserved.trans next, isLiveAfter⟩

/-- How the loop ends. -/
theorem subInEqualLoop_spec {turns : Nat} {outcome : Outcome}
    (ran : subInEqualLoop turns start = some outcome) :
    match outcome with
    | .failed => True
    | .inconsistent => ∃ state after last rest, Reached start state ∧
        state.eqs = last :: rest ∧ subLastEqual last rest state.work = some (after, true)
    | .done work => Reached start ⟨work, []⟩ := by
  induction turns generalizing start with
  | zero =>
      unfold subInEqualLoop at ran
      split at ran
      · rename_i finished
        cases ran
        obtain ⟨work, eqs⟩ := start
        cases finished
        exact .start rfl
      · cases ran
  | succ turns ih =>
      unfold subInEqualLoop at ran
      split at ran
      · rename_i finished
        cases ran
        obtain ⟨work, eqs⟩ := start
        cases finished
        exact .start rfl
      · rename_i last rest eqs
        split at ran
        · cases ran
          trivial
        · rename_i after solved
          cases ran
          exact ⟨start, after, last, rest, .start rfl, eqs, solved⟩
        · rename_i after solved
          have moved : Step start after := ⟨last, rest, eqs, solved⟩
          have rest := ih ran
          cases outcome with
          | failed => trivial
          | inconsistent =>
              obtain ⟨state, other, last, rest, reached, ends⟩ := rest
              exact ⟨state, other, last, rest, reached_of_step moved reached, ends⟩
          | done work => exact reached_of_step moved rest

end Turns

/-! ## The integer solutions of a system -/

/-- The integer solutions over some of the columns. -/
def solutions (state : State) (live : Set Nat) : Set (Nat → Int) :=
  { point ∈ eqSolutions state live | state.work.Holds point }

/--
What is asked of `Sub_In_Equal` once the equations are copied: it proves only
equations inconsistent that have no integer solution; else the solutions over
all columns correspond to those of the inequalities that are left, over the
columns that survive and those that were added; and it fails where a
coefficient overflows.
-/
structure Exact (system : System) (work : Work) (start : State) : Prop where
  inconsistent : ∀ turns, system.subInEqual turns work = some .inconsistent →
    ∀ point : Nat → Int,
      ∃ row ∈ system.eq, ¬row.Solves start.work.cols point
  done : ∀ turns after, system.subInEqual turns work = some (.done after) →
    ∃ live, Live ⟨after, []⟩ live ∧ ∃ image : (Nat → Int) → Nat → Int,
      Set.BijOn image (solutions start { col | col < start.work.cols })
          (solutions ⟨after, []⟩ live) ∧
        ∀ point ∈ solutions start { col | col < start.work.cols },
          ∀ col ∈ live, col < start.work.cols → image point col = point col
  overflow : ∀ state last rest, Reached start state →
    state.eqs = last :: rest → Overflows state → subLastEqual last rest state.work = none

/-- The inequality `first x ≤ bound`. -/
def bound (first bound : Int) (fits : Fits32 first) : Row where
  coeff col := if col = 0 then first else 0
  bound := bound
  fits := by
    intro col
    split
    · exact fits
    · exact fits_zero

/-- The equation `x + y = 1` and the inequality `3 x ≤ 6`. -/
def smallSystem : System where
  le := [bound 3 6 fits_three]
  eq := [unitEquation]
  vars := 2

/-- The inequalities of a system in the work array. -/
def workOf (system : System) : Work where
  row index := system.le.getD index Row.null
  rows := system.le.length
  cols := system.vars

/-- Nothing is cut off where `x + y = 1` is the only equation. -/
theorem clear_unitEquation {work : Work} (cols : work.cols = 2) {state : State}
    (reached : Reached ⟨work, [unitEquation]⟩ state) : Clear state := by
  have pivots : findPivot work.cols unitEquation = .unary unitEquation 0 0 := by
    rw [cols]
    rfl
  have solvable : ¬NeedsVariable ⟨work, [unitEquation]⟩ := by
    rw [needsVariable_iff, pivots]
    decide
  have ones : ∀ col < work.cols, unitEquation.coeff col = 1 := by
    intro col inside
    have cases : col = 0 ∨ col = 1 := by omega
    rcases cases with rfl | rfl <;> rfl
  rcases eqs_nil_of_reached rfl solvable reached with rfl | empty
  · refine ⟨?_, ?_, ?_, ?_, fun needs => absurd needs solvable⟩
    · rintro last rest i eqs first apart
      cases eqs
      have zero : unitEquation.firstNonZero work.cols = some 0 := by
        rw [cols]
        rfl
      obtain rfl := Option.some.inj (zero.symm.trans first)
      exact absurd (by decide) apart
    · rintro last rest pivot i minvar eqs found negative
      cases eqs
      cases pivots.symm.trans found
      exact absurd negative (by decide)
    · rintro last rest pivot i minvar eqs found
      cases eqs
      cases pivots.symm.trans found
      rintro - le inside - col isIn - - - - -
      have oriented : orient 0 0 work.cols unitEquation = unitEquation := rfl
      rw [oriented, ones col isIn, mul_one]
      exact (work.row le).fits 0
    · rintro last rest pivot smallest eqs found
      cases eqs
      cases pivots.symm.trans found
  · exact clear_of_nil empty

/-- The equation `x - 65536 y = 0`. -/
def multiple : Row where
  coeff col := if col = 0 then 1 else if col = 1 then -65536 else 0
  bound := 0
  fits := by
    intro col
    split
    · exact ⟨by decide, by decide⟩
    · split
      · exact ⟨by decide, by decide⟩
      · exact fits_zero

/-- The equation `x - 65536 y = 0` and the inequality `-65536 x ≤ -1`. -/
def wideSystem : System where
  le := [bound (-65536) (-1) ⟨by decide, by decide⟩]
  eq := [multiple]
  vars := 2

end OpenUH.Lno.SystemOfEquations
