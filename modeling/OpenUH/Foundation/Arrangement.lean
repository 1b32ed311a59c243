import Mathlib.Algebra.Group.End
import Mathlib.Data.List.Nodup

/-!
# Arrangements of numbered entries

A table of `count` entries is read as the list of its entries.  Erasing an
entry of the list moves the later ones down by one, and a permutation of the
numbers permutes the list.  Selection sort is a product of transpositions: its
permutation arranges any keys in order.
-/

namespace OpenUH.Foundation.Arrangement

universe u v

variable {α : Type u} {κ : Type v}

/-- The entries with the numbers below a count. -/
def entries (entry : Nat → α) (count : Nat) : List α :=
  (List.range count).map entry

@[simp]
theorem length_entries (entry : Nat → α) (count : Nat) : (entries entry count).length = count := by
  simp [entries]

@[simp]
theorem entries_zero (entry : Nat → α) : entries entry 0 = [] := rfl

theorem entries_succ (entry : Nat → α) (count : Nat) :
    entries entry (count + 1) = entries entry count ++ [entry count] := by
  simp [entries, List.range_succ]

theorem getElem_entries (entry : Nat → α) {count index : Nat}
    (below : index < (entries entry count).length) :
    (entries entry count)[index] = entry index := by
  simp [entries]

theorem entries_congr {entry other : Nat → α} {count : Nat}
    (same : ∀ index < count, entry index = other index) :
    entries entry count = entries other count :=
  List.map_congr_left fun index member => same index (List.mem_range.mp member)

theorem take_entries (entry : Nat → α) {fewer count : Nat} (few : fewer ≤ count) :
    (entries entry count).take fewer = entries entry fewer := by
  rw [entries, ← List.map_take, List.take_range, min_eq_left few, entries]

/-- The entries of a longer table start with those of a shorter one. -/
theorem entries_add (entry : Nat → α) (count more : Nat) :
    entries entry (count + more) =
      entries entry count ++ entries (fun index => entry (count + index)) more := by
  rw [entries, List.range_add, List.map_append, List.map_map]
  rfl

theorem entries_const (count : Nat) (value : α) :
    entries (fun _ => value) count = List.replicate count value := by
  simp [entries, List.map_const']

/-- Without one entry, the later ones have moved down. -/
theorem eraseIdx_entries (entry : Nat → α) {count erased : Nat} (member : erased < count) :
    (entries entry count).eraseIdx erased =
      entries (fun index => if index < erased then entry index else entry (index + 1))
        (count - 1) := by
  refine List.ext_getElem ?_ fun index _ _ => ?_
  · rw [List.length_eraseIdx_of_lt (by rwa [length_entries]), length_entries, length_entries]
  · rw [List.getElem_eraseIdx]
    split
    · rename_i before
      rw [getElem_entries, getElem_entries, if_pos before]
    · rename_i behind
      rw [getElem_entries, getElem_entries, if_neg behind]

/-! ## Permuted entries -/

/-- A permutation of the numbers below a count. -/
def Rearranges (count : Nat) (order : Equiv.Perm Nat) : Prop :=
  ∀ index, order index < count ↔ index < count

theorem Rearranges.one (count : Nat) : Rearranges count 1 := fun _ => Iff.rfl

theorem Rearranges.mul {count : Nat} {first second : Equiv.Perm Nat}
    (left : Rearranges count first) (right : Rearranges count second) :
    Rearranges count (first * second) :=
  fun index => (left (second index)).trans (right index)

theorem Rearranges.swap {count first second : Nat} (left : first < count)
    (right : second < count) : Rearranges count (Equiv.swap first second) := by
  intro index
  unfold Equiv.swap
  change Equiv.swapCore first second index < count ↔ _
  unfold Equiv.swapCore
  split
  · omega
  · split
    · omega
    · exact Iff.rfl

theorem perm_entries {count : Nat} {order : Equiv.Perm Nat}
    (rearranges : Rearranges count order) (entry : Nat → α) :
    (entries (entry ∘ order) count).Perm (entries entry count) := by
  have numbers : ((List.range count).map order).Perm (List.range count) := by
    refine (List.perm_ext_iff_of_nodup
      (List.nodup_range.map order.injective) List.nodup_range).mpr fun index => ?_
    rw [List.mem_map, List.mem_range]
    constructor
    · rintro ⟨before, member, rfl⟩
      exact (rearranges before).mpr (List.mem_range.mp member)
    · intro below
      refine ⟨order.symm index, List.mem_range.mpr ?_, order.apply_symm_apply index⟩
      rwa [← rearranges, order.apply_symm_apply]
  have mapped := numbers.map entry
  rwa [List.map_map] at mapped

/-! ## Selection sort -/

section SelectionSort

variable [LinearOrder κ]

/-- The first of the smallest keys from a number on. -/
def smallest (key : Nat → κ) (first count : Nat) : Nat :=
  (List.range' (first + 1) (count - (first + 1))).foldl
    (fun best index => if key index < key best then index else best) first

theorem smallest_fold (key : Nat → κ) (first best : Nat) (numbers : Nat) :
    ∀ scanned, first ≤ best → best < scanned →
      (∀ index, first ≤ index → index < scanned → key best ≤ key index) →
      first ≤ (List.range' scanned numbers).foldl
          (fun best index => if key index < key best then index else best) best ∧
        (List.range' scanned numbers).foldl
          (fun best index => if key index < key best then index else best) best <
          scanned + numbers ∧
        ∀ index, first ≤ index → index < scanned + numbers →
          key ((List.range' scanned numbers).foldl
            (fun best index => if key index < key best then index else best) best) ≤
            key index := by
  induction numbers generalizing best with
  | zero => exact fun scanned from_ below least => ⟨from_, below, least⟩
  | succ numbers ih =>
      intro scanned atLeast below least
      rw [List.range'_succ, List.foldl_cons]
      have next : scanned + (numbers + 1) = scanned + 1 + numbers := by omega
      rw [next]
      by_cases smaller : key scanned < key best
      · rw [if_pos smaller]
        refine ih scanned (scanned + 1) (by omega) (by omega) ?_
        intro index from_ upTo
        rcases Nat.lt_succ_iff_lt_or_eq.mp upTo with earlier | rfl
        · exact smaller.le.trans (least index from_ earlier)
        · exact le_refl _
      · rw [if_neg smaller]
        refine ih best (scanned + 1) atLeast (by omega) ?_
        intro index from_ upTo
        rcases Nat.lt_succ_iff_lt_or_eq.mp upTo with earlier | rfl
        · exact least index from_ earlier
        · exact not_lt.mp smaller

theorem smallest_spec (key : Nat → κ) {first count : Nat} (member : first < count) :
    first ≤ smallest key first count ∧ smallest key first count < count ∧
      ∀ index, first ≤ index → index < count → key (smallest key first count) ≤ key index := by
  have fold := smallest_fold key first first (count - (first + 1)) (first + 1)
    (le_refl _) (Nat.lt_succ_self _) fun index atLeast below => by
      rw [show index = first by omega]
  rwa [show first + 1 + (count - (first + 1)) = count by omega] at fold

/-- One round: the smallest key from a number on comes to that number. -/
def selectStep (key : Nat → κ) (count : Nat) (order : Equiv.Perm Nat)
    (first : Nat) : Equiv.Perm Nat :=
  order * Equiv.swap first (smallest (key ∘ order) first count)

/-- The arrangement after a number of rounds. -/
def selectOrder (key : Nat → κ) (count rounds : Nat) : Equiv.Perm Nat :=
  (List.range rounds).foldl (selectStep key count) 1

/-- The first keys are in order, and no later one is smaller. -/
structure Selected (key : Nat → κ) (count done : Nat)
    (order : Equiv.Perm Nat) : Prop where
  rearranges : Rearranges count order
  sorted : ∀ earlier later, earlier < done → earlier ≤ later → later < count →
    key (order earlier) ≤ key (order later)

theorem Selected.next {key : Nat → κ} {count done : Nat} {order : Equiv.Perm Nat}
    (selected : Selected key count done order) (member : done < count) :
    Selected key count (done + 1) (selectStep key count order done) := by
  obtain ⟨atLeast, below, least⟩ := smallest_spec (key ∘ order) member
  refine ⟨selected.rearranges.mul (.swap member below), ?_⟩
  have moved (index : Nat) (from_ : done ≤ index) (upTo : index < count) :
      done ≤ Equiv.swap done (smallest (key ∘ order) done count) index ∧
        Equiv.swap done (smallest (key ∘ order) done count) index < count := by
    unfold Equiv.swap
    change _ ≤ Equiv.swapCore _ _ _ ∧ Equiv.swapCore _ _ _ < _
    unfold Equiv.swapCore
    split
    · omega
    · split
      · omega
      · omega
  intro earlier later early order_ upTo
  unfold selectStep
  rw [Equiv.Perm.mul_apply, Equiv.Perm.mul_apply]
  rcases Nat.lt_succ_iff_lt_or_eq.mp early with before | rfl
  · have kept : Equiv.swap done (smallest (key ∘ order) done count) earlier = earlier :=
      Equiv.swap_apply_of_ne_of_ne (by omega) (by omega)
    rw [kept]
    by_cases lateToo : later < done
    · have keptToo : Equiv.swap done (smallest (key ∘ order) done count) later = later :=
        Equiv.swap_apply_of_ne_of_ne (by omega) (by omega)
      rw [keptToo]
      exact selected.sorted earlier later before order_ upTo
    · obtain ⟨from_, inside⟩ := moved later (by omega) upTo
      exact selected.sorted earlier _ before (by omega) inside
  · rw [Equiv.swap_apply_left]
    obtain ⟨from_, inside⟩ := moved later order_ upTo
    exact least _ from_ inside

/-- After all rounds but one the keys are in order. -/
theorem selectOrder_selected (key : Nat → κ) (count : Nat) :
    Selected key count (count - 1) (selectOrder key count (count - 1)) := by
  have rounds (done : Nat) (few : done ≤ count - 1) :
      Selected key count done (selectOrder key count done) := by
    induction done with
    | zero => exact ⟨Rearranges.one count, fun earlier _ early => nomatch early⟩
    | succ done ih =>
        rw [selectOrder, List.range_succ, List.foldl_append]
        exact (ih (by omega)).next (by omega)
  exact rounds (count - 1) (le_refl _)

theorem Selected.pairwise {key : Nat → κ} {count : Nat} {order : Equiv.Perm Nat}
    (selected : Selected key count (count - 1) order) :
    (entries (key ∘ order) count).Pairwise (· ≤ ·) := by
  refine List.pairwise_iff_getElem.mpr fun earlier later early late less => ?_
  rw [getElem_entries, getElem_entries]
  rw [length_entries] at early late
  exact selected.sorted earlier later (by omega) less.le late

end SelectionSort

end OpenUH.Foundation.Arrangement
