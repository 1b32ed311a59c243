import OpenUH.Libcaf.TeamFormation

/-!
# Placement on one mapping

`__place_codimension_mapping` writes each image into the mapping of the team
it chose.  This module looks at one team's mapping alone: what the first pass
leaves (`AssertedResult`), and that the `while` scans of the second pass are
the purely functional `fillFree`, which hands the free positions, in order,
to the images in parent-rank order.
-/

namespace OpenUH.Libcaf.TeamFormation

/-! ## The second pass -/

/-- Give the free positions of a mapping, in order, to a list of processes. -/
def fillFree : List Int → List Int → List Int
  | [], _ => []
  | slot :: rest, [] => slot :: rest
  | slot :: rest, proc :: procs =>
      if slot ≠ -1 then
        slot :: fillFree rest (proc :: procs)
      else
        proc :: fillFree rest procs

@[simp]
theorem fillFree_length (mapping procs : List Int) :
    (fillFree mapping procs).length = mapping.length := by
  fun_induction fillFree mapping procs <;> simp_all

/-- A scan that starts at an occupied position only concerns the rest. -/
theorem foldlM_placeFirstFree_occupied {slot : Int} (occupied : slot ≠ -1) (rest procs : List Int) :
    procs.foldlM placeFirstFree (slot :: rest) =
      (procs.foldlM placeFirstFree rest).map (slot :: ·) := by
  induction procs generalizing rest with
  | nil => rfl
  | cons proc procs ih =>
      rw [List.foldlM_cons, List.foldlM_cons, placeFirstFree, if_pos occupied]
      cases placed : placeFirstFree rest proc with
      | error fault => rfl
      | ok mapping => exact ih mapping

/--
As long as there are enough free positions the unguarded scans stay inside
the mapping, and together they compute `fillFree`.
-/
theorem foldlM_placeFirstFree (mapping procs : List Int) (realProcs : ∀ proc ∈ procs, proc ≠ -1)
    (enough : procs.length ≤ mapping.count (-1)) :
    procs.foldlM placeFirstFree mapping = .ok (fillFree mapping procs) := by
  induction mapping generalizing procs with
  | nil =>
      have procsNil : procs = [] := by simpa using enough
      subst procsNil
      rfl
  | cons slot rest ih =>
      cases procs with
      | nil => rfl
      | cons proc procs =>
          by_cases free : slot = -1
          · subst free
            have procReal : proc ≠ -1 := realProcs proc (by simp)
            have enoughRest : procs.length ≤ rest.count (-1) := by
              simpa using enough
            rw [List.foldlM_cons, placeFirstFree, if_neg (by simp)]
            change procs.foldlM placeFirstFree (proc :: rest) = _
            rw [foldlM_placeFirstFree_occupied procReal,
              ih procs
                (fun other member => realProcs other (by simp [member]))
                enoughRest]
            simp [fillFree, Except.map]
          · have enoughRest : (proc :: procs).length ≤ rest.count (-1) := by
              simpa [List.count_cons, free] using enough
            rw [foldlM_placeFirstFree_occupied free, ih (proc :: procs) realProcs enoughRest]
            simp [fillFree, free, Except.map]

/-- Occupied positions are not touched by the second pass. -/
theorem getElem?_fillFree_occupied (mapping procs : List Int) (position : Nat) (proc : Int)
    (occupied : mapping[position]? = some proc) (real : proc ≠ -1) :
    (fillFree mapping procs)[position]? = some proc := by
  fun_induction fillFree mapping procs generalizing position with
  | case1 => simp at occupied
  | case2 => exact occupied
  | case3 slot rest next procs nonFree ih =>
      cases position with
      | zero => simpa using occupied
      | succ position =>
          exact ih position (by simpa using occupied)
  | case4 slot rest next procs free ih =>
      cases position with
      | zero =>
          have : slot = proc := by simpa using occupied
          simp_all
      | succ position =>
          exact ih position (by simpa using occupied)

/-- The final mapping holds the old processes and the new ones. -/
theorem fillFree_perm (mapping procs : List Int) (exact : procs.length = mapping.count (-1)) :
    (fillFree mapping procs).Perm (mapping.filter (· ≠ -1) ++ procs) := by
  fun_induction fillFree mapping procs with
  | case1 procs =>
      have : procs = [] := by simpa using exact
      simp [this]
  | case2 slot rest =>
      have noFree : ∀ other ∈ slot :: rest, other ≠ -1 := by
        intro other member equal
        have := List.count_pos_iff.mpr (equal ▸ member)
        simp at exact
        omega
      rw [List.append_nil, List.filter_eq_self.mpr (by simpa using noFree)]
  | case3 slot rest next procs nonFree ih =>
      have exactRest : (next :: procs).length = rest.count (-1) := by
        simpa [List.count_cons, nonFree] using exact
      rw [List.filter_cons_of_pos (by simpa using nonFree), List.cons_append]
      exact (ih exactRest).cons slot
  | case4 slot rest next procs free ih =>
      have slotFree : slot = -1 := by simpa using free
      subst slotFree
      have exactRest : procs.length = rest.count (-1) := by
        simpa using exact
      rw [List.filter_cons_of_neg (by simp)]
      exact ((ih exactRest).cons next).trans List.perm_middle.symm

/-- Reading the once-free positions in order gives back the processes. -/
theorem fillFree_free_positions (mapping procs : List Int)
    (exact : procs.length = mapping.count (-1)) :
    (((fillFree mapping procs).zip mapping).filter (·.2 = -1)).map (·.1) = procs := by
  fun_induction fillFree mapping procs with
  | case1 procs =>
      have : procs = [] := by simpa using exact
      simp [this]
  | case2 slot rest =>
      have noFree : (-1 : Int) ∉ slot :: rest := by
        intro member
        have := List.count_pos_iff.mpr member
        simp at exact
        omega
      have noPair : ∀ pair ∈ (slot :: rest).zip (slot :: rest), ¬ pair.2 = -1 := by
        rintro ⟨left, right⟩ member equal
        exact noFree (equal ▸ (List.of_mem_zip member).2)
      rw [List.filter_eq_nil_iff.mpr (by simpa using noPair)]
      rfl
  | case3 slot rest next procs nonFree ih =>
      have exactRest : (next :: procs).length = rest.count (-1) := by
        simpa [List.count_cons, nonFree] using exact
      rw [List.zip_cons_cons, List.filter_cons_of_neg (by simpa using nonFree)]
      exact ih exactRest
  | case4 slot rest next procs free ih =>
      have slotFree : slot = -1 := by simpa using free
      have exactRest : procs.length = rest.count (-1) := by
        subst slotFree
        simpa using exact
      rw [List.zip_cons_cons, List.filter_cons_of_pos (by simpa using slotFree),
        List.map_cons, ih exactRest]

/-! ## The first pass -/

/-- The first-pass write into the image's own team, range tests included. -/
def assertOwn (count : Nat) (mapping : List Int) (member : TeamInfo × Int) :
    Except Fault (List Int) :=
  if member.1.index ≠ 0 then
    if member.1.index < 0 ∨ member.1.index > count then
      .error (.error "1a. tmp_index is not correct!")
    else
      placeAt "1b. p_mapping is not initialized to -1"
        mapping member.1.index member.2
  else
    .ok mapping

theorem placeAt_eq_ok_iff {text : String} {mapping after : List Int} {tmpIndex proc : Int} :
    placeAt text mapping tmpIndex proc = .ok after ↔
      mapping[(tmpIndex - 1).toNat]? = some (-1) ∧
        after = mapping.set (tmpIndex - 1).toNat proc := by
  unfold placeAt
  split
  · simp_all
  · rename_i old found
    rw [found]
    by_cases free : old = -1
    · rw [if_neg (not_not.mpr free), free]
      constructor
      · intro equal
        exact ⟨rfl, (Except.ok.inj equal).symm⟩
      · rintro ⟨-, rfl⟩
        rfl
    · rw [if_pos free]
      constructor
      · intro equal
        cases equal
      · rintro ⟨cell, -⟩
        exact absurd (Option.some.inj cell) free

/-- A successful first-pass write passed the range test and hit a free cell. -/
theorem assertOwn_eq_ok {count : Nat} {mapping after : List Int} {member : TeamInfo × Int}
    (nonzero : member.1.index ≠ 0) (run : assertOwn count mapping member = .ok after) :
    0 < member.1.index ∧ member.1.index ≤ count ∧
      mapping[(member.1.index - 1).toNat]? = some (-1) ∧
      after = mapping.set (member.1.index - 1).toNat member.2 := by
  unfold assertOwn at run
  rw [if_pos nonzero] at run
  split at run
  · cases run
  · rename_i inRange
    obtain ⟨free, setEq⟩ := placeAt_eq_ok_iff.mp run
    exact ⟨by omega, by omega, free, setEq⟩

/-- Only the two `Error` calls stop an own-team write that is in range. -/
theorem assertOwn_error {count : Nat} {mapping : List Int} {member : TeamInfo × Int} {fault : Fault}
    (length : mapping.length = count) (failed : assertOwn count mapping member = .error fault) :
    ∃ text, fault = .error text := by
  unfold assertOwn at failed
  split at failed
  · split at failed
    · cases failed
      exact ⟨_, rfl⟩
    · rename_i nonzero inRange
      rw [not_or, not_lt, not_lt] at inRange
      unfold placeAt at failed
      split at failed
      · rename_i missing
        rw [List.getElem?_eq_none_iff] at missing
        omega
      · split at failed
        · cases failed
          exact ⟨_, rfl⟩
        · cases failed
  · cases failed

/-- What the first pass over the members of one team leaves in its mapping. -/
structure AssertedResult (count : Nat) (mapping : List Int)
    (members : List (TeamInfo × Int)) (after : List Int) : Prop where
  length : after.length = mapping.length
  kept : ∀ (position : Nat) (proc : Int),
    mapping[position]? = some proc → proc ≠ -1 → after[position]? = some proc
  placed : ∀ member ∈ members, member.1.index ≠ 0 →
    0 < member.1.index ∧ member.1.index ≤ count ∧ after[(member.1.index - 1).toNat]? = some member.2
  untouched : ∀ position : Nat,
    (∀ member ∈ members, member.1.index ≠ position + 1) → after[position]? = mapping[position]?
  free :
    after.count (-1) +
        (members.filter fun member => member.1.index ≠ 0).length =
      mapping.count (-1)
  perm :
    (after.filter (· ≠ -1)).Perm
      (mapping.filter (· ≠ -1) ++ (members.filter fun member => member.1.index ≠ 0).map (·.2))

/-- Filling one free cell. -/
theorem set_free_cell {mapping : List Int} {position : Nat} {proc : Int}
    (free : mapping[position]? = some (-1)) (real : proc ≠ -1) :
    (mapping.set position proc).count (-1) + 1 = mapping.count (-1) ∧
      ((mapping.set position proc).filter (· ≠ -1)).Perm (mapping.filter (· ≠ -1) ++ [proc]) := by
  obtain ⟨inBounds, cell⟩ := List.getElem?_eq_some_iff.mp free
  obtain ⟨before, after, split, beforeLength, setEq⟩ :
      ∃ before after, mapping = before ++ mapping[position] :: after ∧
        before.length = position ∧
        mapping.set position proc = before ++ proc :: after :=
    List.exists_of_set inBounds
  rw [cell] at split
  constructor
  · rw [setEq, split]
    simp [List.count_append, real]
    omega
  · rw [setEq]
    conv => rhs; rw [split]
    simp only [List.filter_append, List.append_assoc]
    apply List.Perm.append_left
    rw [List.filter_cons_of_pos (by simpa using real), List.filter_cons_of_neg (by simp)]
    exact (List.perm_append_singleton _ _).symm

/-- The first pass over one team, by induction on the members. -/
theorem assertedResult_of_foldlM {count : Nat} {mapping after : List Int}
    {members : List (TeamInfo × Int)} (realProcs : ∀ member ∈ members, member.2 ≠ -1)
    (run : members.foldlM (assertOwn count) mapping = .ok after) :
    AssertedResult count mapping members after := by
  induction members generalizing mapping with
  | nil =>
      cases run
      exact ⟨rfl, fun _ _ cell _ => cell, by simp, fun _ _ => rfl,
        by simp, by simp⟩
  | cons member members ih =>
      rw [List.foldlM_cons] at run
      have realRest : ∀ other ∈ members, other.2 ≠ -1 :=
        fun other memberOf => realProcs other (by simp [memberOf])
      by_cases zero : member.1.index = 0
      · have stepped : assertOwn count mapping member = .ok mapping := by
          simp [assertOwn, zero]
        rw [stepped] at run
        have rest := ih realRest run
        refine ⟨rest.length, rest.kept, ?_, ?_, ?_, ?_⟩
        · intro other memberOf nonzero
          rcases List.mem_cons.mp memberOf with rfl | memberRest
          · exact absurd zero nonzero
          · exact rest.placed other memberRest nonzero
        · intro position avoided
          exact rest.untouched position
            fun other memberOf => avoided other (by simp [memberOf])
        · rw [List.filter_cons_of_neg (by simp [zero])]
          exact rest.free
        · rw [List.filter_cons_of_neg (by simp [zero])]
          exact rest.perm
      · have real : member.2 ≠ -1 := realProcs member (by simp)
        cases stepEq : assertOwn count mapping member with
        | error fault =>
            rw [stepEq] at run
            cases run
        | ok middle =>
            rw [stepEq] at run
            obtain ⟨positive, inTeam, free, rfl⟩ := assertOwn_eq_ok zero stepEq
            have rest := ih realRest run
            have written := set_free_cell free real
            obtain ⟨inBounds, -⟩ := List.getElem?_eq_some_iff.mp free
            have setCell :
                (mapping.set (member.1.index - 1).toNat member.2)[
                    (member.1.index - 1).toNat]? = some member.2 :=
              List.getElem?_set_self inBounds
            refine ⟨?_, ?_, ?_, ?_, ?_, ?_⟩
            · simpa using rest.length
            · intro position proc cell procReal
              apply rest.kept position proc ?_ procReal
              by_cases here : (member.1.index - 1).toNat = position
              · subst here
                rw [free] at cell
                exact absurd (Option.some.inj cell).symm procReal
              · rw [List.getElem?_set_ne here]
                exact cell
            · intro other memberOf nonzero
              rcases List.mem_cons.mp memberOf with rfl | memberRest
              · exact ⟨positive, inTeam, rest.kept _ _ setCell real⟩
              · exact rest.placed other memberRest nonzero
            · intro position avoided
              rw [rest.untouched position
                fun other memberOf => avoided other (by simp [memberOf])]
              apply List.getElem?_set_ne
              have := avoided member (by simp)
              omega
            · rw [List.filter_cons_of_pos (by simpa using zero), List.length_cons]
              have := rest.free
              omega
            · rw [List.filter_cons_of_pos (by simpa using zero), List.map_cons]
              refine rest.perm.trans ?_
              refine (written.2.append_right _).trans ?_
              rw [List.append_assoc]
              exact List.Perm.refl _

end OpenUH.Libcaf.TeamFormation
