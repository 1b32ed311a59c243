import OpenUH.Cg.Dominators

/-!
# The sets that the loops leave

Each of the three loop bodies is iterated until nothing changes.  The trimmed sets are the
largest ones with their neighbours' elements, the united sets the smallest ones with them,
and the joined sets hold what is forced on a block by all of its neighbours.
-/

namespace OpenUH.Cg.Dominators

open Foundation.Fallible
open Foundation.SweepIteration
open Function (update_of_ne update_self)

variable {neighbours : Nat → List Nat} {places : List Nat} {sets : Nat → Finset Nat}
  {bbset : Finset Nat} {bb through : Nat}

/-! ## Trimmed sets -/

/-- The blocks that lose an element, which they do not have or some neighbour loses. -/
inductive Lost (neighbours : Nat → List Nat) (places : List Nat) (sets : Nat → Finset Nat)
    (through : Nat) : Nat → Prop where
  | absent {bb : Nat} (outside : through ∉ sets bb) : Lost neighbours places sets through bb
  | step {bb other : Nat} (isPlace : bb ∈ places) (differs : bb ≠ through)
      (isNeighbour : other ∈ neighbours bb) (lost : Lost neighbours places sets through other) :
      Lost neighbours places sets through bb

theorem mem_foldl_inter (list : List Nat) (start : Finset Nat) :
    through ∈ list.foldl (fun src bbp => src ∩ sets bbp) start ↔
      through ∈ start ∧ ∀ other ∈ list, through ∈ sets other := by
  induction list generalizing start with
  | nil => exact (and_iff_left nofun).symm
  | cons other rest ih =>
      rw [List.foldl_cons, ih, Finset.mem_inter, List.forall_mem_cons, and_assoc]

theorem mem_trimmed (self : bb ∈ sets bb) :
    through ∈ trimmed neighbours bb sets ↔
      through ∈ sets bb ∧ (bb = through ∨ ∀ other ∈ neighbours bb, through ∈ sets other) := by
  unfold trimmed
  cases isList : neighbours bb with
  | nil => exact (and_iff_left (.inr nofun)).symm
  | cons other rest =>
      rw [Finset.mem_insert, mem_foldl_inter]
      constructor
      · rintro (rfl | ⟨inSet, all⟩)
        · exact ⟨self, .inl rfl⟩
        · exact ⟨inSet, .inr all⟩
      · rintro ⟨inSet, rfl | all⟩
        · exact .inl rfl
        · exact .inr ⟨inSet, all⟩

/-- The trimmed sets have the elements that are not lost. -/
theorem trimmed_settles (self : ∀ bb ∈ places, bb ∈ sets bb) :
    ∃ last, Settles (fun fuel => untilStable (refresh (trimmed neighbours)) places fuel sets)
      last ∧ ∀ bb through, through ∈ last bb ↔ ¬ Lost neighbours places sets through bb := by
  obtain ⟨last, settles, ⟨self', less, lost⟩, stable⟩ :=
    @shrinking_settles Nat _ Nat _ (trimmed neighbours) places
      (fun current => (∀ bb ∈ places, bb ∈ current bb) ∧ (∀ bb, current bb ⊆ sets bb) ∧
        ∀ bb through, through ∉ current bb → Lost neighbours places sets through bb) (by
      rintro bb isPlace current ⟨self, less, lost⟩
      have members := @mem_trimmed neighbours current bb
      have shrinks : trimmed neighbours bb current ⊆ current bb := fun through member =>
        ((members (self bb isPlace)).1 member).1
      refine ⟨shrinks, ?_, ?_, ?_⟩
      · intro other isPlace'
        by_cases same : other = bb
        · subst same
          rw [update_self, members (self other isPlace)]
          exact ⟨self other isPlace, .inl rfl⟩
        · rw [update_of_ne same]
          exact self other isPlace'
      · intro other
        by_cases same : other = bb
        · subst same
          rw [update_self]
          exact shrinks.trans (less other)
        · rw [update_of_ne same]
          exact less other
      · intro other through outside
        by_cases same : other = bb
        · subst same
          rw [update_self, members (self other isPlace), not_and_or, not_or] at outside
          rcases outside with outside | ⟨differs, notAll⟩
          · exact lost other through outside
          · push Not at notAll
            obtain ⟨neighbour, isNeighbour, outside⟩ := notAll
            exact .step isPlace differs isNeighbour (lost neighbour through outside)
        · rw [update_of_ne same] at outside
          exact lost other through outside)
      sets ⟨self, fun bb => Finset.Subset.refl _, fun bb through => .absent⟩
  refine ⟨last, settles, fun bb through => ⟨?_, fun kept => ?_⟩⟩
  · intro member isLost
    induction isLost with
    | absent outside => exact outside (less _ member)
    | step isPlace differs isNeighbour _ ih =>
        rw [← stable _ isPlace, mem_trimmed (self' _ isPlace)] at member
        exact ih (member.2.resolve_left differs _ isNeighbour)
  · by_contra outside
    exact kept (lost bb through outside)

/-! ## United sets -/

/-- The blocks that gain an element, which they have or some neighbour gains. -/
inductive Gained (neighbours : Nat → List Nat) (places : List Nat) (sets : Nat → Finset Nat)
    (through : Nat) : Nat → Prop where
  | present {bb : Nat} (inside : through ∈ sets bb) : Gained neighbours places sets through bb
  | step {bb other : Nat} (isPlace : bb ∈ places) (isNeighbour : other ∈ neighbours bb)
      (gained : Gained neighbours places sets through other) :
      Gained neighbours places sets through bb

theorem mem_united :
    through ∈ united neighbours bb sets ↔
      through ∈ sets bb ∨ ∃ other ∈ neighbours bb, through ∈ sets other := by
  have general : ∀ (list : List Nat) (start : Finset Nat),
      through ∈ list.foldl (fun src bbp => src ∪ sets bbp) start ↔
        through ∈ start ∨ ∃ other ∈ list, through ∈ sets other := by
    intro list
    induction list with
    | nil => exact fun start => (or_iff_left (by rintro ⟨other, member, -⟩; cases member)).symm
    | cons other rest ih =>
        intro start
        rw [List.foldl_cons, ih, Finset.mem_union, or_assoc]
        simp only [List.mem_cons, exists_eq_or_imp]
  exact general _ _

/-- The united sets have the elements that are gained. -/
theorem united_settles {largest : Finset Nat} (bounded : ∀ bb ∈ places, sets bb ⊆ largest)
    (closed : ∀ bb ∈ places, ∀ other ∈ neighbours bb, other ∈ places) :
    ∃ last, Settles (fun fuel => untilStable (refresh (united neighbours)) places fuel sets)
      last ∧ ∀ bb through, through ∈ last bb ↔ Gained neighbours places sets through bb := by
  obtain ⟨last, settles, ⟨bounded', more, gained⟩, stable⟩ :=
    @growing_settles Nat _ Nat _ (united neighbours) places
      (fun current => (∀ bb ∈ places, current bb ⊆ largest) ∧ (∀ bb, sets bb ⊆ current bb) ∧
        ∀ bb through, through ∈ current bb → Gained neighbours places sets through bb) largest
      (by
      rintro bb isPlace current ⟨bounded, more, gained⟩
      have members := @mem_united neighbours current bb
      have grows : current bb ⊆ united neighbours bb current := fun through member =>
        members.2 (.inl member)
      have fits : united neighbours bb current ⊆ largest := by
        intro through member
        rcases members.1 member with inside | ⟨other, isNeighbour, inside⟩
        · exact bounded bb isPlace inside
        · exact bounded other (closed bb isPlace other isNeighbour) inside
      refine ⟨grows, fits, ?_, ?_, ?_⟩
      · intro other isPlace'
        by_cases same : other = bb
        · rw [same, update_self]
          exact fits
        · rw [update_of_ne same]
          exact bounded other isPlace'
      · intro other
        by_cases same : other = bb
        · subst same
          rw [update_self]
          exact (more other).trans grows
        · rw [update_of_ne same]
          exact more other
      · intro other through inside
        by_cases same : other = bb
        · subst same
          rw [update_self, members] at inside
          rcases inside with inside | ⟨neighbour, isNeighbour, inside⟩
          · exact gained other through inside
          · exact .step isPlace isNeighbour (gained neighbour through inside)
        · rw [update_of_ne same] at inside
          exact gained other through inside)
      sets ⟨bounded, fun bb => Finset.Subset.refl _, fun bb through => .present⟩
  refine ⟨last, settles, fun bb through => ⟨gained bb through, fun isGained => ?_⟩⟩
  induction isGained with
  | present inside => exact more _ inside
  | step isPlace isNeighbour _ ih =>
      rw [← stable _ isPlace, mem_united]
      exact .inr ⟨_, isNeighbour, ih⟩

/-! ## Joined sets -/

/-- The blocks of a set on which an element is forced: the element itself, and the blocks
with neighbours, all of them in the set and with the element forced on them. -/
inductive Forced (bbset : Finset Nat) (neighbours : Nat → List Nat) (through : Nat) :
    Nat → Prop where
  | self (inside : through ∈ bbset) : Forced bbset neighbours through through
  | step {bb : Nat} (inside : bb ∈ bbset) (some : neighbours bb ≠ [])
      (members : ∀ other ∈ neighbours bb, other ∈ bbset)
      (forced : ∀ other ∈ neighbours bb, Forced bbset neighbours through other) :
      Forced bbset neighbours through bb

theorem mem_foldl_meet (list : List Nat) (start : Finset Nat) :
    through ∈ (list.foldl (meetNeighbour bbset sets) (false, start)).2 ↔
      through ∈ start ∧ ∀ other ∈ list, other ∈ bbset ∧ through ∈ sets other := by
  induction list generalizing start with
  | nil => exact (and_iff_left nofun).symm
  | cons other rest ih =>
      rw [List.foldl_cons, List.forall_mem_cons]
      by_cases inside : other ∈ bbset
      · have next : meetNeighbour bbset sets (false, start) other =
            (false, start ∩ sets other) := if_pos inside
        rw [next, ih, Finset.mem_inter, and_iff_right inside, and_assoc]
      · have next : meetNeighbour bbset sets (false, start) other = (false, ∅) :=
          if_neg inside
        rw [next, ih]
        exact iff_of_false (fun both => Finset.notMem_empty _ both.1)
          fun both => inside both.2.1.1

theorem mem_joined :
    through ∈ joined bbset neighbours bb sets ↔
      neighbours bb ≠ [] ∧ (∀ other ∈ neighbours bb, other ∈ bbset ∧ through ∈ sets other) ∨
        through ∈ sets bb := by
  unfold joined
  cases isList : neighbours bb with
  | nil => exact (or_iff_right fun both => both.1 rfl).symm
  | cons other rest =>
      have first : through ∈ ((other :: rest).foldl (meetNeighbour bbset sets) (true, ∅)).2 ↔
          ∀ another ∈ other :: rest, another ∈ bbset ∧ through ∈ sets another := by
        rw [List.foldl_cons, List.forall_mem_cons]
        by_cases inside : other ∈ bbset
        · have next : meetNeighbour bbset sets (true, ∅) other = (false, sets other) :=
            if_pos inside
          rw [next, mem_foldl_meet, and_iff_right inside]
        · have next : meetNeighbour bbset sets (true, ∅) other = (false, ∅) := if_neg inside
          rw [next, mem_foldl_meet]
          exact iff_of_false (fun both => Finset.notMem_empty _ both.1)
            fun both => inside both.1.1
      rw [Finset.mem_union, first, and_iff_right (List.cons_ne_nil _ _)]

/-- The joined sets of the members have the elements that are forced. -/
theorem joined_settles (isMember : ∀ bb, bb ∈ places ↔ bb ∈ bbset)
    (start : ∀ bb ∈ bbset, sets bb = {bb}) :
    ∃ last, Settles (fun fuel => untilStable (refresh (joined bbset neighbours)) places fuel sets)
      last ∧ ∀ bb ∈ bbset, ∀ through, through ∈ last bb ↔ Forced bbset neighbours through bb := by
  obtain ⟨last, settles, ⟨self, forced⟩, stable⟩ :=
    @growing_settles Nat _ Nat _ (joined bbset neighbours) places
      (fun current => (∀ bb ∈ bbset, bb ∈ current bb) ∧ ∀ bb ∈ bbset, ∀ through,
        through ∈ current bb → through ∈ bbset ∧ Forced bbset neighbours through bb) bbset (by
      rintro bb isPlace current ⟨self, forced⟩
      have inside := (isMember bb).1 isPlace
      have members := @mem_joined neighbours current bbset bb
      have grows : current bb ⊆ joined bbset neighbours bb current := fun through member =>
        members.2 (.inr member)
      have sound : ∀ through, through ∈ joined bbset neighbours bb current →
          through ∈ bbset ∧ Forced bbset neighbours through bb := by
        intro through member
        rcases members.1 member with ⟨nonempty, all⟩ | present
        · obtain ⟨other, isNeighbour⟩ := List.exists_mem_of_ne_nil _ nonempty
          have first := all other isNeighbour
          refine ⟨(forced other first.1 through first.2).1, .step inside nonempty
            (fun another isNeighbour => (all another isNeighbour).1) ?_⟩
          intro another isNeighbour
          have both := all another isNeighbour
          exact (forced another both.1 through both.2).2
        · exact forced bb inside through present
      refine ⟨grows, fun through member => (sound through member).1, ?_, ?_⟩
      · intro other inside'
        by_cases same : other = bb
        · subst same
          rw [update_self]
          exact grows (self other inside)
        · rw [update_of_ne same]
          exact self other inside'
      · intro other inside' through
        by_cases same : other = bb
        · subst same
          rw [update_self]
          exact sound through
        · rw [update_of_ne same]
          exact forced other inside' through) sets (by
      constructor
      · intro bb inside
        rw [start bb inside]
        exact Finset.mem_singleton_self bb
      · intro bb inside through member
        rw [start bb inside, Finset.mem_singleton] at member
        subst member
        exact ⟨inside, .self inside⟩)
  refine ⟨last, settles, fun bb inside through =>
    ⟨fun member => (forced bb inside through member).2, fun isForced => ?_⟩⟩
  clear inside
  induction isForced with
  | self inside => exact self through inside
  | step inside nonempty members _ ih =>
      rw [← stable _ ((isMember _).2 inside), mem_joined]
      exact .inl ⟨nonempty, fun other isNeighbour =>
        ⟨members other isNeighbour, ih other isNeighbour⟩⟩

end OpenUH.Cg.Dominators
