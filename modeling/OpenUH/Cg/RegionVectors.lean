import OpenUH.Cg.Dominators

/-!
# The blocks of a region

`BB_REGION_to_Vector` collects the blocks of a region from a stack.  Its vector begins with
the last entry, which it contains a second time only if it is listed twice.
-/

namespace OpenUH.Cg.Dominators

open Foundation.Fallible

variable {cfg : Cfg} {region : BBRegion cfg} {bb : Nat}

/-! ## Regions -/

/-- The blocks on the paths from an entry that do not come to an exit. -/
inductive BBRegion.Contains (region : BBRegion cfg) : Nat → Prop where
  | entry {bb : Nat} (isEntry : bb ∈ region.entries) : region.Contains bb
  | step {bb succ : Nat} (contains : region.Contains bb) (isSucc : succ ∈ cfg.succs bb)
      (noExit : succ ∉ region.exits) : region.Contains succ

/-- The entry that is listed last. -/
def BBRegion.lastEntry (region : BBRegion cfg) : Nat :=
  region.entries.getLast region.nonempty

theorem BBRegion.Contains.inside (contains : region.Contains bb) : bb ∈ cfg.blocks := by
  induction contains with
  | entry isEntry => exact region.entriesInside _ isEntry
  | step _ isSucc _ ih =>
      exact cfg.succsInside _ ih _ isSucc

theorem BBRegion.contains_lastEntry (region : BBRegion cfg) : region.Contains region.lastEntry :=
  .entry (List.getLast_mem region.nonempty)

theorem BBRegion.reverse_entries (region : BBRegion cfg) :
    region.entries.reverse = region.lastEntry :: region.entries.dropLast.reverse := by
  conv_lhs => rw [← List.dropLast_append_getLast region.nonempty]
  rw [List.reverse_append]
  rfl

/-! ## Turns of the traversal -/

/-- The successors that are not yet in the region's set go on the stack. -/
theorem foldl_push (list rest : List Nat) (temp : Finset Nat) :
    list.foldl (fun stack succ => if succ ∈ temp then stack else succ :: stack) rest =
      (list.filter (· ∉ temp)).reverse ++ rest := by
  induction list generalizing rest with
  | nil => rfl
  | cons succ list ih =>
      rw [List.foldl_cons, ih]
      by_cases member : succ ∈ temp
      · rw [if_pos member, List.filter_cons_of_neg (by simpa using member)]
      · rw [if_neg member, List.filter_cons_of_pos (by simpa using member), List.reverse_cons,
          List.append_assoc]
        rfl

/--
What holds between the turns.  A block that is on the stack again lies below those of its
successors that were not yet visited.
-/
structure Traversal.Sound (region : BBRegion cfg) (traversal : Traversal) : Prop where
  temp : ∀ bb, bb ∈ traversal.regionTemp ↔ bb ∈ region.exits ∨ bb ∈ traversal.vector
  stacked : ∀ bb ∈ traversal.stack, region.Contains bb
  visited : ∀ bb ∈ traversal.vector, region.Contains bb
  entries : ∀ bb ∈ region.entries, bb ∈ traversal.stack ∨ bb ∈ traversal.vector
  closed : ∀ bb ∈ traversal.vector, ∀ succ ∈ cfg.succs bb, succ ∉ traversal.regionTemp →
    succ ∈ traversal.stack
  below : ∀ bb ∈ traversal.vector, ∀ succ ∈ cfg.succs bb, succ ∉ traversal.regionTemp →
    ∀ above rest, traversal.stack = above ++ bb :: rest → succ ∈ above
  head : traversal.vector = [] ∧ traversal.stack = region.entries.reverse ∨
    ∃ tail, traversal.vector = region.lastEntry :: tail ∧
      (2 ≤ region.entries.count region.lastEntry →
        region.lastEntry ∈ traversal.stack ∨ region.lastEntry ∈ tail) ∧
      (region.entries.count region.lastEntry < 2 →
        region.lastEntry ∉ traversal.stack ∧ region.lastEntry ∉ tail)

/-- The stack, and the successors of the blocks that were not yet visited. -/
def Traversal.left (cfg : Cfg) (traversal : Traversal) : Nat :=
  traversal.stack.length +
    ∑ bb ∈ cfg.blocks.toFinset.filter (· ∉ traversal.vector), (cfg.succs bb).length

/-- The state after a turn. -/
theorem traverse_cons {traversal : Traversal} {rest : List Nat}
    (isStack : traversal.stack = bb :: rest) :
    cfg.traverse traversal = some
      { stack := ((cfg.succs bb).filter (· ∉ insert bb traversal.regionTemp)).reverse ++ rest
        regionTemp := insert bb traversal.regionTemp
        vector := traversal.vector ++ [bb] } := by
  rw [← foldl_push]
  unfold Cfg.traverse
  rw [isStack]

section Turn

variable {traversal : Traversal} {rest : List Nat}

theorem mem_pushed {temp : Finset Nat} {succ : Nat} :
    succ ∈ ((cfg.succs bb).filter (· ∉ temp)).reverse ↔ succ ∈ cfg.succs bb ∧ succ ∉ temp := by
  rw [List.mem_reverse, List.mem_filter, decide_eq_true_eq]

/-- A turn takes what is left down. -/
theorem Traversal.Sound.left_lt (sound : traversal.Sound region)
    (isStack : traversal.stack = bb :: rest) {next : Traversal}
    (taken : cfg.traverse traversal = some next) :
    next.left cfg < traversal.left cfg := by
  rw [traverse_cons isStack] at taken
  cases taken
  unfold Traversal.left
  dsimp only
  rw [isStack, List.length_append, List.length_reverse, List.length_cons]
  have inside := (sound.stacked bb (isStack ▸ List.mem_cons_self)).inside
  by_cases again : bb ∈ traversal.vector
  · have nothing : (cfg.succs bb).filter (· ∉ insert bb traversal.regionTemp) = [] := by
      rw [List.filter_eq_nil_iff]
      intro succ isSucc
      rw [decide_eq_true_eq, not_not, Finset.mem_insert]
      by_contra fresh
      rw [not_or] at fresh
      cases sound.below bb again succ isSucc fresh.2 [] rest isStack
    have same : cfg.blocks.toFinset.filter (· ∉ traversal.vector ++ [bb]) =
        cfg.blocks.toFinset.filter (· ∉ traversal.vector) := by
      apply Finset.filter_congr
      intro other _
      rw [List.mem_append, List.mem_singleton, or_iff_left_of_imp fun equal => equal ▸ again]
    rw [nothing, same, List.length_nil]
    omega
  · have fewer : (cfg.blocks.toFinset.filter (· ∉ traversal.vector ++ [bb])) =
        (cfg.blocks.toFinset.filter (· ∉ traversal.vector)).erase bb := by
      ext other
      rw [Finset.mem_erase, Finset.mem_filter, Finset.mem_filter, List.mem_append,
        List.mem_singleton, not_or]
      tauto
    have isMember : bb ∈ cfg.blocks.toFinset.filter (· ∉ traversal.vector) :=
      Finset.mem_filter.2 ⟨List.mem_toFinset.2 inside, again⟩
    have split := Finset.add_sum_erase _ (fun other => (cfg.succs other).length) isMember
    have short := List.length_filter_le (fun succ => decide (succ ∉ insert bb traversal.regionTemp))
      (cfg.succs bb)
    rw [fewer]
    omega

/-- A turn keeps what holds. -/
theorem Traversal.Sound.turn (sound : traversal.Sound region)
    (isStack : traversal.stack = bb :: rest) {next : Traversal}
    (taken : cfg.traverse traversal = some next) :
    next.Sound region := by
  rw [traverse_cons isStack] at taken
  cases taken
  have isTop := sound.stacked bb (isStack ▸ List.mem_cons_self)
  have pushedContained : ∀ succ ∈ cfg.succs bb, succ ∉ insert bb traversal.regionTemp →
      region.Contains succ := by
    intro succ isSucc fresh
    rw [Finset.mem_insert, sound.temp, not_or, not_or] at fresh
    exact .step isTop isSucc fresh.2.1
  refine ⟨?_, ?_, ?_, ?_, ?_, ?_, ?_⟩
  · intro other
    dsimp only
    rw [Finset.mem_insert, sound.temp, List.mem_append, List.mem_singleton]
    tauto
  · intro other member
    rcases List.mem_append.1 member with pushed | stacked
    · obtain ⟨isSucc, fresh⟩ := mem_pushed.1 pushed
      exact pushedContained other isSucc fresh
    · exact sound.stacked other (isStack ▸ List.mem_cons_of_mem _ stacked)
  · intro other member
    rcases List.mem_append.1 member with visited | isLast
    · exact sound.visited other visited
    · exact List.mem_singleton.1 isLast ▸ isTop
  · intro other isEntry
    dsimp only
    rw [List.mem_append, List.mem_append, List.mem_singleton]
    rcases sound.entries other isEntry with stacked | visited
    · rw [isStack, List.mem_cons] at stacked
      rcases stacked with isNow | stacked
      · exact .inr (.inr isNow)
      · exact .inl (.inr stacked)
    · exact .inr (.inl visited)
  · intro other member succ isSucc fresh
    dsimp only at member fresh ⊢
    rw [List.mem_append]
    rw [List.mem_append, List.mem_singleton] at member
    rcases member with visited | rfl
    · rw [Finset.mem_insert, not_or] at fresh
      have stacked := sound.closed other visited succ isSucc fresh.2
      rw [isStack, List.mem_cons] at stacked
      exact .inr (stacked.resolve_left fresh.1)
    · exact .inl (mem_pushed.2 ⟨isSucc, fresh⟩)
  · intro other member succ isSucc fresh above below isSplit
    dsimp only at member fresh isSplit
    have seen : other ∈ insert bb traversal.regionTemp := by
      rw [List.mem_append, List.mem_singleton] at member
      rw [Finset.mem_insert, sound.temp]
      tauto
    rcases List.append_eq_append_iff.1 isSplit with
      ⟨middle, isAbove, isRest⟩ | ⟨middle, isPushed, isBelow⟩
    · rw [isAbove, List.mem_append]
      rw [List.mem_append, List.mem_singleton] at member
      rcases member with visited | rfl
      · rw [Finset.mem_insert, not_or] at fresh
        have inAbove := sound.below other visited succ isSucc fresh.2 (bb :: middle) below
          (by rw [isStack, isRest]; rfl)
        exact .inr ((List.mem_cons.1 inAbove).resolve_left fresh.1)
      · exact .inl (mem_pushed.2 ⟨isSucc, fresh⟩)
    · cases middle with
      | nil =>
          rw [List.append_nil] at isPushed
          rw [List.nil_append] at isBelow
          rw [← isPushed]
          rw [List.mem_append, List.mem_singleton] at member
          rcases member with visited | rfl
          · rw [Finset.mem_insert, not_or] at fresh
            have inAbove := sound.below other visited succ isSucc fresh.2 [bb] below
              (by rw [isStack, ← isBelow]; rfl)
            exact absurd (List.mem_singleton.1 inAbove) fresh.1
          · exact mem_pushed.2 ⟨isSucc, fresh⟩
      | cons first middle =>
          rw [List.cons_append, List.cons.injEq] at isBelow
          have isPushed' : other ∈
              ((cfg.succs bb).filter (· ∉ insert bb traversal.regionTemp)).reverse := by
            rw [isPushed, ← isBelow.1]
            exact List.mem_append_right _ List.mem_cons_self
          exact absurd seen (mem_pushed.1 isPushed').2
  · dsimp only
    have unpushed : region.lastEntry ∈ insert bb traversal.regionTemp →
        region.lastEntry ∉ ((cfg.succs bb).filter (· ∉ insert bb traversal.regionTemp)).reverse :=
      fun seen pushed => (mem_pushed.1 pushed).2 seen
    rcases sound.head with ⟨isVector, isEntries⟩ | ⟨tail, isVector, twice, once⟩
    · rw [isStack, region.reverse_entries, List.cons.injEq] at isEntries
      obtain ⟨isLast, isRest⟩ := isEntries
      have counted : region.entries.count region.lastEntry = rest.count region.lastEntry + 1 := by
        rw [← List.count_reverse, region.reverse_entries, List.count_cons_self, isRest]
      refine .inr ⟨[], by rw [isVector, isLast]; rfl, fun two => .inl ?_, fun one => ?_⟩
      · exact List.mem_append_right _ (List.count_pos_iff.1 (by omega))
      · rw [List.mem_append, not_or]
        exact ⟨⟨unpushed (isLast ▸ Finset.mem_insert_self _ _),
          List.count_eq_zero.1 (by omega)⟩, List.not_mem_nil⟩
    · have seen : region.lastEntry ∈ insert bb traversal.regionTemp := by
        rw [Finset.mem_insert, sound.temp, isVector]
        exact .inr (.inr List.mem_cons_self)
      refine .inr ⟨tail ++ [bb], by rw [isVector]; rfl, fun two => ?_, fun one => ?_⟩
      · rw [List.mem_append, List.mem_append, List.mem_singleton]
        rcases twice two with stacked | visited
        · rw [isStack, List.mem_cons] at stacked
          rcases stacked with isNow | stacked
          · exact .inr (.inr isNow)
          · exact .inl (.inr stacked)
        · exact .inr (.inl visited)
      · obtain ⟨unstacked, unvisited⟩ := once one
        rw [isStack, List.mem_cons, not_or] at unstacked
        rw [List.mem_append, List.mem_append, List.mem_singleton, not_or, not_or]
        exact ⟨⟨unpushed seen, unstacked.2⟩, unvisited, unstacked.1⟩

end Turn

/-! ## The vector -/

theorem Traversal.sound_start (region : BBRegion cfg) :
    Traversal.Sound region
      { stack := region.entries.reverse
        regionTemp := region.exits.toFinset
        vector := [] } where
  temp bb := by
    rw [List.mem_toFinset]
    exact (or_iff_left List.not_mem_nil).symm
  stacked bb member := .entry (List.mem_reverse.1 member)
  visited bb member := absurd member List.not_mem_nil
  entries bb isEntry := .inl (List.mem_reverse.2 isEntry)
  closed bb member := absurd member List.not_mem_nil
  below bb member := absurd member List.not_mem_nil
  head := .inl ⟨rfl, rfl⟩

/-- The vector holds the blocks of the region.  It begins with the last entry, which comes
again if and only if it is listed twice. -/
theorem BBRegion.toVector_settles (region : BBRegion cfg) :
    ∃ tail, Settles region.toVector (region.lastEntry :: tail) ∧
      (∀ bb, bb ∈ region.lastEntry :: tail ↔ region.Contains bb) ∧
      (region.lastEntry ∈ tail ↔ 2 ≤ region.entries.count region.lastEntry) := by
  obtain ⟨last, left, settles, ⟨sound, -⟩, stopped⟩ := @whileLoop_settles _
    (fun traversal : Traversal => !traversal.stack.isEmpty) cfg.traverse
    (fun left traversal => traversal.Sound region ∧ traversal.left cfg = left) (by
      rintro left traversal ⟨sound, rfl⟩ goes
      cases isStack : traversal.stack with
      | nil =>
          rw [isStack] at goes
          cases goes
      | cons bb rest =>
          have taken := @traverse_cons cfg bb traversal rest isStack
          exact ⟨_, _, taken, sound.left_lt isStack taken, sound.turn isStack taken, rfl⟩)
    _ _ ⟨Traversal.sound_start region, rfl⟩
  have empty : last.stack = [] := by
    cases isStack : last.stack with
    | nil => rfl
    | cons bb rest =>
        rw [isStack] at stopped
        cases stopped
  rcases sound.head with ⟨-, isEntries⟩ | ⟨tail, isVector, twice, once⟩
  · rw [empty] at isEntries
    exact absurd (List.reverse_eq_nil_iff.1 isEntries.symm) region.nonempty
  · refine ⟨tail, isVector ▸ settles.map Traversal.vector, fun bb => ?_, ?_⟩
    · rw [← isVector]
      constructor
      · exact sound.visited bb
      · intro contains
        induction contains with
        | entry isEntry =>
            exact (sound.entries _ isEntry).resolve_left (empty ▸ List.not_mem_nil)
        | @step bb succ contains isSucc noExit ih =>
            by_contra unvisited
            have stacked := sound.closed bb ih succ isSucc (by
              rw [sound.temp, not_or]
              exact ⟨noExit, unvisited⟩)
            rw [empty] at stacked
            cases stacked
    · rw [empty] at twice once
      constructor
      · intro again
        by_contra less
        exact (once (Nat.not_le.1 less)).2 again
      · exact fun two => (twice two).resolve_left List.not_mem_nil

end OpenUH.Cg.Dominators
