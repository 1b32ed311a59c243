import OpenUH.Cg.DominatorSets

/-!
# Whole program units

`Calculate_Dominators` leaves in every block the blocks on all paths from an entry to it, and
the blocks on all paths from it to an exit.
-/

namespace OpenUH.Cg.Dominators

open Foundation.Fallible
open Foundation.PathAvoidance
open Foundation.SweepIteration

variable {cfg : Cfg} {bb through : Nat}

/-! ## Specification -/

/-- A block lies on every path from an entry to another block. -/
def Cfg.Dominates (cfg : Cfg) (through bb : Nat) : Prop :=
  OnEveryPath cfg.isEntry cfg.edge through bb

/-- A block lies on every path from another block to an exit. -/
def Cfg.PostDominates (cfg : Cfg) (through bb : Nat) : Prop :=
  OnEveryPathTo cfg.isExit cfg.edge through bb

/-- A block has exactly its dominators in its set. -/
def Cfg.ExactDom (cfg : Cfg) (map : DomMap) (bb : Nat) : Prop :=
  ∀ through, through ∈ map.domSet bb ↔ through ∈ cfg.blocks ∧ cfg.Dominates through bb

/-- A block has exactly its post-dominators in its set. -/
def Cfg.ExactPdom (cfg : Cfg) (map : DomMap) (bb : Nat) : Prop :=
  ∀ through, through ∈ map.pdomSet bb ↔ through ∈ cfg.blocks ∧ cfg.PostDominates through bb

/-! ## Edges -/

theorem Cfg.edge_of_pred {other : Nat} (inside : bb ∈ cfg.blocks)
    (isPred : other ∈ cfg.preds bb) : cfg.edge other bb :=
  have otherInside := cfg.predsInside bb inside other isPred
  ⟨otherInside, (cfg.consistent other otherInside bb inside).2 isPred⟩

theorem Cfg.edge.inside {other : Nat} (isEdge : cfg.edge bb other) : other ∈ cfg.blocks :=
  cfg.succsInside bb isEdge.1 other isEdge.2

theorem Cfg.edge.pred {other : Nat} (isEdge : cfg.edge bb other) : bb ∈ cfg.preds other :=
  (cfg.consistent bb isEdge.1 other isEdge.inside).1 isEdge.2

/-- A number that is no block is avoided on the way to every block. -/
theorem Cfg.avoids_of_outside (outside : through ∉ cfg.blocks) (inside : bb ∈ cfg.blocks) :
    Avoids cfg.isEntry cfg.edge through bb := by
  obtain ⟨path, isPath⟩ := cfg.reachable bb inside
  have members := isPath.inside (fun _ isEntry => isEntry.1) fun a b isEdge =>
    cfg.succsInside a isEdge.1 b isEdge.2
  exact isPath.avoids (fun member => outside (members through member)) bb
    (List.mem_of_getLast? isPath.last)

/-! ## Dominators -/

/-- The dominator sets before the iteration. -/
def Cfg.domStart (cfg : Cfg) (map : DomMap) (bb : Nat) : Finset Nat :=
  if bb ∈ cfg.blocks then
    cfg.initDomSet (insert bbIdPreEntry cfg.blocks.toFinset) bb
  else
    map.domSet bb

variable {map : DomMap}

theorem Cfg.mem_domStart (inside : bb ∈ cfg.blocks) :
    through ∈ cfg.domStart map bb ↔
      if cfg.entry bb then through = bb ∨ through = bbIdPreEntry
      else through = bbIdPreEntry ∨ through ∈ cfg.blocks := by
  unfold Cfg.domStart Cfg.initDomSet
  rw [if_pos inside]
  split_ifs
  · rw [Finset.mem_insert, Finset.mem_insert, or_iff_left (Finset.notMem_empty _)]
  · rw [Finset.mem_insert, List.mem_toFinset]

theorem Cfg.ne_preEntry (inside : bb ∈ cfg.blocks) : bb ≠ bbIdPreEntry := by
  have := (cfg.numbered bb inside).1
  unfold bbIdPreEntry
  omega

/-- The blocks that lose a block are the ones that are reached without it. -/
theorem Cfg.lost_dom_iff (isBlock : through ∈ cfg.blocks) (inside : bb ∈ cfg.blocks) :
    Lost cfg.preds cfg.blocks (cfg.domStart map) through bb ↔
      Avoids cfg.isEntry cfg.edge through bb := by
  constructor
  · intro lost
    induction lost with
    | @absent bb outside =>
        rw [cfg.mem_domStart inside] at outside
        split_ifs at outside with isEntry
        · exact .start ⟨inside, isEntry⟩ fun same => outside (.inl same.symm)
        · exact absurd (.inr isBlock) outside
    | @step bb other isPlace differs isNeighbour _ ih =>
        have isEdge := Cfg.edge_of_pred isPlace isNeighbour
        exact .step (ih isEdge.1) isEdge differs
  · intro avoids
    clear inside
    induction avoids with
    | @start bb isEntry differs =>
        refine .absent fun member => ?_
        rw [cfg.mem_domStart isEntry.1, if_pos isEntry.2] at member
        exact member.elim (fun same => differs same.symm) (cfg.ne_preEntry isBlock)
    | step _ isEdge differs ih =>
        exact .step isEdge.inside differs isEdge.pred ih

/-- The iteration for dominators, and the removal of the block before all entries. -/
theorem Cfg.dom_settles (cfg : Cfg) (map : DomMap) :
    ∃ last, Settles (fun fuel => untilStable (refresh (trimmed cfg.preds)) cfg.blocks fuel
        (cfg.domStart map)) last ∧
      ∀ bb ∈ cfg.blocks, ∀ through, through ∈ (last bb).erase bbIdPreEntry ↔
        through ∈ cfg.blocks ∧ cfg.Dominates through bb := by
  obtain ⟨last, settles, members⟩ := @trimmed_settles cfg.preds cfg.blocks (cfg.domStart map) (by
      intro bb inside
      rw [cfg.mem_domStart inside]
      split_ifs
      · exact .inl rfl
      · exact .inr inside)
  refine ⟨last, settles, fun bb inside through => ?_⟩
  rw [Finset.mem_erase, members, Cfg.Dominates, onEveryPath_iff]
  constructor
  · rintro ⟨real, kept⟩
    have isBlock : through ∈ cfg.blocks := by
      by_contra outside
      refine kept (.absent fun member => ?_)
      rw [cfg.mem_domStart inside] at member
      split_ifs at member
      · exact member.elim (fun same => outside (same ▸ inside)) real
      · exact member.elim real outside
    exact ⟨isBlock, fun avoids => kept ((cfg.lost_dom_iff isBlock inside).2 avoids)⟩
  · rintro ⟨isBlock, reached⟩
    exact ⟨cfg.ne_preEntry isBlock,
      fun lost => reached ((cfg.lost_dom_iff isBlock inside).1 lost)⟩

/-! ## Post-dominators -/

/-- The post-dominator sets before the iterations. -/
def Cfg.pdomStart (cfg : Cfg) (map : DomMap) (bb : Nat) : Finset Nat :=
  if bb ∈ cfg.blocks then cfg.initPdomSet bb else map.pdomSet bb

theorem Cfg.mem_pdomStart (inside : bb ∈ cfg.blocks) :
    through ∈ cfg.pdomStart map bb ↔
      through = bb ∨ cfg.exit bb = true ∧ through = cfg.bbIdPostExit := by
  unfold Cfg.pdomStart Cfg.initPdomSet
  rw [if_pos inside]
  split_ifs with isExit
  · rw [Finset.mem_insert, Finset.mem_insert, or_iff_left (Finset.notMem_empty _), or_comm,
      and_iff_right isExit]
  · rw [Finset.mem_insert, or_iff_left (Finset.notMem_empty _),
      or_iff_left fun both => isExit both.1]

theorem Cfg.ne_postExit (inside : bb ∈ cfg.blocks) : bb ≠ cfg.bbIdPostExit := by
  have := (cfg.numbered bb inside).2
  unfold Cfg.bbIdPostExit
  omega

/-- What a block gains is a block or the one after all exits. -/
theorem Cfg.gained_inside (inside : bb ∈ cfg.blocks)
    (gained : Gained cfg.succs cfg.blocks.reverse (cfg.pdomStart map) through bb) :
    through ∈ cfg.blocks ∨ through = cfg.bbIdPostExit := by
  induction gained with
  | @present bb member =>
      rw [cfg.mem_pdomStart inside] at member
      exact member.imp (fun same : through = bb => same ▸ inside) And.right
  | @step bb other _ isNeighbour _ ih =>
      exact ih (cfg.succsInside bb inside other isNeighbour)

/-- A block gains every block on a path from it. -/
theorem Cfg.gained_of_chain {path : List Nat}
    (chain : (bb :: path).IsChain cfg.edge) (inside : bb ∈ cfg.blocks) :
    ∀ through ∈ bb :: path, Gained cfg.succs cfg.blocks.reverse (cfg.pdomStart map) through bb := by
  induction path generalizing bb with
  | nil =>
      intro through member
      exact .present ((cfg.mem_pdomStart inside).2 (.inl (List.mem_singleton.1 member)))
  | cons next rest ih =>
      rw [List.isChain_cons_cons] at chain
      rw [List.forall_mem_cons]
      refine ⟨.present ((cfg.mem_pdomStart inside).2 (.inl rfl)), fun through member => ?_⟩
      exact .step (List.mem_reverse.2 inside) chain.1.2 (ih chain.2 chain.1.inside through member)

/-- The blocks that lose a block, of those that they reach, are the ones that come to an exit
without it. -/
theorem Cfg.lost_pdom_iff {reached : Nat → Finset Nat}
    (isReached : ∀ bb through, through ∈ reached bb ↔
      Gained cfg.succs cfg.blocks.reverse (cfg.pdomStart map) through bb)
    (isBlock : through ∈ cfg.blocks) (inside : bb ∈ cfg.blocks) :
    Lost cfg.succs cfg.blocks.reverse reached through bb ↔
      Avoids cfg.isExit (fun a b => cfg.edge b a) through bb := by
  constructor
  · intro lost
    induction lost with
    | @absent bb outside =>
        by_contra stays
        obtain ⟨path, isPath⟩ := cfg.reachesExit bb inside
        have member := onEveryPathTo_iff.2 stays path isPath
        obtain ⟨chain, first, -⟩ := isPath
        cases path with
        | nil => cases member
        | cons head rest =>
            cases first
            exact outside ((isReached _ _).2 (cfg.gained_of_chain chain inside through member))
    | @step bb other _ differs isNeighbour _ ih =>
        have isEdge : cfg.edge bb other := ⟨inside, isNeighbour⟩
        exact .step (ih isEdge.inside) isEdge differs
  · intro avoids
    clear inside
    induction avoids with
    | @start bb isExit differs =>
        refine .absent fun member => ?_
        rw [isReached] at member
        cases member with
        | present member =>
            rw [cfg.mem_pdomStart isExit.1] at member
            exact member.elim (fun same => differs same.symm)
              fun both => cfg.ne_postExit isBlock both.2
        | step _ isNeighbour _ =>
            rw [cfg.exitSuccs _ isExit.1 isExit.2] at isNeighbour
            cases isNeighbour
    | step _ isEdge differs ih =>
        exact .step (List.mem_reverse.2 isEdge.1) differs isEdge.2 ih

/-- The two iterations for post-dominators, and the removal of the block after all exits. -/
theorem Cfg.pdom_settles (cfg : Cfg) (map : DomMap) :
    ∃ reached last, Settles (fun fuel => untilStable (refresh (united cfg.succs))
        cfg.blocks.reverse fuel (cfg.pdomStart map)) reached ∧
      Settles (fun fuel => untilStable (refresh (trimmed cfg.succs)) cfg.blocks.reverse fuel
        reached) last ∧
      ∀ bb ∈ cfg.blocks, ∀ through, through ∈ (last bb).erase cfg.bbIdPostExit ↔
        through ∈ cfg.blocks ∧ cfg.PostDominates through bb := by
  obtain ⟨reached, settles, isReached⟩ := @united_settles cfg.succs cfg.blocks.reverse
    (cfg.pdomStart map) (insert cfg.bbIdPostExit cfg.blocks.toFinset) (by
      intro bb isPlace through member
      have inside := List.mem_reverse.1 isPlace
      rw [cfg.mem_pdomStart inside] at member
      rw [Finset.mem_insert, List.mem_toFinset]
      exact member.elim (fun same => .inr (same ▸ inside)) fun both => .inl both.2) (by
      intro bb isPlace other isNeighbour
      exact List.mem_reverse.2 (cfg.succsInside bb (List.mem_reverse.1 isPlace) other isNeighbour))
  obtain ⟨last, settles', members⟩ := @trimmed_settles cfg.succs cfg.blocks.reverse reached (by
    intro bb isPlace
    exact (isReached _ _).2
      (.present ((cfg.mem_pdomStart (List.mem_reverse.1 isPlace)).2 (.inl rfl))))
  refine ⟨reached, last, settles, settles', fun bb inside through => ?_⟩
  rw [Finset.mem_erase, members, Cfg.PostDominates, onEveryPathTo_iff]
  constructor
  · rintro ⟨real, kept⟩
    have isBlock : through ∈ cfg.blocks := by
      by_contra outside
      refine kept (.absent fun member => ?_)
      exact (cfg.gained_inside inside ((isReached _ _).1 member)).elim outside real
    exact ⟨isBlock, fun avoids => kept ((cfg.lost_pdom_iff isReached isBlock inside).2 avoids)⟩
  · rintro ⟨isBlock, stays⟩
    exact ⟨cfg.ne_postExit isBlock,
      fun lost => stays ((cfg.lost_pdom_iff isReached isBlock inside).1 lost)⟩

/-! ## Calls -/

/-- `Calculate_Dominators` comes to an end with exact sets. -/
theorem Cfg.calculateDominators_settles (cfg : Cfg) (map : DomMap) :
    ∃ result, Settles (cfg.calculateDominators map) result ∧
      ∀ bb ∈ cfg.blocks, cfg.ExactDom result bb ∧ cfg.ExactPdom result bb := by
  obtain ⟨dom, domSettles, domMembers⟩ := cfg.dom_settles map
  obtain ⟨reached, pdom, reachedSettles, pdomSettles, pdomMembers⟩ := cfg.pdom_settles map
  refine ⟨
    { domSet := fun bb => if bb ∈ cfg.blocks then (dom bb).erase bbIdPreEntry else dom bb
      pdomSet := fun bb => if bb ∈ cfg.blocks then (pdom bb).erase cfg.bbIdPostExit else pdom bb },
    domSettles.bind (reachedSettles.bind (pdomSettles.map _)),
    fun bb inside => ⟨fun through => ?_, fun through => ?_⟩⟩
  · rw [← domMembers bb inside through]
    exact iff_of_eq (congrArg (through ∈ ·) (if_pos inside))
  · rw [← pdomMembers bb inside through]
    exact iff_of_eq (congrArg (through ∈ ·) (if_pos inside))

/-- For every control-flow graph and every content of the new map, `Calculate_Dominators`
terminates and leaves in every block exactly its dominators and its post-dominators. -/
theorem calculateDominators_exact (cfg : Cfg) (map : DomMap) :
    ∃ result, Settles (cfg.calculateDominators map) result ∧
      ∀ bb ∈ cfg.blocks, cfg.ExactDom result bb ∧ cfg.ExactPdom result bb :=
  cfg.calculateDominators_settles map

/-- `Calculate_Dominators` leaves a dominator tree and a post-dominator tree: every block but
the roots has one immediate dominator, whose set it adds itself to. -/
theorem calculateDominators_trees (cfg : Cfg) (map : DomMap) :
    ∃ result, Settles (cfg.calculateDominators map) result ∧
      IsTree cfg.blocks result.domSet ∧ IsTree cfg.blocks result.pdomSet := by
  obtain ⟨result, settles, sets⟩ := cfg.calculateDominators_settles map
  refine ⟨result, settles, isTree_of_exact cfg.reachable fun bb inside through => ?_,
    @isTree_of_exact Nat cfg.isExit (fun a b => cfg.edge b a) _ _ _ _ (fun bb inside => ?_)
      fun bb inside through => ?_⟩
  · exact ((sets bb inside).1 through).trans (and_congr_right' onEveryPath_iff)
  · obtain ⟨path, isPath⟩ := cfg.reachesExit bb inside
    exact ⟨path.reverse, isPathTo_iff_reverse.1 isPath⟩
  · exact ((sets bb inside).2 through).trans (and_congr_right' onEveryPathTo_iff)

end OpenUH.Cg.Dominators
