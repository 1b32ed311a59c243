import OpenUH.Cg.DominatorExactness
import OpenUH.Cg.RegionVectors

/-!
# Dominators of a region

`BB_REGION_Calculate_Dominators` starts from all numbers in the blocks with neighbours and
lets the correct sets come in from outside.  An entry of the program unit with predecessors
learns of it only from blocks that are not in the region, and the first block of the vector
gets its post-dominators only if it is not the one that the loop leaves out.
-/

namespace OpenUH.Cg.Dominators

open Foundation.Fallible
open Foundation.PathAvoidance
open Foundation.SweepIteration

variable {cfg : Cfg} {region : BBRegion cfg} {bb through : Nat}

/-! ## Specification -/

/-- A map that has correct sets in the outside blocks that border on a region. -/
structure BorderedMap (region : BBRegion cfg) extends DomMap where
  predsExact : ∀ bb, region.Contains bb → ∀ other ∈ cfg.preds bb, ¬ region.Contains other →
    cfg.ExactDom toDomMap other
  succsExact : ∀ bb, region.Contains bb → ∀ other ∈ cfg.succs bb, ¬ region.Contains other →
    cfg.ExactPdom toDomMap other

/-- The blocks whose dominators do not come from other blocks of the region. -/
def BBRegion.Anchor (region : BBRegion cfg) (bb : Nat) : Prop :=
  ¬ region.Contains bb ∨ cfg.preds bb = []

/-- An entry with predecessors in the region has, without any given other block, a path to it
that passes a block outside of the region or one without predecessors. -/
def BBRegion.Entered (region : BBRegion cfg) : Prop :=
  ∀ bb, region.Contains bb → cfg.entry bb = true → cfg.preds bb ≠ [] →
    ∀ through, through ≠ bb →
      ∃ path, IsPath cfg.isEntry cfg.edge bb path ∧ through ∉ path ∧ ∃ a ∈ path, region.Anchor a

/-- The last entry has no successors, or is listed twice, or is the whole region. -/
def BBRegion.FirstVisited (region : BBRegion cfg) : Prop :=
  cfg.succs region.lastEntry = [] ∨ 2 ≤ region.entries.count region.lastEntry ∨
    ∀ bb, region.Contains bb → bb = region.lastEntry

/-! ## Exact sets -/

theorem Cfg.avoidsTo_of_outside (outside : through ∉ cfg.blocks) (inside : bb ∈ cfg.blocks) :
    Avoids cfg.isExit (fun a b => cfg.edge b a) through bb := by
  obtain ⟨path, isPath⟩ := cfg.reachesExit bb inside
  have backwards := isPathTo_iff_reverse.1 isPath
  have members := backwards.inside (fun _ isExit => isExit.1) fun _ _ isEdge => isEdge.1
  exact backwards.avoids (fun member => outside (members through member)) bb
    (List.mem_of_getLast? backwards.last)

theorem Cfg.exactDom_iff {map : DomMap} (inside : bb ∈ cfg.blocks) :
    cfg.ExactDom map bb ↔
      ∀ through, through ∈ map.domSet bb ↔ ¬ Avoids cfg.isEntry cfg.edge through bb := by
  refine forall_congr' fun through => ?_
  have dropped : through ∈ cfg.blocks ∧ cfg.Dominates through bb ↔
      ¬ Avoids cfg.isEntry cfg.edge through bb := by
    rw [Cfg.Dominates, onEveryPath_iff]
    refine and_iff_right_of_imp fun stays => ?_
    by_contra outside
    exact stays (Cfg.avoids_of_outside outside inside)
  rw [dropped]

theorem Cfg.exactPdom_iff {map : DomMap} (inside : bb ∈ cfg.blocks) :
    cfg.ExactPdom map bb ↔ ∀ through,
      through ∈ map.pdomSet bb ↔ ¬ Avoids cfg.isExit (fun a b => cfg.edge b a) through bb := by
  refine forall_congr' fun through => ?_
  have dropped : through ∈ cfg.blocks ∧ cfg.PostDominates through bb ↔
      ¬ Avoids cfg.isExit (fun a b => cfg.edge b a) through bb := by
    rw [Cfg.PostDominates, onEveryPathTo_iff]
    refine and_iff_right_of_imp fun stays => ?_
    by_contra outside
    exact stays (Cfg.avoidsTo_of_outside outside inside)
  rw [dropped]

theorem Cfg.entry_of_preds (inside : bb ∈ cfg.blocks) (nothing : cfg.preds bb = []) :
    cfg.isEntry bb := by
  have avoids : Avoids cfg.isEntry cfg.edge bbIdPreEntry bb :=
    Cfg.avoids_of_outside (fun member => cfg.ne_preEntry member rfl) inside
  cases avoids with
  | start isEntry _ => exact isEntry
  | step _ isEdge _ =>
      have isPred := isEdge.pred
      rw [nothing] at isPred
      cases isPred

theorem Cfg.exit_of_succs (inside : bb ∈ cfg.blocks) (nothing : cfg.succs bb = []) :
    cfg.isExit bb := by
  have avoids : Avoids cfg.isExit (fun a b => cfg.edge b a) bbIdPreEntry bb :=
    Cfg.avoidsTo_of_outside (fun member => cfg.ne_preEntry member rfl) inside
  cases avoids with
  | start isExit _ => exact isExit
  | step _ isEdge _ =>
      have isSucc := isEdge.2
      rw [nothing] at isSucc
      cases isSucc

/-! ## Sets before the iterations -/

/-- The sets before an iteration: all numbers in the blocks of the region with neighbours, and
themselves in the others. -/
def Cfg.regionStart (cfg : Cfg) (neighbours : Nat → List Nat) (regionBBs : List Nat)
    (sets : Nat → Finset Nat) (bb : Nat) : Finset Nat :=
  if bb ∈ regionBBs then
    (if neighbours bb ≠ [] then Finset.range (cfg.count + 2) else insert bb ∅)
  else
    sets bb

section Start

variable {neighbours : Nat → List Nat} {regionBBs : List Nat} {sets : Nat → Finset Nat}

theorem Cfg.mem_regionStart (isMember : bb ∈ regionBBs) :
    through ∈ cfg.regionStart neighbours regionBBs sets bb ↔
      if neighbours bb ≠ [] then through < cfg.count + 2 else through = bb := by
  unfold Cfg.regionStart
  rw [if_pos isMember]
  split_ifs
  · exact Finset.mem_range
  · exact Finset.mem_singleton

theorem Cfg.self_mem_regionStart (isMember : bb ∈ regionBBs) (inside : bb ∈ cfg.blocks) :
    bb ∈ cfg.regionStart neighbours regionBBs sets bb := by
  rw [Cfg.mem_regionStart isMember]
  split_ifs
  · exact Nat.lt_succ_of_lt (Nat.lt_succ_of_le (cfg.numbered bb inside).2)
  · rfl

/-- A number that is missing at the start is too large, or the block has no neighbours and is
another one. -/
theorem Cfg.notMem_regionStart (isMember : bb ∈ regionBBs)
    (missing : through ∉ cfg.regionStart neighbours regionBBs sets bb) :
    cfg.count + 2 ≤ through ∨ neighbours bb = [] ∧ bb ≠ through := by
  rw [Cfg.mem_regionStart isMember] at missing
  split_ifs at missing with nonempty
  · exact .inl (Nat.le_of_not_lt missing)
  · exact .inr ⟨not_not.1 nonempty, fun same => missing same.symm⟩

theorem Cfg.not_block_of_large (large : cfg.count + 2 ≤ through) : through ∉ cfg.blocks := by
  intro inside
  have := (cfg.numbered through inside).2
  omega

theorem Cfg.regionStart_of_outside (noMember : bb ∉ regionBBs) :
    cfg.regionStart neighbours regionBBs sets bb = sets bb :=
  if_neg noMember

end Start

/-! ## Dominators -/

section Doms

variable {regionBBs : List Nat} {map : BorderedMap region}

/-- A block of the region loses only numbers that are too large and what it is reached without
from outside of the region or from a block without predecessors. -/
theorem BorderedMap.avoids_of_lost (isRegion : ∀ bb, bb ∈ regionBBs ↔ region.Contains bb)
    (isMember : region.Contains bb)
    (lost : Lost cfg.preds regionBBs (cfg.regionStart cfg.preds regionBBs map.domSet) through bb) :
    cfg.count + 2 ≤ through ∨
      Avoids (fun a => region.Anchor a ∧ Avoids cfg.isEntry cfg.edge through a)
        cfg.edge through bb := by
  have general : bb ∈ cfg.blocks → (¬ region.Contains bb → cfg.ExactDom map.toDomMap bb) →
      cfg.count + 2 ≤ through ∨
        Avoids (fun a => region.Anchor a ∧ Avoids cfg.isEntry cfg.edge through a)
          cfg.edge through bb := by
    clear isMember
    induction lost with
    | @absent bb missing =>
        intro inside exact
        by_cases isMember : region.Contains bb
        · refine (Cfg.notMem_regionStart ((isRegion bb).2 isMember) missing).imp_right ?_
          rintro ⟨nothing, differs⟩
          exact .start ⟨.inr nothing, .start (Cfg.entry_of_preds inside nothing) differs⟩ differs
        · rw [Cfg.regionStart_of_outside (mt (isRegion bb).1 isMember),
            (Cfg.exactDom_iff inside).1 (exact isMember), not_not] at missing
          exact .inr (.start ⟨.inl isMember, missing⟩ missing.ne)
    | @step bb other isPlace differs isNeighbour _ ih =>
        intro inside _
        have isMember := (isRegion bb).1 isPlace
        have isEdge := Cfg.edge_of_pred inside isNeighbour
        exact (ih isEdge.1 (map.predsExact bb isMember other isNeighbour)).imp_right
          fun avoids => .step avoids isEdge differs
  exact general isMember.inside fun outside => absurd isMember outside

/-- A block of the region loses what it is reached without from outside of the region or from
a block without predecessors. -/
theorem BorderedMap.lost_of_avoids (isRegion : ∀ bb, bb ∈ regionBBs ↔ region.Contains bb)
    (isMember : region.Contains bb)
    (avoids : Avoids (fun a => region.Anchor a ∧ Avoids cfg.isEntry cfg.edge through a)
      cfg.edge through bb) :
    Lost cfg.preds regionBBs (cfg.regionStart cfg.preds regionBBs map.domSet) through bb := by
  induction avoids with
  | @start bb isAnchor differs =>
      have nothing := isAnchor.1.resolve_left (not_not.2 isMember)
      refine .absent fun member => ?_
      rw [Cfg.mem_regionStart ((isRegion bb).2 isMember), if_neg (not_not.2 nothing)] at member
      exact differs member.symm
  | @step node next avoids isEdge differs ih =>
      refine .step ((isRegion next).2 isMember) differs isEdge.pred ?_
      by_cases isMember' : region.Contains node
      · exact ih isMember'
      · have exact := map.predsExact next isMember node isEdge.pred isMember'
        refine .absent fun member => ?_
        rw [Cfg.regionStart_of_outside (mt (isRegion node).1 isMember'),
          (Cfg.exactDom_iff isEdge.1).1 exact] at member
        exact member avoids.trans

/-- If the entries are entered, whatever is avoided is avoided by way of an anchor. -/
theorem BBRegion.Entered.by_way (entered : region.Entered)
    (avoids : Avoids cfg.isEntry cfg.edge through bb) :
    Avoids (fun a => region.Anchor a ∧ Avoids cfg.isEntry cfg.edge through a)
      cfg.edge through bb := by
  induction avoids with
  | @start bb isEntry differs =>
      by_cases isAnchor : region.Anchor bb
      · exact .start ⟨isAnchor, .start isEntry differs⟩ differs
      · unfold BBRegion.Anchor at isAnchor
        rw [not_or, not_not] at isAnchor
        exact avoids_by_way_iff.2
          (entered bb isAnchor.1 isEntry.2 isAnchor.2 through fun same => differs same.symm)
  | step _ isEdge differs ih =>
      exact .step ih isEdge differs

/-- The sets have exactly the dominators if and only if the entries are entered. -/
theorem BorderedMap.lost_exact_iff (map : BorderedMap region)
    (isRegion : ∀ bb, bb ∈ regionBBs ↔ region.Contains bb) :
    (∀ bb, region.Contains bb → ∀ through,
      Lost cfg.preds regionBBs (cfg.regionStart cfg.preds regionBBs map.domSet) through bb ↔
        Avoids cfg.isEntry cfg.edge through bb) ↔ region.Entered := by
  constructor
  · intro exact bb isMember isEntry nonempty through differs
    rw [← avoids_by_way_iff]
    have reached : ∀ {through}, through ≠ bb → Avoids cfg.isEntry cfg.edge through bb :=
      fun differs => .start ⟨isMember.inside, isEntry⟩ fun same => differs same.symm
    rcases map.avoids_of_lost isRegion isMember ((exact bb isMember through).2 (reached differs))
      with large | avoids
    · have lost := (exact bb isMember bbIdPreEntry).2
        (reached (cfg.ne_preEntry isMember.inside).symm)
      have avoids := (map.avoids_of_lost isRegion isMember lost).resolve_left (by
        unfold bbIdPreEntry
        omega)
      obtain ⟨path, isPath, -, passes⟩ := avoids_by_way_iff.1 avoids
      have members := isPath.inside (fun _ isEntry => isEntry.1) fun _ _ isEdge => isEdge.inside
      exact avoids_by_way_iff.2 ⟨path, isPath,
        fun member => Cfg.not_block_of_large large (members through member), passes⟩
    · exact avoids
  · intro entered bb isMember through
    constructor
    · intro lost
      rcases map.avoids_of_lost isRegion isMember lost with large | avoids
      · exact Cfg.avoids_of_outside (Cfg.not_block_of_large large) isMember.inside
      · exact avoids.trans
    · exact fun avoids => map.lost_of_avoids isRegion isMember (entered.by_way avoids)

end Doms

/-! ## Post-dominators -/

section Pdoms

variable {first : Nat} {tail : List Nat} {map : BorderedMap region}

/-- The loop for post-dominators leaves out the first block of a longer vector. -/
theorem mem_countedDown :
    bb ∈ countedDown (first :: tail) ↔ bb ∈ tail ∨ tail = [] ∧ bb = first := by
  unfold countedDown
  rcases List.eq_nil_or_concat tail with rfl | ⟨earlier, last, rfl⟩
  · rw [List.reverse_singleton]
    dsimp only
    rw [List.dropLast_nil, List.mem_singleton, or_iff_right List.not_mem_nil, and_iff_right rfl]
  · rw [List.concat_eq_append, ← List.cons_append, List.reverse_append]
    rw [List.reverse_singleton, List.singleton_append, List.reverse_cons]
    dsimp only
    rw [List.dropLast_concat, List.mem_cons, List.mem_reverse, List.mem_append,
      List.mem_singleton, or_comm]
    exact (or_iff_left fun both => List.append_ne_nil_of_right_ne_nil _ (List.cons_ne_nil _ _)
      both.1).symm

/-- A block of the region loses only what it comes to an exit without. -/
theorem BorderedMap.avoidsTo_of_lost {regionBBs places : List Nat}
    (isRegion : ∀ bb, bb ∈ regionBBs ↔ region.Contains bb)
    (visited : ∀ bb ∈ places, bb ∈ regionBBs) (isMember : region.Contains bb)
    (lost : Lost cfg.succs places (cfg.regionStart cfg.succs regionBBs map.pdomSet) through bb) :
    Avoids cfg.isExit (fun a b => cfg.edge b a) through bb := by
  have general : bb ∈ cfg.blocks → (¬ region.Contains bb → cfg.ExactPdom map.toDomMap bb) →
      Avoids cfg.isExit (fun a b => cfg.edge b a) through bb := by
    clear isMember
    induction lost with
    | @absent bb missing =>
        intro inside exact
        by_cases isMember : region.Contains bb
        · rcases Cfg.notMem_regionStart ((isRegion bb).2 isMember) missing with
            large | ⟨nothing, differs⟩
          · exact Cfg.avoidsTo_of_outside (Cfg.not_block_of_large large) inside
          · exact .start (Cfg.exit_of_succs inside nothing) differs
        · rwa [Cfg.regionStart_of_outside (mt (isRegion bb).1 isMember),
            (Cfg.exactPdom_iff inside).1 (exact isMember), not_not] at missing
    | @step bb other isPlace differs isNeighbour _ ih =>
        intro inside _
        have isMember := (isRegion bb).1 (visited bb isPlace)
        have isEdge : cfg.edge bb other := ⟨inside, isNeighbour⟩
        exact .step (ih isEdge.inside (map.succsExact bb isMember other isNeighbour)) isEdge differs
  exact general isMember.inside fun outside => absurd isMember outside

/-- If all blocks with successors are visited, they lose what they come to an exit without. -/
theorem BorderedMap.lost_of_avoidsTo {regionBBs places : List Nat}
    (isRegion : ∀ bb, bb ∈ regionBBs ↔ region.Contains bb)
    (visits : ∀ bb, region.Contains bb → cfg.succs bb ≠ [] → bb ∈ places)
    (isMember : region.Contains bb)
    (avoids : Avoids cfg.isExit (fun a b => cfg.edge b a) through bb) :
    Lost cfg.succs places (cfg.regionStart cfg.succs regionBBs map.pdomSet) through bb := by
  induction avoids with
  | @start bb isExit differs =>
      have nothing := cfg.exitSuccs bb isExit.1 isExit.2
      refine .absent fun member => ?_
      rw [Cfg.mem_regionStart ((isRegion bb).2 isMember), if_neg (not_not.2 nothing)] at member
      exact differs member.symm
  | @step node next avoids isEdge differs ih =>
      refine .step (visits next isMember (List.ne_nil_of_mem isEdge.2)) differs isEdge.2 ?_
      by_cases isMember' : region.Contains node
      · exact ih isMember'
      · have exact := map.succsExact next isMember node isEdge.2 isMember'
        refine .absent fun member => ?_
        rw [Cfg.regionStart_of_outside (mt (isRegion node).1 isMember'),
          (Cfg.exactPdom_iff (Cfg.edge.inside isEdge)).1 exact] at member
        exact member avoids

/-- The sets have exactly the post-dominators if and only if the first block is visited. -/
theorem BorderedMap.lost_exactPdom_iff (map : BorderedMap region)
    (isRegion : ∀ bb, bb ∈ region.lastEntry :: tail ↔ region.Contains bb)
    (again : region.lastEntry ∈ tail ↔ 2 ≤ region.entries.count region.lastEntry) :
    (∀ bb, region.Contains bb → ∀ through,
      Lost cfg.succs (countedDown (region.lastEntry :: tail))
          (cfg.regionStart cfg.succs (region.lastEntry :: tail) map.pdomSet) through bb ↔
        Avoids cfg.isExit (fun a b => cfg.edge b a) through bb) ↔ region.FirstVisited := by
  have isMember := region.contains_lastEntry
  constructor
  · intro exact
    by_contra unvisited
    unfold BBRegion.FirstVisited at unvisited
    rw [not_or, not_or, ← again] at unvisited
    obtain ⟨nonempty, once, others⟩ := unvisited
    have lost := (exact region.lastEntry isMember bbIdPreEntry).2
      (Cfg.avoidsTo_of_outside (fun member => cfg.ne_preEntry member rfl) isMember.inside)
    cases lost with
    | absent missing =>
        rw [Cfg.mem_regionStart List.mem_cons_self, if_pos nonempty] at missing
        exact missing (Nat.succ_pos _)
    | step isPlace _ _ _ =>
        rcases mem_countedDown.1 isPlace with inTail | ⟨alone, -⟩
        · exact once inTail
        · refine others fun bb contains => ?_
          rw [← isRegion, alone] at contains
          exact List.mem_singleton.1 contains
  · intro firstVisited bb isMember through
    refine ⟨map.avoidsTo_of_lost isRegion ?_ isMember, map.lost_of_avoidsTo isRegion ?_ isMember⟩
    · intro bb isPlace
      rcases mem_countedDown.1 isPlace with inTail | ⟨-, isFirst⟩
      · exact List.mem_cons_of_mem _ inTail
      · exact isFirst ▸ List.mem_cons_self
    · intro bb contains nonempty
      rw [mem_countedDown]
      rcases List.mem_cons.1 ((isRegion bb).2 contains) with rfl | inTail
      · rcases firstVisited with nothing | twice | alone
        · exact absurd nothing nonempty
        · exact .inl (again.2 twice)
        · cases tail with
          | nil => exact .inr ⟨rfl, rfl⟩
          | cons next rest =>
              have isNext := alone next
                ((isRegion next).1 (List.mem_cons_of_mem _ List.mem_cons_self))
              exact .inl (isNext ▸ List.mem_cons_self)
      · exact .inl inTail

end Pdoms

/-! ## Calls -/

/-- `BB_REGION_Calculate_Dominators` comes to an end, with the dominators of the blocks of the
region if and only if its entries are entered, and with their post-dominators if and only if
the first block is visited. -/
theorem BBRegion.calculateDominators_settles (region : BBRegion cfg) (map : BorderedMap region) :
    ∃ result, Settles (region.calculateDominators map.toDomMap) result ∧
      ((∀ bb, region.Contains bb → cfg.ExactDom result bb) ↔ region.Entered) ∧
      ((∀ bb, region.Contains bb → cfg.ExactPdom result bb) ↔ region.FirstVisited) := by
  obtain ⟨tail, vectorSettles, isRegion, again⟩ := region.toVector_settles
  obtain ⟨dom, domSettles, domMembers⟩ :=
    @trimmed_settles cfg.preds (region.lastEntry :: tail)
      (cfg.regionStart cfg.preds (region.lastEntry :: tail) map.domSet)
      fun bb isPlace => Cfg.self_mem_regionStart isPlace ((isRegion bb).1 isPlace).inside
  obtain ⟨pdom, pdomSettles, pdomMembers⟩ :=
    @trimmed_settles cfg.succs (countedDown (region.lastEntry :: tail))
      (cfg.regionStart cfg.succs (region.lastEntry :: tail) map.pdomSet) (by
        intro bb isPlace
        have isPlace' : bb ∈ region.lastEntry :: tail := by
          rcases mem_countedDown.1 isPlace with inTail | ⟨-, isFirst⟩
          · exact List.mem_cons_of_mem _ inTail
          · exact isFirst ▸ List.mem_cons_self
        exact Cfg.self_mem_regionStart isPlace' ((isRegion bb).1 isPlace').inside)
  refine ⟨{ domSet := dom, pdomSet := pdom },
    vectorSettles.bind (domSettles.bind (pdomSettles.map _)), ?_, ?_⟩
  · rw [← map.lost_exact_iff isRegion]
    refine forall₂_congr fun bb contains => ?_
    rw [Cfg.exactDom_iff contains.inside]
    exact forall_congr' fun through => by rw [domMembers, not_iff_not]
  · rw [← map.lost_exactPdom_iff isRegion again]
    refine forall₂_congr fun bb contains => ?_
    rw [Cfg.exactPdom_iff contains.inside]
    exact forall_congr' fun through => by rw [pdomMembers, not_iff_not]

end OpenUH.Cg.Dominators
