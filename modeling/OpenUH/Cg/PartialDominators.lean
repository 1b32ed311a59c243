import OpenUH.Cg.RegionDominators
import OpenUH.Cg.SetDominators

/-!
# Partial recomputations

When the recomputation for a region agrees with the one for the whole program unit, and when
the one for a set of blocks leaves the members on every path.
-/

namespace OpenUH.Cg.Dominators

open Foundation.Fallible
open Foundation.PathAvoidance

variable {cfg : Cfg} {bb : Nat}

/-! ## Agreement -/

/-- The recomputation for a region leaves in its blocks the sets of a full one. -/
def BBRegion.Agrees (region : BBRegion cfg) (map fresh : DomMap) : Prop :=
  ∃ result full, Settles (region.calculateDominators map) result ∧
    Settles (cfg.calculateDominators fresh) full ∧
    ∀ bb, region.Contains bb →
      result.domSet bb = full.domSet bb ∧ result.pdomSet bb = full.pdomSet bb

/-- The recomputation for a set of blocks leaves in them the members on every path. -/
def BBSet.Exact (bbset : BBSet cfg) (computeDom computePdom : Bool) (map : DomMap) : Prop :=
  ∃ result, Settles (cfg.setCalculateDominators bbset.members computeDom computePdom map)
      result ∧
    (computeDom = true → ∀ bb ∈ bbset.members, bbset.ExactDom result bb) ∧
    (computePdom = true → ∀ bb ∈ bbset.members, bbset.ExactPdom result bb)

theorem Cfg.ExactDom.eq_iff {full result : DomMap} (exact : cfg.ExactDom full bb) :
    result.domSet bb = full.domSet bb ↔ cfg.ExactDom result bb := by
  constructor
  · intro same through
    rw [same]
    exact exact through
  · intro exact'
    ext through
    rw [exact through, exact' through]

theorem Cfg.ExactPdom.eq_iff {full result : DomMap} (exact : cfg.ExactPdom full bb) :
    result.pdomSet bb = full.pdomSet bb ↔ cfg.ExactPdom result bb := by
  constructor
  · intro same through
    rw [same]
    exact exact through
  · intro exact'
    ext through
    rw [exact through, exact' through]

theorem BBRegion.agrees_iff (region : BBRegion cfg) (map : BorderedMap region) (fresh : DomMap) :
    region.Agrees map.toDomMap fresh ↔ region.Entered ∧ region.FirstVisited := by
  obtain ⟨full, fullSettles, exact⟩ := cfg.calculateDominators_settles fresh
  obtain ⟨result, settles, entered, firstVisited⟩ := region.calculateDominators_settles map
  rw [← entered, ← firstVisited]
  constructor
  · rintro ⟨result', full', settles', fullSettles', agrees⟩
    rw [← settles.unique settles', ← fullSettles.unique fullSettles'] at agrees
    constructor
    · intro bb contains
      exact (exact bb contains.inside).1.eq_iff.1 (agrees bb contains).1
    · intro bb contains
      exact (exact bb contains.inside).2.eq_iff.1 (agrees bb contains).2
  · rintro ⟨exactDom, exactPdom⟩
    refine ⟨result, full, settles, fullSettles, fun bb contains => ⟨?_, ?_⟩⟩
    · exact (exact bb contains.inside).1.eq_iff.2 (exactDom bb contains)
    · exact (exact bb contains.inside).2.eq_iff.2 (exactPdom bb contains)

theorem BBSet.exact_iff (bbset : BBSet cfg) (computeDom computePdom : Bool) (map : DomMap) :
    bbset.Exact computeDom computePdom map ↔
      (computeDom = true → bbset.UndominatedCycles) ∧
        (computePdom = true → bbset.UnpostdominatedCycles) := by
  obtain ⟨result, settles, dom, pdom⟩ :=
    bbset.setCalculateDominators_settles computeDom computePdom map
  rw [← dom, ← pdom]
  constructor
  · rintro ⟨result', settles', exact⟩
    rwa [settles.unique settles']
  · exact fun exact => ⟨result, settles, exact⟩

/-! ## Partial recomputations -/

/-- For every control-flow graph, the recomputation for a region with correct sets around it
agrees with the full one exactly if every entry of the program unit in the region is entered
from outside and the first block of the vector is visited; the recomputation for a set of
blocks is exact exactly if no cycle of members has a member outside of it on every path. -/
theorem partialDominators_exact (cfg : Cfg) :
    (∀ (region : BBRegion cfg) (map : BorderedMap region) (fresh : DomMap),
      region.Agrees map.toDomMap fresh ↔ region.Entered ∧ region.FirstVisited) ∧
    (∀ (bbset : BBSet cfg) (computeDom computePdom : Bool) (map : DomMap),
      bbset.Exact computeDom computePdom map ↔
        (computeDom = true → bbset.UndominatedCycles) ∧
          (computePdom = true → bbset.UnpostdominatedCycles)) :=
  ⟨BBRegion.agrees_iff, BBSet.exact_iff⟩

/-! ## Two blocks in sequence -/

/-- An entry and the exit after it. -/
def twoBlocks : Cfg where
  blocks := [1, 2]
  count := 2
  preds bb := if bb = 2 then [1] else []
  succs bb := if bb = 1 then [2] else []
  entry bb := bb == 1
  exit bb := bb == 2
  nonempty := List.cons_ne_nil _ _
  numbered := by decide
  consistent := by decide
  predsInside := by decide
  succsInside := by decide
  exitSuccs := by decide
  reachable := by
    intro bb inside
    rcases List.mem_pair.1 inside with rfl | rfl
    · exact ⟨[1], List.isChain_singleton _, ⟨1, rfl, by decide⟩, rfl⟩
    · exact ⟨[1, 2], List.isChain_pair.2 (by decide), ⟨1, rfl, by decide⟩, rfl⟩
  reachesExit := by
    intro bb inside
    rcases List.mem_pair.1 inside with rfl | rfl
    · exact ⟨[1, 2], List.isChain_pair.2 (by decide), rfl, 2, rfl, by decide⟩
    · exact ⟨[2], List.isChain_singleton _, rfl, 2, rfl, by decide⟩

/-- The region of both blocks. -/
def bothBlocks : BBRegion twoBlocks where
  entries := [1]
  exits := []
  nonempty := List.cons_ne_nil _ _
  entriesInside := by decide
  disjoint := by decide

theorem bothBlocks_contains (inside : bb ∈ twoBlocks.blocks) : bothBlocks.Contains bb := by
  have first : bothBlocks.Contains 1 := .entry (List.mem_singleton_self 1)
  rcases List.mem_pair.1 inside with rfl | rfl
  · exact first
  · exact .step first (List.mem_singleton_self 2) List.not_mem_nil

/-- A map for the region of both blocks, which has nothing outside. -/
def bothBlocksMap : BorderedMap bothBlocks where
  domSet _ := ∅
  pdomSet _ := ∅
  predsExact _ isMember other isPred outside :=
    absurd (bothBlocks_contains (twoBlocks.predsInside _ isMember.inside other isPred)) outside
  succsExact _ isMember other isSucc outside :=
    absurd (bothBlocks_contains (twoBlocks.succsInside _ isMember.inside other isSucc)) outside

/-- The first of two blocks keeps all numbers as its post-dominators. -/
theorem bothBlocks_disagree : ¬ bothBlocks.Agrees bothBlocksMap.toDomMap
    { domSet := fun _ => ∅, pdomSet := fun _ => ∅ } := by
  rw [BBRegion.agrees_iff]
  rintro ⟨-, nothing | twice | alone⟩
  · exact absurd nothing (List.cons_ne_nil _ _)
  · exact absurd twice (by decide)
  · exact absurd (alone 2 (bothBlocks_contains (by decide))) (by decide)

end OpenUH.Cg.Dominators
