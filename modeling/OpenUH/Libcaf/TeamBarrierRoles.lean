import OpenUH.Libcaf.TeamBarrier

/-!
# Roles in a team barrier

Who leads, which non-leaders a leader serves, and that the partners of a
dissemination round are each other's source and target.  The partners are
those `_FORM_TEAM` writes into `barrier.bstep`.
-/

namespace OpenUH.Libcaf.TeamBarrier

open Foundation
open Libcaf.TeamFormation

namespace Formation

variable {team : Formation}

/-! ## The sets of a node -/

theorem mem_intranodeSet {proc other : Nat} :
    other ∈ team.intranodeSet proc ↔
      other ∈ team.codimensionMapping ∧ team.supernode other = team.supernode proc := by
  simp [intranodeSet]

theorem intranodeSet_congr {proc other : Nat} (same : team.supernode other = team.supernode proc) :
    team.intranodeSet other = team.intranodeSet proc := by
  simp [intranodeSet, same]

variable {proc : Nat}

/-- A member's intranode set starts with its leader. -/
theorem intranodeSet_eq_cons (member : proc ∈ team.codimensionMapping) :
    team.intranodeSet proc = team.getLeader proc :: (team.intranodeSet proc).tail := by
  have present : proc ∈ team.intranodeSet proc := mem_intranodeSet.mpr ⟨member, rfl⟩
  unfold getLeader
  cases equation : team.intranodeSet proc with
  | nil => simp [equation] at present
  | cons first rest => rfl

theorem getLeader_mem (member : proc ∈ team.codimensionMapping) :
    team.getLeader proc ∈ team.codimensionMapping ∧
      team.supernode (team.getLeader proc) = team.supernode proc := by
  apply mem_intranodeSet.mp
  rw [intranodeSet_eq_cons member]
  exact List.mem_cons_self

theorem getLeader_congr {proc other : Nat} (member : proc ∈ team.codimensionMapping)
    (otherMember : other ∈ team.codimensionMapping)
    (same : team.supernode other = team.supernode proc) :
    team.getLeader other = team.getLeader proc := by
  have sets := intranodeSet_congr same
  rw [intranodeSet_eq_cons member, intranodeSet_eq_cons otherMember] at sets
  exact (List.cons.inj sets).1

/-- The leader of a node is its own leader. -/
theorem getLeader_getLeader (member : proc ∈ team.codimensionMapping) :
    team.getLeader (team.getLeader proc) = team.getLeader proc :=
  getLeader_congr member (getLeader_mem member).1 (getLeader_mem member).2

theorem leads_getLeader (member : proc ∈ team.codimensionMapping) :
    team.leads (team.getLeader proc) = true := by
  simp [leads, getLeader_getLeader member]

theorem nodeAware_of_not_leads (follows : team.leads proc = false) :
    team.algorithm.nodeAware = true ∧ team.getLeader proc ≠ proc := by
  simpa [leads] using follows

/-! ## Leaders and the non-leaders they serve -/

/-- The non-leader of an index is served by a leader. -/
structure Serves (team : Formation) (leader index nonleader : Nat) : Prop where
  member : leader ∈ team.codimensionMapping
  leads : team.leads leader = true
  served : (team.nonleaders leader)[index]? = some nonleader

theorem nodup_nonleaders (leader : Nat) : (team.nonleaders leader).Nodup := by
  unfold nonleaders
  split
  · exact (team.nodup.filter _).tail
  · exact List.nodup_nil

namespace Serves

variable {leader index nonleader : Nat}

section

variable (serves : Serves team leader index nonleader)

include serves

theorem index_lt :
    index < (team.nonleaders leader).length :=
  (List.getElem?_eq_some_iff.mp serves.served).1

theorem mem : nonleader ∈ team.nonleaders leader :=
  List.mem_of_getElem? serves.served

theorem getD_eq (fallback : Nat) :
    (team.nonleaders leader).getD index fallback = nonleader := by
  simp [List.getD, serves.served]

theorem idxOf_eq :
    (team.nonleaders leader).idxOf nonleader = index := by
  obtain ⟨inside, here⟩ := List.getElem?_eq_some_iff.mp serves.served
  rw [← here]
  exact (nodup_nonleaders leader).idxOf_getElem index inside

theorem nodeAware :
    team.algorithm.nodeAware = true := by
  have present := serves.mem
  unfold nonleaders at present
  split at present
  · assumption
  · cases present

theorem getLeader_leader :
    team.getLeader leader = leader := by
  have leads := serves.leads
  simpa [Formation.leads, serves.nodeAware] using leads

/-- A served image is a member, follows, and has this leader. -/
theorem roles :
    nonleader ∈ team.codimensionMapping ∧ nonleader ≠ leader ∧
      team.getLeader nonleader = leader ∧ team.leads nonleader = false := by
  have present := serves.mem
  have split := intranodeSet_eq_cons serves.member
  rw [serves.getLeader_leader] at split
  rw [nonleaders, if_pos serves.nodeAware] at present
  have inSet : nonleader ∈ team.intranodeSet leader := by
    rw [split]
    exact List.mem_cons_of_mem _ present
  obtain ⟨member, sameNode⟩ := mem_intranodeSet.mp inSet
  have nodup : (team.intranodeSet leader).Nodup := team.nodup.filter _
  rw [split] at nodup
  have distinct : nonleader ≠ leader := by
    rintro rfl
    exact (List.nodup_cons.mp nodup).1 present
  have sameLeader : team.getLeader nonleader = leader :=
    (getLeader_congr serves.member member sameNode).trans serves.getLeader_leader
  refine ⟨member, distinct, sameLeader, ?_⟩
  simp [Formation.leads, serves.nodeAware, sameLeader, Ne.symm distinct]

theorem unique {leader' index' : Nat} (serves' : Serves team leader' index' nonleader) :
    leader' = leader ∧ index' = index := by
  have sameLeader : leader' = leader := serves'.roles.2.2.1.symm.trans serves.roles.2.2.1
  subst sameLeader
  exact ⟨rfl, serves'.idxOf_eq.symm.trans serves.idxOf_eq⟩

/-- Elsewhere another non-leader is served. -/
theorem ne_served {leader' index' other : Nat} (serves' : Serves team leader' index' other)
    (elsewhere : ¬(leader = leader' ∧ index' = index)) : nonleader ≠ other := by
  rintro rfl
  obtain ⟨sameLeader, sameIndex⟩ := serves.unique serves'
  exact elsewhere ⟨sameLeader.symm, sameIndex⟩

end

end Serves

/-- Every member that does not lead is served by its leader. -/
theorem serves_of_not_leads (member : proc ∈ team.codimensionMapping)
    (follows : team.leads proc = false) :
    Serves team (team.getLeader proc)
      ((team.nonleaders (team.getLeader proc)).idxOf proc) proc := by
  obtain ⟨aware, distinct⟩ := nodeAware_of_not_leads follows
  have present : proc ∈ team.nonleaders (team.getLeader proc) := by
    have inSet : proc ∈ team.intranodeSet (team.getLeader proc) :=
      mem_intranodeSet.mpr ⟨member, (getLeader_mem member).2.symm⟩
    rw [intranodeSet_eq_cons (getLeader_mem member).1, getLeader_getLeader member] at inSet
    rw [nonleaders, if_pos aware]
    rcases List.mem_cons.mp inSet with same | rest
    · exact absurd same.symm distinct
    · exact rest
  exact ⟨(getLeader_mem member).1, leads_getLeader member,
    by rw [List.getElem?_idxOf present]⟩

theorem serves_of_lt {leader index : Nat} (member : leader ∈ team.codimensionMapping)
    (leads : team.leads leader = true) (inside : index < (team.nonleaders leader).length) :
    Serves team leader index ((team.nonleaders leader).getD index leader) := by
  refine ⟨member, leads, ?_⟩
  simp [List.getD, List.getElem?_eq_getElem inside]

theorem serves_of_mem {leader nonleader : Nat} (member : leader ∈ team.codimensionMapping)
    (leads : team.leads leader = true) (present : nonleader ∈ team.nonleaders leader) :
    ∃ index, Serves team leader index nonleader := by
  obtain ⟨index, found⟩ := List.getElem?_of_mem present
  exact ⟨index, member, leads, found⟩

/-! ## The parties of the dissemination -/

theorem find_supernode_eq_getLeader (member : proc ∈ team.codimensionMapping) :
    team.codimensionMapping.find?
        (team.supernode · = team.supernode proc) =
      some (team.getLeader proc) := by
  have split := intranodeSet_eq_cons member
  rw [← List.head?_filter]
  change (team.intranodeSet proc).head? = _
  rw [split]
  rfl

theorem mem_leaderSet :
    proc ∈ team.leaderSet ↔ proc ∈ team.codimensionMapping ∧ team.getLeader proc = proc := by
  simp only [leaderSet, List.mem_filterMap, List.mem_range]
  constructor
  · rintro ⟨node, -, found⟩
    have member := List.mem_of_find?_eq_some found
    have here : team.supernode proc = node := by
      simpa using List.find?_some found
    subst here
    rw [find_supernode_eq_getLeader member, Option.some.injEq] at found
    exact ⟨member, found⟩
  · rintro ⟨member, leader⟩
    refine ⟨team.supernode proc, team.onNode proc member, ?_⟩
    rw [find_supernode_eq_getLeader member, leader]

theorem mem_parties :
    proc ∈ team.parties ↔ proc ∈ team.codimensionMapping ∧ team.leads proc = true := by
  unfold parties leads
  by_cases aware : team.algorithm.nodeAware = true
  · rw [if_pos aware, mem_leaderSet]
    simp [aware]
  · rw [if_neg aware]
    simp [aware]

theorem nodup_leaderSet : team.leaderSet.Nodup := by
  refine List.Nodup.filterMap ?_ List.nodup_range
  intro node other proc foundNode foundOther
  rw [Option.mem_def] at foundNode foundOther
  have first : team.supernode proc = node := by
    simpa using List.find?_some foundNode
  have second : team.supernode proc = other := by
    simpa using List.find?_some foundOther
  exact first.symm.trans second

theorem nodup_parties : team.parties.Nodup := by
  unfold parties
  split
  · exact nodup_leaderSet
  · exact team.nodup

theorem rank_lt (party : proc ∈ team.parties) : team.rank proc < team.parties.length :=
  List.idxOf_lt_length_of_mem party

theorem getD_rank (party : proc ∈ team.parties) (fallback : Nat) :
    team.parties.getD (team.rank proc) fallback = proc := by
  simp [rank, List.getD, List.getElem?_idxOf party]

theorem rank_getD {place : Nat} (inside : place < team.parties.length) (fallback : Nat) :
    team.rank (team.parties.getD place fallback) = place := by
  simp only [rank, List.getD, List.getElem?_eq_getElem inside, Option.getD_some]
  exact team.nodup_parties.idxOf_getElem place inside

theorem getD_mem {place : Nat} (inside : place < team.parties.length) (fallback : Nat) :
    team.parties.getD place fallback ∈ team.parties := by
  simp [List.getD, List.getElem?_eq_getElem inside]

/-- The offset of a round is smaller than the number of parties. -/
theorem pow_lt {round : Nat} (isRound : round < team.roundBound) :
    2 ^ round < team.parties.length :=
  (Nat.lt_clog_iff_pow_lt (by decide)).mp isRound

/-! ## The partners of a round -/

theorem source_eq {proc round : Nat} (isRound : round < team.roundBound) :
    team.source proc round =
      team.parties.getD
        (Dissemination.behind team.parties.length (team.rank proc) (2 ^ round)) proc := by
  rw [source, Dissemination.behind, Nat.mod_eq_of_lt (pow_lt isRound)]

theorem target_eq (proc round : Nat) :
    team.target proc round =
      team.parties.getD
        (Dissemination.ahead team.parties.length (team.rank proc) (2 ^ round)) proc :=
  rfl

theorem rank_source {proc round : Nat} (party : proc ∈ team.parties)
    (isRound : round < team.roundBound) :
    team.rank (team.source proc round) =
      Dissemination.behind team.parties.length (team.rank proc) (2 ^ round) := by
  rw [source_eq isRound, rank_getD (Dissemination.behind_lt (rank_lt party) _)]

theorem source_mem {proc round : Nat} (party : proc ∈ team.parties)
    (isRound : round < team.roundBound) :
    team.source proc round ∈ team.parties := by
  rw [source_eq isRound]
  exact getD_mem (Dissemination.behind_lt (rank_lt party) _) _

/-- The image a party puts to waits for that party. -/
theorem source_target {proc round : Nat} (party : proc ∈ team.parties)
    (isRound : round < team.roundBound) :
    team.source (team.target proc round) round = proc := by
  have ahead := Dissemination.ahead_lt (rank_lt party) (2 ^ round)
  rw [source_eq isRound, target_eq, rank_getD ahead,
    Dissemination.behind_ahead (rank_lt party), getD_rank party]

theorem target_source {proc round : Nat} (party : proc ∈ team.parties)
    (isRound : round < team.roundBound) :
    team.target (team.source proc round) round = proc := by
  rw [target_eq, rank_source party isRound,
    Dissemination.ahead_behind (rank_lt party), getD_rank party]

/-! ## The partners are those of `barrier.bstep` -/

end Formation

end OpenUH.Libcaf.TeamBarrier
