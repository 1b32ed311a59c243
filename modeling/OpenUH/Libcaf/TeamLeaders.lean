import OpenUH.Libcaf.TeamAgreement

/-!
# Leaders of nested teams

The nodes of a team as FORM TEAM finds them by two scans: `intranode_set`
filters the set of the current team, and `leader_set` takes the first member of
each node by the ids that the communication layer gives to nodes.  The first
set of all, and the ids, come from the layer the runtime is built on.
-/

namespace OpenUH.Libcaf.TeamFormation

/-! ## The communication layers -/

/-- The layers of the runtime; GASNet may be built without shared memory
between processes. -/
inductive CommLayer where
  | gasnet (pshm : Bool)
  | shmem
  | armci

/-- The processes of a run.  `supernode` is `nodeinfo_table[proc].supernode`
under GASNet, and `armci_domain_id(ARMCI_DOMAIN_SMP, proc)` under ARMCI. -/
structure Job where
  layer : CommLayer
  numProcs : Nat
  supernode : Nat → Nat
  positive : 0 < numProcs

namespace Job

/-- `comm_get_node_id`. -/
def getNodeId (job : Job) (proc : Int) : Nat :=
  match job.layer with
  | .gasnet true => job.supernode proc.toNat
  | .gasnet false => 0
  | .shmem => proc.toNat
  | .armci => job.supernode proc.toNat

/-- `total_num_supernodes`, which ARMCI declares only. -/
def totalNumSupernodes (job : Job) : Nat :=
  match job.layer with
  | .gasnet _ =>
      (List.range job.numProcs).foldl
        (fun spnode_id i =>
          if job.supernode i > spnode_id then job.supernode i else spnode_id)
        0 + 1
  | .shmem => job.numProcs
  | .armci => 0

/-- The first `intranode_set` of a process. -/
def initialIntranodeSet (job : Job) (my_proc : Nat) : List Int :=
  match job.layer with
  | .gasnet _ =>
      ((List.range job.numProcs).filter fun i =>
        job.supernode i = job.supernode my_proc).map Int.ofNat
  | .shmem => [(my_proc : Int)]
  | .armci => [(my_proc : Int)]

/-- `LONG_MAX`. -/
def longMax : Int := 2 ^ 63 - 1

/-- The first `leader_set`; a node without a process keeps `LONG_MAX`. -/
def initialLeaderSet (job : Job) : List Int :=
  match job.layer with
  | .gasnet _ =>
      (List.range job.totalNumSupernodes).map fun spnode_id =>
        (List.range job.numProcs).foldl
          (fun leader i =>
            if job.supernode i = spnode_id ∧ leader > (i : Int) + 1 then i
            else leader)
          longMax
  | .shmem => (List.range job.numProcs).map Int.ofNat
  | .armci => (List.range job.numProcs).map Int.ofNat

end Job

/-! ## Chains of teams -/

/-- The team that a number of images are in, with the record of each rank. -/
structure CurrentTeam where
  numImages : Nat
  record : Nat → Team

/-- The team the runtime starts in. -/
def Job.initialTeam (job : Job) : CurrentTeam where
  numImages := job.numProcs
  record my_proc :=
    { teamId := -1
      currentThisImage := my_proc + 1
      currentNumImages := job.numProcs
      codimensionMapping := (List.range job.numProcs).map Int.ofNat
      intranodeSet := job.initialIntranodeSet my_proc
      leaderSet := job.initialLeaderSet
      leadersCount := job.initialLeaderSet.length }

/-- FORM TEAM on the image of a rank, after the exchange. -/
def CurrentTeam.form (job : Job) (team : CurrentTeam) (infoList : List TeamInfo)
    (rank : Nat) : Except Fault Team :=
  placeCodimensionMapping job.getNodeId job.totalNumSupernodes (team.record rank)
    infoList (setupSubteams infoList (myTeamId infoList rank))

/-- The teams that chains of FORM TEAM and CHANGE TEAM reach. -/
inductive Job.Nested (job : Job) : CurrentTeam → Prop
  | initial : job.Nested job.initialTeam
  | change {team next : CurrentTeam} {infoList : List TeamInfo}
      {newTeam : Nat → Team} {teamId : Int} (nested : job.Nested team)
      (exchanged : infoList.length = team.numImages)
      (formed : ∀ rank < team.numImages,
        team.form job infoList rank = .ok (newTeam rank))
      (inhabited : ∃ info ∈ infoList, info.teamId = teamId)
      (changed : ∀ rank info, infoList[rank]? = some info → info.teamId = teamId →
        next.numImages = (newTeam rank).currentNumImages ∧
          next.record ((newTeam rank).currentThisImage - 1) = newTeam rank) :
      job.Nested next

/-! ## The leader loop -/

section Leaders

variable {nodeId : Int → Nat} {total : Nat} {mapping : List Int}

/-- `tmp_leader_set` after the loop: the first position of each node. -/
def firstPositions (nodeId : Int → Nat) (total : Nat) (mapping : List Int) : List (Option Nat) :=
  (List.range total).map fun node => mapping.findIdx? (nodeId · = node)

theorem getElem?_firstPositions {node : Nat} (inside : node < total) :
    (firstPositions nodeId total mapping)[node]? = some (mapping.findIdx? (nodeId · = node)) := by
  unfold firstPositions
  rw [List.getElem?_map, List.getElem?_range inside]
  rfl

theorem findIdx?_concat (mapping : List Int) (proc : Int) (node : Nat) :
    (mapping ++ [proc]).findIdx? (nodeId · = node) =
      (mapping.findIdx? (nodeId · = node)).or
        (if nodeId proc = node then some mapping.length else none) := by
  rw [List.findIdx?_append, List.findIdx?_singleton]
  by_cases same : nodeId proc = node
  · simp [same]
  · simp [same]

theorem firstPositions_length : (firstPositions nodeId total mapping).length = total := by
  unfold firstPositions
  rw [List.length_map, List.length_range]

/-- A member of a node that had none is its first. -/
theorem firstPositions_concat_new {proc : Int} (inside : nodeId proc < total)
    (absent : mapping.findIdx? (nodeId · = nodeId proc) = none) :
    firstPositions nodeId total (mapping ++ [proc]) =
      (firstPositions nodeId total mapping).set (nodeId proc) (some mapping.length) := by
  refine List.ext_getElem? fun node => ?_
  by_cases below : node < total
  · rw [getElem?_firstPositions below, findIdx?_concat]
    by_cases same : nodeId proc = node
    · rw [← same, absent, if_pos rfl, Option.none_or,
        List.getElem?_set_self (by rw [firstPositions_length]; exact inside)]
    · rw [if_neg same, Option.or_none, List.getElem?_set_ne same, getElem?_firstPositions below]
  · rw [List.getElem?_eq_none (by rw [firstPositions_length]; omega), List.getElem?_eq_none (by
        rw [List.length_set, firstPositions_length]
        omega)]

/-- A later member of a node changes nothing. -/
theorem firstPositions_concat_old {proc : Int} {position : Nat}
    (present : mapping.findIdx? (nodeId · = nodeId proc) = some position) :
    firstPositions nodeId total (mapping ++ [proc]) = firstPositions nodeId total mapping := by
  refine List.map_congr_left fun node _ => ?_
  rw [findIdx?_concat]
  by_cases same : nodeId proc = node
  · rw [← same, present, Option.some_or]
  · rw [if_neg same, Option.or_none]

/-- The loop notes the first position of each node, and counts the nodes. -/
theorem tmpLeaderSet_eq (onNode : ∀ proc ∈ mapping, nodeId proc < total) :
    tmpLeaderSet nodeId total mapping =
      .ok (firstPositions nodeId total mapping,
        (firstPositions nodeId total mapping).countP Option.isSome) := by
  induction mapping using List.reverseRecOn with
  | nil =>
      have empty : firstPositions nodeId total [] = List.replicate total none := by
        unfold firstPositions
        simp
      have zero : (List.replicate total (none : Option Nat)).countP Option.isSome = 0 := by
        simp
      rw [empty, zero]
      rfl
  | append_singleton mapping proc ih =>
      have before := ih fun other member =>
        onNode other (List.mem_append_left _ member)
      have inside := onNode proc (by simp)
      have cell := @getElem?_firstPositions nodeId total mapping _ inside
      have bounds : nodeId proc < (firstPositions nodeId total mapping).length := by
        rw [firstPositions_length]
        exact inside
      unfold tmpLeaderSet at before ⊢
      rw [List.zipIdx_append, List.foldlM_append, before]
      change (List.zipIdx [proc] (0 + mapping.length)).foldlM (noteLeader nodeId) _ = _
      rw [List.zipIdx_singleton, List.foldlM_cons, Nat.zero_add]
      unfold noteLeader
      dsimp only
      rw [cell]
      cases first : mapping.findIdx? (nodeId · = nodeId proc) with
      | none =>
          have notYet : (firstPositions nodeId total mapping)[nodeId proc] = none := by
            rw [List.getElem?_eq_getElem bounds, first] at cell
            exact Option.some.inj cell
          rw [firstPositions_concat_new inside first, List.countP_set bounds, notYet]
          rfl
      | some position =>
          obtain ⟨below, -, -⟩ := List.findIdx?_eq_some_iff_getElem.mp first
          dsimp only
          rw [firstPositions_concat_old first, if_neg (by omega)]
          rfl

/-- Without nodes the loop leaves the array at the first member. -/
theorem tmpLeaderSet_noNodes (member : mapping ≠ []) :
    tmpLeaderSet nodeId 0 mapping = .error .outOfBounds := by
  cases mapping with
  | nil => exact absurd rfl member
  | cons proc mapping => rfl

/-- The leaders are the first members of the nodes, in the order of the nodes. -/
theorem collectLeaders_firstPositions :
    collectLeaders mapping (firstPositions nodeId total mapping) =
      (List.range total).filterMap fun node =>
        mapping.find? (nodeId · = node) := by
  unfold collectLeaders firstPositions
  rw [List.filterMap_map]
  refine List.filterMap_congr fun node _ => ?_
  exact List.find?_eq_bind_findIdx?_getElem?.symm

theorem length_collectLeaders :
    (collectLeaders mapping (firstPositions nodeId total mapping)).length =
      (firstPositions nodeId total mapping).countP Option.isSome := by
  rw [collectLeaders_firstPositions, List.length_filterMap_eq_countP]
  unfold firstPositions
  rw [List.countP_map]
  refine List.countP_congr fun node _ => ?_
  change (mapping.find? (nodeId · = node)).isSome ↔ (mapping.findIdx? (nodeId · = node)).isSome
  rw [List.find?_isSome, List.findIdx?_isSome, List.any_eq_true]

end Leaders

/-! ## What the leaders of a team should be -/

/-- The sets of an image whose process is `me`. -/
structure LeaderStructure (nodeId : Int → Nat) (me : Int) (team : Team) :
    Prop where
  own : team.codimensionMapping[team.currentThisImage - 1]? = some me
  intranode : team.intranodeSet = team.codimensionMapping.filter (nodeId · = nodeId me)
  leaders : ∀ proc, proc ∈ team.leaderSet ↔
    team.codimensionMapping.find? (nodeId · = nodeId proc) = some proc
  single : (team.leaderSet.map nodeId).Nodup
  count : team.leadersCount = team.leaderSet.length
  entry : ∃ leader, team.intranodeSet[0]? = some leader ∧
    leader ∈ team.leaderSet ∧ nodeId leader = nodeId me

section Structure

variable {nodeId : Int → Nat} {total : Nat} {me : Int} {team : Team}

theorem node_of_find? {mapping : List Int} {node : Nat} {proc : Int}
    (found : mapping.find? (nodeId · = node) = some proc) :
    nodeId proc = node := by
  simpa using List.find?_some found

/-- The two scans agree where the first finds the members of the node. -/
theorem leaderStructure_of_scans (onNode : ∀ proc ∈ team.codimensionMapping, nodeId proc < total)
    (own : team.codimensionMapping[team.currentThisImage - 1]? = some me)
    (intranode : team.intranodeSet = team.codimensionMapping.filter (nodeId · = nodeId me))
    (leaders : team.leaderSet = collectLeaders team.codimensionMapping
      (firstPositions nodeId total team.codimensionMapping))
    (count : team.leadersCount =
      (firstPositions nodeId total team.codimensionMapping).countP Option.isSome) :
    LeaderStructure nodeId me team := by
  rw [collectLeaders_firstPositions] at leaders
  have mem : ∀ proc, proc ∈ team.leaderSet ↔
      team.codimensionMapping.find? (nodeId · = nodeId proc) = some proc := by
    intro proc
    rw [leaders, List.mem_filterMap]
    constructor
    · rintro ⟨node, -, found⟩
      have same := node_of_find? found
      rw [same]
      exact found
    · intro found
      exact ⟨nodeId proc, List.mem_range.mpr (onNode proc (List.mem_of_find?_eq_some found)), found⟩
  refine ⟨own, intranode, mem, ?_, ?_, ?_⟩
  · rw [leaders, List.map_filterMap]
    refine List.nodup_range.filterMap fun node other value first second => ?_
    obtain ⟨proc, found, rfl⟩ := Option.map_eq_some_iff.mp first
    obtain ⟨otherProc, otherFound, same⟩ := Option.map_eq_some_iff.mp second
    have isNode := node_of_find? found
    have isOther := node_of_find? otherFound
    rw [← isNode, ← isOther, same]
  · rw [count, leaders, ← collectLeaders_firstPositions, length_collectLeaders]
  · have present : (team.codimensionMapping.find? (nodeId · = nodeId me)).isSome := by
      rw [List.find?_isSome]
      exact ⟨me, List.mem_of_getElem? own, decide_eq_true rfl⟩
    obtain ⟨leader, found⟩ := Option.isSome_iff_exists.mp present
    have same := node_of_find? found
    refine ⟨leader, ?_, (mem leader).mpr (same ▸ found), same⟩
    rw [intranode, ← List.head?_eq_getElem?, List.head?_filter]
    exact found

end Structure

/-! ## The teams of a chain -/

/-- The processes that the first `intranode_set` of a process lists. -/
def Job.Shares (job : Job) (me proc : Int) : Prop :=
  match job.layer with
  | .gasnet _ => job.supernode proc.toNat = job.supernode me.toNat
  | .shmem => proc = me
  | .armci => proc = me

/-- A team whose images know one mapping of distinct processes, their rank, and
of the members those that share their first set. -/
structure CurrentTeam.Placed (job : Job) (team : CurrentTeam) (procs : List Int) :
    Prop where
  length : procs.length = team.numImages
  nodup : procs.Nodup
  inside : ∀ proc ∈ procs, 0 ≤ proc ∧ proc < job.numProcs
  mapping : ∀ rank < team.numImages,
    (team.record rank).codimensionMapping = procs
  thisImage : ∀ rank < team.numImages,
    (team.record rank).currentThisImage = rank + 1
  intranode : ∀ (rank : Nat) (me : Int), procs[rank]? = some me →
    ∀ proc ∈ procs,
      (proc ∈ (team.record rank).intranodeSet ↔ job.Shares me proc)

theorem Job.initialTeam_placed (job : Job) :
    job.initialTeam.Placed job ((List.range job.numProcs).map Int.ofNat) where
  length := by
    rw [List.length_map, List.length_range]
    rfl
  nodup := List.nodup_range.map fun first second same => Int.ofNat.inj same
  inside := by
    intro proc member
    obtain ⟨i, inRange, rfl⟩ := List.mem_map.mp member
    have below := List.mem_range.mp inRange
    change 0 ≤ (i : Int) ∧ (i : Int) < job.numProcs
    omega
  mapping _ _ := rfl
  thisImage _ _ := rfl
  intranode := by
    intro rank me isMe proc member
    obtain ⟨i, inRange, rfl⟩ := List.mem_map.mp member
    obtain ⟨rankIn, cell⟩ := List.getElem?_eq_some_iff.mp isMe
    have isRank : me = (rank : Int) := by
      rw [← cell, List.getElem_map, List.getElem_range]
      rfl
    subst isRank
    change (i : Int) ∈ job.initialIntranodeSet rank ↔ job.Shares rank i
    unfold Job.initialIntranodeSet Job.Shares
    split
    · rw [List.mem_map]
      constructor
      · rintro ⟨other, isOther, same⟩
        have shared := of_decide_eq_true (List.mem_filter.mp isOther).2
        rw [Int.ofNat.inj same] at shared
        exact shared
      · intro shared
        exact ⟨i, List.mem_filter.mpr ⟨inRange, decide_eq_true shared⟩, rfl⟩
    · exact List.mem_singleton
    · exact List.mem_singleton

theorem myTeamId_eq {infoList : List TeamInfo} {rank : Nat} {info : TeamInfo}
    (isInfo : infoList[rank]? = some info) :
    myTeamId infoList rank = info.teamId := by
  obtain ⟨inBounds, cell⟩ := List.getElem?_eq_some_iff.mp isInfo
  rw [myTeamId, List.getD_eq_getElem _ _ inBounds, cell]

/-- What FORM TEAM leaves on an image whose passes represent the mappings. -/
structure FormedBy (job : Job) (before : Team) (infoList : List TeamInfo)
    (teamId me : Int) (wanted : List Int) (after : Team) : Prop where
  mapping : after.codimensionMapping = wanted
  count : after.currentNumImages = teamCount infoList teamId
  member : me ∈ wanted
  thisImage : after.currentThisImage = findThisImage wanted me
  intranode : after.intranodeSet = wanted.filter (· ∈ before.intranodeSet)
  leaders : ∃ leaders,
    tmpLeaderSet job.getNodeId job.totalNumSupernodes wanted = .ok leaders ∧
      after.leaderSet = collectLeaders wanted leaders.1 ∧
      after.leadersCount = leaders.2

/-- The passes of all images represent one mapping per team id. -/
structure Agreed (infoList : List TeamInfo) (procs : List Int)
    (maps : Int → List Int) : Prop where
  isMapping : ∀ teamId, IsTeamMapping infoList procs teamId (maps teamId)
  passes : ∀ myTeamId, 0 < teamCount infoList myTeamId →
    ∃ asserted own,
      (infoList.zip procs).foldlM placeAsserted
        (setupSubteams infoList myTeamId) = .ok asserted ∧
      (infoList.zip procs).foldlM placeUnasserted asserted = .ok own ∧
      Represents infoList myTeamId own maps

section Step

variable {job : Job} {team : CurrentTeam} {procs : List Int}
  {infoList : List TeamInfo} {maps : Int → List Int} {rank : Nat}

section

variable (placed : team.Placed job procs) (exchanged : infoList.length = team.numImages)

include placed exchanged

/-- FORM TEAM on one image, up to the leader loop. -/
theorem CurrentTeam.Placed.form_eq (agreed : Agreed infoList procs maps)
    {info : TeamInfo} {me : Int} (isInfo : infoList[rank]? = some info)
    (isMe : procs[rank]? = some me) :
    me ∈ maps info.teamId ∧ ∃ own : Team,
      own.currentNumImages = teamCount infoList info.teamId ∧
      own.codimensionMapping = maps info.teamId ∧
      team.form job infoList rank =
        (tmpLeaderSet job.getNodeId job.totalNumSupernodes (maps info.teamId)).map fun leaders =>
          { own with
            currentThisImage := findThisImage (maps info.teamId) me
            intranodeSet := (maps info.teamId).filter (· ∈ (team.record rank).intranodeSet)
            leaderSet := collectLeaders (maps info.teamId) leaders.1
            leadersCount := leaders.2 } := by
  have rankLt : rank < team.numImages := by
    obtain ⟨inBounds, -⟩ := List.getElem?_eq_some_iff.mp isInfo
    exact exchanged ▸ inBounds
  obtain ⟨asserted, own, first, second, represents⟩ :=
    agreed.passes info.teamId (teamCount_pos_of_mem (List.mem_of_getElem? isInfo))
  have mapping := represents.own
  have procAt : (team.record rank).codimensionMapping[
      (team.record rank).currentThisImage - 1]? = some me := by
    rw [placed.mapping rank rankLt, placed.thisImage rank rankLt]
    exact isMe
  rw [← placed.mapping rank rankLt] at first second
  refine ⟨(agreed.isMapping info.teamId).mem_iff.mpr ⟨rank, info, isInfo, rfl, isMe⟩,
    own, represents.count, mapping, ?_⟩
  unfold CurrentTeam.form
  rw [myTeamId_eq isInfo, placeCodimensionMapping_of_passes first second procAt, mapping]
  unfold formIntranodeSet
  rw [mapping]

theorem CurrentTeam.Placed.formedBy (agreed : Agreed infoList procs maps)
    {info : TeamInfo} {me : Int} {after : Team}
    (isInfo : infoList[rank]? = some info) (isMe : procs[rank]? = some me)
    (ran : team.form job infoList rank = .ok after) :
    FormedBy job (team.record rank) infoList info.teamId me (maps info.teamId)
      after := by
  obtain ⟨member, own, count, mapping, equation⟩ := placed.form_eq exchanged agreed isInfo isMe
  rw [equation] at ran
  cases leaders : tmpLeaderSet job.getNodeId job.totalNumSupernodes (maps info.teamId) with
  | error fault =>
      rw [leaders] at ran
      cases ran
  | ok result =>
      rw [leaders] at ran
      cases ran
      exact ⟨mapping, count, member, rfl, rfl, result, leaders, rfl, rfl⟩

/-- Where no image raises an Error, the mappings are agreed on. -/
theorem CurrentTeam.Placed.agreed
    (noError : ∀ rank < team.numImages, ∀ text,
      team.form job infoList rank ≠ .error (.error text)) :
    ∃ maps, Agreed infoList procs maps := by
  obtain ⟨maps, isMapping, passes⟩ :=
    passes_of_noError placed.length placed.nodup
      (fun proc member => (placed.inside proc member).1) placed.mapping exchanged
      noError
  exact ⟨maps, isMapping, passes⟩

end

/-- The processes of a team mapping are distinct. -/
theorem IsTeamMapping.nodup {teamId : Int} {mapping : List Int}
    (isMapping : IsTeamMapping infoList procs teamId mapping) :
    mapping.Nodup := by
  rw [List.nodup_iff_injective_get]
  intro first second same
  have low : ∀ position : Fin mapping.length, (position : Nat) + 1 ∈
      Set.Icc 1 (teamCount infoList teamId) := by
    intro position
    rw [← isMapping.length]
    exact ⟨by omega, by omega⟩
  have read : ∀ position : Fin mapping.length,
      mapping.getD ((position : Nat) + 1 - 1) (-1) = mapping.get position := by
    intro position
    rw [Nat.add_sub_cancel, List.getD_eq_getElem _ _ position.isLt]
    rfl
  have equal := isMapping.bijective.injOn (low first) (low second) (by
    rw [read, read, same])
  exact Fin.ext (Nat.succ.inj equal)

/-- A member is found at its only position. -/
theorem findThisImage_eq {mapping : List Int} (nodup : mapping.Nodup)
    {position : Nat} {proc : Int} (isProc : mapping[position]? = some proc) :
    findThisImage mapping proc = position + 1 := by
  obtain ⟨low, -, cell⟩ := findThisImage_spec (List.mem_of_getElem? isProc)
  obtain ⟨inBounds, -⟩ := List.getElem?_eq_some_iff.mp cell
  have same := (List.getElem?_inj inBounds nodup).mp (cell.trans isProc.symm)
  omega

/-- A team that images change to knows its members as the team before did. -/
theorem CurrentTeam.Placed.change {next : CurrentTeam} {newTeam : Nat → Team}
    {teamId : Int} (placed : team.Placed job procs) (exchanged : infoList.length = team.numImages)
    (formed : ∀ rank < team.numImages, team.form job infoList rank = .ok (newTeam rank))
    (inhabited : ∃ info ∈ infoList, info.teamId = teamId)
    (changed : ∀ rank info, infoList[rank]? = some info → info.teamId = teamId →
      next.numImages = (newTeam rank).currentNumImages ∧
        next.record ((newTeam rank).currentThisImage - 1) = newTeam rank) :
    ∃ procs, next.Placed job procs := by
  obtain ⟨maps, agreed⟩ := placed.agreed exchanged fun rank below text failed => by
    rw [formed rank below] at failed
    cases failed
  have mapping := agreed.isMapping teamId
  have source : ∀ (position : Nat) (me : Int), (maps teamId)[position]? = some me →
      ∃ rank info, procs[rank]? = some me ∧ infoList[rank]? = some info ∧
        info.teamId = teamId ∧ next.record position = newTeam rank ∧
        FormedBy job (team.record rank) infoList teamId me (maps teamId) (newTeam rank) := by
    intro position me isMe
    obtain ⟨rank, info, isInfo, rfl, isProc⟩ := mapping.mem_iff.mp (List.mem_of_getElem? isMe)
    obtain ⟨inBounds, -⟩ := List.getElem?_eq_some_iff.mp isInfo
    have own := placed.formedBy exchanged agreed isInfo isProc (formed rank (exchanged ▸ inBounds))
    have record := (changed rank info isInfo rfl).2
    rw [own.thisImage, findThisImage_eq mapping.nodup isMe, Nat.add_sub_cancel] at record
    exact ⟨rank, info, isProc, isInfo, rfl, record, own⟩
  have size : next.numImages = teamCount infoList teamId := by
    obtain ⟨info, member, rfl⟩ := inhabited
    obtain ⟨rank, isInfo⟩ := List.getElem?_of_mem member
    obtain ⟨inBounds, -⟩ := List.getElem?_eq_some_iff.mp isInfo
    have procIn : rank < procs.length := by
      rw [placed.length, ← exchanged]
      exact inBounds
    have own := placed.formedBy exchanged agreed isInfo
      (List.getElem?_eq_getElem procIn) (formed rank (exchanged ▸ inBounds))
    rw [(changed rank info isInfo rfl).1, own.count]
  have length : (maps teamId).length = next.numImages := by
    rw [size, mapping.length]
  have mem : ∀ proc ∈ maps teamId, proc ∈ procs := by
    intro proc member
    obtain ⟨rank, info, -, -, isProc⟩ := mapping.mem_iff.mp member
    exact List.mem_of_getElem? isProc
  refine ⟨maps teamId, length, mapping.nodup,
    fun proc member => placed.inside proc (mem proc member), ?_, ?_, ?_⟩
  · intro rank below
    obtain ⟨old, -, -, -, -, record, own⟩ := source rank _
      (List.getElem?_eq_getElem (length ▸ below))
    rw [record, own.mapping]
  · intro rank below
    have isMe := List.getElem?_eq_getElem (l := maps teamId) (length ▸ below)
    obtain ⟨old, -, -, -, -, record, own⟩ := source rank _ isMe
    rw [record, own.thisImage, findThisImage_eq mapping.nodup isMe]
  · intro rank me isMe proc member
    obtain ⟨old, -, isProc, -, -, record, own⟩ := source rank me isMe
    rw [record, own.intranode, List.mem_filter,
      ← placed.intranode old me isProc proc (mem proc member), decide_eq_true_eq]
    exact and_iff_right member

end Step

theorem Job.Nested.placed {job : Job} {team : CurrentTeam}
    (nested : job.Nested team) : ∃ procs, team.Placed job procs := by
  induction nested with
  | initial => exact ⟨_, job.initialTeam_placed⟩
  | change _ exchanged formed inhabited changed ih =>
      obtain ⟨procs, placed⟩ := ih
      exact placed.change exchanged formed inhabited changed

/-! ## Layers whose scans agree -/

/-- The layers whose nodes are those of the first `intranode_set`. -/
def Job.Consistent (job : Job) : Prop :=
  match job.layer with
  | .gasnet true => True
  | .gasnet false =>
      ∀ proc < job.numProcs, job.supernode proc = job.supernode 0
  | .shmem => True
  | .armci => False

theorem le_foldl_larger (value : Nat → Nat) (indices : List Nat) (start : Nat) :
    start ≤ indices.foldl (fun most i =>
        if value i > most then value i else most) start ∧
      ∀ i ∈ indices, value i ≤ indices.foldl (fun most i =>
        if value i > most then value i else most) start := by
  induction indices generalizing start with
  | nil => exact ⟨le_refl _, nofun⟩
  | cons index indices ih =>
      rw [List.foldl_cons]
      obtain ⟨fromStart, fromList⟩ := ih (if value index > start then value index else start)
      have larger : start ≤ (if value index > start then value index else start) ∧
          value index ≤ (if value index > start then value index else start) := by
        split <;> omega
      refine ⟨larger.1.trans fromStart, fun i member => ?_⟩
      rcases List.mem_cons.mp member with rfl | later
      · exact larger.2.trans fromStart
      · exact fromList i later

section Consistent

variable {job : Job} {proc me : Int}

theorem Job.Consistent.onNode (consistent : job.Consistent)
    (inside : 0 ≤ proc ∧ proc < job.numProcs) :
    job.getNodeId proc < job.totalNumSupernodes := by
  have bounds := (le_foldl_larger job.supernode (List.range job.numProcs) 0).2
    proc.toNat (List.mem_range.mpr (by omega))
  unfold Job.Consistent at consistent
  unfold Job.getNodeId Job.totalNumSupernodes
  cases isLayer : job.layer with
  | gasnet pshm =>
      cases pshm with
      | false => exact Nat.succ_pos _
      | true => exact Nat.lt_succ_of_le bounds
  | shmem =>
      change proc.toNat < job.numProcs
      omega
  | armci =>
      rw [isLayer] at consistent
      exact consistent.elim

theorem Job.Consistent.shares_iff (consistent : job.Consistent)
    (inside : 0 ≤ proc ∧ proc < job.numProcs) (meInside : 0 ≤ me ∧ me < job.numProcs) :
    job.Shares me proc ↔ job.getNodeId proc = job.getNodeId me := by
  unfold Job.Consistent at consistent
  unfold Job.getNodeId Job.Shares
  cases isLayer : job.layer with
  | gasnet pshm =>
      cases pshm with
      | false =>
          rw [isLayer] at consistent
          refine iff_of_true ?_ rfl
          exact (consistent proc.toNat (by omega)).trans (consistent me.toNat (by omega)).symm
      | true => exact Iff.rfl
  | shmem =>
      change proc = me ↔ proc.toNat = me.toNat
      omega
  | armci =>
      rw [isLayer] at consistent
      exact consistent.elim

end Consistent

/-- The images of the new teams have leaders, and those of a team agree on
them. -/
structure LeadersAgree (job : Job) (infoList : List TeamInfo)
    (newTeam : Nat → Team) (me : Nat → Int) : Prop where
  sets : ∀ rank < infoList.length,
    LeaderStructure job.getNodeId (me rank) (newTeam rank)
  agree : ∀ (rank other : Nat) (info otherInfo : TeamInfo),
    infoList[rank]? = some info → infoList[other]? = some otherInfo →
    info.teamId = otherInfo.teamId →
      (newTeam rank).leaderSet = (newTeam other).leaderSet ∧
        (job.getNodeId (me rank) = job.getNodeId (me other) →
          (newTeam rank).intranodeSet[0]? = (newTeam other).intranodeSet[0]?)

/-- In whatever team a chain has led to, FORM TEAM without an Error finishes on
all images and gives the new teams their leaders. -/
def Job.FormsLeaders (job : Job) : Prop :=
  ∀ team, job.Nested team → ∀ infoList : List TeamInfo,
    infoList.length = team.numImages →
    (∀ rank < team.numImages, ∀ text,
      team.form job infoList rank ≠ .error (.error text)) →
    ∃ (newTeam : Nat → Team) (me : Nat → Int),
      (∀ rank < team.numImages,
        team.form job infoList rank = .ok (newTeam rank)) ∧
      LeadersAgree job infoList newTeam me

section Forms

variable {job : Job}

theorem Job.Consistent.formsLeaders (consistent : job.Consistent) : job.FormsLeaders := by
  intro team nested infoList exchanged noError
  obtain ⟨procs, placed⟩ := nested.placed
  obtain ⟨maps, agreed⟩ := placed.agreed exchanged noError
  have inside : ∀ teamId, ∀ proc ∈ maps teamId, proc ∈ procs ∧ 0 ≤ proc ∧ proc < job.numProcs := by
    intro teamId proc member
    obtain ⟨rank, info, -, -, isProc⟩ := (agreed.isMapping teamId).mem_iff.mp member
    have memProcs := List.mem_of_getElem? isProc
    exact ⟨memProcs, placed.inside proc memProcs⟩
  have onNode : ∀ teamId, ∀ proc ∈ maps teamId, job.getNodeId proc < job.totalNumSupernodes :=
    fun teamId proc member => consistent.onNode (inside teamId proc member).2
  have finished : ∀ rank < team.numImages, ∃ after, team.form job infoList rank = .ok after := by
    intro rank below
    have isInfo := List.getElem?_eq_getElem (l := infoList) (exchanged ▸ below)
    have isMe := List.getElem?_eq_getElem (l := procs) (placed.length ▸ below)
    obtain ⟨-, own, -, -, equation⟩ := placed.form_eq exchanged agreed isInfo isMe
    rw [equation, tmpLeaderSet_eq (onNode _)]
    exact ⟨_, rfl⟩
  choose! newTeam ran using finished
  have formed : ∀ (rank : Nat) (info : TeamInfo), infoList[rank]? = some info →
      FormedBy job (team.record rank) infoList info.teamId (procs.getD rank 0)
        (maps info.teamId) (newTeam rank) := by
    intro rank info isInfo
    obtain ⟨inBounds, -⟩ := List.getElem?_eq_some_iff.mp isInfo
    have below : rank < procs.length := by
      rw [placed.length, ← exchanged]
      exact inBounds
    rw [List.getD_eq_getElem _ _ below]
    exact placed.formedBy exchanged agreed isInfo
      (List.getElem?_eq_getElem below) (ran rank (exchanged ▸ inBounds))
  have sets : ∀ (rank : Nat) (info : TeamInfo), infoList[rank]? = some info →
      LeaderStructure job.getNodeId (procs.getD rank 0) (newTeam rank) ∧
        (newTeam rank).codimensionMapping = maps info.teamId ∧
        (newTeam rank).leaderSet = collectLeaders (maps info.teamId)
          (firstPositions job.getNodeId job.totalNumSupernodes (maps info.teamId)) := by
    intro rank info isInfo
    obtain ⟨mapping, -, member, thisImage, intranode, leaders, found, leaderSet,
      count⟩ := formed rank info isInfo
    rw [tmpLeaderSet_eq (onNode _)] at found
    cases found
    have isMe : procs[rank]? = some (procs.getD rank 0) := by
      obtain ⟨inBounds, -⟩ := List.getElem?_eq_some_iff.mp isInfo
      have below : rank < procs.length := by
        rw [placed.length, ← exchanged]
        exact inBounds
      rw [List.getD_eq_getElem _ _ below]
      exact List.getElem?_eq_getElem below
    refine ⟨leaderStructure_of_scans (mapping ▸ onNode _) ?_ ?_
      (mapping ▸ leaderSet) (mapping ▸ count), mapping, leaderSet⟩
    · rw [mapping, thisImage]
      exact (findThisImage_spec member).2.2
    · rw [mapping, intranode]
      refine List.filter_congr fun proc isMember => ?_
      obtain ⟨memProcs, bounds⟩ := inside info.teamId proc isMember
      have shares := placed.intranode rank _ isMe proc memProcs
      rw [consistent.shares_iff bounds (placed.inside _ (List.mem_of_getElem? isMe))] at shares
      exact decide_eq_decide.mpr shares
  refine ⟨newTeam, fun rank => procs.getD rank 0, ran, fun rank below =>
    (sets rank _ (List.getElem?_eq_getElem below)).1, ?_⟩
  intro rank other info otherInfo isInfo isOther same
  obtain ⟨first, firstMapping, firstLeaders⟩ := sets rank info isInfo
  obtain ⟨second, secondMapping, secondLeaders⟩ := sets other otherInfo isOther
  refine ⟨by rw [firstLeaders, secondLeaders, same], fun sameNode => ?_⟩
  rw [first.intranode, second.intranode, firstMapping, secondMapping, same, sameNode]

/-! ## Layers whose scans differ -/

/-- A result that is no call of `Error`. -/
def Silent {α : Type} (result : Except Fault α) : Prop :=
  ∀ text, result ≠ .error (.error text)

theorem silent_foldlM {α β : Type} {step : β → α → Except Fault β}
    (each : ∀ state item, Silent (step state item)) (items : List α) (state : β) :
    Silent (items.foldlM step state) := by
  induction items generalizing state with
  | nil =>
      intro text failed
      cases failed
  | cons item items ih =>
      intro text failed
      rw [List.foldlM_cons] at failed
      cases stepped : step state item with
      | error fault =>
          rw [stepped] at failed
          cases failed
          exact each state item text stepped
      | ok after =>
          rw [stepped] at failed
          exact ih after text failed

theorem silent_placeFirstFree (mapping : List Int) (proc : Int) :
    Silent (placeFirstFree mapping proc) := by
  intro text failed
  induction mapping with
  | nil => cases failed
  | cons slot rest ih =>
      unfold placeFirstFree at failed
      split at failed
      · cases placed : placeFirstFree rest proc with
        | error fault =>
            rw [placed] at failed
            cases failed
            exact ih placed
        | ok after =>
            rw [placed] at failed
            cases failed
      · cases failed

theorem silent_placeUnasserted (newTeam : Team) (member : TeamInfo × Int) :
    Silent (placeUnasserted newTeam member) := by
  have mapped : ∀ {mapping : List Int} {rebuild : List Int → Team},
      Silent ((placeFirstFree mapping member.2).map rebuild) := by
    intro mapping rebuild text failed
    cases placed : placeFirstFree mapping member.2 with
    | error fault =>
        rw [placed] at failed
        cases failed
        exact silent_placeFirstFree mapping member.2 text placed
    | ok after =>
        rw [placed] at failed
        cases failed
  intro text failed
  unfold placeUnasserted at failed
  split at failed
  · split at failed
    · exact mapped text failed
    · split at failed
      · cases failed
      · exact mapped text failed
  · cases failed

theorem silent_noteLeader (nodeId : Int → Nat)
    (leaders : List (Option Nat) × Nat) (position : Int × Nat) :
    Silent (noteLeader nodeId leaders position) := by
  intro text failed
  unfold noteLeader at failed
  split at failed
  · cases failed
  · cases failed
  · split at failed
    · cases failed
    · cases failed

/-- Without indices the first pass does nothing. -/
theorem placeAsserted_noIndices {members : List (TeamInfo × Int)}
    (noIndices : ∀ member ∈ members, member.1.index = 0) (newTeam : Team) :
    members.foldlM placeAsserted newTeam = .ok newTeam := by
  induction members with
  | nil => rfl
  | cons member members ih =>
      have zero := noIndices member List.mem_cons_self
      rw [List.foldlM_cons, placeAsserted, if_neg (not_not.mpr zero)]
      exact ih fun other isOther =>
        noIndices other (List.mem_cons_of_mem _ isOther)

/-- Images that ask for no index raise no Error. -/
theorem CurrentTeam.form_silent (team : CurrentTeam) {infoList : List TeamInfo}
    (noIndices : ∀ info ∈ infoList, info.index = 0) (rank : Nat) :
    Silent (team.form job infoList rank) := by
  intro text failed
  unfold form placeCodimensionMapping placeAndFind placePasses at failed
  rw [placeAsserted_noIndices fun member isMember =>
    noIndices member.1 (List.of_mem_zip isMember).1] at failed
  simp only [Except.bind] at failed
  split at failed
  · rename_i fault isFault
    cases failed
    split at isFault
    · rename_i other isOther
      cases isFault
      exact silent_foldlM silent_placeUnasserted _ _ text isOther
    · split at isFault
      · cases isFault
      · cases isFault
  · rename_i found isFound
    cases leaders : tmpLeaderSet job.getNodeId job.totalNumSupernodes found.codimensionMapping with
    | error fault =>
        rw [leaders] at failed
        cases failed
        exact silent_foldlM (silent_noteLeader job.getNodeId) _ _ text leaders
    | ok result =>
        rw [leaders] at failed
        cases failed

/-- Already a team of all images shows whether the scans agree. -/
theorem Job.FormsLeaders.consistent (forms : job.FormsLeaders) : job.Consistent := by
  have single : ∀ rank < job.numProcs,
      (List.replicate job.numProcs (TeamInfo.mk 1 0))[rank]? = some ⟨1, 0⟩ := by
    intro rank below
    rw [List.getElem?_replicate, if_pos below]
  have silent : ∀ rank, Silent (job.initialTeam.form job
      (List.replicate job.numProcs ⟨1, 0⟩) rank) :=
    job.initialTeam.form_silent fun info member => by
      rw [List.eq_of_mem_replicate member]
  have placed := job.initialTeam_placed
  obtain ⟨maps, agreed⟩ := placed.agreed List.length_replicate
    fun rank _ => silent rank
  obtain ⟨newTeam, me, ran, leaders⟩ := forms job.initialTeam .initial _
    List.length_replicate fun rank _ => silent rank
  have procAt : ∀ rank < job.numProcs,
      ((List.range job.numProcs).map Int.ofNat)[rank]? = some (rank : Int) := by
    intro rank below
    rw [List.getElem?_map, List.getElem?_range below]
    rfl
  have first := placed.formedBy List.length_replicate agreed
    (single 0 job.positive) (procAt 0 job.positive) (ran 0 job.positive)
  have sets := leaders.sets 0 (by
    rw [List.length_replicate]
    exact job.positive)
  unfold Job.Consistent
  cases isLayer : job.layer with
  | gasnet pshm =>
      cases pshm with
      | true => trivial
      | false =>
          intro proc below
          have oneNode : ∀ other, job.getNodeId other = 0 := by
            intro other
            unfold Job.getNodeId
            rw [isLayer]
          have member : (proc : Int) ∈ (newTeam 0).intranodeSet := by
            rw [sets.intranode, first.mapping, List.mem_filter]
            refine ⟨(agreed.isMapping 1).mem_iff.mpr
              ⟨proc, ⟨1, 0⟩, single proc below, rfl, procAt proc below⟩, ?_⟩
            rw [oneNode, oneNode]
            rfl
          rw [first.intranode, List.mem_filter] at member
          have shared := (placed.intranode 0 0 (procAt 0 job.positive) proc
            (List.mem_of_getElem? (procAt proc below))).mp
            (of_decide_eq_true member.2)
          unfold Job.Shares at shared
          rw [isLayer] at shared
          exact shared
  | shmem => trivial
  | armci =>
      obtain ⟨result, found, -, -⟩ := first.leaders
      have noNodes : job.totalNumSupernodes = 0 := by
        unfold Job.totalNumSupernodes
        rw [isLayer]
      rw [noNodes, tmpLeaderSet_noNodes (List.ne_nil_of_mem first.member)] at found
      cases found

end Forms

/--
On every chain of teams the new teams get their leaders if and only if the
runtime is built on SHMEM, on GASNet with shared memory, or on GASNet without
it and all processes have one supernode.
-/
theorem formsLeaders_iff (job : Job) : job.FormsLeaders ↔ job.Consistent :=
  ⟨Job.FormsLeaders.consistent, Job.Consistent.formsLeaders⟩

/-- Two processes on one node under ARMCI. -/
def armciPair : Job where
  layer := .armci
  numProcs := 2
  supernode _ := 0
  positive := by decide

/-- The loop over the new team writes outside of an array without elements. -/
theorem armciPair_not_formsLeaders : ¬∀ job : Job, job.FormsLeaders :=
  fun all => (all armciPair).consistent

end OpenUH.Libcaf.TeamFormation
