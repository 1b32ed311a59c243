import Mathlib.Algebra.Order.Ring.Int
import Mathlib.Data.Nat.Log

/-!
# Team formation of the coarray runtime

The bottom layer of the team model: the records of `team.h` and the
functions `__setup_subteams` and `__place_codimension_mapping` of `team.c`,
as each image runs them on the exchanged `team_info` list.

The C arrays are lists whose length is the allocated length, so that an
access outside an array is an explicit fault.  The counted sets
`intranode_set` and `leader_set` are lists of their members; their count
cells are the list lengths.  The `uthash` tables are association lists in
insertion order, the order in which the source iterates over them.
-/

namespace OpenUH.Libcaf.TeamFormation

/-- What stops a routine: a call of `Error`, or an access C leaves undefined. -/
inductive Fault where
  | error (text : String)
  | outOfBounds
  | nullDereference
deriving DecidableEq, Repr

/-- `team_info_t`: what every image contributes to FORM TEAM. -/
structure TeamInfo where
  teamId : Int
  index : Int
deriving DecidableEq, Repr

/-- `hashed_metadata_node`: how many images chose a team id. -/
structure HashedMetadataNode where
  id : Int
  count : Nat
deriving DecidableEq, Repr

/-- `hashed_cdmapping_t`: the mapping of a team this image is not part of. -/
structure HashedCdMapping where
  teamId : Int
  numImages : Nat
  codimensionMapping : List Int
deriving DecidableEq, Repr

/-- The fields of `team_type_t` that team formation reads or writes. -/
structure Team where
  teamId : Int := 0
  currentThisImage : Nat := 0
  currentNumImages : Nat := 0
  codimensionMapping : List Int := []
  intranodeSet : List Int := []
  leaderSet : List Int := []
  leadersCount : Nat := 0
  currentLog2Images : Nat := 0
  currentRemImages : Nat := 0
  siblingList : List HashedCdMapping := []
deriving DecidableEq, Repr, Inhabited

/-! ## `__setup_subteams` -/

/-- One pass of the counting loop: bump the node of a team id or add it. -/
def countTeamId (nodes : List HashedMetadataNode) (teamId : Int) : List HashedMetadataNode :=
  match nodes with
  | [] => [{ id := teamId, count := 1 }]
  | node :: rest =>
      if node.id = teamId then
        { node with count := node.count + 1 } :: rest
      else
        node :: countTeamId rest teamId

/-- `hashed_md_list` after the loop over the exchanged list. -/
def hashedMdList (infoList : List TeamInfo) : List HashedMetadataNode :=
  infoList.foldl (fun nodes info => countTeamId nodes info.teamId) []

/-- `memset(mapping, -1, count)`. -/
def emptyMapping (count : Nat) : List Int :=
  List.replicate count (-1)

/-- `HASH_FIND_INT` on a sibling list. -/
def findSibling (siblings : List HashedCdMapping) (teamId : Int) : Option HashedCdMapping :=
  siblings.find? fun node => node.teamId = teamId

/-- One node of `hashed_md_list` becomes the own team or a sibling. -/
def setupNode (myTeamId : Int) (newTeam : Team) (node : HashedMetadataNode) : Team :=
  if node.id ≠ myTeamId then
    match findSibling newTeam.siblingList node.id with
    | some _ => newTeam
    | none =>
        { newTeam with
          siblingList := newTeam.siblingList ++
            [{ teamId := node.id
               numImages := node.count
               codimensionMapping := emptyMapping node.count }] }
  else
    { newTeam with
      teamId := myTeamId
      currentNumImages := node.count
      codimensionMapping := emptyMapping node.count }

/-- `__setup_subteams` on the zeroed record of the new team. -/
def setupSubteams (infoList : List TeamInfo) (myTeamId : Int) : Team :=
  (hashedMdList infoList).foldl (setupNode myTeamId) {}

/-! ## `__place_codimension_mapping` -/

/-- Write `proc` at a free 1-based position that has passed the range test. -/
def placeAt (text : String) (mapping : List Int) (tmpIndex proc : Int) : Except Fault (List Int) :=
  match mapping[(tmpIndex - 1).toNat]? with
  | none => .error .outOfBounds
  | some old =>
      if old ≠ -1 then
        .error (.error text)
      else
        .ok (mapping.set (tmpIndex - 1).toNat proc)

/-- `k = 0; while (p_mapping[k] != -1) k++; p_mapping[k] = proc`. -/
def placeFirstFree : List Int → Int → Except Fault (List Int)
  | [], _ => .error .outOfBounds
  | slot :: rest, proc =>
      if slot ≠ -1 then
        (placeFirstFree rest proc).map (slot :: ·)
      else
        .ok (proc :: rest)

/-- Store a sibling's mapping back through the node pointer. -/
def setSibling (siblings : List HashedCdMapping) (teamId : Int)
    (mapping : List Int) : List HashedCdMapping :=
  siblings.map fun node =>
    if node.teamId = teamId then
      { node with codimensionMapping := mapping }
    else
      node

/-- The first pass for one parent rank: an image that asserts its index. -/
def placeAsserted (newTeam : Team) (member : TeamInfo × Int) : Except Fault Team :=
  if member.1.index ≠ 0 then
    if member.1.teamId = newTeam.teamId then
      if member.1.index < 0 ∨ member.1.index > newTeam.currentNumImages then
        .error (.error "1a. tmp_index is not correct!")
      else
        (placeAt "1b. p_mapping is not initialized to -1"
            newTeam.codimensionMapping member.1.index member.2).map
          fun mapping => { newTeam with codimensionMapping := mapping }
    else
      match findSibling newTeam.siblingList member.1.teamId with
      | none => .error .nullDereference
      | some node =>
          if member.1.index < 0 then
            .error (.error "2a. tmp_index is not correct!")
          else
            (placeAt "2b. p_mapping is not initialized to -1"
                node.codimensionMapping member.1.index member.2).map
              fun mapping =>
                { newTeam with
                  siblingList :=
                    setSibling newTeam.siblingList member.1.teamId mapping }
  else
    .ok newTeam

/-- The second pass for one parent rank: an image without an index. -/
def placeUnasserted (newTeam : Team) (member : TeamInfo × Int) : Except Fault Team :=
  if member.1.index = 0 then
    if member.1.teamId = newTeam.teamId then
      (placeFirstFree newTeam.codimensionMapping member.2).map
        fun mapping => { newTeam with codimensionMapping := mapping }
    else
      match findSibling newTeam.siblingList member.1.teamId with
      | none => .error .nullDereference
      | some node =>
          (placeFirstFree node.codimensionMapping member.2).map
            fun mapping =>
              { newTeam with
                siblingList :=
                  setSibling newTeam.siblingList member.1.teamId mapping }
  else
    .ok newTeam

/-- The loop that finds this image in its new team; 0 when it is absent. -/
def findThisImage (mapping : List Int) (proc : Int) : Nat :=
  match mapping.findIdx? (· = proc) with
  | some k => k + 1
  | none => 0

/-- The members of the new team on this image's node, in team order. -/
def formIntranodeSet (currentTeam newTeam : Team) : List Int :=
  newTeam.codimensionMapping.filter (· ∈ currentTeam.intranodeSet)

/--
One iteration of the leader loop: the process at team position `i` becomes
the leader of its node when `tmp_leader_set[spnode_id] > i`.  A cell that
still holds `LONG_MAX` is `none`.
-/
def noteLeader (nodeId : Int → Nat) (leaders : List (Option Nat) × Nat) (position : Int × Nat) :
    Except Fault (List (Option Nat) × Nat) :=
  match leaders.1[nodeId position.1]? with
  | none => .error .outOfBounds
  | some none =>
      .ok (leaders.1.set (nodeId position.1) (some position.2), leaders.2 + 1)
  | some (some leader) =>
      if leader > position.2 then
        .ok (leaders.1.set (nodeId position.1) (some position.2),
          leaders.2 + 1)
      else
        .ok leaders

/-- `tmp_leader_set` and `count` after the loop over the new mapping. -/
def tmpLeaderSet (nodeId : Int → Nat) (totalNumSupernodes : Nat)
    (mapping : List Int) : Except Fault (List (Option Nat) × Nat) :=
  mapping.zipIdx.foldlM (noteLeader nodeId)
    (List.replicate totalNumSupernodes none, 0)

/-- The leader of every node that has one, in node order. -/
def collectLeaders (mapping : List Int) (leaders : List (Option Nat)) : List Int :=
  leaders.filterMap fun leader => leader.bind fun position => mapping[position]?

/-- The two placement passes over all parent ranks. -/
def placePasses (members : List (TeamInfo × Int)) (newTeam : Team) : Except Fault Team :=
  (members.foldlM placeAsserted newTeam).bind
    fun asserted => members.foldlM placeUnasserted asserted

/-- Placement, then the position of the image with parent rank `myRank`. -/
def placeAndFind (currentTeam : Team) (myRank : Nat)
    (infoList : List TeamInfo) (newTeam : Team) : Except Fault Team :=
  (placePasses (infoList.zip currentTeam.codimensionMapping) newTeam).bind
    fun placed =>
      match currentTeam.codimensionMapping[myRank]? with
      | none => .error .outOfBounds
      | some proc =>
          .ok
            { placed with
              currentThisImage := findThisImage placed.codimensionMapping proc }

/-- `__place_codimension_mapping` on the image running `currentTeam`. -/
def placeCodimensionMapping (nodeId : Int → Nat) (totalNumSupernodes : Nat)
    (currentTeam : Team) (infoList : List TeamInfo) (newTeam : Team) :
    Except Fault Team :=
  (placeAndFind currentTeam (currentTeam.currentThisImage - 1)
      infoList newTeam).bind
    fun found =>
      (tmpLeaderSet nodeId totalNumSupernodes found.codimensionMapping).map
        fun leaders =>
          { found with
            intranodeSet := formIntranodeSet currentTeam found
            leaderSet := collectLeaders found.codimensionMapping leaders.1
            leadersCount := leaders.2 }

end OpenUH.Libcaf.TeamFormation
