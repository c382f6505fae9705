import SkeinDB.Cluster.Replication
import SkeinDB.Format.Primitives

/-!
# Membership of the cluster as one node keeps it

Nodes join with a token, leave or are removed; an operator promotes a node, creates shards and
moves them. Each handler edits the member table, the primary and the shards of the node that
serves the request.
-/
namespace SkeinDB.Cluster
open Consensus Format

/-- A row of the member table for a node that has advertised nothing. -/
def newNode (nodeId : NodeId) (rpcUrl : String) (role : NodeRole) (nowMs : ℕ) : ClusterNode :=
  ⟨nodeId, rpcUrl, role, .online, nowMs, 0, 0⟩

/-- `ClusterStateModel::bootstrap`: a node starts as the primary of a cluster of its own. -/
def bootstrap (localNodeId : NodeId) (localRpcUrl : String) (nowMs : ℕ) : ClusterStateModel where
  enabled := false
  localNodeId := localNodeId
  primaryNodeId := localNodeId
  nodes := [newNode localNodeId localRpcUrl .primary nowMs]
  shards := []
  replication := ⟨0, 0, 0, 0⟩
  leadershipEpoch := 0
  votedEpoch := 0
  votedFor := ""
  shardVotes := fun _ => none

/-- `load_cluster_state` after a restart: the node puts itself back into its table. -/
def loadClusterState (c : ClusterStateModel) (localRpcUrl : String) (nowMs : ℕ) :
    ClusterStateModel :=
  let c := { c with joinTokens := c.joinTokens.filter (nowMs < ·.expiresAtMs) }
  if c.localNodeId ∈ c.nodes.map (·.nodeId) then
    let refresh (n : ClusterNode) : ClusterNode :=
      { n with rpcUrl := localRpcUrl, status := .online, lastSeenMs := nowMs }
    { c with nodes := modifyNode refresh c.localNodeId c.nodes }
  else
    let role := if c.localNodeId = c.primaryNodeId then NodeRole.primary else .replica
    { c with nodes := c.nodes ++ [newNode c.localNodeId localRpcUrl role nowMs] }

section Joining

def clusterDefaultJoinTtlMs : ℕ := 10 * 60 * 1000

/-- Joining and issuing tokens turn the cluster on and drop the expired tokens. -/
def cleanupJoinTokens (c : ClusterStateModel) (nowMs : ℕ) : ClusterStateModel :=
  { c with enabled := true, joinTokens := c.joinTokens.filter (nowMs < ·.expiresAtMs) }

def clusterJoinTokenCreate (c : ClusterStateModel) (token : String) (role : Option NodeRole)
    (ttlMs maxUses : Option ℕ) (nowMs : ℕ) : ClusterStateModel :=
  let c := cleanupJoinTokens c nowMs
  let ttl := max (ttlMs.getD clusterDefaultJoinTtlMs) 1000
  { c with joinTokens := c.joinTokens ++
      [⟨token, role.getD .replica, saturatingAdd nowMs ttl, max (maxUses.getD 1) 1, 0⟩] }

structure ClusterNodeJoinParams where
  token : String
  nodeId : NodeId
  rpcUrl : String
  role : Option NodeRole
deriving DecidableEq, Repr

/-- The token a node joins with, if it can still be used. -/
def usableToken (tokens : List ClusterJoinToken) (token : String) (nowMs : ℕ) :
    Except RpcError ClusterJoinToken :=
  match tokens.find? (·.token = token) with
  | none => .error ⟨"forbidden", "invalid or expired join token"⟩
  | some found =>
    if found.expiresAtMs ≤ nowMs then .error ⟨"forbidden", "join token expired"⟩
    else if found.maxUses ≤ found.used then .error ⟨"forbidden", "join token exhausted"⟩
    else .ok found

/-- Count one use of the first token of this name. -/
def useToken (token : String) : List ClusterJoinToken → List ClusterJoinToken
  | [] => []
  | t :: tokens =>
    if t.token = token then { t with used := t.used + 1 } :: tokens
    else t :: useToken token tokens

/-- Register a node under a role: a known node gets a new address and role, an unknown one a
row of its own. -/
def registerNode (nodes : List ClusterNode) (nodeId : NodeId) (rpcUrl : String) (role : NodeRole)
    (nowMs : ℕ) : List ClusterNode :=
  if nodeId ∈ nodes.map (·.nodeId) then
    let rejoin (n : ClusterNode) : ClusterNode :=
      { n with rpcUrl := rpcUrl, role := role, status := .online, lastSeenMs := nowMs }
    modifyNode rejoin nodeId nodes
  else nodes ++ [newNode nodeId rpcUrl role nowMs]

/-- The role is the one asked for, else the one of the token. -/
def clusterNodeJoin (c : ClusterStateModel) (params : ClusterNodeJoinParams) (nowMs : ℕ) :
    Except RpcError Unit × ClusterStateModel :=
  let c := cleanupJoinTokens c nowMs
  match usableToken c.joinTokens params.token nowMs with
  | .error e => (.error e, c)
  | .ok token =>
    let role := params.role.getD token.role
    (.ok (), { c with
      joinTokens := useToken params.token c.joinTokens
      nodes := registerNode c.nodes params.nodeId params.rpcUrl role nowMs })

end Joining

section Leaving

/-- A shard after its node was removed: the first remaining replica takes over, else the local
node. -/
def removeFromShard (nodeId localNodeId : NodeId) (shard : ClusterShard) : ClusterShard :=
  let replicas := shard.replicas.filter (· ≠ nodeId)
  if shard.primaryNodeId = nodeId then
    match replicas with
    | next :: rest => { shard with primaryNodeId := next, replicas := rest }
    | [] => { shard with primaryNodeId := localNodeId, replicas := [] }
  else { shard with replicas := replicas }

/-- Whether a removal is let through. -/
def checkRemoval (c : ClusterStateModel) (nodeId : NodeId) (force : Option Bool) :
    Except RpcError Unit :=
  if nodeId = c.localNodeId ∧ ¬ force.getD false then
    .error ⟨"forbidden", "cannot remove local node without force=true"⟩
  else if nodeId ∉ c.nodes.map (·.nodeId) then .error ⟨"not_found", "node not found"⟩
  else .ok ()

/-- The new primary, if there is one, and the state. The roles in the table stay as they are. -/
def clusterNodeRemove (c : ClusterStateModel) (nodeId : NodeId) (force : Option Bool)
    (localRpcUrl : String) (nowMs : ℕ) :
    Except RpcError (Option NodeId × ClusterStateModel) := do
  checkRemoval c nodeId force
  let nodes := c.nodes.filter (·.nodeId ≠ nodeId)
  let c := { c with
    nodes := nodes
    shards := c.shards.map (removeFromShard nodeId c.localNodeId) }
  if c.primaryNodeId = nodeId then
    match nodes with
    | next :: _ => .ok (some next.nodeId, { c with primaryNodeId := next.nodeId })
    | [] => .ok (some c.localNodeId, { c with
        primaryNodeId := c.localNodeId
        nodes := [newNode c.localNodeId localRpcUrl .primary nowMs] })
  else .ok (none, c)

/-- The role of a node when `next` succeeds the primary that left. -/
def succeed (next : NodeId) (node : ClusterNode) : ClusterNode :=
  if node.nodeId = next then { node with role := .primary }
  else if node.role = .primary then { node with role := .replica }
  else node

/-- A shard after its node left: the first online replica takes over, else the node that became
primary of the cluster, if one did. -/
def leaveShard (nodeId : NodeId) (online : List NodeId) (newPrimary : Option NodeId)
    (shard : ClusterShard) : ClusterShard :=
  let replicas := shard.replicas.filter (· ≠ nodeId)
  if shard.primaryNodeId = nodeId then
    match (replicas.find? (· ∈ online)).or newPrimary with
    | some next =>
      { shard with primaryNodeId := next, replicas := replicas.filter (· ≠ next) }
    | none => { shard with replicas := replicas }
  else { shard with replicas := replicas }

/-- The node that takes over when `nodeId` leaves: the first other node that is online, if it is
the primary that leaves. -/
def leaveSuccessor (c : ClusterStateModel) (nodeId : NodeId) : Option NodeId :=
  if c.primaryNodeId = nodeId then
    (c.nodes.find? fun n => n.nodeId ≠ nodeId ∧ n.status = .online).map (·.nodeId)
  else none

def clusterNodeLeave (c : ClusterStateModel) (nodeId : NodeId) (nowMs : ℕ) :
    Except RpcError (Option NodeId × ClusterStateModel) :=
  if nodeId ∉ c.nodes.map (·.nodeId) then .error ⟨"not_found", "node not found"⟩
  else
    let goOffline (n : ClusterNode) : ClusterNode :=
      { n with status := .offline, lastSeenMs := nowMs }
    let gone := modifyNode goOffline nodeId c.nodes
    let newPrimary := leaveSuccessor c nodeId
    let nodes := match newPrimary with
      | some next => gone.map (succeed next)
      | none => gone
    let online := (nodes.filter (·.status = .online)).map (·.nodeId)
    .ok (newPrimary, { c with
      nodes := nodes
      primaryNodeId := newPrimary.getD c.primaryNodeId
      shards := c.shards.map (leaveShard nodeId online newPrimary) })

end Leaving

section Promoting

/-- The new epoch and the state. A promotion asks for no votes. -/
def clusterReplicaPromote (c : ClusterStateModel) (nodeId : NodeId) (shardId : Option ShardId)
    (force : Option Bool) (nowMs timeoutMs : ℕ) : Except RpcError (ℕ × ClusterStateModel) :=
  if nodeId ∉ c.nodes.map (·.nodeId) then .error ⟨"not_found", "node not found"⟩
  else match shardId with
    | some id =>
      match findShard c id with
      | none => .error ⟨"not_found", "shard not found"⟩
      | some shard =>
        if ¬ force.getD false ∧ ¬ shardHasQuorum shard c.nodes c.localNodeId nowMs timeoutMs then
          .error ⟨"no_quorum", "refusing to promote shard without a quorum of its replica set " ++
            "(split-brain risk); pass force:true to override during a confirmed outage"⟩
        else
          let epoch := saturatingAdd shard.leadershipEpoch 1
          .ok (epoch, { c with
            shards := modifyShard (applyShardPromotion · nodeId epoch) id c.shards })
    | none =>
      if ¬ force.getD false ∧ ¬ clusterHasQuorum c.nodes c.localNodeId nowMs timeoutMs then
        .error ⟨"no_quorum", "refusing to promote without a quorum of reachable nodes " ++
          "(split-brain risk); pass force:true to override during a confirmed outage"⟩
      else
        let epoch := saturatingAdd c.leadershipEpoch 1
        .ok (epoch, applyWholeClusterPromotion c nodeId epoch nowMs)

end Promoting

section Shards

structure ClusterShardCreateParams where
  shardId : Option ShardId
  primaryNodeId : Option NodeId
  replicas : Option (List NodeId)
deriving DecidableEq, Repr

/-- `generated` is the id made up for a shard that is created without one. -/
def clusterShardCreate (c : ClusterStateModel) (params : ClusterShardCreateParams)
    (generated : ShardId) : Except RpcError ClusterShard × ClusterStateModel :=
  let c := { c with enabled := true }
  let shardId := params.shardId.getD generated
  let primary := params.primaryNodeId.getD c.primaryNodeId
  if shardId ∈ c.shards.map (·.shardId) then
    (.error ⟨"conflict", "shard already exists"⟩, c)
  else if primary ∉ c.nodes.map (·.nodeId) then
    (.error ⟨"not_found", "primary node not found"⟩, c)
  else
    let replicas := params.replicas.getD
      ((c.nodes.filter (·.role = .replica)).map (·.nodeId))
    let shard := ⟨shardId, primary, replicas.filter (· ≠ primary), 0⟩
    (.ok shard, { c with shards := c.shards ++ [shard] })

/-- The first half of `cluster_shard_move`: the shard as it will be, which keeps its epoch. The
objects are transferred before the second half. -/
def previewShardMove (c : ClusterStateModel) (shardId : ShardId) (toNodeId : NodeId) :
    Except RpcError ClusterShard :=
  if toNodeId ∉ c.nodes.map (·.nodeId) then
    .error ⟨"not_found", "destination node not found"⟩
  else match findShard c shardId with
    | none => .error ⟨"not_found", "shard not found"⟩
    | some shard => .ok (applyShardPromotion shard toNodeId shard.leadershipEpoch)

/-- The second half: the shard is overwritten with the preview, whatever it has become. -/
def commitShardMove (c : ClusterStateModel) (preview : ClusterShard) :
    Except RpcError ClusterStateModel :=
  match findShard c preview.shardId with
  | none => .error ⟨"not_found", "shard not found"⟩
  | some _ =>
    .ok { c with shards := modifyShard (fun _ => preview) preview.shardId c.shards }

end Shards

section Outcomes
variable {c : ClusterStateModel} {nodeId : NodeId} {nowMs timeoutMs : ℕ}

/-- A promotion takes the next epoch of the cluster, or changes one shard. -/
theorem clusterReplicaPromote_ok {shardId : Option ShardId} {force : Option Bool}
    {answer : ℕ × ClusterStateModel}
    (h : clusterReplicaPromote c nodeId shardId force nowMs timeoutMs = .ok answer) :
    nodeId ∈ c.nodes.map (·.nodeId) ∧
    ((shardId = none ∧
      (force.getD false = true ∨ clusterHasQuorum c.nodes c.localNodeId nowMs timeoutMs = true) ∧
      answer.2 = applyWholeClusterPromotion c nodeId (saturatingAdd c.leadershipEpoch 1) nowMs) ∨
    ∃ id epoch, shardId = some id ∧
      answer.2 = { c with
        shards := modifyShard (applyShardPromotion · nodeId epoch) id c.shards }) := by
  unfold clusterReplicaPromote at h
  by_cases hnode : nodeId ∉ c.nodes.map (·.nodeId)
  · rw [if_pos hnode] at h
    cases h
  · rw [if_neg hnode] at h
    refine ⟨not_not.mp hnode, ?_⟩
    cases shardId with
    | none =>
      simp only at h
      split_ifs at h with hquorum
      obtain rfl := Except.ok.inj h
      refine Or.inl ⟨rfl, ?_, rfl⟩
      by_contra hneither
      exact hquorum (not_or.mp hneither)
    | some id =>
      cases hshard : findShard c id with
      | none => simp [hshard] at h
      | some shard =>
        simp only [hshard] at h
        split_ifs at h
        obtain rfl := Except.ok.inj h
        exact Or.inr ⟨id, _, rfl, rfl⟩

/-- A node that leaves stays in the table. -/
theorem clusterNodeLeave_ok {answer : Option NodeId × ClusterStateModel}
    (h : clusterNodeLeave c nodeId nowMs = .ok answer) :
    nodeId ∈ c.nodes.map (·.nodeId) ∧ ∃ nodes shards,
      nodes.map (·.nodeId) = c.nodes.map (·.nodeId) ∧
      answer.2 = { c with
        nodes := nodes
        shards := shards
        primaryNodeId := (leaveSuccessor c nodeId).getD c.primaryNodeId } := by
  unfold clusterNodeLeave at h
  split_ifs at h with hnode
  obtain rfl := Except.ok.inj h
  refine ⟨hnode, _, _, ?_, rfl⟩
  have hgone := map_nodeId_modifyNode (f := fun n : ClusterNode =>
    { n with status := .offline, lastSeenMs := nowMs }) (fun _ => rfl) nodeId c.nodes
  have hsucceed : ∀ next node, (succeed next node).nodeId = node.nodeId := by
    intro next node
    unfold succeed
    split_ifs <;> rfl
  cases leaveSuccessor c nodeId with
  | none => exact hgone
  | some next =>
    simp only [List.map_map, Function.comp_def, hsucceed]
    exact hgone

/-- A node that is removed leaves the table. A primary is replaced by the first node that remains,
else by the local node. -/
theorem clusterNodeRemove_ok {force : Option Bool} {localRpcUrl : String}
    {answer : Option NodeId × ClusterStateModel}
    (h : clusterNodeRemove c nodeId force localRpcUrl nowMs = .ok answer) :
    checkRemoval c nodeId force = .ok () ∧ ∃ nodes shards primary,
      answer.2 = { c with nodes := nodes, shards := shards, primaryNodeId := primary } ∧
      ((primary = c.primaryNodeId ∧ c.primaryNodeId ≠ nodeId ∧
          nodes = c.nodes.filter (·.nodeId ≠ nodeId)) ∨
        (c.primaryNodeId = nodeId ∧ nodes = c.nodes.filter (·.nodeId ≠ nodeId) ∧
          ∃ next ∈ nodes, primary = next.nodeId) ∨
        (c.primaryNodeId = nodeId ∧ (∀ row ∈ c.nodes, row.nodeId = nodeId) ∧
          nodes = [newNode c.localNodeId localRpcUrl .primary nowMs] ∧
          primary = c.localNodeId)) := by
  simp only [clusterNodeRemove, bind, Except.bind] at h
  cases hcheck : checkRemoval c nodeId force with
  | error e => simp [hcheck] at h
  | ok _ =>
    simp only [hcheck] at h
    refine ⟨rfl, ?_⟩
    by_cases hprimary : c.primaryNodeId = nodeId
    · rw [if_pos hprimary] at h
      cases hrest : c.nodes.filter (·.nodeId ≠ nodeId) with
      | nil =>
        simp only [hrest] at h
        obtain rfl := Except.ok.inj h
        refine ⟨_, _, _, rfl, Or.inr (Or.inr ⟨hprimary, ?_, rfl, rfl⟩)⟩
        simpa [List.filter_eq_nil_iff] using hrest
      | cons next rest =>
        simp only [hrest] at h
        obtain rfl := Except.ok.inj h
        exact ⟨_, _, _, rfl, Or.inr (Or.inl ⟨hprimary, rfl, next, List.mem_cons_self, rfl⟩)⟩
    · rw [if_neg hprimary] at h
      obtain rfl := Except.ok.inj h
      exact ⟨_, _, _, rfl, Or.inl ⟨rfl, hprimary, rfl⟩⟩

end Outcomes

end SkeinDB.Cluster
