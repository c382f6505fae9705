import SkeinDB.Consensus.Position
import Mathlib.Data.List.Sort

/-!
# Cluster state of a node

Each node keeps its own copy of the cluster: the member table, the shards, whom it takes
for primary, the leadership epoch, the votes it has cast and its replication progress. This
file has the state, the liveness and quorum checks over it, the choice of a failover
candidate, and the promotions.
-/
namespace SkeinDB.Cluster
open Consensus

abbrev NodeId := String

abbrev ShardId := String

structure RpcError where
  code : String
  message : String
deriving DecidableEq, Repr

inductive NodeRole where
  | primary
  | replica
  | other (role : String)
deriving DecidableEq, Repr

inductive NodeStatus where
  | online
  | offline
deriving DecidableEq, Repr

/-- A row of the member table. `appliedOps` and `applied` are the replication progress the
node last advertised. -/
structure ClusterNode where
  nodeId : NodeId
  rpcUrl : String
  role : NodeRole
  status : NodeStatus
  lastSeenMs : ℕ
  appliedOps : ℕ
  applied : Position
deriving DecidableEq, Repr

structure ClusterShard where
  shardId : ShardId
  primaryNodeId : NodeId
  replicas : List NodeId
  leadershipEpoch : ℕ
deriving DecidableEq, Repr

/-- `opSeq` counts the writes this node recorded as a primary; `lastApplied` is the position
of the last operation it applied as a replica. -/
structure ClusterReplicationState where
  appliedOps : ℕ
  opSeq : ℕ
  lastApplied : Position
  commit : Position
deriving DecidableEq, Repr

structure ClusterJoinToken where
  token : String
  role : NodeRole
  expiresAtMs : ℕ
  maxUses : ℕ
  used : ℕ
deriving DecidableEq, Repr

structure ClusterStateModel where
  enabled : Bool
  localNodeId : NodeId
  primaryNodeId : NodeId
  nodes : List ClusterNode
  shards : List ClusterShard
  replication : ClusterReplicationState
  leadershipEpoch : ℕ
  votedEpoch : ℕ
  votedFor : NodeId
  shardVotes : ShardId → Option (ℕ × NodeId)
  joinTokens : List ClusterJoinToken := []

section Health

inductive NodeHealth where
  | online
  | offline
deriving DecidableEq, Repr

def evaluateNodeHealth (node : ClusterNode) (localNodeId : NodeId) (nowMs timeoutMs : ℕ) :
    NodeHealth :=
  if node.nodeId = localNodeId then .online
  else if node.status = .offline then .offline
  else if nowMs - node.lastSeenMs > timeoutMs then .offline
  else .online

def clusterQuorumSize (total : ℕ) : ℕ := total / 2 + 1

def reachableMemberCount (nodes : List ClusterNode) (localNodeId : NodeId)
    (nowMs timeoutMs : ℕ) : ℕ :=
  (nodes.filter fun n => evaluateNodeHealth n localNodeId nowMs timeoutMs = .online).length

def clusterHasQuorum (nodes : List ClusterNode) (localNodeId : NodeId)
    (nowMs timeoutMs : ℕ) : Bool :=
  0 < nodes.length ∧
    clusterQuorumSize nodes.length ≤ reachableMemberCount nodes localNodeId nowMs timeoutMs

/-- The node set of a shard: its replicas, and its primary if it is not among them. -/
def shardNodeIds (shard : ClusterShard) : List NodeId :=
  if shard.primaryNodeId ∈ shard.replicas then shard.replicas
  else shard.replicas ++ [shard.primaryNodeId]

def shardHasQuorum (shard : ClusterShard) (nodes : List ClusterNode) (localNodeId : NodeId)
    (nowMs timeoutMs : ℕ) : Bool :=
  let ids := shardNodeIds shard
  let reachable := (nodes.filter fun n => n.nodeId ∈ ids ∧
    evaluateNodeHealth n localNodeId nowMs timeoutMs = .online).length
  ids.length ≠ 0 ∧ clusterQuorumSize ids.length ≤ reachable

end Health

section Failover

/-- The failover order: further in the log first, then more operations applied, then the
fresher heartbeat, then the smaller id. -/
def precedes (a b : ClusterNode) : Prop :=
  toLex (b.applied, b.appliedOps) < toLex (a.applied, a.appliedOps) ∨
    ((a.applied, a.appliedOps) = (b.applied, b.appliedOps) ∧
      (b.lastSeenMs < a.lastSeenMs ∨ (a.lastSeenMs = b.lastSeenMs ∧ a.nodeId ≤ b.nodeId)))

instance : DecidableRel precedes := fun _ _ => inferInstanceAs (Decidable (_ ∨ _))

def electFailoverCandidate (nodes : List ClusterNode) (primaryNodeId localNodeId : NodeId)
    (nowMs timeoutMs : ℕ) : Option NodeId :=
  match nodes.find? (fun n => n.nodeId = primaryNodeId) with
  | none => none
  | some primary =>
    if evaluateNodeHealth primary localNodeId nowMs timeoutMs = .online then none
    else
      let candidates := nodes.filter fun n => n.nodeId ≠ primaryNodeId ∧
        evaluateNodeHealth n localNodeId nowMs timeoutMs = .online
      (candidates.insertionSort precedes).head?.map (·.nodeId)

inductive FailoverAction where
  | none
  | stepDown
  | promote
deriving DecidableEq, Repr

def decideFailoverAction (nodes : List ClusterNode) (primaryId localId : NodeId)
    (nowMs timeoutMs : ℕ) : FailoverAction :=
  let hasQuorum := clusterHasQuorum nodes localId nowMs timeoutMs
  if localId = primaryId then
    if hasQuorum then .none else .stepDown
  else
    let primaryHealthy := match nodes.find? (fun n => n.nodeId = primaryId) with
      | some p => decide (evaluateNodeHealth p localId nowMs timeoutMs = .online)
      | none => false
    if primaryHealthy || !hasQuorum then .none
    else if electFailoverCandidate nodes primaryId localId nowMs timeoutMs = some localId then
      .promote
    else .none

end Failover

section Promotion

def promoteNode (nodeId oldPrimary : NodeId) (nowMs : ℕ) (node : ClusterNode) : ClusterNode :=
  if node.nodeId = nodeId then { node with role := .primary, lastSeenMs := nowMs }
  else if node.nodeId = oldPrimary then { node with role := .replica }
  else node

def applyWholeClusterPromotion (c : ClusterStateModel) (nodeId : NodeId) (epoch nowMs : ℕ) :
    ClusterStateModel :=
  { c with
    primaryNodeId := nodeId
    nodes := c.nodes.map (promoteNode nodeId c.primaryNodeId nowMs)
    leadershipEpoch := epoch }

def applyShardPromotion (shard : ClusterShard) (nodeId : NodeId) (epoch : ℕ) : ClusterShard :=
  let replicas := shard.replicas.filter (· ≠ nodeId)
  { shard with
    primaryNodeId := nodeId
    replicas := if shard.primaryNodeId ≠ nodeId ∧ shard.primaryNodeId ∉ replicas then
      replicas ++ [shard.primaryNodeId] else replicas
    leadershipEpoch := epoch }

/-- Change the first shard with this id. -/
def modifyShard (f : ClusterShard → ClusterShard) (shardId : ShardId) :
    List ClusterShard → List ClusterShard
  | [] => []
  | shard :: shards =>
    if shard.shardId = shardId then f shard :: shards
    else shard :: modifyShard f shardId shards

def findShard (c : ClusterStateModel) (shardId : ShardId) : Option ClusterShard :=
  c.shards.find? (fun s => s.shardId = shardId)

/-- Adopt an announced leadership if its epoch is newer than the one known. -/
def clusterLeaderAnnounce (c : ClusterStateModel) (nodeId : NodeId) (epoch : ℕ)
    (shardId : Option ShardId) (nowMs : ℕ) : Except RpcError ClusterStateModel :=
  if nodeId ∉ c.nodes.map (·.nodeId) then
    .error ⟨"not_found", "announced primary not in cluster"⟩
  else match shardId with
    | some shardId =>
      match findShard c shardId with
      | none => .error ⟨"not_found", "shard not found"⟩
      | some shard =>
        if shard.leadershipEpoch < epoch then
          .ok { c with
            shards := modifyShard (applyShardPromotion · nodeId epoch) shardId c.shards }
        else .ok c
    | none =>
      if c.leadershipEpoch < epoch then .ok (applyWholeClusterPromotion c nodeId epoch nowMs)
      else .ok c

end Promotion

section PromotionLemmas

@[simp] theorem promoteNode_nodeId (nodeId oldPrimary : NodeId) (nowMs : ℕ)
    (node : ClusterNode) : (promoteNode nodeId oldPrimary nowMs node).nodeId = node.nodeId := by
  unfold promoteNode
  split_ifs <;> rfl

@[simp] theorem promoteNode_applied (nodeId oldPrimary : NodeId) (nowMs : ℕ)
    (node : ClusterNode) :
    (promoteNode nodeId oldPrimary nowMs node).applied = node.applied := by
  unfold promoteNode
  split_ifs <;> rfl

theorem mem_shardNodeIds {shard : ClusterShard} {n : NodeId} :
    n ∈ shardNodeIds shard ↔ n = shard.primaryNodeId ∨ n ∈ shard.replicas := by
  unfold shardNodeIds
  split_ifs with h
  · constructor
    · exact Or.inr
    · rintro (rfl | hn)
      · exact h
      · exact hn
  · simp [or_comm]

theorem shardNodeIds_nodup {shard : ClusterShard} :
    (shardNodeIds shard).Nodup ↔ shard.replicas.Nodup := by
  unfold shardNodeIds
  split_ifs with h
  · exact Iff.rfl
  · simp only [List.nodup_append, List.nodup_singleton, true_and, List.mem_singleton]
    refine ⟨fun hs => hs.1, fun hs => ⟨hs, ?_⟩⟩
    rintro a ha b rfl rfl
    exact h ha

/-- Promoting a node of the shard moves roles around inside the same node set. -/
theorem shardNodeIds_applyShardPromotion {shard : ClusterShard} {n : NodeId} (epoch : ℕ)
    (hnodup : (shardNodeIds shard).Nodup) (hn : n ∈ shardNodeIds shard) :
    (shardNodeIds (applyShardPromotion shard n epoch)).Perm (shardNodeIds shard) := by
  have hreplicas := shardNodeIds_nodup.mp hnodup
  have hfilter : (shard.replicas.filter (· ≠ n)).Nodup := hreplicas.filter _
  have hnodup' : (shardNodeIds (applyShardPromotion shard n epoch)).Nodup := by
    rw [shardNodeIds_nodup]
    dsimp only [applyShardPromotion]
    split_ifs with hold
    · rw [List.nodup_append]
      refine ⟨hfilter, List.nodup_singleton _, ?_⟩
      rintro a ha b hb rfl
      exact hold.2 (List.mem_singleton.mp hb ▸ ha)
    · exact hfilter
  rw [List.perm_ext_iff_of_nodup hnodup' hnodup]
  intro a
  rw [mem_shardNodeIds] at hn
  rw [mem_shardNodeIds, mem_shardNodeIds]
  dsimp only [applyShardPromotion]
  split_ifs with hold <;> simp only [List.mem_append, List.mem_filter, List.mem_singleton,
    decide_eq_true_eq, ne_eq] at hold ⊢ <;> grind

theorem find?_modifyShard (f : ClusterShard → ClusterShard) (hf : ∀ s, (f s).shardId = s.shardId)
    (shardId k : ShardId) (shards : List ClusterShard) :
    (modifyShard f shardId shards).find? (fun s => s.shardId = k) =
      if k = shardId then (shards.find? (fun s => s.shardId = k)).map f
      else shards.find? (fun s => s.shardId = k) := by
  induction shards with
  | nil => simp [modifyShard]
  | cons shard shards ih =>
    by_cases hs : shard.shardId = shardId
    · by_cases hk : shardId = k
      · subst hk
        simp [modifyShard, hs, hf]
      · simp [modifyShard, hs, hf, hk, Ne.symm hk]
    · by_cases hk : shard.shardId = k
      · subst hk
        simp [modifyShard, hs]
      · simp [modifyShard, hs, hk, ih]

@[simp] theorem applyShardPromotion_shardId (shard : ClusterShard) (n : NodeId) (epoch : ℕ) :
    (applyShardPromotion shard n epoch).shardId = shard.shardId := rfl

/-- An announcement is ignored, or adopted for the cluster, or adopted for one shard. -/
theorem clusterLeaderAnnounce_ok {c c' : ClusterStateModel} {nodeId : NodeId} {epoch nowMs : ℕ}
    {shardId : Option ShardId} (h : clusterLeaderAnnounce c nodeId epoch shardId nowMs = .ok c') :
    c' = c ∨
    (shardId = none ∧ c.leadershipEpoch < epoch ∧
      c' = applyWholeClusterPromotion c nodeId epoch nowMs) ∨
    ∃ id, shardId = some id ∧
      c' = { c with shards := modifyShard (applyShardPromotion · nodeId epoch) id c.shards } := by
  unfold clusterLeaderAnnounce at h
  by_cases hmem : nodeId ∉ c.nodes.map (·.nodeId)
  · rw [if_pos hmem] at h
    cases h
  · rw [if_neg hmem] at h
    rcases shardId with _ | id
    · dsimp only at h
      split_ifs at h with hnew
      · exact Or.inr (Or.inl ⟨rfl, hnew, (Except.ok.inj h).symm⟩)
      · exact Or.inl (Except.ok.inj h).symm
    · rcases hfind : findShard c id with _ | shard
      · simp [hfind] at h
      · simp only [hfind] at h
        split_ifs at h with hnew
        · exact Or.inr (Or.inr ⟨id, rfl, (Except.ok.inj h).symm⟩)
        · exact Or.inl (Except.ok.inj h).symm

end PromotionLemmas

end SkeinDB.Cluster
