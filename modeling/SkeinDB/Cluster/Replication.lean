import SkeinDB.Cluster.State

/-!
# Replication on one node

A primary tags each write with `(leadershipEpoch, opSeq)`, keeps it in a bounded log buffer
and sends it to its replicas. A replica decides from its last applied position whether an
operation is the next one, a repetition, or lies above a gap. Heartbeats carry positions back
to the primary, which takes the position reached by a quorum for the commit index.
-/
namespace SkeinDB.Cluster
open Consensus

/-- A replicated write with its log position. -/
structure ReplicationLogEntry where
  position : Position
  method : String
  params : String
deriving DecidableEq, Repr

/-- The part of a server that replication touches. `engine` is the sequence of operations the
database has executed; `logBufferCap` is the configured bound of the log buffer. -/
structure AppState where
  cluster : ClusterStateModel
  engine : List ReplicationLogEntry
  replicationLog : List ReplicationLogEntry
  logBufferCap : Option ℕ

section Apply

inductive ReplicationApplyDecision where
  | apply
  | duplicate
  | gap
deriving DecidableEq, Repr

/-- Within the term of the last applied operation only the next sequence number is applied. A
newer term is entered at whichever of its operations comes first. -/
def decideReplicationApply (last op : Position) : ReplicationApplyDecision :=
  match compare op.term last.term with
  | .gt => .apply
  | .lt => .duplicate
  | .eq =>
    match compare op.seq (last.seq + 1) with
    | .eq => .apply
    | .lt => .duplicate
    | .gt => .gap

theorem decideReplicationApply_apply {last op : Position} :
    decideReplicationApply last op = .apply ↔
      last.term < op.term ∨ op.term = last.term ∧ op.seq = last.seq + 1 := by
  unfold decideReplicationApply
  rcases hterm : compare op.term last.term
  · have := Nat.compare_eq_lt.mp hterm
    simp
    omega
  · have := Nat.compare_eq_eq.mp hterm
    rcases hseq : compare op.seq (last.seq + 1)
    · have := Nat.compare_eq_lt.mp hseq
      simp
      omega
    · have := Nat.compare_eq_eq.mp hseq
      simp
      omega
    · have := Nat.compare_eq_gt.mp hseq
      simp
      omega
  · have := Nat.compare_eq_gt.mp hterm
    simp
    omega

theorem lt_of_decideReplicationApply {last op : Position}
    (h : decideReplicationApply last op = .apply) : last < op := by
  rw [decideReplicationApply_apply] at h
  rw [Position.lt_iff]
  omega

def noteAppliedReplication (c : ClusterStateModel) (position : Position) : ClusterStateModel :=
  { c with replication := { c.replication with
      appliedOps := c.replication.appliedOps + 1
      lastApplied := position } }

/-- The replication gate of the request handler: an operation that is not to be applied is
acknowledged and skipped. -/
def handleReplicated (st : AppState) (op : ReplicationLogEntry) : AppState :=
  match decideReplicationApply st.cluster.replication.lastApplied op.position with
  | .apply =>
    { st with
      engine := st.engine ++ [op]
      cluster := noteAppliedReplication st.cluster op.position }
  | .duplicate => st
  | .gap => st

theorem handleReplicated_of_apply {st : AppState} {op : ReplicationLogEntry}
    (h : decideReplicationApply st.cluster.replication.lastApplied op.position = .apply) :
    handleReplicated st op = { st with
      engine := st.engine ++ [op]
      cluster := noteAppliedReplication st.cluster op.position } := by
  simp [handleReplicated, h]

theorem handleReplicated_of_skip {st : AppState} {op : ReplicationLogEntry}
    (h : decideReplicationApply st.cluster.replication.lastApplied op.position ≠ .apply) :
    handleReplicated st op = st := by
  unfold handleReplicated
  split
  · contradiction
  · rfl
  · rfl

end Apply

section Writes

def primaryRpcUrl (c : ClusterStateModel) : Option String :=
  (c.nodes.find? fun n => n.nodeId = c.primaryNodeId).map (·.rpcUrl)

/-- The write guard for a write that no shard owns. -/
def enforceClusterWriteGuard (c : ClusterStateModel) (autoFailover : Bool)
    (nowMs timeoutMs : ℕ) : Except RpcError Unit :=
  if !c.enabled then .ok ()
  else if c.primaryNodeId = c.localNodeId then
    if autoFailover ∧ ¬ clusterHasQuorum c.nodes c.localNodeId nowMs timeoutMs then
      .error ⟨"fenced", "primary has lost quorum and is fenced (writes refused); a " ++
        "majority-side replica will be promoted"⟩
    else .ok ()
  else .error ⟨"forbidden", "write routed to primary node '" ++ c.primaryNodeId ++ "' at " ++
    (primaryRpcUrl c).getD "unknown" ++ " for this shard"⟩

/-- A write that is let through on an enabled cluster is on its primary. -/
theorem enforceClusterWriteGuard_ok {c : ClusterStateModel} {autoFailover : Bool}
    {nowMs timeoutMs : ℕ} (henabled : c.enabled = true)
    (h : enforceClusterWriteGuard c autoFailover nowMs timeoutMs = .ok ()) :
    c.primaryNodeId = c.localNodeId := by
  unfold enforceClusterWriteGuard at h
  rw [henabled] at h
  by_contra hprimary
  simp [hprimary] at h

def replicationLogBufferCap (configured : Option ℕ) : ℕ :=
  match configured with
  | some n => if 1 ≤ n then n else 4096
  | none => 4096

theorem one_le_replicationLogBufferCap (configured : Option ℕ) :
    1 ≤ replicationLogBufferCap configured := by
  unfold replicationLogBufferCap
  rcases configured with _ | n
  · decide
  · dsimp only
    split_ifs with h
    · exact h
    · decide

/-- The operation of a client write, at the next log position. -/
def nextOp (st : AppState) (method params : String) : ReplicationLogEntry :=
  ⟨⟨st.cluster.leadershipEpoch, st.cluster.replication.opSeq + 1⟩, method, params⟩

def appendOp (st : AppState) (op : ReplicationLogEntry) : AppState :=
  let log := st.replicationLog ++ [op]
  { st with
    engine := st.engine ++ [op]
    replicationLog := log.drop (log.length - replicationLogBufferCap st.logBufferCap)
    cluster := { st.cluster with
      replication := { st.cluster.replication with opSeq := op.position.seq } } }

/-- Execute a client write and record it at the next log position. -/
def recordReplicationOp (st : AppState) (method params : String) :
    Option (AppState × ReplicationLogEntry) :=
  if !st.cluster.enabled then none
  else
    let op := nextOp st method params
    some (appendOp st op, op)

theorem recordReplicationOp_some {st st' : AppState} {method params : String}
    {op : ReplicationLogEntry} (h : recordReplicationOp st method params = some (st', op)) :
    st.cluster.enabled = true ∧ op = nextOp st method params ∧ st' = appendOp st op := by
  unfold recordReplicationOp at h
  split_ifs at h with henabled
  obtain ⟨rfl, rfl⟩ := Prod.mk.inj (Option.some.inj h)
  exact ⟨by simpa using henabled, rfl, rfl⟩

/-- The log buffer keeps at least the newest entry. -/
theorem mem_replicationLog_appendOp (st : AppState) (op : ReplicationLogEntry) :
    op ∈ (appendOp st op).replicationLog := by
  have hcap := one_le_replicationLogBufferCap st.logBufferCap
  dsimp only [appendOp]
  rw [List.drop_append_of_le_length]
  · simp
  · simp only [List.length_append, List.length_singleton]
    omega

theorem of_mem_replicationLog_appendOp {st : AppState} {op e : ReplicationLogEntry}
    (h : e ∈ (appendOp st op).replicationLog) : e ∈ st.replicationLog ∨ e = op := by
  simpa using List.mem_of_mem_drop h

/-- The online replicas other than the node itself. -/
def nodesForReplication (c : ClusterStateModel) : List ClusterNode :=
  c.nodes.filter fun n => n.role = .replica ∧ n.status = .online ∧ n.nodeId ≠ c.localNodeId

end Writes

section CatchUp

def replicationCatchupBatch : ℕ := 256

structure FetchResponse where
  ops : List ReplicationLogEntry
  resyncRequired : Bool
  head : Position

/-- The buffered operations after a position. A hole that the buffer cannot fill within the
term of the position asks for a snapshot instead. -/
def clusterReplicationFetch (log : List ReplicationLogEntry) (after : Position) (limit : ℕ) :
    FetchResponse :=
  let limit := max 1 (min limit replicationCatchupBatch)
  let pending := log.filter fun e => after < e.position
  let resyncRequired : Bool := match pending.head? with
    | some first =>
      decide (first.position.term = after.term ∧ after.seq + 1 < first.position.seq)
    | none => false
  { ops := if resyncRequired then [] else pending.take limit
    resyncRequired := resyncRequired
    head := match log.getLast? with
      | some e => e.position
      | none => 0 }

theorem mem_of_mem_fetch {log : List ReplicationLogEntry} {after : Position} {limit : ℕ}
    {op : ReplicationLogEntry} (h : op ∈ (clusterReplicationFetch log after limit).ops) :
    op ∈ log := by
  dsimp only [clusterReplicationFetch] at h
  split_ifs at h
  · simp at h
  · exact List.mem_of_mem_filter (List.mem_of_mem_take h)

end CatchUp

section Commit

/-- The quorum-th highest position. -/
def replicationCommitPosition (positions : List Position) (quorum : ℕ) : Position :=
  if quorum = 0 ∨ positions.length < quorum then 0
  else (positions.insertionSort (· ≥ ·)).getD (quorum - 1) 0

/-- A primary counts its own log head, a replica its last applied position. -/
def localPosition (c : ClusterStateModel) : Position :=
  if c.localNodeId = c.primaryNodeId then ⟨c.leadershipEpoch, c.replication.opSeq⟩
  else c.replication.lastApplied

def clusterCommitPosition (c : ClusterStateModel) : Position :=
  replicationCommitPosition
    (c.nodes.map fun n => if n.nodeId = c.localNodeId then localPosition c else n.applied)
    (clusterQuorumSize c.nodes.length)

/-- What a heartbeat carries. -/
structure Heartbeat where
  nodeId : NodeId
  appliedOps : ℕ
  applied : Position
  commit : Position
deriving DecidableEq, Repr

/-- One heartbeat round: a primary first recomputes and records the commit index. -/
def runClusterHeartbeatOnce (c : ClusterStateModel) : ClusterStateModel × Heartbeat :=
  let c' := if c.localNodeId = c.primaryNodeId then
    { c with replication := { c.replication with commit := clusterCommitPosition c } } else c
  (c', ⟨c.localNodeId, c.replication.appliedOps, localPosition c, c'.replication.commit⟩)

def heardFrom (hb : Heartbeat) (nowMs : ℕ) (node : ClusterNode) : ClusterNode :=
  { node with
    lastSeenMs := nowMs
    status := .online
    appliedOps := max node.appliedOps hb.appliedOps
    applied := if node.applied < hb.applied then hb.applied else node.applied }

/-- Change the first row of the member table with this id. -/
def modifyNode (f : ClusterNode → ClusterNode) (nodeId : NodeId) :
    List ClusterNode → List ClusterNode
  | [] => []
  | node :: nodes =>
    if node.nodeId = nodeId then f node :: nodes else node :: modifyNode f nodeId nodes

def recordHeartbeat (c : ClusterStateModel) (hb : Heartbeat) (nowMs : ℕ) : ClusterStateModel :=
  { c with
    nodes := modifyNode (heardFrom hb nowMs) hb.nodeId c.nodes
    replication := { c.replication with
      commit := if hb.nodeId = c.primaryNodeId ∧ c.replication.commit < hb.commit then hb.commit
        else c.replication.commit } }

def clusterNodeHeartbeat (c : ClusterStateModel) (hb : Heartbeat) (nowMs : ℕ) :
    Except RpcError ClusterStateModel :=
  if hb.nodeId ∉ c.nodes.map (·.nodeId) then .error ⟨"not_found", "node not found"⟩
  else .ok (recordHeartbeat c hb nowMs)

theorem clusterNodeHeartbeat_ok {c c' : ClusterStateModel} {hb : Heartbeat} {nowMs : ℕ}
    (h : clusterNodeHeartbeat c hb nowMs = .ok c') : c' = recordHeartbeat c hb nowMs := by
  unfold clusterNodeHeartbeat at h
  split_ifs at h
  exact (Except.ok.inj h).symm

theorem map_nodeId_modifyNode {f : ClusterNode → ClusterNode} (hf : ∀ n, (f n).nodeId = n.nodeId)
    (nodeId : NodeId) (nodes : List ClusterNode) :
    (modifyNode f nodeId nodes).map (·.nodeId) = nodes.map (·.nodeId) := by
  induction nodes with
  | nil => rfl
  | cons node nodes ih =>
    unfold modifyNode
    split_ifs
    · simp [hf]
    · simp [ih]

theorem mem_modifyNode {f : ClusterNode → ClusterNode} {nodeId : NodeId}
    {nodes : List ClusterNode} {n : ClusterNode} (h : n ∈ modifyNode f nodeId nodes) :
    n ∈ nodes ∨ ∃ m ∈ nodes, m.nodeId = nodeId ∧ n = f m := by
  induction nodes with
  | nil => simp [modifyNode] at h
  | cons node nodes ih =>
    unfold modifyNode at h
    split_ifs at h with hid
    · rcases List.mem_cons.mp h with rfl | h
      · exact Or.inr ⟨node, by simp, hid, rfl⟩
      · exact Or.inl (by simp [h])
    · rcases List.mem_cons.mp h with rfl | h
      · exact Or.inl (by simp)
      · rcases ih h with h | ⟨m, hm, hrest⟩
        · exact Or.inl (by simp [h])
        · exact Or.inr ⟨m, by simp [hm], hrest⟩

end Commit

section Sample

/-- The table row of a node that has joined and advertised nothing yet. -/
def joinedNode (nodeId : NodeId) (role : NodeRole) (lastSeenMs : ℕ) : ClusterNode :=
  ⟨nodeId, "http://" ++ nodeId ++ ":8080", role, .online, lastSeenMs, 0, 0⟩

/-- A server of the cluster of `a`, `b` and `c` before any write: `a` is primary, and of the
shard `orders` too. -/
def sampleServer (n : NodeId) : AppState where
  cluster := {
    enabled := true
    localNodeId := n
    primaryNodeId := "a"
    nodes := [joinedNode "a" .primary 1000, joinedNode "b" .replica 7000,
      joinedNode "c" .replica 8000]
    shards := [⟨"orders", "a", ["b", "c"], 0⟩]
    replication := ⟨0, 0, 0, 0⟩
    leadershipEpoch := 0
    votedEpoch := 0
    votedFor := ""
    shardVotes := fun _ => none }
  engine := []
  replicationLog := []
  logBufferCap := none

end Sample

end SkeinDB.Cluster
