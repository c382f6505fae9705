import SkeinDB.Cluster.Election
import SkeinDB.Cluster.Replication
import SkeinDB.Consensus.Ballots

/-!
# The cluster as a system

Servers with a fixed membership exchange messages over a network that may lose, repeat and
reorder them: a message once sent stays in the network and may be delivered any number of
times, or never. An action is one critical section of a server. Besides the servers, the
system keeps the history that its properties speak of: the votes cast, the elections won, the
writes, and the commit positions that primaries computed.
-/
namespace SkeinDB.Cluster
open Consensus

inductive Message where
  | requestVote (dst candidate : NodeId) (term appliedOps : ℕ) (last : Position)
    (shardId : Option ShardId)
  | granted (voter candidate : NodeId) (term : ℕ) (shardId : Option ShardId)
  | leaderAnnounce (dst nodeId : NodeId) (epoch : ℕ) (shardId : Option ShardId)
  | replicate (dst : NodeId) (op : ReplicationLogEntry)
  | heartbeat (dst : NodeId) (hb : Heartbeat)
deriving DecidableEq, Repr

/-- A vote cast, with the position of the candidate at the start of its election. -/
structure Grant where
  ballot : Ballot NodeId (Option ShardId)
  last : Position

/-- An election won, with the operations the winner had executed by then. -/
structure Win where
  node : NodeId
  shardId : Option ShardId
  term : ℕ
  last : Position
  engine : List ReplicationLogEntry

structure Write where
  node : NodeId
  op : ReplicationLogEntry

/-- A commit position computed by a primary, with its operations at or below it. -/
structure CommitReport where
  node : NodeId
  epoch : ℕ
  commit : Position
  ops : List ReplicationLogEntry

structure System where
  members : List NodeId
  servers : NodeId → AppState
  network : List Message
  elections : List Election
  grants : List Grant
  wins : List Win
  writes : List Write
  reports : List CommitReport

inductive Action where
  | startElection (n : NodeId) (nowMs timeoutMs : ℕ)
  | startShardElection (n : NodeId) (shardId : ShardId) (nowMs timeoutMs : ℕ)
  | finishElection (e : Election) (heard : List NodeId)
  | deliver (m : Message) (nowMs : ℕ)
  | write (n : NodeId) (method params : String) (autoFailover : Bool) (nowMs timeoutMs : ℕ)
  | heartbeat (n : NodeId)
  | catchUp (n : NodeId)

namespace System

def setServer (s : System) (n : NodeId) (st : AppState) : System :=
  { s with servers := Function.update s.servers n st }

def setCluster (s : System) (n : NodeId) (c : ClusterStateModel) : System :=
  s.setServer n { s.servers n with cluster := c }

def send (s : System) (msgs : List Message) : System := { s with network := msgs ++ s.network }

/-- The vote `voter` casts for the candidate of an election. -/
def castVote (s : System) (voter candidate : NodeId) (shardId : Option ShardId) (term : ℕ)
    (last : Position) : System :=
  { s with grants := ⟨⟨voter, shardId, term, candidate⟩, last⟩ :: s.grants }

def addElection (s : System) (e : Election) : System := { s with elections := e :: s.elections }

def addWin (s : System) (w : Win) : System := { s with wins := w :: s.wins }

def addWrite (s : System) (w : Write) : System := { s with writes := w :: s.writes }

def beginElection (s : System) (n : NodeId) :
    Option (Election × ClusterStateModel) → Option System
  | none => none
  | some (e, c) =>
    let s := (s.setCluster n c).castVote n e.candidate e.shardId e.term e.last
    some ((s.addElection e).send
      (e.peers.map fun p => .requestVote p e.candidate e.term e.appliedOps e.last e.shardId))

/-- The votes a candidate counts: its own, and one for each peer whose answer arrived and
granted the vote. -/
def countVotes (s : System) (e : Election) (heard : List NodeId) : ℕ :=
  1 + (e.peers.filter fun p =>
    p ∈ heard ∧ Message.granted p e.candidate e.term e.shardId ∈ s.network).length

/-- The peers a new leader announces itself to. -/
def announceTargets (c : ClusterStateModel) : Option ShardId → List NodeId
  | none => (c.nodes.map (·.nodeId)).filter (· ≠ c.localNodeId)
  | some shardId =>
    match findShard c shardId with
    | none => []
    | some shard => (c.nodes.map (·.nodeId)).filter fun n =>
        n ≠ c.localNodeId ∧ n ∈ shardNodeIds shard

def finish (s : System) (e : Election) (heard : List NodeId) : Option System :=
  if e ∈ s.elections then
    let st := s.servers e.candidate
    match promoteElected st.cluster e (s.countVotes e heard) with
    | none => none
    | some c =>
      let s := (s.setCluster e.candidate c).addWin
        ⟨e.candidate, e.shardId, e.term, e.last, st.engine⟩
      some (s.send ((announceTargets c e.shardId).map fun p =>
        .leaderAnnounce p e.candidate e.term e.shardId))
  else none

def receive (s : System) (nowMs : ℕ) : Message → Option System
  | .requestVote dst candidate term appliedOps last shardId =>
    match clusterRequestVote (s.servers dst).cluster candidate term appliedOps last shardId with
    | .ok (true, c) =>
      some (((s.setCluster dst c).castVote dst candidate shardId term last).send
        [.granted dst candidate term shardId])
    | .ok (false, c) => some (s.setCluster dst c)
    | .error _ => some s
  -- a granted vote is counted by its candidate when the election finishes
  | .granted .. => none
  | .leaderAnnounce dst nodeId epoch shardId =>
    match clusterLeaderAnnounce (s.servers dst).cluster nodeId epoch shardId nowMs with
    | .ok c => some (s.setCluster dst c)
    | .error _ => some s
  | .replicate dst op => some (s.setServer dst (handleReplicated (s.servers dst) op))
  | .heartbeat dst hb =>
    match clusterNodeHeartbeat (s.servers dst).cluster hb nowMs with
    | .ok c => some (s.setCluster dst c)
    | .error _ => some s

/-- A client write on a node: the guard, the execution with its log position, the fan-out. -/
def clientWrite (s : System) (n : NodeId) (method params : String) (autoFailover : Bool)
    (nowMs timeoutMs : ℕ) : Option System :=
  match enforceClusterWriteGuard (s.servers n).cluster autoFailover nowMs timeoutMs with
  | .error _ => none
  | .ok () =>
    match recordReplicationOp (s.servers n) method params with
    | none => none
    | some (st, op) =>
      some (((s.setServer n st).addWrite ⟨n, op⟩).send
        ((nodesForReplication st.cluster).map fun t => .replicate t.nodeId op))

/-- A primary's commit position, as it stands, enters the history. -/
def reportCommit (s : System) (n : NodeId) : System :=
  let st := s.servers n
  if st.cluster.localNodeId = st.cluster.primaryNodeId then
    { s with reports := ⟨n, st.cluster.leadershipEpoch, st.cluster.replication.commit,
        st.engine.filter (·.position ≤ st.cluster.replication.commit)⟩ :: s.reports }
  else s

def beat (s : System) (n : NodeId) : System :=
  let round := runClusterHeartbeatOnce (s.servers n).cluster
  let targets := (round.1.nodes.map (·.nodeId)).filter (· ≠ round.1.localNodeId)
  ((s.setCluster n round.1).reportCommit n).send
    (if round.1.enabled then targets.map fun p => .heartbeat p round.2 else [])

/-- A replica pulls the operations after its position from the primary it knows and posts them
to itself. -/
def catchUp (s : System) (n : NodeId) : Option System :=
  let c := (s.servers n).cluster
  if c.enabled ∧ c.localNodeId ≠ c.primaryNodeId ∧ c.primaryNodeId ∈ c.nodes.map (·.nodeId) then
    let log := (s.servers c.primaryNodeId).replicationLog
    let response := clusterReplicationFetch log c.replication.lastApplied replicationCatchupBatch
    some (s.send (response.ops.map fun op => .replicate n op))
  else none

def recipient : Message → NodeId
  | .requestVote dst .. => dst
  | .granted _ candidate .. => candidate
  | .leaderAnnounce dst .. => dst
  | .replicate dst _ => dst
  | .heartbeat dst _ => dst

/-- One action of the system, taken by a member. -/
def act (s : System) : Action → Option System
  | .startElection n nowMs timeoutMs =>
    if n ∈ s.members then
      s.beginElection n (startClusterElection (s.servers n).cluster nowMs timeoutMs)
    else none
  | .startShardElection n shardId nowMs timeoutMs =>
    if n ∈ s.members then
      s.beginElection n (startShardElection (s.servers n).cluster shardId nowMs timeoutMs)
    else none
  | .finishElection e heard => s.finish e heard
  | .deliver m nowMs =>
    if m ∈ s.network ∧ recipient m ∈ s.members then s.receive nowMs m else none
  | .write n method params autoFailover nowMs timeoutMs =>
    if n ∈ s.members then s.clientWrite n method params autoFailover nowMs timeoutMs else none
  | .heartbeat n => if n ∈ s.members then some (s.beat n) else none
  | .catchUp n => if n ∈ s.members then s.catchUp n else none

def run (s : System) : List Action → Option System
  | [] => some s
  | a :: as =>
    match s.act a with
    | none => none
    | some s' => s'.run as

end System

section Sample

def sampleSystem : System where
  members := ["a", "b", "c"]
  servers := sampleServer
  network := []
  elections := []
  grants := []
  wins := []
  writes := []
  reports := []

def sampleShardMembers (shardId : ShardId) : List NodeId :=
  if shardId = "orders" then ["b", "c", "a"] else []

end Sample

end SkeinDB.Cluster
