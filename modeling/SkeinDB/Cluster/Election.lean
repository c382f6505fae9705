import SkeinDB.Cluster.State

/-!
# Votes and elections on one node

A node votes through `clusterRequestVote` and runs its own elections, for the whole cluster
or for one shard, in two halves: starting one picks the next term, casts its own vote and
asks its peers; finishing one counts the votes and promotes the node.
-/
namespace SkeinDB.Cluster
open Consensus

section Votes

/-- The latest vote of a node: the whole-cluster one for `none`, else the shard's. -/
def lastVote (c : ClusterStateModel) : Option ShardId → ℕ × NodeId
  | none => (c.votedEpoch, c.votedFor)
  | some shardId => (c.shardVotes shardId).getD (0, "")

def recordVote (c : ClusterStateModel) (shardId : Option ShardId) (term : ℕ)
    (candidate : NodeId) : ClusterStateModel :=
  match shardId with
  | none => { c with votedEpoch := term, votedFor := candidate }
  | some shardId =>
    { c with shardVotes := Function.update c.shardVotes shardId (some (term, candidate)) }

/-- The candidate's log position and count of applied operations are not behind ours. -/
def upToDate (c : ClusterStateModel) (candidateAppliedOps : ℕ) (candidateLast : Position) :
    Bool :=
  toLex (c.replication.lastApplied, c.replication.appliedOps) ≤
    toLex (candidateLast, candidateAppliedOps)

/-- The whole-cluster vote rule: a term newer than our last vote and than the leader we know,
or the same candidate asking again in the same term. -/
def grantsCluster (c : ClusterStateModel) (candidate : NodeId) (term : ℕ) : Bool :=
  if c.votedEpoch < term ∧ c.leadershipEpoch < term then true
  else decide (term = c.votedEpoch ∧ c.votedFor = candidate)

def grantsShard (c : ClusterStateModel) (shard : ClusterShard) (id : ShardId)
    (candidate : NodeId) (term : ℕ) : Bool :=
  match c.shardVotes id with
  | some (votedTerm, votedFor) =>
    if term ≤ votedTerm then decide (votedTerm = term ∧ votedFor = candidate)
    else decide (shard.leadershipEpoch < term)
  | none => decide (shard.leadershipEpoch < term)

def clusterRequestVote (c : ClusterStateModel) (candidate : NodeId)
    (term candidateAppliedOps : ℕ) (candidateLast : Position) (shardId : Option ShardId) :
    Except RpcError (Bool × ClusterStateModel) :=
  if candidate ∉ c.nodes.map (·.nodeId) then
    .error ⟨"not_found", "candidate not in cluster"⟩
  else match shardId with
    | some id =>
      match findShard c id with
      | none => .error ⟨"not_found", "shard not found"⟩
      | some shard =>
        let grant := upToDate c candidateAppliedOps candidateLast &&
          grantsShard c shard id candidate term
        .ok (grant, if grant then recordVote c (some id) term candidate else c)
    | none =>
      let grant := upToDate c candidateAppliedOps candidateLast && grantsCluster c candidate term
      .ok (grant, if grant then recordVote c none term candidate else c)

/-- The latest votes depend on the recorded votes only. -/
theorem lastVote_congr {c c' : ClusterStateModel} (hepoch : c'.votedEpoch = c.votedEpoch)
    (hcandidate : c'.votedFor = c.votedFor) (hshards : c'.shardVotes = c.shardVotes) :
    lastVote c' = lastVote c := by
  funext race
  cases race with
  | none => simp only [lastVote, hepoch, hcandidate]
  | some id => simp only [lastVote, hshards]

theorem lastVote_recordVote (c : ClusterStateModel) (shardId k : Option ShardId) (term : ℕ)
    (candidate : NodeId) : lastVote (recordVote c shardId term candidate) k =
      if k = shardId then (term, candidate) else lastVote c k := by
  rcases shardId with _ | s <;> rcases k with _ | k
  · rfl
  · rfl
  · rfl
  · by_cases hk : k = s
    · subst hk
      simp [lastVote, recordVote]
    · simp [lastVote, recordVote, hk]

section Fields
variable (c : ClusterStateModel) (shardId : Option ShardId) (term : ℕ) (candidate : NodeId)

@[simp] theorem recordVote_nodes : (recordVote c shardId term candidate).nodes = c.nodes := by
  cases shardId <;> rfl

@[simp] theorem recordVote_shards : (recordVote c shardId term candidate).shards = c.shards := by
  cases shardId <;> rfl

@[simp] theorem recordVote_localNodeId :
    (recordVote c shardId term candidate).localNodeId = c.localNodeId := by
  cases shardId <;> rfl

@[simp] theorem recordVote_primaryNodeId :
    (recordVote c shardId term candidate).primaryNodeId = c.primaryNodeId := by
  cases shardId <;> rfl

@[simp] theorem recordVote_leadershipEpoch :
    (recordVote c shardId term candidate).leadershipEpoch = c.leadershipEpoch := by
  cases shardId <;> rfl

end Fields

theorem le_of_upToDate {c : ClusterStateModel} {ops : ℕ} {last : Position}
    (h : upToDate c ops last = true) : c.replication.lastApplied ≤ last := by
  simp only [upToDate, decide_eq_true_eq, Prod.Lex.toLex_le_toLex] at h
  rcases h with hlt | ⟨heq, -⟩
  · exact hlt.le
  · exact heq.le

theorem grantsCluster_term {c : ClusterStateModel} {candidate : NodeId} {term : ℕ}
    (h : grantsCluster c candidate term = true) :
    (lastVote c none).1 < term ∨ lastVote c none = (term, candidate) := by
  unfold grantsCluster at h
  split_ifs at h with hnew
  · exact Or.inl hnew.1
  · right
    simp only [decide_eq_true_eq] at h
    simp [lastVote, h]

theorem grantsShard_term {c : ClusterStateModel} {shard : ClusterShard} {id : ShardId}
    {candidate : NodeId} {term : ℕ} (h : grantsShard c shard id candidate term = true) :
    (lastVote c (some id)).1 < term ∨ lastVote c (some id) = (term, candidate) := by
  unfold grantsShard at h
  rcases hprior : c.shardVotes id with _ | ⟨votedTerm, votedFor⟩
  · left
    simp only [hprior, decide_eq_true_eq] at h
    simp only [lastVote, hprior, Option.getD_none]
    omega
  · simp only [hprior] at h
    split_ifs at h with hold
    · right
      simp only [decide_eq_true_eq] at h
      simp [lastVote, hprior, h]
    · left
      simp only [lastVote, hprior, Option.getD_some]
      omega

/-- A granted vote goes to a candidate that is not behind, in a term later than the last vote
or as a repetition of it, and is recorded; a refused one changes nothing. -/
theorem clusterRequestVote_ok {c c' : ClusterStateModel} {candidate : NodeId}
    {term ops : ℕ} {last : Position} {shardId : Option ShardId} {granted : Bool}
    (h : clusterRequestVote c candidate term ops last shardId = .ok (granted, c')) :
    (granted = true ∧ c.replication.lastApplied ≤ last ∧
      ((lastVote c shardId).1 < term ∨ lastVote c shardId = (term, candidate)) ∧
      c' = recordVote c shardId term candidate) ∨ (granted = false ∧ c' = c) := by
  unfold clusterRequestVote at h
  by_cases hmem : candidate ∉ c.nodes.map (·.nodeId)
  · rw [if_pos hmem] at h
    cases h
  · rw [if_neg hmem] at h
    rcases shardId with _ | id
    · obtain ⟨rfl, rfl⟩ := Prod.mk.inj (Except.ok.inj h)
      rcases hg : upToDate c ops last && grantsCluster c candidate term
      · exact Or.inr ⟨rfl, rfl⟩
      · obtain ⟨hup, hterm⟩ := Bool.and_eq_true_iff.mp hg
        exact Or.inl ⟨rfl, le_of_upToDate hup, grantsCluster_term hterm, rfl⟩
    · rcases hshard : findShard c id with _ | shard
      · simp [hshard] at h
      · simp only [hshard] at h
        obtain ⟨rfl, rfl⟩ := Prod.mk.inj (Except.ok.inj h)
        rcases hg : upToDate c ops last && grantsShard c shard id candidate term
        · exact Or.inr ⟨rfl, rfl⟩
        · obtain ⟨hup, hterm⟩ := Bool.and_eq_true_iff.mp hg
          exact Or.inl ⟨rfl, le_of_upToDate hup, grantsShard_term hterm, rfl⟩

end Votes

section Elections

/-- An election under way at its candidate: the term, the votes needed, the peers asked, and
the candidate's progress that the requests carry. -/
structure Election where
  candidate : NodeId
  shardId : Option ShardId
  term : ℕ
  quorum : ℕ
  peers : List NodeId
  appliedOps : ℕ
  last : Position
  nowMs : ℕ
  timeoutMs : ℕ
deriving DecidableEq, Repr

/-- The first half of `run_cluster_election`. -/
def startClusterElection (c : ClusterStateModel) (nowMs timeoutMs : ℕ) :
    Option (Election × ClusterStateModel) :=
  if c.primaryNodeId = c.localNodeId ∨
      ¬ clusterHasQuorum c.nodes c.localNodeId nowMs timeoutMs then none
  else
    let term := max c.leadershipEpoch c.votedEpoch + 1
    some ({
      candidate := c.localNodeId
      shardId := none
      term := term
      quorum := clusterQuorumSize c.nodes.length
      peers := (c.nodes.map (·.nodeId)).filter (· ≠ c.localNodeId)
      appliedOps := c.replication.appliedOps
      last := c.replication.lastApplied
      nowMs := nowMs
      timeoutMs := timeoutMs }, recordVote c none term c.localNodeId)

/-- The first half of `run_shard_election`. The failover tick runs it only on a replica of the
shard, and the node set of a shard does not change in between. -/
def startShardElection (c : ClusterStateModel) (shardId : ShardId) (nowMs timeoutMs : ℕ) :
    Option (Election × ClusterStateModel) :=
  match findShard c shardId with
  | none => none
  | some shard =>
    if c.localNodeId ∉ shard.replicas ∨ shard.primaryNodeId = c.localNodeId ∨
        ¬ shardHasQuorum shard c.nodes c.localNodeId nowMs timeoutMs then none
    else
      let nodeSet := shardNodeIds shard
      let term := max shard.leadershipEpoch (lastVote c (some shardId)).1 + 1
      some ({
        candidate := c.localNodeId
        shardId := some shardId
        term := term
        quorum := clusterQuorumSize nodeSet.length
        peers := (c.nodes.map (·.nodeId)).filter fun n => n ≠ c.localNodeId ∧ n ∈ nodeSet
        appliedOps := c.replication.appliedOps
        last := c.replication.lastApplied
        nowMs := nowMs
        timeoutMs := timeoutMs }, recordVote c (some shardId) term c.localNodeId)

/-- The second half of both elections: with enough votes the candidate takes over, unless a
newer leadership has emerged or it has lost its quorum meanwhile. -/
def promoteElected (c : ClusterStateModel) (e : Election) (votes : ℕ) :
    Option ClusterStateModel :=
  if votes < e.quorum then none
  else match e.shardId with
    | none =>
      if e.term ≤ c.leadershipEpoch ∨
          ¬ clusterHasQuorum c.nodes c.localNodeId e.nowMs e.timeoutMs then none
      else some (applyWholeClusterPromotion c c.localNodeId e.term e.nowMs)
    | some shardId =>
      match findShard c shardId with
      | none => none
      | some shard =>
        if shard.leadershipEpoch < e.term ∧
            shardHasQuorum shard c.nodes c.localNodeId e.nowMs e.timeoutMs then
          some { c with
            shards := modifyShard (applyShardPromotion · c.localNodeId e.term) shardId c.shards }
        else none

theorem promoteElected_cluster {c c' : ClusterStateModel} {e : Election} {votes : ℕ}
    (hrace : e.shardId = none) (h : promoteElected c e votes = some c') :
    c.leadershipEpoch < e.term ∧
      c' = applyWholeClusterPromotion c c.localNodeId e.term e.nowMs := by
  unfold promoteElected at h
  rw [hrace] at h
  split_ifs at h with hvotes hbail
  refine ⟨?_, (Option.some.inj h).symm⟩
  by_contra hepoch
  exact hbail (Or.inl (not_lt.mp hepoch))

theorem promoteElected_shard {c c' : ClusterStateModel} {e : Election} {votes : ℕ} {id : ShardId}
    (hrace : e.shardId = some id) (h : promoteElected c e votes = some c') :
    c' = { c with
      shards := modifyShard (applyShardPromotion · c.localNodeId e.term) id c.shards } := by
  unfold promoteElected at h
  rw [hrace] at h
  dsimp only at h
  split_ifs at h with hvotes
  rcases hfind : findShard c id with _ | shard
  · simp [hfind] at h
  · simp only [hfind] at h
    split_ifs at h
    exact (Option.some.inj h).symm

end Elections

end SkeinDB.Cluster
