import SkeinDB.Cluster.Safety
import SkeinDB.Consensus.LeaderLog

/-!
# The cluster as leader logs

`view` reads a system as a state of `LeaderLog`: whole-cluster elections and wins, the writes,
and of each server its last whole-cluster vote, its last applied position, its engine and its
log buffer. `Careful` says which steps follow the discipline that leader completeness needs and
that the code itself does not enforce.
-/
namespace SkeinDB.Cluster
open Consensus

section View

def Win.leader (w : Win) : Option (LeaderLog.Leader NodeId ReplicationLogEntry) :=
  if w.shardId = none then some ⟨w.node, w.term, w.last, w.engine⟩ else none

def Grant.vote (g : Grant) : Option (LeaderLog.Vote NodeId) :=
  if g.ballot.race = none then some ⟨g.ballot.voter, g.ballot.candidate, g.ballot.term, g.last⟩
  else none

def Election.bid (e : Election) : Option (LeaderLog.Bid NodeId) :=
  if e.shardId = none then some ⟨e.candidate, e.term, e.last⟩ else none

/-- `first` is the primary the cluster starts with, with nothing written. -/
def view (first : NodeId) (s : System) : LeaderLog.State NodeId ReplicationLogEntry where
  voted := fun n => (s.servers n).cluster.votedEpoch
  last := fun n => (s.servers n).cluster.replication.lastApplied
  held := fun n => (s.servers n).engine
  own := fun n => (s.servers n).replicationLog
  leaders := s.wins.filterMap Win.leader ++ [⟨first, 0, 0, []⟩]
  writes := s.writes.map fun w => (w.node, w.op)
  votes := s.grants.filterMap Grant.vote
  bids := s.elections.filterMap Election.bid

variable (first : NodeId) (s : System)

theorem view_setServer (n : NodeId) (st : AppState) :
    view first (s.setServer n st) = { view first s with
      voted := Function.update (view first s).voted n st.cluster.votedEpoch
      last := Function.update (view first s).last n st.cluster.replication.lastApplied
      held := Function.update (view first s).held n st.engine
      own := Function.update (view first s).own n st.replicationLog } := by
  simp only [view, System.setServer, LeaderLog.State.mk.injEq, and_true]
  refine ⟨?_, ?_, ?_, ?_⟩ <;>
  · funext m
    by_cases hm : m = n
    · subst hm
      simp
    · simp [hm]

/-- A change to the parts of a server that the view does not show. -/
theorem view_setServer_same {n : NodeId} {st : AppState}
    (hvoted : st.cluster.votedEpoch = (s.servers n).cluster.votedEpoch)
    (hlast : st.cluster.replication.lastApplied = (s.servers n).cluster.replication.lastApplied)
    (hheld : st.engine = (s.servers n).engine)
    (hown : st.replicationLog = (s.servers n).replicationLog) :
    view first (s.setServer n st) = view first s := by
  rw [view_setServer, hvoted, hlast, hheld, hown]
  simp [view]

theorem view_setCluster_same {n : NodeId} {c : ClusterStateModel}
    (hvoted : c.votedEpoch = (s.servers n).cluster.votedEpoch)
    (hlast : c.replication.lastApplied = (s.servers n).cluster.replication.lastApplied) :
    view first (s.setCluster n c) = view first s :=
  view_setServer_same first s hvoted hlast rfl rfl

@[simp] theorem view_send (msgs : List Message) : view first (s.send msgs) = view first s := rfl

theorem view_castVote (voter candidate : NodeId) (race : Option ShardId) (term : ℕ)
    (last : Position) : view first (s.castVote voter candidate race term last) =
      { view first s with
        votes := if race = none then ⟨voter, candidate, term, last⟩ :: (view first s).votes
          else (view first s).votes } := by
  by_cases hrace : race = none
  · simp [view, System.castVote, Grant.vote, hrace]
  · simp [view, System.castVote, Grant.vote, hrace]

theorem view_addElection (e : Election) : view first (s.addElection e) =
    { view first s with
      bids := if e.shardId = none then ⟨e.candidate, e.term, e.last⟩ :: (view first s).bids
        else (view first s).bids } := by
  by_cases hrace : e.shardId = none
  · simp [view, System.addElection, Election.bid, hrace]
  · simp [view, System.addElection, Election.bid, hrace]

theorem view_addWin (w : Win) : view first (s.addWin w) =
    { view first s with
      leaders := if w.shardId = none then
          ⟨w.node, w.term, w.last, w.engine⟩ :: (view first s).leaders
        else (view first s).leaders } := by
  by_cases hrace : w.shardId = none
  · simp [view, System.addWin, Win.leader, hrace]
  · simp [view, System.addWin, Win.leader, hrace]

theorem view_addWrite (w : Write) : view first (s.addWrite w) =
    { view first s with writes := (w.node, w.op) :: (view first s).writes } := rfl

@[simp] theorem view_reportCommit (n : NodeId) :
    view first (s.reportCommit n) = view first s := by
  unfold System.reportCommit
  dsimp only
  split_ifs <;> rfl

theorem mem_view_leaders {l : LeaderLog.Leader NodeId ReplicationLogEntry} :
    l ∈ (view first s).leaders ↔
      (∃ w ∈ s.wins, w.shardId = none ∧ l = ⟨w.node, w.term, w.last, w.engine⟩) ∨
        l = ⟨first, 0, 0, []⟩ := by
  simp only [view, List.mem_append, List.mem_filterMap, List.mem_singleton]
  constructor
  · rintro (⟨w, hw, hl⟩ | hl)
    · unfold Win.leader at hl
      split_ifs at hl with hrace
      exact Or.inl ⟨w, hw, hrace, (Option.some.inj hl).symm⟩
    · exact Or.inr hl
  · rintro (⟨w, hw, hrace, rfl⟩ | hl)
    · exact Or.inl ⟨w, hw, by simp [Win.leader, hrace]⟩
    · exact Or.inr hl

theorem mem_view_votes {v : LeaderLog.Vote NodeId} :
    v ∈ (view first s).votes ↔ ∃ g ∈ s.grants, g.ballot.race = none ∧
      v = ⟨g.ballot.voter, g.ballot.candidate, g.ballot.term, g.last⟩ := by
  simp only [view, List.mem_filterMap]
  constructor
  · rintro ⟨g, hg, hv⟩
    unfold Grant.vote at hv
    split_ifs at hv with hrace
    exact ⟨g, hg, hrace, (Option.some.inj hv).symm⟩
  · rintro ⟨g, hg, hrace, rfl⟩
    exact ⟨g, hg, by simp [Grant.vote, hrace]⟩

theorem mem_view_bids {b : LeaderLog.Bid NodeId} :
    b ∈ (view first s).bids ↔
      ∃ e ∈ s.elections, e.shardId = none ∧ b = ⟨e.candidate, e.term, e.last⟩ := by
  simp only [view, List.mem_filterMap]
  constructor
  · rintro ⟨e, he, hb⟩
    unfold Election.bid at hb
    split_ifs at hb with hrace
    exact ⟨e, he, hrace, (Option.some.inj hb).symm⟩
  · rintro ⟨e, he, hrace, rfl⟩
    exact ⟨e, he, by simp [Election.bid, hrace]⟩

end View

section Careful

/-- The log of the primary of the term of `p`, before `p`: what it held when it won the term,
and its writes of the term below `p`. -/
def logBefore (s : System) (p : Position) : List ReplicationLogEntry :=
  ((s.wins.filter fun w => w.shardId = none ∧ w.term = p.term).flatMap (·.engine)) ++
    (s.writes.map (·.op)).filter fun o => o.position.term = p.term ∧ o.position.seq < p.seq

/-- The position of the primary itself that counts for a commit position: its log head in its
own term, else its last applied position. -/
def ownPosition (c : ClusterStateModel) (commit : Position) : Position :=
  if commit.term = c.leadershipEpoch then ⟨c.leadershipEpoch, c.replication.opSeq⟩
  else c.replication.lastApplied

/-- At or above a position, in its term. -/
def Within (p q : Position) : Prop := q.term = p.term ∧ p.seq ≤ q.seq

instance (p q : Position) : Decidable (Within p q) := inferInstanceAs (Decidable (_ ∧ _))

/-- A commit position that is not of a later term than the primary's, and that a majority, the
primary among it, has reached in the term of that position. -/
def CommitHeld (c : ClusterStateModel) : Prop :=
  let commit := clusterCommitPosition c
  commit = 0 ∨ commit.term ≤ c.leadershipEpoch ∧ Within commit (ownPosition c commit) ∧
    clusterQuorumSize c.nodes.length ≤ (c.nodes.filter fun n => Within commit
      (if n.nodeId = c.localNodeId then ownPosition c commit else n.applied)).length

instance (c : ClusterStateModel) : Decidable (CommitHeld c) :=
  inferInstanceAs (Decidable (_ ∨ _))

/-- Whether an action keeps to the discipline:
a whole-cluster vote goes to no candidate behind a write the voter recorded as a primary;
an operation is applied only in a term not older than the replica's last vote, and the first of
a newer term only by a replica that holds exactly the log of that term's primary before it;
a primary takes a write only if it has neither voted in nor followed a later term than its own;
and a primary computes no commit position that is not held by a majority within its term. -/
def Careful (s : System) : Action → Prop
  | .deliver (.requestVote dst candidate term appliedOps last none) _ =>
    (clusterRequestVote (s.servers dst).cluster candidate term appliedOps last none).toOption.any
      (·.1) → dst ≠ candidate → ∀ op ∈ (s.servers dst).replicationLog, op.position ≤ last
  | .deliver (.replicate dst op) _ =>
    decideReplicationApply (s.servers dst).cluster.replication.lastApplied op.position = .apply →
      (s.servers dst).cluster.votedEpoch ≤ op.position.term ∧
      ((s.servers dst).cluster.replication.lastApplied.term < op.position.term →
        (∀ x ∈ (s.servers dst).engine, x ∈ logBefore s op.position) ∧
          ∀ x ∈ logBefore s op.position, x ∈ (s.servers dst).engine)
  | .write n .. =>
    (s.servers n).cluster.votedEpoch ≤ (s.servers n).cluster.leadershipEpoch ∧
      (s.servers n).cluster.replication.lastApplied.term ≤ (s.servers n).cluster.leadershipEpoch
  | .heartbeat n =>
    (s.servers n).cluster.localNodeId = (s.servers n).cluster.primaryNodeId →
      CommitHeld (s.servers n).cluster
  | _ => True

instance (s : System) : (a : Action) → Decidable (Careful s a)
  | .deliver (.requestVote _ _ _ _ _ none) _ => inferInstanceAs (Decidable (_ → _))
  | .deliver (.requestVote _ _ _ _ _ (some _)) _ => isTrue trivial
  | .deliver (.replicate _ _) _ => inferInstanceAs (Decidable (_ → _))
  | .deliver (.granted ..) _ => isTrue trivial
  | .deliver (.leaderAnnounce ..) _ => isTrue trivial
  | .deliver (.heartbeat ..) _ => isTrue trivial
  | .write .. => inferInstanceAs (Decidable (_ ∧ _))
  | .heartbeat _ => inferInstanceAs (Decidable (_ → _))
  | .startElection .. => isTrue trivial
  | .startShardElection .. => isTrue trivial
  | .finishElection .. => isTrue trivial
  | .catchUp _ => isTrue trivial

/-- Every action of a run keeps to the discipline. -/
def CarefulRun (s : System) : List Action → Prop
  | [] => True
  | a :: as => Careful s a ∧ ∀ s' ∈ s.act a, CarefulRun s' as

instance decidableCarefulRun (s : System) : (as : List Action) → Decidable (CarefulRun s as)
  | [] => isTrue trivial
  | a :: as =>
    match h : s.act a with
    | none => decidable_of_iff (Careful s a) (by simp [CarefulRun, h])
    | some s' =>
      have := decidableCarefulRun s' as
      decidable_of_iff (Careful s a ∧ CarefulRun s' as) (by simp [CarefulRun, h])

theorem mem_logBefore (first : NodeId) {s : System} {p : Position} {o : ReplicationLogEntry} :
    o ∈ logBefore s p ↔ LeaderLog.Before (·.position) (view first s) p o := by
  simp only [logBefore, LeaderLog.Before, List.mem_append, List.mem_flatMap, List.mem_filter,
    List.mem_map, decide_eq_true_eq, mem_view_leaders]
  constructor
  · rintro (⟨w, ⟨hw, hrace, hterm⟩, ho⟩ | ⟨⟨w, hw, rfl⟩, hpos⟩)
    · exact Or.inl ⟨_, Or.inl ⟨w, hw, hrace, rfl⟩, hterm, ho⟩
    · exact Or.inr ⟨w.node, List.mem_map.mpr ⟨w, hw, rfl⟩, hpos⟩
  · rintro (⟨l, ⟨w, hw, hrace, rfl⟩ | rfl, hterm, ho⟩ | ⟨n, hw, hpos⟩)
    · exact Or.inl ⟨w, ⟨hw, hrace, hterm⟩, ho⟩
    · simp at ho
    · obtain ⟨w, hw, heq⟩ := List.mem_map.mp hw
      exact Or.inr ⟨⟨w, hw, (Prod.mk.inj heq).2⟩, hpos⟩

end Careful

end SkeinDB.Cluster
